import Mathlib.Order.Bounds.Basic
import MitDistributed.Raft.Commitment
import MitDistributed.Raft.WaitCycle

namespace MitDistributed.Raft

open Consensus Transition

/-!
# Raft — one pass of `tryIncrementCommitIndex`

A pass goes through the indices above the commit index, from below.  It jumps over those that are
compacted by rewriting its own counter, counts `matchIndex` at those of the current term, and
raises the commit index wherever a majority counts, one index after the other.

* `Node.CommitRule` — what a pass is for: the greatest index that may be committed by counting, or
  the commit index as it was if there is none;
* `Node.passStep` — a pass that nobody interferes with.  Every raise puts a notification into
  `applyNotifyCh`, which has a bounded buffer, so that a pass may have to wait until `applyLoop`
  takes one; nothing else happens beside it;
* `commitScan_computes_rule` — a pass comes to its end, leaves what the rule says, and commits no
  entry of an older term on the way.
-/

/-! ### The greatest index below a bound -/

/-- `c` is the greatest index below `b` with property `P`, or `old` if there is none. -/
def GreatestBelow (P : ℕ → Prop) (old b c : ℕ) : Prop :=
  IsGreatest {i | P i ∧ i < b} c ∨ (∀ i < b, ¬ P i) ∧ c = old

namespace GreatestBelow

variable {P : ℕ → Prop} {old b b' c : ℕ}

/-- Going on over indices without the property. -/
theorem skip (h : GreatestBelow P old b c) (hle : b ≤ b')
    (hno : ∀ i, b ≤ i → i < b' → ¬ P i) : GreatestBelow P old b' c := by
  rcases h with ⟨⟨hc, hlt⟩, hmax⟩ | ⟨hnone, rfl⟩
  · left
    refine ⟨⟨hc, hlt.trans_le hle⟩, ?_⟩
    rintro i ⟨hi, hib⟩
    rcases lt_or_ge i b with hlow | hhigh
    · exact hmax ⟨hi, hlow⟩
    · exact absurd hi (hno i hhigh hib)
  · right
    refine ⟨fun i hib => ?_, rfl⟩
    rcases lt_or_ge i b with hlow | hhigh
    · exact hnone i hlow
    · exact hno i hhigh hib

/-- Going on over an index with the property. -/
theorem take (hb : P b) : GreatestBelow P old (b + 1) b :=
  .inl ⟨⟨hb, Nat.lt_succ_self b⟩, fun _ hi => Nat.le_of_lt_succ hi.2⟩

/-- At the end no index with the property is left. -/
theorem all (h : GreatestBelow P old b c) (hb : ∀ i, P i → i < b) :
    IsGreatest {i | P i} c ∨ (∀ i, ¬ P i) ∧ c = old := by
  rcases h with ⟨⟨hc, -⟩, hmax⟩ | ⟨hnone, rfl⟩
  · left
    exact ⟨hc, fun i hi => hmax ⟨hi, hb i hi⟩⟩
  · right
    exact ⟨fun i hi => hnone i (hb i hi) hi, rfl⟩

theorem eq_or (h : GreatestBelow P old b c) : c = old ∨ P c := by
  rcases h with ⟨⟨hc, -⟩, -⟩ | ⟨-, rfl⟩
  · exact .inr hc
  · exact .inl rfl

end GreatestBelow

variable {n : ℕ} {C D : Type}

namespace Node

/-! ### The rule -/

/-- The index may be committed by counting: it lies above the commit index and the snapshot and in
    the log, its entry is of the current term, and a majority of the peers hold it. -/
structure Committable (nd : Node n C D) (i : ℕ) : Prop where
  commitIndex : nd.commitIndex < i
  lastIncludedIndex : nd.lastIncludedIndex < i
  getLogLength : i < nd.getLogLength
  term : ∃ e, nd.getLog i = some e ∧ e.term = nd.currentTerm
  majority : Majority (Finset.univ.filter fun j => i ≤ nd.matchIndex j)

/-- The commit index after a pass: the greatest index that may be committed by counting, or, if
    there is none, the commit index as it was. -/
def CommitRule (nd : Node n C D) (c : ℕ) : Prop :=
  IsGreatest {i | nd.Committable i} c ∨ (∀ i, ¬ nd.Committable i) ∧ c = nd.commitIndex

/-! ### A pass that nobody interferes with -/

/-- Whether the next step raises the commit index, and so puts a notification into
    `applyNotifyCh`. -/
def notifies (nd : Node n C D) : ScanPc → Bool
  | .commit _ _ i count => decide (count > n / 2 ∧ i > nd.commitIndex)
  | _ => false

/-- What can happen: the pass goes on, or `applyLoop` takes a notification. -/
inductive PassAct
  | go
  | receive
  deriving DecidableEq, Repr

/-- Goroutine `k` takes the step that it is at. -/
def scanOnce (k : ℕ) (nd : Node n C D) : Option (Node n C D) :=
  match nd.threads[k]? with
  | some (.tryIncrementCommitIndex pc) => (nd.scanStep k pc).map Effect.node
  | _ => none

/-- A pass of goroutine `k`.  Where it would find `applyNotifyCh` full it waits, and raises the
    commit index together with the notification: the source raises it first, but keeps
    `commitMutex` until the notification is in the channel. -/
def passStep (k : ℕ) (nd : Node n C D) : PassAct → Option (Node n C D)
  | .go =>
    match nd.threads[k]? with
    | some (.tryIncrementCommitIndex pc) =>
      if nd.notifies pc then
        -- the test of `commitIndex` and the write, under one lock
        if WaitCycle.notifyCap ≤ nd.applyNotifyCh then none
        else (nd.scanOnce k).bind (scanOnce k)
      else nd.scanOnce k
    | _ => none
  | .receive =>
    if nd.applyNotifyCh > 0 then some { nd with applyNotifyCh := nd.applyNotifyCh - 1 } else none

theorem threadStep_of_scanOnce (me : Fin n) (fresh : ℕ) {nd nd' : Node n C D} {k : ℕ}
    (h : nd.scanOnce k = some nd') :
    ∃ eff, nd.threadStep me fresh k = some eff ∧ eff.node = nd' := by
  rw [scanOnce] at h
  split at h
  · rename_i pc hk
    obtain ⟨eff, heff, hnode⟩ := Option.map_eq_some_iff.mp h
    refine ⟨eff, ?_, hnode⟩
    simp only [threadStep, hk]
    exact heff
  · cases h

/-- A pass takes the steps of its goroutine: one, or two where it raises the commit index. -/
theorem threadStep_of_passStep {me : Fin n} {nd nd' : Node n C D} {fresh k : ℕ}
    (h : passStep k nd .go = some nd') :
    ∃ eff, nd.threadStep me fresh k = some eff ∧
      (eff.node = nd' ∨ ∃ eff', eff.node.threadStep me fresh k = some eff' ∧ eff'.node = nd') := by
  simp only [passStep] at h
  split at h
  · split at h
    · split at h
      · cases h
      · obtain ⟨tested, htested, hwritten⟩ := Option.bind_eq_some_iff.mp h
        obtain ⟨eff, heff, rfl⟩ := threadStep_of_scanOnce me fresh htested
        exact ⟨eff, heff, .inr (threadStep_of_scanOnce me fresh hwritten)⟩
    · obtain ⟨eff, heff, hnode⟩ := threadStep_of_scanOnce me fresh h
      exact ⟨eff, heff, .inl hnode⟩
  · cases h

/-- `applyLoop` takes notifications, whatever it does then. -/
theorem receive_of_applyStep {me : Fin n} {nd : Node n C D} {k : ℕ} {eff : Effect n C D}
    (hwait : nd.applying = .wait) (h : nd.applyStep me = some eff) :
    ∃ nd', passStep k nd .receive = some nd' ∧
      eff.node = { nd' with applying := eff.node.applying } := by
  simp only [applyStep, hwait] at h
  split at h <;> cases h
  rename_i hpos
  exact ⟨_, if_pos hpos, rfl⟩

/-- The goroutine is between two passes. -/
def AtTop (nd : Node n C D) (k : ℕ) : Prop :=
  nd.threads[k]? = some (.tryIncrementCommitIndex .top)

/-- A leader whose goroutine `k` is about to begin a pass, with the locks that it takes free. -/
structure Ready (nd : Node n C D) (k : ℕ) : Prop where
  top : nd.AtTop k
  state : nd.state = .leaderState
  raftStateFree : nd.raftStateFree = true
  peerLogFree : nd.peerLogFree = true
  commitFree : nd.commitFree = true

/-- The peer during a pass: its goroutine is at `pc`, the commit index is `c`, and there are `m`
    notifications. -/
def during (nd : Node n C D) (k : ℕ) (pc : ScanPc) (c m : ℕ) : Node n C D :=
  { nd with
    commitIndex := c
    applyNotifyCh := m
    threads := nd.threads.set k (.tryIncrementCommitIndex pc) }

variable {nd nd' : Node n C D} {k c c' m m' thisTerm thisLogLength i : ℕ} {pc pc' : ScanPc}
  {act : PassAct}

@[simp] theorem during_state : (nd.during k pc c m).state = nd.state := rfl

@[simp] theorem during_currentTerm : (nd.during k pc c m).currentTerm = nd.currentTerm := rfl

@[simp] theorem during_raftStateFree : (nd.during k pc c m).raftStateFree = nd.raftStateFree := rfl

@[simp] theorem during_lastIncludedIndex :
    (nd.during k pc c m).lastIncludedIndex = nd.lastIncludedIndex := rfl

@[simp] theorem during_getLogLength : (nd.during k pc c m).getLogLength = nd.getLogLength := rfl

@[simp] theorem during_getTermOfLog :
    (nd.during k pc c m).getTermOfLog i = nd.getTermOfLog i := rfl

@[simp] theorem during_countMatch : (nd.during k pc c m).countMatch i = nd.countMatch i := rfl

@[simp] theorem during_commitIndex : (nd.during k pc c m).commitIndex = c := rfl

@[simp] theorem during_applyNotifyCh : (nd.during k pc c m).applyNotifyCh = m := rfl

@[simp] theorem during_setThread :
    (nd.during k pc c m).setThread k (.tryIncrementCommitIndex pc') = nd.during k pc' c m := by
  simp only [during, setThread, List.set_set]

theorem AtTop.during_self (h : nd.AtTop k) :
    nd.during k .top nd.commitIndex nd.applyNotifyCh = nd := by
  obtain ⟨hk, hth⟩ := List.getElem?_eq_some_iff.mp h
  have hset : nd.threads.set k (.tryIncrementCommitIndex .top) = nd.threads := by
    rw [← hth, List.set_getElem_self]
  simp only [during, hset]

theorem AtTop.during_getElem? (h : nd.AtTop k) :
    (nd.during k pc c m).threads[k]? = some (.tryIncrementCommitIndex pc) := by
  obtain ⟨hk, -⟩ := List.getElem?_eq_some_iff.mp h
  simp [during, hk]

/-- A pass holds `peerLogMutex` in none of its places, so that it does not lock itself out. -/
theorem Ready.during_peerLogFree (hr : nd.Ready k) :
    (nd.during k pc c m).peerLogFree = true := by
  have hfree := hr.peerLogFree
  simp only [Node.peerLogFree, List.all_eq_true] at hfree ⊢
  intro th hth
  rcases List.mem_or_eq_of_mem_set hth with hold | rfl
  · exact hfree th hold
  · rfl

/-- Nor does it hold `commitMutex` when it comes to lock it. -/
theorem Ready.during_commitFree {count : ℕ} (hr : nd.Ready k) :
    (nd.during k (.commit thisTerm thisLogLength i count) c m).commitFree = true := by
  have hfree := hr.commitFree
  simp only [Node.commitFree, List.all_eq_true] at hfree ⊢
  intro th hth
  rcases List.mem_or_eq_of_mem_set hth with hold | rfl
  · exact hfree th hold
  · rfl

theorem Ready.during_logReadable (hr : nd.Ready k) :
    (nd.during k pc c m).logReadable = true := by
  have hheld : (nd.during k pc c m).held = none := held_of_raftStateFree hr.raftStateFree
  rw [logReadable, hheld]

/-! ### What holds during a pass -/

/-- The loop is at index `i`, and `c` is what the rule gives for the indices below. -/
structure ScanAt (nd : Node n C D) (thisTerm thisLogLength i c : ℕ) : Prop where
  term : thisTerm = nd.currentTerm
  length : thisLogLength = nd.getLogLength
  above : nd.commitIndex < i
  best : GreatestBelow nd.Committable nd.commitIndex i c

/-- The loop is at an index of the log with an entry of the current term. -/
structure FoundAt (nd : Node n C D) (thisTerm thisLogLength i c : ℕ) : Prop
    extends ScanAt nd thisTerm thisLogLength i c where
  lastIncludedIndex : nd.lastIncludedIndex < i
  lt : i < thisLogLength
  found : nd.getTermOfLog i = some thisTerm

/-- What holds at each place of a pass that has begun. -/
def Scanned (nd : Node n C D) : ScanPc → ℕ → Prop
  | .top, c => nd.CommitRule c
  | .scan thisTerm thisLogLength i, c => nd.ScanAt thisTerm thisLogLength i c
  | .count thisTerm thisLogLength i, c => nd.FoundAt thisTerm thisLogLength i c
  | .commit thisTerm thisLogLength i count, c =>
    nd.FoundAt thisTerm thisLogLength i c ∧ count = nd.countMatch i
  -- the pass does not stop between the test and the write
  | .write _ _ _, _ => False

/-- How many steps a pass has still to take at most. -/
def left : ScanPc → ℕ
  | .top => 0
  | .scan _ thisLogLength i => 3 * (thisLogLength - i) + 1
  | .count _ thisLogLength i => 3 * (thisLogLength - i)
  | .commit _ thisLogLength i _ => 3 * (thisLogLength - i) - 1
  | .write _ _ _ => 0

theorem ScanAt.lt (h : nd.ScanAt thisTerm thisLogLength i c) : c < i := by
  rcases h.best with ⟨⟨-, hlt⟩, -⟩ | ⟨-, rfl⟩
  · exact hlt
  · exact h.above

/-- The loop begins above the commit index. -/
theorem CommitRule.scanAt (h : nd.CommitRule c) :
    nd.ScanAt nd.currentTerm nd.getLogLength (c + 1) c := by
  rcases h with ⟨hc, -⟩ | ⟨hnone, rfl⟩
  · exact ⟨rfl, rfl, Nat.lt_succ_of_lt hc.commitIndex, .take hc⟩
  · exact ⟨rfl, rfl, Nat.lt_succ_self _, .inr ⟨fun i _ => hnone i, rfl⟩⟩

/-- At the first pass nothing is known about the indices above. -/
theorem scanned_start (nd : Node n C D) :
    nd.Scanned (.scan nd.currentTerm nd.getLogLength (nd.commitIndex + 1)) nd.commitIndex := by
  refine ⟨rfl, rfl, Nat.lt_succ_self _, .inr ⟨fun i hi hcommit => ?_, rfl⟩⟩
  have := hcommit.commitIndex
  omega

section

variable (h : nd.ScanAt thisTerm thisLogLength i c)

include h

/-- Compacted indices are jumped over. -/
theorem ScanAt.skip (hi : i ≤ nd.lastIncludedIndex) :
    nd.ScanAt thisTerm thisLogLength (nd.lastIncludedIndex + 1) c := by
  refine ⟨h.term, h.length, Nat.lt_succ_of_lt (h.above.trans_le hi), ?_⟩
  refine h.best.skip (Nat.le_succ_of_le hi) fun j _ hj hcommit => ?_
  have := hcommit.lastIncludedIndex
  omega

/-- An index that may not be committed is passed over. -/
theorem ScanAt.next (hno : ¬ nd.Committable i) :
    nd.ScanAt thisTerm thisLogLength (i + 1) c := by
  refine ⟨h.term, h.length, Nat.lt_succ_of_lt h.above, ?_⟩
  refine h.best.skip (Nat.le_succ i) fun j hij hj => ?_
  obtain rfl : j = i := by omega
  exact hno

/-- An index that may be committed is the greatest one so far. -/
theorem ScanAt.take (hi : nd.Committable i) :
    nd.ScanAt thisTerm thisLogLength (i + 1) i :=
  ⟨h.term, h.length, Nat.lt_succ_of_lt h.above, .take hi⟩

/-- Past the end of the log the rule has been computed. -/
theorem ScanAt.commitRule (hend : ¬ i < thisLogLength) : nd.CommitRule c := by
  refine h.best.all fun j hj => ?_
  have hlen := h.length
  have hlt := hj.getLogLength
  omega

end

/-- An entry of another term is not committed by counting. -/
theorem not_committable_of_term {t : ℕ} (ht : nd.getTermOfLog i = some t)
    (hne : t ≠ nd.currentTerm) : ¬ nd.Committable i := by
  intro h
  obtain ⟨e, he, hterm⟩ := h.term
  rw [getTermOfLog_eq h.lastIncludedIndex, he] at ht
  simp only [Option.map_some, Option.some.injEq] at ht
  exact hne (ht.symm.trans hterm)

/-- At an entry of the current term the count decides. -/
theorem FoundAt.committable_iff (h : nd.FoundAt thisTerm thisLogLength i c) :
    nd.Committable i ↔ n / 2 < nd.countMatch i := by
  constructor
  · intro hi
    exact majority_iff_countMatch.mp hi.majority
  · intro hcount
    have hfound := h.found
    rw [getTermOfLog_eq h.lastIncludedIndex, h.term] at hfound
    exact
      { commitIndex := h.above
        lastIncludedIndex := h.lastIncludedIndex
        getLogLength := h.length ▸ h.lt
        term := Option.map_eq_some_iff.mp hfound
        majority := majority_iff_countMatch.mpr hcount }

/-! ### The steps -/

/-- The pass goes on from `pc` to `pc'` and keeps what holds; it comes nearer to its end, unless it
    has just begun. -/
structure GoesOn (nd : Node n C D) (k : ℕ) (pc : ScanPc) (c m : ℕ) (pc' : ScanPc) (c' m' : ℕ) :
    Prop where
  step : passStep k (nd.during k pc c m) .go = some (nd.during k pc' c' m')
  scanned : nd.Scanned pc' c'
  left : pc ≠ .top → left pc' < left pc

theorem scanOnce_during (h : nd.AtTop k) :
    (nd.during k pc c m).scanOnce k = ((nd.during k pc c m).scanStep k pc).map Effect.node := by
  simp only [scanOnce, h.during_getElem?]

theorem passStep_go (h : nd.AtTop k) (hn : (nd.during k pc c m).notifies pc = false) :
    passStep k (nd.during k pc c m) .go =
      ((nd.during k pc c m).scanStep k pc).map Effect.node := by
  simp only [passStep, h.during_getElem?]
  rw [if_neg (Bool.eq_false_iff.mp hn), scanOnce_during h]

/-- The test of `commitIndex`. -/
theorem scanOnce_commit (hr : nd.Ready k) (hcount : n / 2 < nd.countMatch i) (hlt : c < i) :
    (nd.during k (.commit thisTerm thisLogLength i (nd.countMatch i)) c m).scanOnce k =
      some (nd.during k (.write thisTerm thisLogLength i) c m) := by
  rw [scanOnce_during hr.top]
  simp [scanStep, hr.during_commitFree, commits, hcount, hlt]

/-- The write, with the notification. -/
theorem scanOnce_write (hr : nd.Ready k) :
    (nd.during k (.write thisTerm thisLogLength i) c m).scanOnce k =
      some (nd.during k (.scan thisTerm thisLogLength (i + 1)) i (m + 1)) := by
  rw [scanOnce_during hr.top]
  simp [scanStep, commit, setThread, during]

theorem notifies_commit (hcount : n / 2 < nd.countMatch i) (hlt : c < i) :
    (nd.during k (.commit thisTerm thisLogLength i (nd.countMatch i)) c m).notifies
      (.commit thisTerm thisLogLength i (nd.countMatch i)) = true :=
  decide_eq_true ⟨hcount, hlt⟩

theorem passStep_top (hr : nd.Ready k) :
    passStep k (nd.during k .top c m) .go =
      some (nd.during k (.scan nd.currentTerm nd.getLogLength (c + 1)) c m) := by
  rw [passStep_go hr.top rfl]
  simp [scanStep, hr.raftStateFree, hr.state]

theorem goesOn_scan (hr : nd.Ready k) (h : nd.ScanAt thisTerm thisLogLength i c) :
    ∃ pc', nd.GoesOn k (.scan thisTerm thisLogLength i) c m pc' c m := by
  have hread : (nd.during k (.scan thisTerm thisLogLength i) c m).logReadable = true :=
    hr.during_logReadable
  by_cases hlt : i < thisLogLength
  · by_cases hlii : i ≤ nd.lastIncludedIndex
    · refine ⟨.scan thisTerm thisLogLength (nd.lastIncludedIndex + 1), ?_, h.skip hlii, ?_⟩
      · rw [passStep_go hr.top rfl]
        simp [scanStep, hlt, hread, hlii]
      · intro _
        simp only [left]
        omega
    · -- the index is in the log, so that reading its term does not end the process
      obtain ⟨e, he⟩ := exists_getLog (not_le.mp hlii) (h.length ▸ hlt)
      obtain ⟨t, ht⟩ : ∃ t, nd.getTermOfLog i = some t :=
        ⟨e.term, by rw [getTermOfLog_eq (not_le.mp hlii), he, Option.map_some]⟩
      have hstep : passStep k (nd.during k (.scan thisTerm thisLogLength i) c m) .go =
          some (nd.during k (if t = thisTerm then .count thisTerm thisLogLength i
            else .scan thisTerm thisLogLength (i + 1)) c m) := by
        rw [passStep_go hr.top rfl]
        simp [scanStep, hlt, hread, hlii, ht]
      by_cases heq : t = thisTerm
      · subst heq
        rw [if_pos rfl] at hstep
        exact ⟨_, hstep, ⟨h, not_le.mp hlii, hlt, ht⟩, fun _ => Nat.lt_succ_self _⟩
      · rw [if_neg heq] at hstep
        refine ⟨_, hstep, h.next (not_committable_of_term ht (h.term ▸ heq)), ?_⟩
        intro _
        simp only [left]
        omega
  · refine ⟨.top, ?_, h.commitRule hlt, fun _ => Nat.succ_pos _⟩
    rw [passStep_go hr.top rfl]
    simp [scanStep, hlt]

theorem goesOn_count (hr : nd.Ready k) (h : nd.FoundAt thisTerm thisLogLength i c) :
    nd.GoesOn k (.count thisTerm thisLogLength i) c m
      (.commit thisTerm thisLogLength i (nd.countMatch i)) c m where
  step := by
    rw [passStep_go hr.top rfl]
    simp [scanStep, hr.during_peerLogFree]
  scanned := ⟨h, rfl⟩
  left := by
    intro _
    have hlt := h.lt
    simp only [Node.left]
    omega

/-- A majority counts, and `applyNotifyCh` has room for the notification. -/
theorem goesOn_commit (hr : nd.Ready k) (h : nd.FoundAt thisTerm thisLogLength i c)
    (hcount : n / 2 < nd.countMatch i) (hroom : m < WaitCycle.notifyCap) :
    nd.GoesOn k (.commit thisTerm thisLogLength i (nd.countMatch i)) c m
      (.scan thisTerm thisLogLength (i + 1)) i (m + 1) where
  step := by
    have hlt := h.toScanAt.lt
    simp only [passStep, hr.top.during_getElem?]
    rw [if_pos (notifies_commit hcount hlt), during_applyNotifyCh, if_neg (not_le.mpr hroom),
      scanOnce_commit hr hcount hlt, Option.bind_some, scanOnce_write hr]
  scanned := h.toScanAt.take (h.committable_iff.mpr hcount)
  left := by
    intro _
    have hlt := h.lt
    simp only [Node.left]
    omega

/-- No majority counts. -/
theorem goesOn_leave (hr : nd.Ready k) (h : nd.FoundAt thisTerm thisLogLength i c)
    (hcount : ¬ n / 2 < nd.countMatch i) :
    nd.GoesOn k (.commit thisTerm thisLogLength i (nd.countMatch i)) c m
      (.scan thisTerm thisLogLength (i + 1)) c m where
  step := by
    rw [passStep_go hr.top (by simp [notifies, hcount])]
    simp [scanStep, hr.during_commitFree, commits, hcount]
  scanned := h.toScanAt.next fun hi => hcount (h.committable_iff.mp hi)
  left := by
    intro _
    have hlt := h.lt
    simp only [Node.left]
    omega

/-- The pass goes on, unless it waits with `applyNotifyCh` full. -/
theorem Scanned.goesOn (hr : nd.Ready k) (h : nd.Scanned pc c) :
    (∃ pc' c' m', nd.GoesOn k pc c m pc' c' m') ∨
      WaitCycle.notifyCap ≤ m ∧ passStep k (nd.during k pc c m) .go = none := by
  cases pc with
  | top =>
    exact .inl ⟨_, _, _, passStep_top hr, CommitRule.scanAt h, fun hne => absurd rfl hne⟩
  | scan thisTerm thisLogLength i =>
    obtain ⟨pc', hgo⟩ := goesOn_scan hr h
    exact .inl ⟨pc', c, m, hgo⟩
  | count thisTerm thisLogLength i => exact .inl ⟨_, _, _, goesOn_count hr h⟩
  | commit thisTerm thisLogLength i count =>
    obtain ⟨hfound, rfl⟩ := h
    by_cases hcount : n / 2 < nd.countMatch i
    · rcases lt_or_ge m WaitCycle.notifyCap with hroom | hfull
      · exact .inl ⟨_, _, _, goesOn_commit hr hfound hcount hroom⟩
      · right
        refine ⟨hfull, ?_⟩
        simp only [passStep, hr.top.during_getElem?]
        rw [if_pos (notifies_commit hcount hfound.toScanAt.lt)]
        exact if_pos hfull
    · exact .inl ⟨_, _, _, goesOn_leave hr hfound hcount⟩
  | write thisTerm thisLogLength i => exact h.elim

theorem passStep_receive :
    passStep k (nd.during k pc c m) .receive =
      if 0 < m then some (nd.during k pc c (m - 1)) else none :=
  rfl

/-! ### A whole pass -/

/-- The peer is in a pass that has begun. -/
def Passing (nd : Node n C D) (k : ℕ) (nd' : Node n C D) : Prop :=
  ∃ pc c m, nd' = nd.during k pc c m ∧ nd.Scanned pc c

/-- Step lemma. -/
theorem Passing.step (hr : nd.Ready k) {nd₁ nd₂ : Node n C D} (h : nd.Passing k nd₁)
    (hstep : passStep k nd₁ act = some nd₂) : nd.Passing k nd₂ := by
  obtain ⟨pc, c, m, rfl, hI⟩ := h
  cases act with
  | go =>
    rcases hI.goesOn hr (m := m) with ⟨pc', c', m', hgo⟩ | ⟨-, hnone⟩
    · obtain rfl := Option.some.inj (hgo.step.symm.trans hstep)
      exact ⟨pc', c', m', rfl, hgo.scanned⟩
    · rw [hnone] at hstep
      cases hstep
  | receive =>
    rw [passStep_receive] at hstep
    split at hstep <;> cases hstep
    exact ⟨pc, c, m - 1, rfl, hI⟩

/-- Run lemma. -/
theorem Passing.exec (hr : nd.Ready k) {acts : List PassAct} {nd₁ nd₂ : Node n C D}
    (h : nd.Passing k nd₁) (hrun : exec (passStep k) nd₁ acts = some nd₂) : nd.Passing k nd₂ :=
  (Run.of_exec hrun).invariant (fun _ _ _ hI _ hstep => hI.step hr hstep) h

/-- Where the pass is at its end, the rule has been computed. -/
theorem Passing.commitRule (hr : nd.Ready k) (h : nd.Passing k nd') (htop : nd'.AtTop k) :
    nd.CommitRule nd'.commitIndex := by
  obtain ⟨pc, c, m, rfl, hI⟩ := h
  have hpc := hr.top.during_getElem?.symm.trans htop
  simp only [Option.some.injEq, Thread.tryIncrementCommitIndex.injEq] at hpc
  subst hpc
  exact hI

/-- The commit index is raised only to where it may be raised by counting. -/
theorem Passing.commitIndex (h : nd.Passing k nd') :
    nd'.commitIndex = nd.commitIndex ∨ nd.Committable nd'.commitIndex := by
  obtain ⟨pc, c, m, rfl, hI⟩ := h
  cases pc with
  | top =>
    rcases hI with ⟨hc, -⟩ | ⟨-, hc⟩
    · exact .inr hc
    · exact .inl hc
  | scan thisTerm thisLogLength i => exact hI.best.eq_or
  | count thisTerm thisLogLength i => exact hI.best.eq_or
  | commit thisTerm thisLogLength i count => exact hI.1.best.eq_or
  | write thisTerm thisLogLength i => exact hI.elim

/-- A pass that does not go on waits for a notification to be taken. -/
theorem Passing.enabled (hr : nd.Ready k) (h : nd.Passing k nd') :
    (passStep k nd' .go).isSome = true ∨
      WaitCycle.notifyCap ≤ nd'.applyNotifyCh ∧ (passStep k nd' .receive).isSome = true := by
  obtain ⟨pc, c, m, rfl, hI⟩ := h
  rcases hI.goesOn hr (m := m) with ⟨pc', c', m', hgo⟩ | ⟨hfull, -⟩
  · left
    rw [hgo.step, Option.isSome_some]
  · right
    have hpos : 0 < m := lt_of_lt_of_le (by decide) hfull
    exact ⟨hfull, by rw [passStep_receive, if_pos hpos, Option.isSome_some]⟩

/-- Only between two passes is nothing left. -/
theorem Scanned.eq_top (h : nd.Scanned pc c) (hleft : left pc = 0) : pc = .top := by
  cases pc with
  | top => rfl
  | scan thisTerm thisLogLength i => cases hleft
  | count thisTerm thisLogLength i =>
    have hlt := h.lt
    simp only [left] at hleft
    omega
  | commit thisTerm thisLogLength i count =>
    have hlt := h.1.lt
    simp only [left] at hleft
    omega
  | write thisTerm thisLogLength i => exact h.elim

/-- As many steps as are left bring the pass to its end. -/
theorem reaches_top (hr : nd.Ready k) {acts : List PassAct} {last : Node n C D}
    (h : nd.Scanned pc c) (hrun : exec (passStep k) (nd.during k pc c m) acts = some last)
    (hleft : left pc ≤ acts.count .go) :
    ∃ done nd', done <+: acts ∧
      exec (passStep k) (nd.during k pc c m) done = some nd' ∧ nd'.AtTop k := by
  induction acts generalizing pc c m with
  | nil =>
    obtain rfl := h.eq_top (Nat.le_zero.mp hleft)
    exact ⟨[], _, List.prefix_rfl, rfl, hr.top.during_getElem?⟩
  | cons act acts ih =>
    by_cases htop : pc = .top
    · subst htop
      exact ⟨[], _, List.nil_prefix, rfl, hr.top.during_getElem?⟩
    obtain ⟨nd₁, hstep, hrest⟩ := Option.bind_eq_some_iff.mp hrun
    -- a step of the pass takes one from what is left, a notification taken leaves it as it is
    obtain ⟨pc', c', m', rfl, hI, hle⟩ : ∃ pc' c' m', nd₁ = nd.during k pc' c' m' ∧
        nd.Scanned pc' c' ∧ left pc' ≤ acts.count .go := by
      cases act with
      | go =>
        rw [List.count_cons_self] at hleft
        rcases h.goesOn hr (m := m) with ⟨pc', c', m', hgo⟩ | ⟨-, hnone⟩
        · have hlt := hgo.left htop
          obtain rfl := Option.some.inj (hgo.step.symm.trans hstep)
          exact ⟨pc', c', m', rfl, hgo.scanned, by omega⟩
        · rw [hnone] at hstep
          cases hstep
      | receive =>
        rw [List.count_cons_of_ne (by decide)] at hleft
        rw [passStep_receive] at hstep
        split at hstep <;> cases hstep
        exact ⟨pc, c, m - 1, rfl, h, hleft⟩
    obtain ⟨done, nd', hpre, hdone, hend⟩ := ih hI hrest hle
    refine ⟨act :: done, nd', (List.prefix_cons_inj act).mpr hpre, ?_, hend⟩
    rw [exec, hstep, Option.bind_some]
    exact hdone

end Node

/-- **The commit scan computes the commit rule.**  A leader's goroutine begins a pass, and then
    nothing happens but the pass and, at any time, `applyLoop` taking notifications.  Wherever the
    pass is at its end, the commit index is what the rule gives for the state before it; on the
    way it is the old one or an index that may be committed by counting, so that no entry of an
    older term ever is; the pass can go on, or waits for a notification to be taken, which can be
    done; and three steps for each index of the log and one more bring it to its end. -/
theorem commitScan_computes_rule {nd : Node n C D} {k : ℕ} (hr : nd.Ready k) :
    ∃ begun, Node.passStep k nd .go = some begun ∧
      ∀ acts nd', exec (Node.passStep k) begun acts = some nd' →
        (nd'.AtTop k → nd.CommitRule nd'.commitIndex) ∧
        (nd'.commitIndex = nd.commitIndex ∨ nd.Committable nd'.commitIndex) ∧
        ((Node.passStep k nd' .go).isSome = true ∨
          WaitCycle.notifyCap ≤ nd'.applyNotifyCh ∧
            (Node.passStep k nd' .receive).isSome = true) ∧
        (3 * nd.getLogLength < acts.count .go → ∃ done last, done <+: acts ∧
          exec (Node.passStep k) begun done = some last ∧ last.AtTop k) := by
  have hstart := Node.passStep_top hr (c := nd.commitIndex) (m := nd.applyNotifyCh)
  rw [hr.top.during_self] at hstart
  refine ⟨_, hstart, fun acts nd' hrun => ?_⟩
  have hpass : nd.Passing k nd' := Node.Passing.exec hr ⟨_, _, _, rfl, nd.scanned_start⟩ hrun
  refine ⟨hpass.commitRule hr, hpass.commitIndex, hpass.enabled hr, fun hmany => ?_⟩
  refine Node.reaches_top hr nd.scanned_start hrun ?_
  simp only [Node.left]
  omega

/-- A leader in term 2 with entries of terms 1, 2 and 2 above a snapshot that reaches to index 2.
    Two peers of three hold the first two of them. -/
def scanExample : Node 3 ℕ ℕ :=
  { (World.init fun _ _ => 0).nodes 0 with
    state := .leaderState
    currentTerm := 2
    log := [⟨0, none⟩, ⟨1, some 1⟩, ⟨2, some 2⟩, ⟨2, some 3⟩]
    lastIncludedIndex := 2
    commitIndex := 1
    matchIndex := fun j => if j = 0 then 5 else if j = 1 then 4 else 0
    threads := [.tryIncrementCommitIndex .top] }

/-- The pass over `scanExample` commits index 4, and not the entry of term 1 below it. -/
theorem scanExample_commitRule :
    scanExample.Ready 0 ∧
      ((exec (Node.passStep 0) scanExample (List.replicate 10 .go)).map Node.commitIndex = some 4 ∧
        scanExample.CommitRule 4) := by
  have hr : scanExample.Ready 0 := ⟨rfl, rfl, rfl, rfl, rfl⟩
  refine ⟨hr, by decide +kernel, ?_⟩
  obtain ⟨begun, hbegun, hpass⟩ := commitScan_computes_rule hr
  have hrun : ((exec (Node.passStep 0) scanExample (.go :: List.replicate 9 .go)).any fun nd =>
      nd.threads[0]? = some (.tryIncrementCommitIndex .top) ∧ nd.commitIndex = 4) = true := by
    decide +kernel
  obtain ⟨nd, hnd, hend⟩ := (Option.any_eq_true _ _).mp hrun
  obtain ⟨htop, hcommit⟩ := of_decide_eq_true hend
  rw [exec, hbegun, Option.bind_some] at hnd
  exact hcommit ▸ (hpass _ _ hnd).1 htop

end MitDistributed.Raft
