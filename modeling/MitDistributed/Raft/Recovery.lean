import MitDistributed.Raft.Entries
import MitDistributed.Raft.Leadership
import MitDistributed.Raft.SnapshotPair

namespace MitDistributed.Raft

open Transition

/-!
# Raft — what survives a crash

`Snapshot` and `InstallSnapshot` save the compacted log with `persist()` and then call
`SaveStateAndSnapshot` with a nil raft state.  So there are two windows in which a crash loses
something: between the two calls the saved log belongs to a snapshot that is not saved yet,
and after the second one, until the next `persist()`, term, vote and log are gone
(`crash_after_snapshot`).

Outside these windows (`Node.CrashSafe`) a restart brings back exactly the term, vote and log
of the crashed peer, and the snapshot taken at the restored `lastIncludedIndex`.  So it
honours every vote and every log that the peer has shown (`restart_honours_promises`): an
entry shown is still there unless it is covered by the snapshot, or a later request of a
leader contradicts it (`Overruled`).
-/

variable {n : ℕ} {C D : Type}

/-! ### What a peer has shown -/

/-- `p` has shown in `term` that it holds `log` after `lastIncludedIndex`: it answered
    `Success` to a request of that term, or returned from `Start` as leader of it. -/
def Shown (trace : List (Event n C D)) (p : Fin n) (term lastIncludedIndex : ℕ)
    (log : List (LogEntry C)) : Prop :=
  (∃ args, .accepted p args lastIncludedIndex log ∈ trace ∧ args.term = term) ∨
  ∃ index command, .started p index term command lastIncludedIndex log ∈ trace

/-- The request has, at index `i` of the log or before it, an entry of another term than the
    log. -/
def AppendEntriesArgs.Contradicts (args : AppendEntriesArgs n C) (lastIncludedIndex : ℕ)
    (log : List (LogEntry C)) (i : ℕ) : Prop :=
  ∃ k e own, args.entries[k]? = some e ∧ args.prevLogIndex + 1 + k ≤ i ∧
    lastIncludedIndex < args.prevLogIndex + 1 + k ∧
    log[args.prevLogIndex + 1 + k - lastIncludedIndex]? = some own ∧ e.term ≠ own.term

/-- A request of `term` or later to `p` contradicts the log at `i` or before it. -/
def Overruled (calls : List (Call n C D)) (p : Fin n) (term lastIncludedIndex : ℕ)
    (log : List (LogEntry C)) (i : ℕ) : Prop :=
  ∃ (j : ℕ) (c : Call n C D) (args : AppendEntriesArgs n C), calls[j]? = some c ∧ c.dst = p ∧
    c.request = .appendEntries args ∧ term ≤ args.term ∧ args.Contradicts lastIncludedIndex log i

/-- The peer still holds a log shown in `term`, but for what is compacted or overruled. -/
structure Node.Honours (nd : Node n C D) (calls : List (Call n C D)) (p : Fin n)
    (term lastIncludedIndex : ℕ) (log : List (LogEntry C)) : Prop where
  index_le : lastIncludedIndex ≤ nd.lastIncludedIndex
  term_le : term ≤ nd.currentTerm
  entries : ∀ i e, lastIncludedIndex < i → log[i - lastIncludedIndex]? = some e →
    nd.getLog i = some e ∨ i ≤ nd.lastIncludedIndex ∨
      Overruled calls p term lastIncludedIndex log i

theorem Overruled.after {calls : List (Call n C D)} {p : Fin n} {t lii : ℕ}
    {log : List (LogEntry C)} {i : ℕ} (h : Overruled calls p t lii log i) (a : Action n C D)
    (eff : Effect n C D) : Overruled (World.callsAfter calls a eff) p t lii log i := by
  obtain ⟨j, c, args, hc, hdst, hr, ht, hcon⟩ := h
  exact ⟨j, _, args, World.callsAfter_of_getElem? a eff hc, hdst, hr, ht, hcon⟩

theorem shown_append {events trace : List (Event n C D)} {p : Fin n} {t lii : ℕ}
    {log : List (LogEntry C)} :
    Shown (events ++ trace) p t lii log ↔ Shown events p t lii log ∨ Shown trace p t lii log := by
  simp only [Shown, List.mem_append]
  constructor
  · rintro (⟨args, h | h, ht⟩ | ⟨i, cmd, h | h⟩)
    · exact .inl (.inl ⟨args, h, ht⟩)
    · exact .inr (.inl ⟨args, h, ht⟩)
    · exact .inl (.inr ⟨i, cmd, h⟩)
    · exact .inr (.inr ⟨i, cmd, h⟩)
  · rintro ((⟨args, h, ht⟩ | ⟨i, cmd, h⟩) | (⟨args, h, ht⟩ | ⟨i, cmd, h⟩))
    · exact .inl ⟨args, .inl h, ht⟩
    · exact .inr ⟨i, cmd, .inl h⟩
    · exact .inl ⟨args, .inr h, ht⟩
    · exact .inr ⟨i, cmd, .inr h⟩

namespace Node

variable {nd nd' : Node n C D} {calls : List (Call n C D)} {p : Fin n} {t lii : ℕ}
  {log : List (LogEntry C)}

/-- A step that gives up entries only to the snapshot. -/
theorem Honours.of_keeps (h : nd.Honours calls p t lii log)
    (hl : nd.lastIncludedIndex ≤ nd'.lastIncludedIndex) (ht : nd.currentTerm ≤ nd'.currentTerm)
    (hk : ∀ i e, nd.getLog i = some e → nd'.getLog i = some e ∨ i ≤ nd'.lastIncludedIndex)
    (a : Action n C D) (eff : Effect n C D) :
    nd'.Honours (World.callsAfter calls a eff) p t lii log := by
  refine ⟨h.index_le.trans hl, h.term_le.trans ht, fun i e hi he => ?_⟩
  rcases h.entries i e hi he with hg | hle | hover
  · rcases hk i e hg with hg' | hle'
    · exact .inl hg'
    · exact .inr (.inl hle')
  · exact .inr (.inl (hle.trans hl))
  · exact .inr (.inr (hover.after a eff))

/-- The log that a peer shows is its own. -/
theorem honours_self (ht : t ≤ nd.currentTerm) (calls : List (Call n C D)) (p : Fin n) :
    nd.Honours calls p t nd.lastIncludedIndex nd.log :=
  ⟨le_rfl, ht, fun _ _ hi he => .inl (getLog_eq_some_iff.mpr ⟨hi, he⟩)⟩

theorem getLog_congr (hl : nd'.lastIncludedIndex = nd.lastIncludedIndex) (hlog : nd'.log = nd.log)
    (i : ℕ) : nd'.getLog i = nd.getLog i := by
  unfold getLog getLogLength
  rw [hl, hlog]

variable {i : ℕ} {e : LogEntry C}

/-- Installing a snapshot keeps the entries after it. -/
theorem install_getLog {args : InstallSnapshotArgs n D}
    (hlt : nd.lastIncludedIndex < args.lastIncludedIndex) (h : nd.getLog i = some e) :
    (nd.install args).getLog i = some e ∨ i ≤ args.lastIncludedIndex := by
  rcases Nat.lt_or_ge args.lastIncludedIndex i with hi | hi
  · refine .inl (getLog_eq_some_iff.mpr ⟨hi, ?_⟩)
    obtain ⟨-, he⟩ := getLog_eq_some_iff.mp h
    show (LogEntry.mk 0 none :: nd.log.drop (args.lastIncludedIndex + 1 - nd.lastIncludedIndex))[
      i - args.lastIncludedIndex]? = some e
    obtain ⟨k, rfl⟩ : ∃ k, i = args.lastIncludedIndex + 1 + k := ⟨i - args.lastIncludedIndex - 1,
      by omega⟩
    have hk : args.lastIncludedIndex + 1 + k - args.lastIncludedIndex = k + 1 := by omega
    rw [hk, List.getElem?_cons_succ, List.getElem?_drop, ← he]
    congr 1
    omega
  · exact .inr hi

/-- Compacting the log keeps the entries after the snapshot. -/
theorem compact_getLog {index : ℕ} (term : ℕ) (hlt : nd.lastIncludedIndex < index)
    (h : nd.getLog i = some e) : (nd.compact index term).getLog i = some e ∨ i ≤ index := by
  rcases Nat.lt_or_ge index i with hi | hi
  · refine .inl (getLog_eq_some_iff.mpr ⟨hi, ?_⟩)
    obtain ⟨-, he⟩ := getLog_eq_some_iff.mp h
    show (nd.log.drop (index - nd.lastIncludedIndex))[i - index]? = some e
    rw [List.getElem?_drop, ← he]
    congr 1
    omega
  · exact .inr hi

theorem appendCommand_getLog (me : Fin n) (command : Option C) (h : nd.getLog i = some e) :
    (nd.appendCommand me command).getLog i = some e := by
  obtain ⟨hlt, he⟩ := getLog_eq_some_iff.mp h
  obtain ⟨hb, -⟩ := List.getElem?_eq_some_iff.mp he
  refine getLog_eq_some_iff.mpr ⟨hlt, ?_⟩
  show (nd.log ++ [LogEntry.mk nd.currentTerm command])[i - nd.lastIncludedIndex]? = some e
  rw [List.getElem?_append_left hb, he]

/-- Copying the entries of a request gives up only what the request contradicts. -/
theorem Honours.copyLog {call : ℕ} {c : Call n C D} {args : AppendEntriesArgs n C}
    (h : nd.Honours calls p t lii log) (hacc : nd.Accepts args) (hne : nd.log ≠ [])
    (hc : calls[call]? = some c) (hdst : c.dst = p) (hr : c.request = .appendEntries args) :
    (nd.copyLog args).Honours calls p t lii log := by
  have hbound : args.prevLogIndex + 1 ≤ nd.getLogLength := hacc.prev_lt hne
  have hl : nd.lastIncludedIndex < args.prevLogIndex + 1 := Nat.lt_succ_of_le hacc.lastIncluded
  unfold Node.copyLog
  split
  · exact h
  obtain ⟨newLog, backing, hnew⟩ := copyEntries_eq nd (args.prevLogIndex + 1) args.entries
  have hget (i : ℕ) : (nd.copyEntries (args.prevLogIndex + 1) args.entries).persist.getLog i =
      (nd.copyEntries (args.prevLogIndex + 1) args.entries).getLog i := getLog_congr rfl rfl i
  have hsame : (nd.copyEntries (args.prevLogIndex + 1) args.entries).persist.lastIncludedIndex =
      nd.lastIncludedIndex := by rw [hnew]; rfl
  have hterm : (nd.copyEntries (args.prevLogIndex + 1) args.entries).persist.currentTerm =
      nd.currentTerm := by rw [hnew]; rfl
  refine ⟨hsame ▸ h.index_le, hterm ▸ h.term_le, fun i e hi he => ?_⟩
  rw [hget, hsame]
  rcases h.entries i e hi he with hg | hle | hover
  · rcases copyEntries_keeps args.entries hl hbound hg with hk | ⟨k, e', own, hk, hki, ho, hdiff⟩
    · exact .inl hk
    · -- the own entry in conflict is the one shown, or was given up before
      have hlow : nd.lastIncludedIndex < args.prevLogIndex + 1 + k := (getLog_lt ho).1
      have hlii : lii < args.prevLogIndex + 1 + k := h.index_le.trans_lt hlow
      obtain ⟨hb, -⟩ := List.getElem?_eq_some_iff.mp he
      obtain ⟨shown, hshown⟩ : ∃ shown, log[args.prevLogIndex + 1 + k - lii]? = some shown :=
        ⟨_, List.getElem?_eq_getElem (by omega)⟩
      rcases h.entries _ shown hlii hshown with hg' | hle | hover
      · obtain rfl : own = shown := Option.some.inj (ho.symm.trans hg')
        refine .inr (.inr ⟨call, c, args, hc, hdst, hr, h.term_le.trans hacc.term, ?_⟩)
        exact ⟨k, e', own, hk, hki, hlii, hshown, hdiff⟩
      · exact absurd hle (not_le.mpr hlow)
      · obtain ⟨j, c', args', hc', hd', hr', ht', k', e'', own', h1, h2, h3⟩ := hover
        exact .inr (.inr ⟨j, c', args', hc', hd', hr', ht', k', e'', own', h1, h2.trans hki, h3⟩)
  · exact .inr (.inl hle)
  · exact .inr (.inr hover)

end Node

/-! ### The invariant -/

/-- An answer that is about to be given is true: the entries of the request are copied. -/
def Node.Prepared (nd : Node n C D) : Prop :=
  ∀ call args, nd.held = some (.appendCommit call args) →
    nd.Covers (args.prevLogIndex + 1) args.entries

namespace World

/-- Every peer honours what it has shown, and what it has shown answers the request. -/
structure Honest (w : World n C D) : Prop where
  shown : ∀ p t lii log, Shown w.trace p t lii log → (w.nodes p).Honours w.calls p t lii log
  prepared : ∀ p, (w.nodes p).Prepared
  answered : ∀ p args lii log, .accepted p args lii log ∈ w.trace → ∀ k e,
    args.entries[k]? = some e → lii < args.prevLogIndex + 1 + k ∧
      ∃ own, log[args.prevLogIndex + 1 + k - lii]? = some own ∧ own.term = e.term

variable {w w' : World n C D} {p : Fin n} {eff : Effect n C D} {a : Action n C D}

/-- What a step shows is the log that its peer then holds, in a term that it has seen. -/
theorem shown_of_stored (hs : Stored w p eff a) (hw : w.Plumbed) {q : Fin n} {t lii : ℕ}
    {log : List (LogEntry C)} (h : Shown eff.events q t lii log) :
    q = p ∧ lii = eff.node.lastIncludedIndex ∧ log = eff.node.log ∧ t ≤ eff.node.currentTerm := by
  cases hs with
  | leave hl =>
    rcases h with ⟨args, hmem, -⟩ | ⟨i, cmd, hmem⟩ <;>
      exact absurd (hl.events _ hmem) (by simp [Event.isStored])
  | @accept call args hh =>
    simp only [Shown, Node.appendCommit, List.mem_singleton, Event.accepted.injEq, reduceCtorEq,
      exists_false, or_false] at h
    obtain ⟨args', ⟨rfl, rfl, rfl, rfl⟩, rfl⟩ := h
    have hle := (hw.held q _ hh call (.appendEntries args') rfl).2
    obtain ⟨hlog, hlii, -, hterm⟩ := Node.appendCommit_fields q (w.nodes q) call args'
    exact ⟨rfl, hlii.symm, hlog.symm, hle.trans hterm.ge⟩
  | start =>
    simp only [Shown, List.mem_singleton, Event.started.injEq, reduceCtorEq, false_and,
      exists_false, false_or] at h
    obtain ⟨i, cmd, rfl, rfl, rfl, rfl, rfl, rfl⟩ := h
    exact ⟨rfl, rfl, rfl, le_rfl⟩
  | copy => simp [Shown] at h
  | install => simp [Shown] at h
  | installSave => simp [Shown, Node.installSave] at h
  | compact => simp [Shown] at h
  | snapshotSave => simp [Shown, Node.snapshotSave] at h
  | restart => simp [Shown, Node.restart] at h

/-- **Step.** A peer goes on honouring what it has shown. -/
theorem honours_of_stored (hs : Stored w p eff a) (hl : Local w p eff a) (hw : w.Plumbed)
    (hk : w.KeepsState a) (hne : (w.nodes p).log ≠ []) {t lii : ℕ} {log : List (LogEntry C)}
    (h : (w.nodes p).Honours w.calls p t lii log) :
    eff.node.Honours (callsAfter w.calls a eff) p t lii log := by
  have hterm : (w.nodes p).currentTerm ≤ eff.node.currentTerm :=
    ((local_ballot hl).advances hw hk).1
  -- the log is not written
  have hsame (hl : eff.node.lastIncludedIndex = (w.nodes p).lastIncludedIndex)
      (hlog : eff.node.log = (w.nodes p).log) :
      eff.node.Honours (callsAfter w.calls a eff) p t lii log :=
    h.of_keeps hl.ge hterm (fun i e hi => .inl ((Node.getLog_congr hl hlog i).trans hi)) a eff
  cases hs with
  | leave hl => exact hsame hl.same.lastIncludedIndex hl.same.log
  | @copy call args hh hacc =>
    obtain ⟨⟨c, hc, hdst, hr⟩, -⟩ := hw.held p _ hh call (.appendEntries args) rfl
    have hcopy := h.copyLog hacc hne hc hdst hr
    refine hcopy.of_keeps ?_ ?_ (fun i e hi => .inl ?_) _ _
    · exact le_rfl
    · exact le_rfl
    · exact (Node.getLog_congr rfl rfl i).trans hi
  | accept =>
    obtain ⟨hlog, hlii, -, -⟩ := Node.appendCommit_fields p (w.nodes p) _ _
    exact hsame hlii hlog
  | install hh hi =>
    refine h.of_keeps hi.2.1.le hterm (fun i e hg => ?_) _ _
    exact (Node.install_getLog hi.2.1 hg).imp_left fun hg' =>
      (Node.getLog_congr rfl rfl i).trans hg'
  | installSave => exact hsame rfl rfl
  | @compact index term snapshot hfree hlt hle hle' ht =>
    refine h.of_keeps hlt.le hterm (fun i e hg => ?_) _ _
    exact (Node.compact_getLog term hlt hg).imp_left fun hg' =>
      (Node.getLog_congr rfl rfl i).trans hg'
  | snapshotSave => exact hsame rfl rfl
  | start =>
    refine h.of_keeps ?_ hterm (fun i e hg => .inl ?_) _ _
    · exact le_rfl
    · exact (Node.getLog_congr rfl rfl i).trans (Node.appendCommand_getLog p _ hg)
  | restart =>
    have hb := Node.make_bytes_eq (hw.durable p) (hw.fresh p) hk
    exact hsame (congrArg RaftBytes.lastIncludedIndex hb) (congrArg RaftBytes.log hb)

/-- **Step.** An answer that is about to be given is true. -/
theorem prepared_of_local (hl : Local w p eff a) (hne : (w.nodes p).log ≠ [])
    (hp : (w.nodes p).Prepared) : eff.node.Prepared := by
  intro call args hheld k e hk
  obtain ⟨hlii, ⟨hh, hlog⟩ | ⟨hacc, hlog⟩⟩ := appendCommit_of_local hl hheld
  · obtain ⟨e', he', ht⟩ := hp call args hh k e hk
    exact ⟨e', (Node.getLog_congr hlii hlog _).trans he', ht⟩
  · have hcov := Node.copyEntries_covers args.entries
      (Nat.lt_succ_of_le hacc.lastIncluded) (hacc.prev_lt hne)
    obtain ⟨e', he', ht⟩ := hcov k e hk
    refine ⟨e', Eq.trans ?_ he', ht⟩
    have hentries : args.entries ≠ [] := fun h => by simp [h] at hk
    obtain ⟨log, backing, hcopy⟩ :=
      Node.copyEntries_eq (w.nodes p) (args.prevLogIndex + 1) args.entries
    refine Node.getLog_congr ?_ ?_ _
    · rw [hlii, hcopy]
    · rw [hlog, Node.copyLog, if_neg hentries]
      rfl

/-- **Step.** The peers stay honest, as long as no peer restarts from erased state. -/
theorem Honest.step (hh : w.Honest) (hw : w.Plumbed) (hne : ∀ p, (w.nodes p).log ≠ [])
    (hk : w.KeepsState a) (h : w.step a = some w') : w'.Honest := by
  obtain ⟨p, eff, heff, rfl⟩ := step_eq_some h
  have hl := effect_local heff
  have hs := local_stored hl
  refine ⟨fun q t lii log hshown => ?_, fun q => ?_, fun q args lii log hacc k e hke => ?_⟩
  · rcases shown_append.mp hshown with hnew | hold
    · obtain ⟨rfl, rfl, rfl, ht⟩ := shown_of_stored hs hw hnew
      rw [after_nodes_self]
      exact Node.honours_self ht _ q
    · rcases eq_or_ne q p with rfl | hqp
      · rw [after_nodes_self]
        exact honours_of_stored hs hl hw hk (hne q) (hh.shown q t lii log hold)
      · rw [after_nodes_of_ne _ _ _ hqp]
        exact (hh.shown q t lii log hold).of_keeps le_rfl le_rfl (fun i e hi => .inl hi) a eff
  · rcases eq_or_ne q p with rfl | hqp
    · rw [after_nodes_self]; exact prepared_of_local hl (hne q) (hh.prepared q)
    · rw [after_nodes_of_ne _ _ _ hqp]; exact hh.prepared q
  · rcases List.mem_append.mp hacc with hnew | hold
    · -- the log shown is the one for which the answer was prepared
      cases hs with
      | leave hleaves => exact absurd (hleaves.events _ hnew) (by simp [Event.isStored])
      | @accept call args' hheld =>
        simp only [Node.appendCommit, List.mem_singleton, Event.accepted.injEq] at hnew
        obtain ⟨rfl, rfl, rfl, rfl⟩ := hnew
        obtain ⟨own, hown, ht⟩ := hh.prepared q call args hheld k e hke
        obtain ⟨hlt, hget⟩ := Node.getLog_eq_some_iff.mp hown
        exact ⟨hlt, own, hget, ht⟩
      | copy => simp at hnew
      | install => simp at hnew
      | installSave => simp [Node.installSave] at hnew
      | compact => simp at hnew
      | snapshotSave => simp [Node.snapshotSave] at hnew
      | start => simp at hnew
      | restart => simp [Node.restart] at hnew
    · exact hh.answered q args lii log hold k e hke

theorem init_honest (room : Fin n → ℕ → ℕ) :
    (init room : World n C D).Honest where
  shown p t lii log h := by simp [Shown, init] at h
  prepared p call args h := by simp [init, Node.make_held] at h
  answered p args lii log h := by simp [init] at h

theorem Reachable.honest {ok : World n C D → Action n C D → Prop}
    (hok : ∀ w a, ok w a → w.KeepsState a) (h : Reachable ok w) : w.Honest := by
  induction h using Reachable.induct with
  | refl room => exact init_honest room
  | tail a hr hoka hstep ih =>
    exact ih.step (Reachable.plumbed hr) (fun p => Reachable.log_ne_nil hr p) (hok _ a hoka) hstep

end World

/-! ### Durability -/

/-- **Durability.** In every run whose crashes are safe, at every safe moment: a peer made from
    the `Persister` has the term, vote and log of the running one.  It honours every vote that
    the peer has cast; every log that the peer has shown, which in turn holds the entries of
    the request it answered; and its snapshot is the last one that the peer took or installed,
    which some service took at just the restored `lastIncludedIndex`. -/
theorem restart_honours_promises {w : World n C D} (h : World.Reachable World.CrashesSafely w)
    {p : Fin n} (hs : (w.nodes p).CrashSafe) :
    let made := Node.make (w.nodes p).persister (w.nodes p).backing.room
    made.bytes = (w.nodes p).bytes ∧
    (∀ t c, Voted w.trace t p c → t ≤ made.currentTerm ∧
      (t = made.currentTerm → made.votedFor = some c)) ∧
    (∀ t lii log, Shown w.trace p t lii log → made.Honours w.calls p t lii log) ∧
    (∀ args lii log, .accepted p args lii log ∈ w.trace → ∀ k e, args.entries[k]? = some e →
      lii < args.prevLogIndex + 1 + k ∧
        ∃ own, log[args.prevLogIndex + 1 + k - lii]? = some own ∧ own.term = e.term) ∧
    (lastSnapshot p w.trace).getD (0, none) =
      (made.lastIncludedIndex, (w.nodes p).persister.snapshot) ∧
    Taken w.trace (made.lastIncludedIndex, (w.nodes p).persister.snapshot) := by
  intro made
  have hw := h.plumbed
  have hb : made.bytes = (w.nodes p).bytes :=
    Node.make_bytes_eq (hw.durable p) (hw.fresh p) hs.2
  have hterm := congrArg RaftBytes.currentTerm hb
  have hvote := congrArg RaftBytes.votedFor hb
  have hlii := congrArg RaftBytes.lastIncludedIndex hb
  have hlog := congrArg RaftBytes.log hb
  have hhonest := h.honest fun _ _ h => h.keepsState
  obtain ⟨hpair, hprov⟩ := h.snapshots fun _ _ h => h
  -- nothing is about to be saved, so the pair in memory is the saved one
  have hsaved : (w.nodes p).snapshotPair =
      (made.lastIncludedIndex, (w.nodes p).persister.snapshot) := by
    rw [Node.snapshotPair, hs.1]
    exact Prod.ext hlii.symm rfl
  refine ⟨hb, fun t c hv => ?_, fun t lii log hshown => ?_,
    fun args lii log hacc => hhonest.answered p args lii log hacc, ?_, ?_⟩
  · obtain ⟨hle, heq⟩ := (h.votesOnce fun _ _ _ h => h.keepsState).voted t p c hv
    exact ⟨hle.trans hterm.ge, fun ht => hvote.trans (heq (ht.trans hterm))⟩
  · obtain ⟨hindex, hle, hentries⟩ := hhonest.shown p t lii log hshown
    refine ⟨hindex.trans hlii.ge, hle.trans hterm.ge, fun i e hi he => ?_⟩
    rcases hentries i e hi he with hg | hle' | hover
    · exact .inl ((Node.getLog_congr hlii hlog i).trans hg)
    · exact .inr (.inl (hle'.trans hlii.ge))
    · exact .inr (.inr hover)
  · rw [hpair p, hsaved]
  · rw [← hsaved]
    exact hprov.taken hpair p

/-- Peer 0 leads term 1, replicates a command to peer 1 and commits it; peer 1 applies it, and
    its service takes a snapshot. -/
def snapshotAtPeer1 : List (Action 3 ℕ ℕ) :=
  electPeer0 ++
    -- peer 0 initialises its leadership and starts the command
    ([.main 0, .main 0, .main 0, .main 0, .start 0 (some 7), .thread 0 2, .thread 0 2, .thread 0 2,
      .thread 0 2, .thread 0 2, .thread 0 2, .thread 0 2, .deliver 2, .resume 1, .resume 1,
      .reply 0 2 2 true,
    -- it counts the answer and commits
      .thread 0 1, .thread 0 1, .thread 0 1, .thread 0 1, .thread 0 1,
    -- peer 1 learns of it from the next heartbeat, and applies the command
      .main 0, .thread 0 3, .thread 0 3, .deliver 3, .resume 1, .resume 1,
      .apply 1, .apply 1, .apply 1, .apply 1, .apply 1, .apply 1,
      .snapshot 1 1 (some 9), .resume 1] : List (Action 3 ℕ ℕ))

/-- The request that replicates the command. -/
def replicateToPeer1 : AppendEntriesArgs 3 ℕ :=
  { term := 1
    leaderId := 0
    entries := [⟨1, some 7⟩]
    prevLogIndex := 0
    prevLogTerm := 0
    leaderCommit := 0 }

/-- The same, and then peer 1 hears of term 2 and saves its state again. -/
theorem restart_honours_promises_snapshot :
    ∃ w : World 3 ℕ ℕ, World.Reachable World.CrashesSafely w ∧ (w.nodes 1).CrashSafe ∧
      (Node.make (w.nodes 1).persister (w.nodes 1).backing.room).bytes = (w.nodes 1).bytes ∧
      (w.nodes 1).persister.snapshot = some 9 ∧
      (Node.make (w.nodes 1).persister (w.nodes 1).backing.room).lastIncludedIndex = 1 := by
  obtain ⟨w, hr, hs, hlast⟩ := World.Reachable.exists_of_execOk World.CrashesSafely
    (snapshotAtPeer1 ++ ([.main 2, .main 2, .main 2, .main 2, .main 2, .main 2, .main 2,
      .thread 2 1, .thread 2 1, .deliver 5] : List (Action 3 ℕ ℕ)))
    (fun w => (w.nodes 1).CrashSafe ∧ lastSnapshot 1 w.trace = some (1, some 9))
    (by decide +kernel)
  obtain ⟨hb, -, -, -, hpair, -⟩ := restart_honours_promises hr hs
  rw [hlast, Option.getD_some, Prod.mk.injEq] at hpair
  exact ⟨w, hr, hs, hb, hpair.2.symm, hpair.1.symm⟩

/-- When peer 1 crashes after taking the snapshot, it starts again in term 0: it has voted in
    term 1 and does not know it, the entry it has acknowledged is gone, and the snapshot it
    reads is not the one at its `lastIncludedIndex`. -/
theorem crash_after_snapshot :
    ∃ w : World 3 ℕ ℕ, World.Reachable (fun _ a => ∀ p, a ≠ .restart p) w ∧
      Voted w.trace 1 1 0 ∧
      .accepted 1 replicateToPeer1 0 [⟨0, none⟩, ⟨1, some 7⟩] ∈ w.trace ∧
      lastSnapshot 1 w.trace = some (1, some 9) ∧
      let made := Node.make (w.nodes 1).persister (w.nodes 1).backing.room
      made.currentTerm = 0 ∧ made.getLog 1 = none ∧ made.lastIncludedIndex = 0 := by
  exact World.Reachable.exists_of_execOk (fun _ a => ∀ p, a ≠ .restart p)
    snapshotAtPeer1 _ (by decide +kernel)

end MitDistributed.Raft
