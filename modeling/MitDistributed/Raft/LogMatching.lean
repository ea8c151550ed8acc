import MitDistributed.Raft.Calls

namespace MitDistributed.Raft

open Function

/-!
# Raft — `AppendEntries` keeps Log Matching

Logs are compared through the accessors of `raft.go`, so that compacted logs are covered: two logs
match if, whenever both read the same term at an index, they agree at every index up to there at
which both can be read (`Node.Matches`).

* `Node.Splices` — what the copy loop does to the log of a follower: nothing, or a cut at the first
  index where a received entry is missing or has another term, and the rest of the entries there;
* `Node.Splices.follows` — after a successful call the follower has the leader's entries;
* `Node.Splices.matches` — and its log still matches every log that both matched before.
-/

variable {n : ℕ} {C D : Type}

/-! ### Agreement of logs -/

namespace Node

/-- Where both logs can be read, they hold the same at index `j`. -/
def SameAt (x y : Node n C D) (j : ℕ) : Prop :=
  (∀ s t, x.getTermOfLog j = some s → y.getTermOfLog j = some t → s = t) ∧
    ∀ d e, x.getLog j = some d → y.getLog j = some e → d = e

/-- Log Matching for two logs: the same term at an index means the same log up to there. -/
def Matches (x y : Node n C D) : Prop :=
  ∀ i t, x.getTermOfLog i = some t → y.getTermOfLog i = some t → ∀ j ≤ i, x.SameAt y j

/-- From the snapshot of `x` up to index `i`, `x` has an entry everywhere, and it is the one of `y`
    where `y` has one. -/
def Follows (x y : Node n C D) (i : ℕ) : Prop :=
  ∀ j, x.lastIncludedIndex < j → j ≤ i →
    ∃ e, x.getLog j = some e ∧ ∀ e', y.getLog j = some e' → e' = e

theorem Follows.congr {x x' y : Node n C D} {i : ℕ} (h : x.Follows y i) (hx : x.KeepsLog x') :
    x'.Follows y i := by
  intro j hlow hj
  rw [hx.getLog_eq]
  exact h j (hx.1 ▸ hlow) hj

theorem Matches.congr {x x' y : Node n C D} (h : x.Matches y) (hx : x.KeepsLog x') :
    x'.Matches y := by
  intro i t hi hy j hj
  rw [SameAt, hx.getTermOfLog_eq, hx.getLog_eq]
  exact h i t (hx.getTermOfLog_eq i ▸ hi) hy j hj

theorem SameAt.symm {x y : Node n C D} {j : ℕ} (h : x.SameAt y j) : y.SameAt x j :=
  ⟨fun s t hs ht => (h.1 t s ht hs).symm, fun d e hd he => (h.2 e d he hd).symm⟩

theorem Matches.symm {x y : Node n C D} (h : x.Matches y) : y.Matches x :=
  fun i t hy hx j hj => (h i t hx hy j hj).symm

theorem Matches.refl (x : Node n C D) : x.Matches x := by
  intro i t hi hi' j hj
  constructor
  · intro s t hs ht
    exact Option.some.inj (hs.symm.trans ht)
  · intro d e hd he
    exact Option.some.inj (hd.symm.trans he)

/-- Logs that read the same at every index up to each one at which they have the same term. -/
theorem Matches.of_eq {x y : Node n C D}
    (h : ∀ i < x.getLogLength, x.getTermOfLog i = y.getTermOfLog i →
      ∀ j ≤ i, x.getTermOfLog j = y.getTermOfLog j ∧ x.getLog j = y.getLog j) : x.Matches y := by
  intro i t hx hy j hj
  obtain ⟨-, hlt⟩ := exists_getTermOfLog_iff.mp ⟨t, hx⟩
  obtain ⟨hterm, hlog⟩ := h i hlt (hx.trans hy.symm) j hj
  constructor
  · intro s t hs ht
    exact Option.some.inj (hs.symm.trans (hterm.trans ht))
  · intro d e hd he
    exact Option.some.inj (hd.symm.trans (hlog.trans he))

end Node

/-- Log Matching for a collection of logs. -/
def LogMatching {ι : Type*} (logs : ι → Node n C D) : Prop := ∀ a b, (logs a).Matches (logs b)

/-- What the request says is a position of the log, and carries the entries after it. -/
structure AppendEntriesArgs.SliceOf (args : AppendEntriesArgs n C) (x : Node n C D) : Prop where
  prev : x.getTermOfLog args.prevLogIndex = some args.prevLogTerm
  entries : ∀ k e, args.entries[k]? = some e → x.getLog (args.prevLogIndex + 1 + k) = some e

namespace Node

/-! ### The copy loop -/

/-- Past the end of the log every received entry is appended. -/
theorem copyEntries_of_end {nd : Node n C D} (hpos : 0 < nd.getLogLength)
    (entries : List (LogEntry C)) :
    nd.copyEntries nd.getLogLength entries = nd.appendAll entries := by
  induction entries generalizing nd with
  | nil => rfl
  | cons entry entries ih =>
    have hone : nd.copyEntry nd.getLogLength entry = nd.appendEntry entry := by
      unfold copyEntry
      rw [if_pos (by omega)]
    have hlen : (nd.appendEntry entry).getLogLength = nd.getLogLength + 1 := by
      simp [getLogLength, appendEntry, Nat.add_assoc]
    rw [copyEntries, hone, ← hlen, ih (by omega)]
    rfl

/-- What the loop does with the entries that go to `index` and after it: the first `c` are there
    already, as far as the terms tell; if there are more, the log is cut and they follow. -/
structure Splices (nd : Node n C D) (index : ℕ) (entries : List (LogEntry C)) (c : ℕ) : Prop where
  le : c ≤ entries.length
  same : ∀ k < c, ∃ own e, nd.getLog (index + k) = some own ∧ entries[k]? = some e ∧
    own.term = e.term
  differs : c < entries.length → index + c = nd.getLogLength ∨
    ∃ own e, nd.getLog (index + c) = some own ∧ entries[c]? = some e ∧ own.term ≠ e.term
  copied : nd.copyEntries index entries =
    if c = entries.length then nd else nd.splice (index + c) (entries.drop c)

theorem exists_splices {nd : Node n C D} {index : ℕ} (entries : List (LogEntry C))
    (hl : nd.lastIncludedIndex < index) (hle : index ≤ nd.getLogLength) :
    ∃ c, nd.Splices index entries c := by
  induction entries generalizing index with
  | nil =>
    refine ⟨0, le_rfl, fun k hk => absurd hk (Nat.not_lt_zero k), fun hk => ?_, rfl⟩
    exact absurd hk (Nat.not_lt_zero 0)
  | cons entry entries ih =>
    have hzero : 0 ≠ (entry :: entries).length := (Nat.succ_ne_zero _).symm
    rcases hle.eq_or_lt with rfl | hlt
    · -- the log ends here
      refine ⟨0, Nat.zero_le _, fun k hk => absurd hk (Nat.not_lt_zero k), fun _ => .inl rfl, ?_⟩
      rw [if_neg hzero, copyEntries_of_end (by omega), Nat.add_zero, splice_getLogLength,
        List.drop_zero]
    obtain ⟨own, hown⟩ := exists_getLog hl hlt
    by_cases hterm : own.term = entry.term
    · -- the entry is kept, and the loop goes on
      have hkeep : nd.copyEntry index entry = nd := by
        unfold copyEntry
        rw [if_neg (by omega), if_neg]
        rw [not_not, getTermOfLog_eq hl, hown]
        exact congrArg some hterm
      obtain ⟨c, hc⟩ := ih (by omega : nd.lastIncludedIndex < index + 1) hlt
      have hshift : ∀ k, index + (k + 1) = index + 1 + k := fun k => by omega
      refine ⟨c + 1, Nat.succ_le_succ hc.le, fun k hk => ?_, fun hk => ?_, ?_⟩
      · cases k with
        | zero => exact ⟨own, entry, hown, rfl, hterm⟩
        | succ k =>
          obtain ⟨own', e, hown', he, ht⟩ := hc.same k (Nat.lt_of_succ_lt_succ hk)
          exact ⟨own', e, by rw [hshift]; exact hown', he, ht⟩
      · rw [hshift]
        exact hc.differs (Nat.lt_of_succ_lt_succ hk)
      · rw [copyEntries, hkeep, hc.copied, hshift c, List.drop_succ_cons, List.length_cons]
        simp only [Nat.succ_inj]
    · -- the log is cut here, and everything else is appended
      refine ⟨0, Nat.zero_le _, fun k hk => absurd hk (Nat.not_lt_zero k),
        fun _ => .inr ⟨own, entry, hown, rfl, hterm⟩, ?_⟩
      have hcut : nd.copyEntry index entry = nd.splice index [entry] := by
        unfold copyEntry
        rw [if_neg (by omega), if_pos]
        · rfl
        · rw [getTermOfLog_eq hl, hown]
          exact fun heq => hterm (Option.some.inj heq)
      have hlen : (nd.splice index [entry]).getLogLength = index + 1 :=
        getLogLength_splice [entry] hl hle
      rw [if_neg hzero, copyEntries, hcut, ← hlen, copyEntries_of_end (by omega)]
      rfl

namespace Splices

variable {nd x y : Node n C D} {p t c i j : ℕ} {entries : List (LogEntry C)}

/-! ### The log after the loop -/

section After

variable (hs : nd.Splices (p + 1) entries c) (hp : nd.getTermOfLog p = some t)

include hs hp

theorem bounds : nd.lastIncludedIndex < p + 1 + c ∧ p + 1 + c ≤ nd.getLogLength := by
  obtain ⟨hle, hlt⟩ := exists_getTermOfLog_iff.mp ⟨t, hp⟩
  refine ⟨by omega, ?_⟩
  cases c with
  | zero => exact hlt
  | succ c =>
    obtain ⟨own, e, hown, -, -⟩ := hs.same c (Nat.lt_succ_self c)
    have hend := (getLog_lt hown).2
    omega

/-- Before the cut nothing changes. -/
theorem getLog_of_lt (hi : i < p + 1 + c) :
    (nd.copyEntries (p + 1) entries).getLog i = nd.getLog i := by
  obtain ⟨hl, hle⟩ := hs.bounds hp
  rw [hs.copied]
  split
  · rfl
  · exact getLog_splice_of_lt _ hl hle hi

theorem getTermOfLog_of_lt (hi : i < p + 1 + c) :
    (nd.copyEntries (p + 1) entries).getTermOfLog i = nd.getTermOfLog i := by
  obtain ⟨hl, hle⟩ := hs.bounds hp
  rw [hs.copied]
  split
  · rfl
  · exact getTermOfLog_splice_of_lt _ hl hle hi

/-- From the cut on there are the received entries. -/
theorem getLog_of_le (hc : c < entries.length) (hi : p + 1 + c ≤ i) :
    (nd.copyEntries (p + 1) entries).getLog i = entries[i - (p + 1)]? := by
  obtain ⟨hl, hle⟩ := hs.bounds hp
  rw [hs.copied, if_neg hc.ne, getLog_splice_of_le _ hl hle hi, List.getElem?_drop]
  congr 1
  omega

/-- Before the cut the follower has the terms of the received entries. -/
theorem term_eq (hx : x.getTermOfLog p = some t)
    (he : ∀ k e, entries[k]? = some e → x.getLog (p + 1 + k) = some e) :
    ∃ s, nd.getTermOfLog (p + c) = some s ∧ x.getTermOfLog (p + c) = some s := by
  cases c with
  | zero => exact ⟨t, hp, hx⟩
  | succ c =>
    obtain ⟨own, e, hown, hentry, hterm⟩ := hs.same c (Nat.lt_succ_self c)
    have hleader := he c e hentry
    have hindex : p + (c + 1) = p + 1 + c := by omega
    refine ⟨e.term, ?_, ?_⟩
    · rw [hindex, getTermOfLog_eq (getLog_lt hown).1, hown, Option.map_some, hterm]
    · rw [hindex, getTermOfLog_eq (getLog_lt hleader).1, hleader, Option.map_some]

section Received

variable (he : ∀ k e, entries[k]? = some e → x.getLog (p + 1 + k) = some e)
  (hc : c < entries.length) (hi : p + 1 + c ≤ i)

include he hc hi

/-- From the cut on every entry is the leader's. -/
theorem getLog_received {e : LogEntry C}
    (h : (nd.copyEntries (p + 1) entries).getLog i = some e) : x.getLog i = some e := by
  rw [hs.getLog_of_le hp hc hi] at h
  have hindex : p + 1 + (i - (p + 1)) = i := by omega
  rw [← hindex]
  exact he _ e h

theorem getTermOfLog_received {s : ℕ}
    (h : (nd.copyEntries (p + 1) entries).getTermOfLog i = some s) :
    x.getTermOfLog i = some s := by
  obtain ⟨hlow, -⟩ := hs.bounds hp
  have hbase : (nd.copyEntries (p + 1) entries).lastIncludedIndex < i := by
    obtain ⟨log, backing, hcopy⟩ := copyEntries_eq nd (p + 1) entries
    rw [hcopy]
    exact hlow.trans_le hi
  rw [getTermOfLog_eq hbase] at h
  obtain ⟨e, hlog, rfl⟩ := Option.map_eq_some_iff.mp h
  have hleader := hs.getLog_received hp he hc hi hlog
  rw [getTermOfLog_eq (getLog_lt hleader).1, hleader, Option.map_some]

end Received

end After

end Splices

/-! ### Following the leader -/

/-- The indices where a follower can be changed: it ends there, or it has another entry than the
    leader. -/
def DiffersAt (nd x : Node n C D) (j : ℕ) : Prop :=
  j = nd.getLogLength ∨ ∃ d e, nd.getLog j = some d ∧ x.getLog j = some e ∧ d ≠ e

namespace Splices

variable {nd x y : Node n C D} {p t c i j : ℕ} {entries : List (LogEntry C)}
  (hs : nd.Splices (p + 1) entries c) (hp : nd.getTermOfLog p = some t)
  (hx : x.getTermOfLog p = some t)
  (he : ∀ k e, entries[k]? = some e → x.getLog (p + 1 + k) = some e)

include hs hp hx he

/-- Before the loop, the follower has the leader's entries up to the cut. -/
theorem follows_before (hm : nd.Matches x) : nd.Follows x (p + c) := by
  obtain ⟨s, hown, hleader⟩ := hs.term_eq hp hx he
  obtain ⟨-, hend⟩ := hs.bounds hp
  intro j hlow hj
  obtain ⟨e, hj'⟩ := exists_getLog hlow (by omega : j < nd.getLogLength)
  exact ⟨e, hj', fun e' he' => ((hm _ s hown hleader j hj).2 e e' hj' he').symm⟩

/-- **After the loop**, the follower has all entries of the leader up to the last one received. -/
theorem follows (hm : nd.Matches x) :
    (nd.copyEntries (p + 1) entries).Follows x (p + entries.length) := by
  intro j hlow hj
  have hbase : (nd.copyEntries (p + 1) entries).lastIncludedIndex = nd.lastIncludedIndex := by
    obtain ⟨log, backing, hcopy⟩ := copyEntries_eq nd (p + 1) entries
    rw [hcopy]
  rw [hbase] at hlow
  by_cases hbefore : j < p + 1 + c
  · rw [hs.getLog_of_lt hp hbefore]
    exact hs.follows_before hp hx he hm j hlow (by omega)
  · have hc : c < entries.length := by omega
    have hk : j - (p + 1) < entries.length := by omega
    have hindex : p + 1 + (j - (p + 1)) = j := by omega
    have hentry := he _ _ (List.getElem?_eq_getElem hk)
    rw [hindex] at hentry
    refine ⟨entries[j - (p + 1)], ?_, fun e' he' => ?_⟩
    · rw [hs.getLog_of_le hp hc (not_lt.mp hbefore), List.getElem?_eq_getElem hk]
    · exact Option.some.inj (he'.symm.trans hentry)

omit hx in
/-- An entry that the follower shares with the leader stays. -/
theorem keeps (hm : nd.Matches x) {e : LogEntry C} (hown : nd.getLog j = some e)
    (hleader : x.getLog j = some e) : (nd.copyEntries (p + 1) entries).getLog j = some e := by
  by_cases hbefore : j < p + 1 + c
  · rw [hs.getLog_of_lt hp hbefore, hown]
  rcases hs.le.eq_or_lt with hall | hc
  · rw [hs.copied, if_pos hall, hown]
  exfalso
  obtain ⟨hlow, hend⟩ := getLog_lt hown
  rcases hs.differs hc with hlast | ⟨d, e', hd, he', hterm⟩
  · omega
  · -- the shared entry lies behind the cut, so there is no difference at the cut
    have hsame := hm j e.term (by rw [getTermOfLog_eq hlow, hown, Option.map_some])
      (by rw [getTermOfLog_eq (getLog_lt hleader).1, hleader, Option.map_some]) (p + 1 + c)
      (not_lt.mp hbefore)
    exact hterm (congrArg LogEntry.term (hsame.2 d e' hd (he c e' he')))

omit hx in
/-- Where the follower has the leader's entries, it keeps them. -/
theorem follows_mono (h : nd.Follows x i) :
    (nd.copyEntries (p + 1) entries).Follows x i := by
  obtain ⟨log, backing, hcopy⟩ := copyEntries_eq nd (p + 1) entries
  have hbase : (nd.copyEntries (p + 1) entries).lastIncludedIndex = nd.lastIncludedIndex := by
    rw [hcopy]
  rcases hs.le.eq_or_lt with hall | hc
  · rwa [hs.copied, if_pos hall]
  -- the cut lies behind `i`
  have hcut : i < p + 1 + c := by
    by_contra hle
    obtain ⟨hlow, -⟩ := hs.bounds hp
    obtain ⟨e, hown, hunique⟩ := h (p + 1 + c) hlow (not_lt.mp hle)
    rcases hs.differs hc with hlast | ⟨d, e', hd, he', hterm⟩
    · exact absurd (getLog_lt hown).2 (by omega)
    · obtain rfl := Option.some.inj (hd.symm.trans hown)
      exact hterm (congrArg LogEntry.term (hunique e' (he c e' he'))).symm
  intro j hlow hj
  rw [hs.getLog_of_lt hp (hj.trans_lt hcut)]
  exact h j (hbase ▸ hlow) hj

/-- The follower changes, if at all, from the first index on where it differs. -/
theorem changes (hm : nd.Matches x) :
    nd.copyEntries (p + 1) entries = nd ∨
      ∃ d, nd.DiffersAt x d ∧ nd.Follows x (d - 1) ∧
        ∀ j < d, (nd.copyEntries (p + 1) entries).getLog j = nd.getLog j := by
  rcases hs.le.eq_or_lt with hall | hc
  · exact .inl (by rw [hs.copied, if_pos hall])
  refine .inr ⟨p + 1 + c, ?_, ?_, fun j hj => hs.getLog_of_lt hp hj⟩
  · refine (hs.differs hc).imp_right ?_
    rintro ⟨d, e, hd, hentry, hterm⟩
    exact ⟨d, e, hd, he c e hentry, fun heq => hterm (congrArg LogEntry.term heq)⟩
  · have hfirst : p + 1 + c - 1 = p + c := by omega
    rw [hfirst]
    exact hs.follows_before hp hx he hm

/-- **Log Matching is kept** against every log that the follower and the leader match. -/
theorem matches_of (hy : nd.Matches y) (hxy : x.Matches y) :
    (nd.copyEntries (p + 1) entries).Matches y := by
  intro i t hi hyi j hj
  by_cases hbefore : i < p + 1 + c
  · -- up to `i` the follower is as it was
    rw [hs.getTermOfLog_of_lt hp hbefore] at hi
    have hsame := hy i t hi hyi j hj
    rwa [SameAt, hs.getTermOfLog_of_lt hp (hj.trans_lt hbefore),
      hs.getLog_of_lt hp (hj.trans_lt hbefore)]
  rcases hs.le.eq_or_lt with hall | hc
  · rw [hs.copied, if_pos hall] at hi ⊢
    exact hy i t hi hyi j hj
  -- at `i` the follower has an entry of the leader, so leader and `y` agree up to there
  have hleader : ∀ j ≤ i, x.SameAt y j :=
    hxy i t (hs.getTermOfLog_received hp he hc (not_lt.mp hbefore) hi) hyi
  by_cases hcut : j < p + 1 + c
  · rw [SameAt, hs.getTermOfLog_of_lt hp hcut, hs.getLog_of_lt hp hcut]
    have hown : y.lastIncludedIndex ≤ j → nd.SameAt y j := by
      intro hlow
      obtain ⟨-, hend⟩ := exists_getTermOfLog_iff.mp ⟨t, hyi⟩
      obtain ⟨s, hnd, hxs⟩ := hs.term_eq hp hx he
      have hread : y.lastIncludedIndex ≤ p + c ∧ p + c < y.getLogLength := by omega
      obtain ⟨s', hys⟩ := exists_getTermOfLog_iff.mpr hread
      obtain rfl := (hleader (p + c) (by omega)).1 s s' hxs hys
      exact hy (p + c) s hnd hys j (by omega)
    constructor
    · intro s s' hs' hys
      exact (hown (exists_getTermOfLog_iff.mp ⟨s', hys⟩).1).1 s s' hs' hys
    · intro d e hd hye
      exact (hown (getLog_lt hye).1.le).2 d e hd hye
  · constructor
    · intro s s' hs' hys
      exact (hleader j hj).1 s s' (hs.getTermOfLog_received hp he hc (not_lt.mp hcut) hs') hys
    · intro d e hd hye
      exact (hleader j hj).2 d e (hs.getLog_received hp he hc (not_lt.mp hcut) hd) hye

end Splices

/-! ### `AppendEntries` -/

/-- Serve requests one after the other. -/
def serveAll (me : Fin n) (call : ℕ) (nd : Node n C D) :
    List (AppendEntriesArgs n C) → Node n C D
  | [] => nd
  | args :: requests => (nd.serveAppendEntries me call args).node.serveAll me call requests

section Serve

variable {nd x y : Node n C D} {args : AppendEntriesArgs n C} (me : Fin n) (call : ℕ)

theorem Passes.exists_splices (h : nd.Passes args) :
    ∃ c, nd.Splices (args.prevLogIndex + 1) args.entries c := by
  obtain ⟨hlow, hend⟩ := exists_getTermOfLog_iff.mp ⟨_, h.2⟩
  exact Node.exists_splices args.entries (Nat.lt_succ_of_le hlow) hend

/-- **What is agreed stays agreed.** A request with entries of the leader's log does not shorten
    the part of the log in which the follower has the leader's entries. -/
theorem follows_serveAppendEntries (hx : args.SliceOf x) {i : ℕ} (h : nd.Follows x i) :
    (nd.serveAppendEntries me call args).node.Follows x i := by
  by_cases hpass : nd.Passes args
  · obtain ⟨c, hs⟩ := hpass.exists_splices
    exact (hs.follows_mono hpass.2 hx.entries h).congr (keepsLog_of_passes me call hpass)
  · exact h.congr (keepsLog_of_not_passes me call hpass)

theorem follows_serveAll {requests : List (AppendEntriesArgs n C)}
    (hx : ∀ args ∈ requests, args.SliceOf x) {i : ℕ} (h : nd.Follows x i) :
    (nd.serveAll me call requests).Follows x i := by
  induction requests generalizing nd with
  | nil => exact h
  | cons args requests ih =>
    obtain ⟨hone, hrest⟩ := List.forall_mem_cons.mp hx
    exact ih hrest (follows_serveAppendEntries me call hone h)

end Serve

end Node

/-- The answer of an `AppendEntries`. -/
def Effect.Answers (eff : Effect n C D) (success : Bool) : Prop :=
  ∃ call reply, eff.answer = some (call, .appendEntries reply) ∧ reply.success = success

namespace Node

section Answers

variable {nd : Node n C D} {args : AppendEntriesArgs n C} {me : Fin n} {call : ℕ}

theorem passes_of_answers (h : (nd.serveAppendEntries me call args).Answers true) :
    nd.Passes args := by
  by_contra hpass
  obtain ⟨i, reply, hans, hsuccess⟩ := h
  rcases serveAppendEntries_of_not_passes me call hpass with ⟨retry, hserve⟩ | ⟨-, hserve⟩
  · rw [hserve] at hans
    cases hans
    cases hsuccess
  · rw [hserve] at hans
    cases hans

theorem not_passes_of_answers (h : (nd.serveAppendEntries me call args).Answers false) :
    ¬ nd.Passes args := by
  intro hpass
  obtain ⟨i, reply, hans, hsuccess⟩ := h
  rw [(serveAppendEntries_of_passes me call hpass).2] at hans
  cases hans
  cases hsuccess

end Answers

/-- One log of a collection that satisfies Log Matching is replaced. -/
theorem logMatching_update {ι : Type*} [DecidableEq ι] {logs : ι → Node n C D} {f : ι}
    {nd : Node n C D} (hm : LogMatching logs) (h : ∀ b, b ≠ f → nd.Matches (logs b)) :
    LogMatching (update logs f nd) := by
  intro a b
  by_cases ha : a = f
  · subst ha
    rw [update_self]
    by_cases hb : b = a
    · rw [hb, update_self]
      exact .refl nd
    · rw [update_of_ne hb]
      exact h b hb
  · rw [update_of_ne ha]
    by_cases hb : b = f
    · rw [hb, update_self]
      exact (h a ha).symm
    · rw [update_of_ne hb]
      exact hm a b

/-- **`AppendEntries` and Log Matching.** Let the logs of a collection match, and let a request
    carry entries of log `l` to the peer with log `f`.  If the peer answers `Success`, then it has
    the entries of `l` up to the last one of the request; what it shared with `l` is still there;
    it has changed only from the first index on where it ended or differed; and the logs still
    match.  If it refuses, its log is as it was.  So requests with entries of `l`, in any order and
    any number, never shorten the part of the log that agrees with `l`. -/
theorem appendEntries_preserves_matching {ι : Type*} [DecidableEq ι] (logs : ι → Node n C D)
    (hm : LogMatching logs) (l f : ι) (me : Fin n) (call : ℕ) (args : AppendEntriesArgs n C)
    (hargs : args.SliceOf (logs l)) :
    let after := (logs f).serveAppendEntries me call args
    (after.Answers true →
      after.node.Follows (logs l) (args.prevLogIndex + args.entries.length) ∧
      (∀ j e, (logs f).getLog j = some e → (logs l).getLog j = some e →
        after.node.getLog j = some e) ∧
      (after.node.log = (logs f).log ∨
        ∃ d, (logs f).DiffersAt (logs l) d ∧ (logs f).Follows (logs l) (d - 1) ∧
          ∀ j < d, after.node.getLog j = (logs f).getLog j) ∧
      LogMatching (update logs f after.node)) ∧
    (after.Answers false → (logs f).KeepsLog after.node) ∧
    ∀ requests : List (AppendEntriesArgs n C), (∀ a ∈ requests, a.SliceOf (logs l)) →
      ∀ i, (logs f).Follows (logs l) i →
        ((logs f).serveAll me call requests).Follows (logs l) i := by
  intro after
  refine ⟨fun hans => ?_, fun hans => ?_, ?_⟩
  · have hpass := passes_of_answers hans
    have hlog := keepsLog_of_passes me call hpass
    obtain ⟨c, hs⟩ := hpass.exists_splices
    refine ⟨?_, fun j e hf hl => ?_, ?_, ?_⟩
    · exact (hs.follows hpass.2 hargs.prev hargs.entries (hm f l)).congr hlog
    · rw [hlog.getLog_eq]
      exact hs.keeps hpass.2 hargs.entries (hm f l) hf hl
    · rcases hs.changes hpass.2 hargs.prev hargs.entries (hm f l) with
        hsame | ⟨d, hd, hbefore, hkeep⟩
      · exact .inl (hlog.2.1.trans (congrArg Node.log hsame))
      · exact .inr ⟨d, hd, hbefore, fun j hj => (hlog.getLog_eq j).trans (hkeep j hj)⟩
    · exact logMatching_update hm fun b _ =>
        (hs.matches_of hpass.2 hargs.prev hargs.entries (hm f b) (hm l b)).congr hlog
  · exact keepsLog_of_not_passes me call (not_passes_of_answers hans)
  · exact fun requests hrequests i hi => follows_serveAll me call hrequests hi

end Node

/-- A leader of term 3, and a follower that shares the first entry with it and has two entries of
    term 2 where the leader has its own. -/
def leaderAndFollower : Bool → Node 3 ℕ ℕ
  | true =>
    { Node.make { raftstate := none, snapshot := none } (fun _ => 0) with
      state := .leaderState
      currentTerm := 3
      log := [.zero, ⟨1, some 7⟩, ⟨3, some 9⟩, ⟨3, some 10⟩]
      commitIndex := 2 }
  | false =>
    { Node.make { raftstate := none, snapshot := none } (fun _ => 0) with
      currentTerm := 2
      log := [.zero, ⟨1, some 7⟩, ⟨2, some 8⟩, ⟨2, some 11⟩]
      commitIndex := 1 }

theorem leaderAndFollower_matching : LogMatching leaderAndFollower := by
  have hmatch : (leaderAndFollower false).Matches (leaderAndFollower true) :=
    .of_eq (by decide)
  intro a b
  cases a <;> cases b
  · exact .refl _
  · exact hmatch
  · exact hmatch.symm
  · exact .refl _

/-- The request with all entries of the leader. -/
def allEntries : AppendEntriesArgs 3 ℕ :=
  ⟨3, 0, [⟨1, some 7⟩, ⟨3, some 9⟩, ⟨3, some 10⟩], 0, 0, 2⟩

theorem allEntries_sliceOf : allEntries.SliceOf (leaderAndFollower true) where
  prev := rfl
  entries k e hk := by
    have hsame : ∀ k < 3, (leaderAndFollower true).getLog (0 + 1 + k) = allEntries.entries[k]? := by
      decide
    obtain ⟨hlt, -⟩ := List.getElem?_eq_some_iff.mp hk
    exact (hsame k hlt).trans hk

/-- The follower keeps the entry it shares with the leader, gives up its entries of term 2, and
    ends up with the log of the leader. -/
theorem appendEntries_preserves_matching_overwrites :
    let after := (leaderAndFollower false).serveAppendEntries 1 0 allEntries
    LogMatching leaderAndFollower ∧ allEntries.SliceOf (leaderAndFollower true) ∧
      after.Answers true ∧ after.node.log = (leaderAndFollower true).log ∧
      (leaderAndFollower false).getLog 2 = some ⟨2, some 8⟩ ∧
      after.node.Follows (leaderAndFollower true) 3 ∧
      LogMatching (update leaderAndFollower false after.node) := by
  intro after
  have hans : after.Answers true := ⟨0, _, rfl, rfl⟩
  obtain ⟨hfollows, -, -, hm⟩ := (Node.appendEntries_preserves_matching leaderAndFollower
    leaderAndFollower_matching true false 1 0 allEntries allEntries_sliceOf).1 hans
  exact ⟨leaderAndFollower_matching, allEntries_sliceOf, hans, rfl, rfl, hfollows, hm⟩

end MitDistributed.Raft
