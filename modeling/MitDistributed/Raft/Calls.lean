import MitDistributed.Raft.Entries

namespace MitDistributed.Raft

/-!
# Raft — whole calls of the handlers

`RequestVote`, `AppendEntries` and `Snapshot` from the moment they have their locks to their
return: the steps of the handler one after the other, with nothing in between.

* `Node.Passes` — when `AppendEntries` answers `Success`, in terms of the state before the call;
* `Node.serveAppendEntries_of_passes`, `Node.serveAppendEntries_of_not_passes` — what it does
  then, and otherwise.
-/

variable {n : ℕ} {C D : Type}

namespace Node

/-- `RequestVote` as a whole. -/
def serveRequestVote (me : Fin n) (nd : Node n C D) (call : ℕ) (args : RequestVoteArgs n) :
    Effect n C D :=
  (nd.requestVote call args).node.resumeRequestVote me call args

/-- `AppendEntries` as a whole: a request that is refused returns before the last step. -/
def serveAppendEntries (me : Fin n) (nd : Node n C D) (call : ℕ) (args : AppendEntriesArgs n C) :
    Effect n C D :=
  let eff := (nd.appendEntries call args).node.appendLog call args
  match eff.node.held with
  | some (.appendCommit call args) => eff.node.appendCommit me call args
  | _ => eff

/-- `Snapshot` as a whole. -/
def serveSnapshot (me : Fin n) (nd : Node n C D) (index : ℕ) (snapshot : Option D) :
    Effect n C D :=
  let eff := nd.snapshot me index snapshot
  match eff.node.held with
  | some (.snapshotSave snapshot) => eff.node.snapshotSave snapshot
  | _ => eff

/-! ### What the accessors read -/

/-- The log and the fields of the snapshot are the same. -/
def KeepsLog (nd x : Node n C D) : Prop :=
  x.lastIncludedIndex = nd.lastIncludedIndex ∧ x.log = nd.log ∧
    x.lastIncludedTerm = nd.lastIncludedTerm

namespace KeepsLog

variable {nd x y : Node n C D}

theorem trans (h : nd.KeepsLog x) (h' : x.KeepsLog y) : nd.KeepsLog y :=
  ⟨h'.1.trans h.1, h'.2.1.trans h.2.1, h'.2.2.trans h.2.2⟩

theorem getLogLength_eq (h : nd.KeepsLog x) : x.getLogLength = nd.getLogLength := by
  rw [getLogLength, getLogLength, h.1, h.2.1]

theorem getLog_eq (h : nd.KeepsLog x) (i : ℕ) : x.getLog i = nd.getLog i := by
  rw [getLog, getLog, h.getLogLength_eq, h.1, h.2.1]

theorem getTermOfLog_eq (h : nd.KeepsLog x) (i : ℕ) : x.getTermOfLog i = nd.getTermOfLog i := by
  rw [getTermOfLog, getTermOfLog, h.getLogLength_eq, h.1, h.2.1, h.2.2]

end KeepsLog

theorem getTermOfLog_of_lt {nd : Node n C D} {i : ℕ} (h : i < nd.lastIncludedIndex) :
    nd.getTermOfLog i = none := by
  unfold getTermOfLog
  rw [if_pos h, ite_self]

theorem getTermOfLog_lastIncludedIndex {nd : Node n C D}
    (h : nd.lastIncludedIndex < nd.getLogLength) :
    nd.getTermOfLog nd.lastIncludedIndex = some nd.lastIncludedTerm := by
  unfold getTermOfLog
  rw [if_neg (by omega), if_neg (lt_irrefl _), if_pos rfl]

/-- The term can be read from the snapshot on, up to the end of the log. -/
theorem exists_getTermOfLog_iff {nd : Node n C D} {i : ℕ} :
    (∃ t, nd.getTermOfLog i = some t) ↔ nd.lastIncludedIndex ≤ i ∧ i < nd.getLogLength := by
  constructor
  · rintro ⟨t, ht⟩
    unfold getTermOfLog at ht
    split at ht
    · cases ht
    · split at ht
      · cases ht
      · omega
  · rintro ⟨hle, hlt⟩
    rcases hle.eq_or_lt with rfl | hgt
    · exact ⟨nd.lastIncludedTerm, getTermOfLog_lastIncludedIndex hlt⟩
    · obtain ⟨e, he⟩ := exists_getLog hgt hlt
      exact ⟨e.term, by rw [getTermOfLog_eq hgt, he, Option.map_some]⟩

/-! ### Cutting the log -/

/-- Append entries to the log, one by one. -/
def appendAll (nd : Node n C D) (entries : List (LogEntry C)) : Node n C D :=
  entries.foldl appendEntry nd

/-- Appending entries writes nothing but the log. -/
theorem appendAll_eq (nd : Node n C D) (entries : List (LogEntry C)) :
    ∃ backing, nd.appendAll entries =
      { nd with log := nd.log ++ entries, backing := backing } := by
  induction entries generalizing nd with
  | nil => exact ⟨nd.backing, by rw [List.append_nil]; rfl⟩
  | cons e entries ih =>
    obtain ⟨backing, h⟩ := ih (nd.appendEntry e)
    refine ⟨backing, h.trans ?_⟩
    rw [List.append_cons nd.log e entries]
    rfl

/-- Cut the log before index `m`, and append entries there. -/
def splice (nd : Node n C D) (m : ℕ) (entries : List (LogEntry C)) : Node n C D :=
  (nd.cutLog (m - nd.lastIncludedIndex)).appendAll entries

/-- Cutting and appending writes nothing but the log. -/
theorem splice_eq (nd : Node n C D) (m : ℕ) (entries : List (LogEntry C)) :
    ∃ backing, nd.splice m entries =
      { nd with log := nd.log.take (m - nd.lastIncludedIndex) ++ entries, backing := backing } :=
  appendAll_eq (nd.cutLog (m - nd.lastIncludedIndex)) entries

section Splice

variable {nd : Node n C D} {m i : ℕ} (entries : List (LogEntry C))

@[simp] theorem lastIncludedIndex_splice :
    (nd.splice m entries).lastIncludedIndex = nd.lastIncludedIndex := by
  obtain ⟨backing, h⟩ := splice_eq nd m entries
  rw [h]

@[simp] theorem lastIncludedTerm_splice :
    (nd.splice m entries).lastIncludedTerm = nd.lastIncludedTerm := by
  obtain ⟨backing, h⟩ := splice_eq nd m entries
  rw [h]

@[simp] theorem log_splice :
    (nd.splice m entries).log = nd.log.take (m - nd.lastIncludedIndex) ++ entries := by
  obtain ⟨backing, h⟩ := splice_eq nd m entries
  rw [h]

/-- At the end of the log nothing is cut. -/
theorem splice_getLogLength : nd.splice nd.getLogLength entries = nd.appendAll entries := by
  have hcut : nd.cutLog nd.log.length = nd := by
    simp [cutLog, Memory.Backing.cut]
  unfold splice getLogLength
  rw [Nat.add_sub_cancel_left, hcut]

variable (hm : nd.lastIncludedIndex < m) (hle : m ≤ nd.getLogLength)

include hm hle

theorem length_take_log :
    (nd.log.take (m - nd.lastIncludedIndex)).length = m - nd.lastIncludedIndex := by
  unfold getLogLength at hle
  rw [List.length_take]
  omega

theorem getLogLength_splice : (nd.splice m entries).getLogLength = m + entries.length := by
  unfold getLogLength
  rw [lastIncludedIndex_splice, log_splice, List.length_append, length_take_log hm hle]
  omega

theorem getLog_splice_of_lt (hi : i < m) : (nd.splice m entries).getLog i = nd.getLog i := by
  have hlen := length_take_log hm hle
  ext e
  rw [getLog_eq_some_iff, getLog_eq_some_iff, lastIncludedIndex_splice, log_splice]
  refine and_congr_right fun hlt => ?_
  rw [List.getElem?_append_left (by omega), List.getElem?_take, if_pos (by omega)]

theorem getLog_splice_of_le (hi : m ≤ i) : (nd.splice m entries).getLog i = entries[i - m]? := by
  have hlen := length_take_log hm hle
  ext e
  rw [getLog_eq_some_iff, lastIncludedIndex_splice, log_splice,
    List.getElem?_append_right (by omega), hlen]
  have hslot : i - nd.lastIncludedIndex - (m - nd.lastIncludedIndex) = i - m := by omega
  rw [hslot]
  exact and_iff_right (hm.trans_le hi)

theorem getTermOfLog_splice_of_lt (hi : i < m) :
    (nd.splice m entries).getTermOfLog i = nd.getTermOfLog i := by
  have hlii : (nd.splice m entries).lastIncludedIndex = nd.lastIncludedIndex :=
    lastIncludedIndex_splice entries
  rcases lt_trichotomy i nd.lastIncludedIndex with hlt | heq | hgt
  · rw [getTermOfLog_of_lt hlt]
    exact getTermOfLog_of_lt (hlii ▸ hlt)
  · have hend : (nd.splice m entries).lastIncludedIndex < (nd.splice m entries).getLogLength := by
      rw [getLogLength_splice entries hm hle, hlii]
      omega
    have hterm := getTermOfLog_lastIncludedIndex hend
    rw [hlii, lastIncludedTerm_splice] at hterm
    rw [heq, hterm, getTermOfLog_lastIncludedIndex (hm.trans_le hle)]
  · rw [getTermOfLog_eq hgt, ← getLog_splice_of_lt entries hm hle hi]
    exact getTermOfLog_eq (hlii ▸ hgt)

end Splice

/-! ### Hearing from a leader -/

/-- What every `AppendEntries` does to role and term. -/
def hear (nd : Node n C D) (term : ℕ) : Node n C D := (nd.observe term).stepDown term

section Hear

variable {nd : Node n C D} {term : ℕ}

/-- Only role, term, vote and the saved state change. -/
theorem hear_eq (nd : Node n C D) (term : ℕ) : ∃ state votedFor persister,
    nd.hear term = { nd with
      state := state, currentTerm := max nd.currentTerm term, votedFor := votedFor,
      persister := persister } := by
  unfold hear observe
  split
  · rename_i hlt
    rw [max_eq_right hlt.le]
    unfold stepDown
    split <;> exact ⟨_, _, _, rfl⟩
  · rename_i hle
    rw [max_eq_left (not_lt.mp hle)]
    unfold stepDown
    split <;> exact ⟨_, _, _, rfl⟩

@[simp] theorem currentTerm_hear : (nd.hear term).currentTerm = max nd.currentTerm term := by
  obtain ⟨_, _, _, h⟩ := hear_eq nd term
  rw [h]

@[simp] theorem commitIndex_hear : (nd.hear term).commitIndex = nd.commitIndex := by
  obtain ⟨_, _, _, h⟩ := hear_eq nd term
  rw [h]

theorem keepsLog_hear : nd.KeepsLog (nd.hear term) := by
  obtain ⟨_, _, _, h⟩ := hear_eq nd term
  rw [h]
  exact ⟨rfl, rfl, rfl⟩

end Hear

/-! ### `AppendEntries` -/

/-- The conditions under which `AppendEntries` succeeds: the request is not of an older term, and
    the entry before the first one it carries is the leader's. -/
def Passes (nd : Node n C D) (args : AppendEntriesArgs n C) : Prop :=
  nd.currentTerm ≤ args.term ∧ nd.getTermOfLog args.prevLogIndex = some args.prevLogTerm

instance (nd : Node n C D) (args : AppendEntriesArgs n C) : Decidable (nd.Passes args) :=
  inferInstanceAs (Decidable (_ ∧ _))

section AppendEntries

variable {nd : Node n C D} {args : AppendEntriesArgs n C} (me : Fin n) (call : ℕ)

theorem passes_appendEntries_iff :
    (nd.appendEntries call args).node.Passes args ↔ nd.Passes args := by
  have hterm : (nd.appendEntries call args).node.currentTerm = max nd.currentTerm args.term :=
    currentTerm_hear
  have hlog : nd.KeepsLog (nd.appendEntries call args).node := keepsLog_hear
  unfold Passes
  rw [hterm, hlog.getTermOfLog_eq, max_le_iff]
  simp

/-- The middle step of an accepted request. -/
theorem appendLog_of_passes (h : nd.Passes args) :
    nd.appendLog call args =
      { node := { nd.copyLog args with held := some (.appendCommit call args) } } := by
  obtain ⟨hterm, hprev⟩ := h
  obtain ⟨hle, hlt⟩ := exists_getTermOfLog_iff.mp ⟨_, hprev⟩
  unfold appendLog
  rw [if_neg (by omega), if_neg (by omega), if_neg (by omega), if_neg (not_not.mpr hprev)]

/-- The middle step of any other request refuses it, unless the process ends because the terms
    differ at index 0. -/
theorem appendLog_of_not_passes (h : ¬ nd.Passes args) :
    (∃ retry, nd.appendLog call args = nd.answer call (.appendEntries
      { term := nd.currentTerm, success := false, nextRetryStartIndex := retry })) ∨
    args.prevLogIndex = 0 ∧ nd.appendLog call args = { node := nd.exit } := by
  unfold appendLog
  by_cases hterm : args.term < nd.currentTerm
  · exact .inl ⟨0, by rw [if_pos hterm]⟩
  by_cases hsnap : nd.lastIncludedIndex > args.prevLogIndex
  · exact .inl ⟨nd.lastIncludedIndex + 1, by rw [if_neg hterm, if_pos hsnap]⟩
  by_cases hend : args.prevLogIndex > nd.getLogLength - 1
  · exact .inl ⟨nd.getLogLength, by rw [if_neg hterm, if_neg hsnap, if_pos hend]⟩
  rw [if_neg hterm, if_neg hsnap, if_neg hend, if_pos fun hprev => h ⟨not_lt.mp hterm, hprev⟩]
  split
  · rename_i hzero
    exact .inr ⟨hzero, rfl⟩
  · exact .inl ⟨_, rfl⟩

/-- `nd` with other locks held. -/
def hold (nd : Node n C D) (held : Option (Held n C D)) : Node n C D := { nd with held := held }

@[simp] theorem getLogLength_hold (nd : Node n C D) (held : Option (Held n C D)) :
    (nd.hold held).getLogLength = nd.getLogLength := rfl

@[simp] theorem getTermOfLog_hold (nd : Node n C D) (held : Option (Held n C D)) (i : ℕ) :
    (nd.hold held).getTermOfLog i = nd.getTermOfLog i := rfl

theorem copyEntry_hold (nd : Node n C D) (held : Option (Held n C D)) (index : ℕ)
    (entry : LogEntry C) :
    (nd.hold held).copyEntry index entry = (nd.copyEntry index entry).hold held := by
  unfold copyEntry
  rw [getLogLength_hold, getTermOfLog_hold]
  by_cases hend : index > nd.getLogLength - 1
  · rw [if_pos hend, if_pos hend]
    rfl
  by_cases hterm : nd.getTermOfLog index ≠ some entry.term
  · rw [if_neg hend, if_neg hend, if_pos hterm, if_pos hterm]
    rfl
  · rw [if_neg hend, if_neg hend, if_neg hterm, if_neg hterm]

theorem copyEntries_hold (nd : Node n C D) (held : Option (Held n C D)) (index : ℕ)
    (entries : List (LogEntry C)) :
    (nd.hold held).copyEntries index entries = (nd.copyEntries index entries).hold held := by
  induction entries generalizing nd index with
  | nil => rfl
  | cons entry entries ih => rw [copyEntries, copyEntry_hold, ih, copyEntries]

theorem copyLog_hold (nd : Node n C D) (held : Option (Held n C D)) (args : AppendEntriesArgs n C) :
    (nd.hold held).copyLog args = (nd.copyLog args).hold held := by
  unfold copyLog
  by_cases hnil : args.entries = []
  · rw [if_pos hnil, if_pos hnil]
  · rw [if_neg hnil, if_neg hnil, copyEntries_hold]
    rfl

theorem followCommit_hold_release (nd : Node n C D) (held : Option (Held n C D))
    (leaderCommit : ℕ) :
    ((nd.hold held).followCommit leaderCommit).release =
      (nd.followCommit leaderCommit).release := by
  have hcommit : (nd.hold held).commitIndex = nd.commitIndex := rfl
  unfold followCommit
  rw [getLogLength_hold, hcommit]
  by_cases hlt : leaderCommit > nd.commitIndex
  · rw [if_pos hlt, if_pos hlt]
    rfl
  · rw [if_neg hlt, if_neg hlt]
    rfl

/-- **An accepted request.** The entries are copied, and the commit index follows. -/
theorem serveAppendEntries_of_passes (h : nd.Passes args) :
    (nd.serveAppendEntries me call args).node =
      (((nd.hear args.term).copyLog args).followCommit args.leaderCommit).release ∧
    (nd.serveAppendEntries me call args).answer = some (call, .appendEntries
      { term := args.term, success := true, nextRetryStartIndex := 0 }) := by
  have hmid : (nd.appendEntries call args).node.Passes args := (passes_appendEntries_iff call).mpr h
  have hnode : (nd.appendEntries call args).node =
      (nd.hear args.term).hold (some (.appendLog call args)) := rfl
  have hterm : ((nd.hear args.term).copyLog args).currentTerm = args.term := by
    have hmax : (nd.hear args.term).currentTerm = args.term :=
      currentTerm_hear.trans (max_eq_right h.1)
    rcases copyLog_eq (nd.hear args.term) args with hcopy | ⟨log, backing, hcopy⟩
    · rw [hcopy, hmax]
    · rw [hcopy]
      exact hmax
  have hserve : nd.serveAppendEntries me call args =
      (((nd.hear args.term).copyLog args).hold (some (.appendCommit call args))).appendCommit me
        call args := by
    unfold serveAppendEntries
    rw [appendLog_of_passes call hmid, hnode, copyLog_hold]
    rfl
  rw [hserve]
  refine ⟨followCommit_hold_release _ _ _, ?_⟩
  show some (call,
    Reply.appendEntries ⟨((nd.hear args.term).copyLog args).currentTerm, true, 0⟩) = _
  rw [hterm]

/-- **A refused request.** Only role and term can change, or the process ends. -/
theorem serveAppendEntries_of_not_passes (h : ¬ nd.Passes args) :
    (∃ retry, nd.serveAppendEntries me call args = (nd.hear args.term).answer call (.appendEntries
      { term := max nd.currentTerm args.term, success := false, nextRetryStartIndex := retry })) ∨
    args.prevLogIndex = 0 ∧ nd.serveAppendEntries me call args =
      { node := ((nd.hear args.term).hold (some (.appendLog call args))).exit } := by
  have hmid : ¬ (nd.appendEntries call args).node.Passes args :=
    (passes_appendEntries_iff call).not.mpr h
  have hterm : (nd.appendEntries call args).node.currentTerm = max nd.currentTerm args.term :=
    currentTerm_hear
  unfold serveAppendEntries
  rcases appendLog_of_not_passes call hmid with ⟨retry, hrefuse⟩ | ⟨hzero, hexit⟩
  · refine .inl ⟨retry, ?_⟩
    rw [hrefuse, hterm]
    rfl
  · refine .inr ⟨hzero, ?_⟩
    rw [hexit]
    rfl

/-! ### What `AppendEntries` does to the log -/

theorem keepsLog_copyEntry {x : Node n C D} (h : nd.KeepsLog x) (index : ℕ) (entry : LogEntry C) :
    (nd.copyEntry index entry).KeepsLog (x.copyEntry index entry) := by
  unfold copyEntry
  rw [h.getLogLength_eq, h.getTermOfLog_eq]
  by_cases hend : index > nd.getLogLength - 1
  · rw [if_pos hend, if_pos hend]
    exact ⟨h.1, congrArg (· ++ [entry]) h.2.1, h.2.2⟩
  by_cases hterm : nd.getTermOfLog index ≠ some entry.term
  · rw [if_neg hend, if_neg hend, if_pos hterm, if_pos hterm]
    refine ⟨h.1, ?_, h.2.2⟩
    show x.log.take (index - x.lastIncludedIndex) ++ [entry] = _
    rw [h.1, h.2.1]
    rfl
  · rw [if_neg hend, if_neg hend, if_neg hterm, if_neg hterm]
    exact h

theorem keepsLog_copyEntries {x : Node n C D} (h : nd.KeepsLog x) (index : ℕ)
    (entries : List (LogEntry C)) :
    (nd.copyEntries index entries).KeepsLog (x.copyEntries index entries) := by
  induction entries generalizing nd x index with
  | nil => exact h
  | cons entry entries ih => exact ih (keepsLog_copyEntry h index entry) (index + 1)

theorem keepsLog_release : nd.KeepsLog nd.release := ⟨rfl, rfl, rfl⟩

theorem keepsLog_followCommit (leaderCommit : ℕ) : nd.KeepsLog (nd.followCommit leaderCommit) := by
  unfold followCommit
  split <;> exact ⟨rfl, rfl, rfl⟩

theorem keepsLog_copyLog :
    (nd.copyEntries (args.prevLogIndex + 1) args.entries).KeepsLog (nd.copyLog args) := by
  unfold copyLog
  split
  · rename_i hnil
    rw [hnil]
    exact ⟨rfl, rfl, rfl⟩
  · exact ⟨rfl, rfl, rfl⟩

/-- An accepted request leaves the log as the copy loop makes it. -/
theorem keepsLog_of_passes (h : nd.Passes args) :
    (nd.copyEntries (args.prevLogIndex + 1) args.entries).KeepsLog
      (nd.serveAppendEntries me call args).node := by
  have hhear : (nd.copyEntries (args.prevLogIndex + 1) args.entries).KeepsLog
      ((nd.hear args.term).copyEntries (args.prevLogIndex + 1) args.entries) :=
    keepsLog_copyEntries keepsLog_hear _ _
  rw [(serveAppendEntries_of_passes me call h).1]
  exact ((hhear.trans keepsLog_copyLog).trans (keepsLog_followCommit _)).trans keepsLog_release

/-- A refused request leaves the log as it is. -/
theorem keepsLog_of_not_passes (h : ¬ nd.Passes args) :
    nd.KeepsLog (nd.serveAppendEntries me call args).node := by
  obtain ⟨_, _, _, hhear⟩ := hear_eq nd args.term
  rcases serveAppendEntries_of_not_passes me call h with ⟨retry, hserve⟩ | ⟨-, hserve⟩
  · rw [hserve, hhear]
    exact ⟨rfl, rfl, rfl⟩
  · rw [hserve, hhear]
    exact ⟨rfl, rfl, rfl⟩

end AppendEntries

end Node

end MitDistributed.Raft
