import MitDistributed.Raft.Calls

namespace MitDistributed.Raft

/-!
# Raft — compacting the log is transparent

`Snapshot` drops the log before an index.  A peer that has done so and one that has not serve the
same calls in the same way, as long as no `AppendEntries` reaches below the snapshot:

* `Node.Compacts nd nd'` — `nd'` is `nd` with the log before some index dropped;
* `Node.Compacts.invoke` — one call gives the same answer at both, and keeps the relation;
* `Node.Compacts.invokeAll` — so does a sequence of calls.
-/

variable {n : ℕ} {C D : Type}

/-! ### Calls and what the caller sees -/

/-- A call that a peer serves. -/
inductive Invocation (n : ℕ) (C : Type)
  | requestVote (args : RequestVoteArgs n)
  | start (command : Option C)
  | appendEntries (args : AppendEntriesArgs n C)
  deriving DecidableEq, Repr

/-- What a caller learns about the state of the cluster.  The hint `NextRetryStartIndex` of a
    refused `AppendEntries` is not part of it. -/
inductive Outcome
  | voted (term : ℕ) (voteGranted : Bool)
  | appended (term : ℕ) (success : Bool)
  | started (index term : ℕ) (isLeader : Bool)
  deriving DecidableEq, Repr

/-- What the reply of a handler tells. -/
def Reply.outcome : Reply → Option Outcome
  | .requestVote reply => some (.voted reply.term reply.voteGranted)
  | .appendEntries reply => some (.appended reply.term reply.success)
  | .installSnapshot _ => none

def Effect.outcome (eff : Effect n C D) : Option Outcome :=
  eff.answer.bind fun answer => answer.2.outcome

namespace Node

/-- Serve a call as a whole.  There is no answer from a process that has ended, and none yet from
    a `Start` that waits until the new leader is initialised. -/
def invoke (me : Fin n) (nd : Node n C D) (call : Invocation n C) : Node n C D × Option Outcome :=
  if nd.exited then (nd, none)
  else match call with
  | .requestVote args =>
    ((nd.serveRequestVote me 0 args).node, (nd.serveRequestVote me 0 args).outcome)
  | .appendEntries args =>
    ((nd.serveAppendEntries me 0 args).node, (nd.serveAppendEntries me 0 args).outcome)
  | .start command =>
    if nd.state = .leaderState then
      if nd.leaderInitDone then
        ((nd.start me command).node, some (.started nd.getLogLength nd.currentTerm true))
      else (nd, none)
    else (nd, some (.started (nd.getLogLength - 1) nd.currentTerm false))

/-- Serve calls one after the other. -/
def invokeAll (me : Fin n) (nd : Node n C D) :
    List (Invocation n C) → Node n C D × List (Option Outcome)
  | [] => (nd, [])
  | call :: calls =>
    let served := nd.invoke me call
    let rest := served.1.invokeAll me calls
    (rest.1, served.2 :: rest.2)

end Node

/-- No index below `index` matters to the call. -/
def Invocation.ReachesDownTo (index : ℕ) : Invocation n C → Prop
  | .appendEntries args => index ≤ args.prevLogIndex
  | _ => True

namespace Node

/-! ### Two peers that differ by a compaction -/

/-- `nd'` holds the log of `nd` from index `base` on, and agrees with it in
    everything else that matters to a call. -/
structure Compacts (base : ℕ) (nd nd' : Node n C D) : Prop where
  lastIncludedIndex : nd'.lastIncludedIndex = base
  state : nd'.state = nd.state
  currentTerm : nd'.currentTerm = nd.currentTerm
  votedFor : nd'.votedFor = nd.votedFor
  commitIndex : nd'.commitIndex = nd.commitIndex
  leaderInitDone : nd'.leaderInitDone = nd.leaderInitDone
  exited : nd'.exited = nd.exited
  pos : 0 < nd'.lastIncludedIndex
  le : nd.lastIncludedIndex ≤ nd'.lastIncludedIndex
  lt : nd'.lastIncludedIndex < nd.getLogLength
  log : nd'.log = nd.log.drop (nd'.lastIncludedIndex - nd.lastIncludedIndex)
  term : nd.getTermOfLog nd'.lastIncludedIndex = some nd'.lastIncludedTerm

namespace Compacts

variable {base : ℕ} {nd nd' : Node n C D} {i : ℕ}

/-! ### The accessors -/

section

variable (h : Compacts base nd nd')

include h

theorem getLogLength_eq : nd'.getLogLength = nd.getLogLength := by
  have hle := h.le
  have hlt := h.lt
  unfold getLogLength at *
  rw [h.log, List.length_drop]
  omega

/-- Above the snapshot both hold the same entries. -/
theorem getLog_eq (hi : nd'.lastIncludedIndex < i) :
    nd'.getLog i = nd.getLog i := by
  have hle := h.le
  unfold getLog
  rw [h.getLogLength_eq, h.log, List.getElem?_drop]
  split
  · rfl
  · rw [if_neg (by omega), if_neg (by omega)]
    congr 1
    omega

/-- From the last entry of the snapshot on, both read the same terms. -/
theorem getTermOfLog_eq (hi : nd'.lastIncludedIndex ≤ i) :
    nd'.getTermOfLog i = nd.getTermOfLog i := by
  rcases hi.eq_or_lt with rfl | hlt
  · rw [h.term, getTermOfLog_lastIncludedIndex (h.getLogLength_eq ▸ h.lt)]
  · rw [Node.getTermOfLog_eq hlt, Node.getTermOfLog_eq (h.le.trans_lt hlt), h.getLog_eq hlt]

/-! ### Changes that keep the relation -/

/-- Changes outside the log. -/
theorem congr {x x' : Node n C D} (hx : nd.KeepsLog x) (hx' : nd'.KeepsLog x')
    (hs : x'.state = x.state) (hc : x'.currentTerm = x.currentTerm) (hv : x'.votedFor = x.votedFor)
    (hm : x'.commitIndex = x.commitIndex) (hd : x'.leaderInitDone = x.leaderInitDone)
    (he : x'.exited = x.exited) :
    Compacts base x x' := by
  have hi := hx.1
  have hl := hx.2.1
  obtain ⟨hi', hl', ht'⟩ := hx'
  refine ⟨hi'.trans h.lastIncludedIndex, hs, hc, hv, hm, hd, he, hi' ▸ h.pos, ?_, ?_, ?_, ?_⟩
  · rw [hi, hi']
    exact h.le
  · rw [hi', hx.getLogLength_eq]
    exact h.lt
  · rw [hl', hl, hi, hi']
    exact h.log
  · rw [hi', ht', hx.getTermOfLog_eq]
    exact h.term

/-- Both logs are cut before the same index, and get the same entries there. -/
theorem splice {m : ℕ} (hm : nd'.lastIncludedIndex < m) (hle : m ≤ nd.getLogLength)
    (entries : List (LogEntry C)) :
    Compacts base (nd.splice m entries) (nd'.splice m entries) := by
  have hbase := h.le
  have hend := getLogLength_splice entries (hbase.trans_lt hm) hle
  have hterm := getTermOfLog_splice_of_lt entries (hbase.trans_lt hm) hle hm
  obtain ⟨backing, hs⟩ := splice_eq nd m entries
  obtain ⟨backing', hs'⟩ := splice_eq nd' m entries
  rw [hs] at hend hterm
  rw [hs, hs']
  refine ⟨h.lastIncludedIndex, h.state, h.currentTerm, h.votedFor, h.commitIndex,
    h.leaderInitDone, h.exited, h.pos, hbase, ?_, ?_, ?_⟩
  · rw [hend]
    exact hm.trans_le (Nat.le_add_right _ _)
  · have hcut := length_take_log (hbase.trans_lt hm) hle
    show nd'.log.take (m - nd'.lastIncludedIndex) ++ entries =
      (nd.log.take (m - nd.lastIncludedIndex) ++ entries).drop
        (nd'.lastIncludedIndex - nd.lastIncludedIndex)
    rw [List.drop_append_of_le_length (by omega), h.log, List.drop_take]
    congr 2
    omega
  · exact hterm.trans h.term

/-- A new entry at the end of both logs. -/
theorem append (e : LogEntry C) :
    Compacts base (nd.appendEntry e) (nd'.appendEntry e) := by
  have happ := h.splice h.lt le_rfl [e]
  rw [splice_getLogLength, ← h.getLogLength_eq, splice_getLogLength] at happ
  exact happ

theorem copyEntry {index : ℕ} (hi : nd'.lastIncludedIndex < index) (entry : LogEntry C) :
    Compacts base (nd.copyEntry index entry) (nd'.copyEntry index entry) := by
  have hlen := h.getLogLength_eq
  unfold Node.copyEntry
  rw [hlen, h.getTermOfLog_eq hi.le]
  by_cases hend : index > nd.getLogLength - 1
  · rw [if_pos hend, if_pos hend]
    exact h.append entry
  by_cases hterm : nd.getTermOfLog index ≠ some entry.term
  · rw [if_neg hend, if_neg hend, if_pos hterm, if_pos hterm]
    exact h.splice hi (by omega) [entry]
  · rw [if_neg hend, if_neg hend, if_neg hterm, if_neg hterm]
    exact h

theorem copyEntries {index : ℕ} (hi : nd'.lastIncludedIndex < index) (entries : List (LogEntry C)) :
    Compacts base (nd.copyEntries index entries) (nd'.copyEntries index entries) := by
  induction entries generalizing nd nd' index with
  | nil => exact h
  | cons entry entries ih =>
    obtain ⟨log, backing, hcopy⟩ := copyEntry_eq nd' index entry
    exact ih (h.copyEntry hi entry) (by rw [hcopy]; exact Nat.lt_succ_of_lt hi)

theorem persist : Compacts base nd.persist nd'.persist :=
  h.congr ⟨rfl, rfl, rfl⟩ ⟨rfl, rfl, rfl⟩ h.state h.currentTerm h.votedFor h.commitIndex
    h.leaderInitDone h.exited

end

variable {args : AppendEntriesArgs n C}

variable (h : Compacts base nd nd')

include h

theorem copyLog (hi : nd'.lastIncludedIndex ≤ args.prevLogIndex) :
    Compacts base (nd.copyLog args) (nd'.copyLog args) := by
  unfold Node.copyLog
  split
  · exact h
  · exact (h.copyEntries (Nat.lt_succ_of_le hi) args.entries).persist

theorem hold (held held' : Option (Held n C D)) :
    Compacts base (nd.hold held) (nd'.hold held') :=
  h.congr ⟨rfl, rfl, rfl⟩ ⟨rfl, rfl, rfl⟩ h.state h.currentTerm h.votedFor h.commitIndex
    h.leaderInitDone h.exited

theorem release : Compacts base nd.release nd'.release :=
  h.hold none none

/-- Role and term change in the same way. -/
theorem observe (term : ℕ) :
    Compacts base (nd.observe term) (nd'.observe term) := by
  unfold Node.observe
  rw [h.currentTerm]
  split
  · exact h.congr ⟨rfl, rfl, rfl⟩ ⟨rfl, rfl, rfl⟩ rfl rfl rfl h.commitIndex h.leaderInitDone
      h.exited
  · exact h

theorem stepDown (term : ℕ) :
    Compacts base (nd.stepDown term) (nd'.stepDown term) := by
  unfold Node.stepDown
  rw [h.state, h.currentTerm]
  split
  · exact h.congr ⟨rfl, rfl, rfl⟩ ⟨rfl, rfl, rfl⟩ rfl rfl h.votedFor h.commitIndex
      h.leaderInitDone h.exited
  · exact h

theorem hear (term : ℕ) : Compacts base (nd.hear term) (nd'.hear term) :=
  (h.observe term).stepDown term

theorem followCommit (leaderCommit : ℕ) :
    Compacts base (nd.followCommit leaderCommit) (nd'.followCommit leaderCommit) := by
  unfold Node.followCommit
  rw [h.getLogLength_eq, h.commitIndex]
  split
  · exact h.congr ⟨rfl, rfl, rfl⟩ ⟨rfl, rfl, rfl⟩ h.state h.currentTerm h.votedFor rfl
      h.leaderInitDone h.exited
  · exact h

theorem start (me : Fin n) (command : Option C) :
    Compacts base (nd.start me command).node (nd'.start me command).node := by
  unfold Node.start
  rw [h.state]
  split
  · have hlog : nd'.log ++ [LogEntry.mk nd'.currentTerm command] =
        nd'.log ++ [LogEntry.mk nd.currentTerm command] := by rw [h.currentTerm]
    exact (h.append ⟨nd.currentTerm, command⟩).congr ⟨rfl, rfl, rfl⟩ ⟨rfl, hlog, rfl⟩ h.state
      h.currentTerm h.votedFor h.commitIndex h.leaderInitDone h.exited
  · exact h

/-! ### The calls -/

theorem passes_iff (hi : nd'.lastIncludedIndex ≤ args.prevLogIndex) :
    nd'.Passes args ↔ nd.Passes args := by
  unfold Passes
  rw [h.currentTerm, h.getTermOfLog_eq hi]

theorem serveAppendEntries (me : Fin n) (call : ℕ)
    (hi : nd'.lastIncludedIndex ≤ args.prevLogIndex) :
    Compacts base (nd.serveAppendEntries me call args).node
        (nd'.serveAppendEntries me call args).node ∧
      (nd'.serveAppendEntries me call args).outcome =
        (nd.serveAppendEntries me call args).outcome := by
  by_cases hpass : nd.Passes args
  · obtain ⟨hnode, hans⟩ := serveAppendEntries_of_passes me call hpass
    obtain ⟨hnode', hans'⟩ :=
      serveAppendEntries_of_passes me call ((h.passes_iff hi).mpr hpass)
    rw [hnode, hnode', Effect.outcome, Effect.outcome, hans, hans']
    have hcopy :
        Compacts base ((nd.hear args.term).copyLog args) ((nd'.hear args.term).copyLog args) :=
      (h.hear args.term).copyLog (keepsLog_hear.1.trans_le hi)
    exact ⟨(hcopy.followCommit args.leaderCommit).release, rfl⟩
  · -- index 0 lies below the snapshot, so neither process ends
    have hprev : args.prevLogIndex ≠ 0 := by
      have hpos := h.pos
      omega
    rcases serveAppendEntries_of_not_passes me call hpass with
      ⟨retry, hserve⟩ | ⟨hzero, -⟩
    · rcases serveAppendEntries_of_not_passes me call
          (fun hpass' => hpass ((h.passes_iff hi).mp hpass')) with ⟨retry', hserve'⟩ | ⟨hzero, -⟩
      · rw [hserve, hserve', h.currentTerm]
        exact ⟨(h.hear args.term).release, rfl⟩
      · exact absurd hzero hprev
    · exact absurd hzero hprev

theorem isNewerThanMe_eq (args : RequestVoteArgs n) :
    nd'.isNewerThanMe args = nd.isNewerThanMe args := by
  have hlt := h.lt
  have hlast : nd'.lastIncludedIndex ≤ nd.getLogLength - 1 := by omega
  unfold isNewerThanMe
  rw [h.getLogLength_eq, h.getTermOfLog_eq hlast]

theorem serveRequestVote (me : Fin n) (call : ℕ) (args : RequestVoteArgs n) :
    Compacts base (nd.serveRequestVote me call args).node (nd'.serveRequestVote me call args).node ∧
      (nd'.serveRequestVote me call args).outcome =
        (nd.serveRequestVote me call args).outcome := by
  -- the handler after its first step
  have hmid : Compacts base (nd.requestVote call args).node (nd'.requestVote call args).node :=
    (h.observe args.term).hold _ _
  unfold Node.serveRequestVote
  generalize (nd.requestVote call args).node = x at hmid ⊢
  generalize (nd'.requestVote call args).node = x' at hmid ⊢
  unfold resumeRequestVote
  rw [hmid.currentTerm, hmid.votedFor, hmid.isNewerThanMe_eq]
  split
  · cases x.isNewerThanMe args with
    | none =>
      exact ⟨hmid.congr ⟨rfl, rfl, rfl⟩ ⟨rfl, rfl, rfl⟩ hmid.state hmid.currentTerm hmid.votedFor
        hmid.commitIndex hmid.leaderInitDone rfl, rfl⟩
    | some newer =>
      cases newer with
      | false => exact ⟨hmid.release, rfl⟩
      | true =>
        exact ⟨hmid.congr ⟨rfl, rfl, rfl⟩ ⟨rfl, rfl, rfl⟩ hmid.state rfl rfl hmid.commitIndex
          hmid.leaderInitDone hmid.exited, rfl⟩
  · exact ⟨hmid.release, rfl⟩

/-- **One call.** It gives the same answer at both peers, and keeps the relation. -/
theorem invoke (me : Fin n) {call : Invocation n C} (hcall : call.ReachesDownTo base) :
    Compacts base (nd.invoke me call).1 (nd'.invoke me call).1 ∧
      (nd'.invoke me call).2 = (nd.invoke me call).2 := by
  unfold Node.invoke
  rw [h.exited]
  split
  · exact ⟨h, rfl⟩
  cases call with
  | requestVote args => exact h.serveRequestVote me 0 args
  | appendEntries args => exact h.serveAppendEntries me 0 (h.lastIncludedIndex.trans_le hcall)
  | start command =>
    dsimp only
    rw [h.state, h.leaderInitDone, h.getLogLength_eq, h.currentTerm]
    split
    · split
      · exact ⟨h.start me command, rfl⟩
      · exact ⟨h, rfl⟩
    · exact ⟨h, rfl⟩

/-- **A sequence of calls.** -/
theorem invokeAll (me : Fin n) {calls : List (Invocation n C)}
    (hcalls : ∀ call ∈ calls, call.ReachesDownTo base) :
    Compacts base (nd.invokeAll me calls).1 (nd'.invokeAll me calls).1 ∧
      (nd'.invokeAll me calls).2 = (nd.invokeAll me calls).2 := by
  induction calls generalizing nd nd' with
  | nil => exact ⟨h, rfl⟩
  | cons call calls ih =>
    obtain ⟨hcall, hrest⟩ := List.forall_mem_cons.mp hcalls
    obtain ⟨hone, hans⟩ := h.invoke me hcall
    obtain ⟨hall, hanss⟩ := ih hone hrest
    refine ⟨hall, ?_⟩
    show (nd'.invoke me call).2 :: _ = (nd.invoke me call).2 :: _
    rw [hans, hanss]

end Compacts

/-! ### `Snapshot` -/

/-- `Snapshot` does not return early, and does not end the process. -/
def AcceptsSnapshot (nd : Node n C D) (index : ℕ) : Prop :=
  nd.lastIncludedIndex < index ∧ index ≤ nd.commitIndex ∧ index ≤ nd.lastApplied ∧
    index < nd.getLogLength

instance (nd : Node n C D) (index : ℕ) : Decidable (nd.AcceptsSnapshot index) :=
  inferInstanceAs (Decidable (_ ∧ _ ∧ _ ∧ _))

theorem compacts_serveSnapshot {nd : Node n C D} {index : ℕ} (h : nd.AcceptsSnapshot index)
    (me : Fin n) (snapshot : Option D) :
    Compacts index nd (nd.serveSnapshot me index snapshot).node := by
  obtain ⟨hlt, hcommit, happlied, hlen⟩ := h
  obtain ⟨term, hterm⟩ := exists_getTermOfLog_iff.mpr ⟨hlt.le, hlen⟩
  have hserve : (nd.serveSnapshot me index snapshot).node =
      ((nd.compact index term).saveStateAndSnapshot none snapshot).release := by
    unfold serveSnapshot Node.snapshot
    rw [if_neg (by omega), hterm]
    rfl
  rw [hserve]
  exact ⟨rfl, rfl, rfl, rfl, rfl, rfl, rfl, Nat.zero_lt_of_lt hlt, hlt.le, hlen, rfl, hterm⟩

/-- **Log compaction is transparent.** After `Snapshot(index)` the terms from `index` on and the
    entries above it read as before; and whatever calls follow, the peer answers them as it would
    have done with its whole log, and ends with the same commit index and the same entries. -/
theorem compaction_is_transparent (me : Fin n) (nd : Node n C D) (index : ℕ) (snapshot : Option D)
    (h : nd.AcceptsSnapshot index) :
    let compacted := (nd.serveSnapshot me index snapshot).node
    (∀ j ≥ index, compacted.getTermOfLog j = nd.getTermOfLog j) ∧
    (∀ j > index, compacted.getLog j = nd.getLog j) ∧
    ∀ calls : List (Invocation n C), (∀ call ∈ calls, call.ReachesDownTo index) →
      (compacted.invokeAll me calls).2 = (nd.invokeAll me calls).2 ∧
      (compacted.invokeAll me calls).1.commitIndex = (nd.invokeAll me calls).1.commitIndex ∧
      ∀ j > index,
        (compacted.invokeAll me calls).1.getLog j = (nd.invokeAll me calls).1.getLog j := by
  intro compacted
  have hcompact : Compacts index nd compacted := compacts_serveSnapshot h me snapshot
  have hbase := hcompact.lastIncludedIndex
  refine ⟨fun j hj => hcompact.getTermOfLog_eq (hbase.trans_le hj),
    fun j hj => hcompact.getLog_eq (hbase.trans_lt hj), ?_⟩
  intro calls hcalls
  obtain ⟨hafter, hans⟩ := hcompact.invokeAll me hcalls
  exact ⟨hans, hafter.commitIndex,
    fun j hj => hafter.getLog_eq (hafter.lastIncludedIndex.trans_lt hj)⟩

end Node

/-- A follower with two entries, of which it has applied the first. -/
def appliedOne : Node 3 ℕ ℕ :=
  { Node.make { raftstate := none, snapshot := none } (fun _ => 0) with
    currentTerm := 1
    log := [⟨0, none⟩, ⟨1, some 7⟩, ⟨1, some 8⟩]
    commitIndex := 1
    lastApplied := 1 }

/-- A new leader overwrites the second entry, and a candidate asks for a vote. -/
def callsAfterOne : List (Invocation 3 ℕ) :=
  [.appendEntries ⟨2, 1, [⟨2, some 9⟩, ⟨2, some 10⟩], 1, 1, 3⟩, .requestVote ⟨3, 2, 3, 1⟩]

theorem compaction_is_transparent_appliedOne :
    appliedOne.AcceptsSnapshot 1 ∧
      ((appliedOne.serveSnapshot 0 1 (some 7)).node.invokeAll 0 callsAfterOne).2 =
        (appliedOne.invokeAll 0 callsAfterOne).2 ∧
      (appliedOne.invokeAll 0 callsAfterOne).2 =
        [some (.appended 2 true), some (.voted 3 false)] :=
  ⟨by decide,
    ((Node.compaction_is_transparent 0 appliedOne 1 (some 7) (by decide)).2.2 callsAfterOne
      (by simp [callsAfterOne, Invocation.ReachesDownTo])).1,
    by decide⟩

end MitDistributed.Raft
