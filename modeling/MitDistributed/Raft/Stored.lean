import MitDistributed.Raft.Election

namespace MitDistributed.Raft

open Transition

/-!
# Raft — which steps write the log

Only seven kinds of step write the log of a peer, its snapshot, or the part of the trace that
tells about them: the two steps of `AppendEntries` that copy entries and answer, the steps of
`InstallSnapshot` and `Snapshot` that compact the log and save the snapshot, `Start`, and a
restart.  `Stored` lists them; every other step leaves the log alone (`Node.Leaves`).  A first
consequence: slot 0 of a log, which stands for what is compacted, is never lost.
-/

variable {n : ℕ} {C D : Type}

/-- The snapshot that a handler has still to save. -/
def Held.saving : Held n C D → Option (Option D)
  | .installIndex _ args _ => some args.data
  | .installSave _ args => some args.data
  | .snapshotSave snapshot => some snapshot
  | _ => none

/-- Whether an event tells about the log or the snapshot of a peer. -/
def Event.isStored : Event n C D → Bool
  | .accepted .. => true
  | .started .. => true
  | .snapshotted .. => true
  | .installed .. => true
  | _ => false

namespace Node

/-- The snapshot that the peer is about to save. -/
def saving (nd : Node n C D) : Option (Option D) := nd.held.bind Held.saving

/-- The log, the snapshot and what is about to be saved are the same. -/
structure SameStore (nd nd' : Node n C D) : Prop where
  log : nd'.log = nd.log
  backing : nd'.backing = nd.backing
  lastIncludedIndex : nd'.lastIncludedIndex = nd.lastIncludedIndex
  lastIncludedTerm : nd'.lastIncludedTerm = nd.lastIncludedTerm
  snapshot : nd'.persister.snapshot = nd.persister.snapshot
  saving : nd'.saving = nd.saving

/-- A step that leaves the log and the snapshot alone. -/
structure Leaves (nd : Node n C D) (eff : Effect n C D) : Prop where
  same : nd.SameStore eff.node
  events : ∀ e ∈ eff.events, e.isStored = false

namespace SameStore

variable {nd nd' nd'' : Node n C D}

theorem refl (nd : Node n C D) : nd.SameStore nd := ⟨rfl, rfl, rfl, rfl, rfl, rfl⟩

theorem trans (h : nd.SameStore nd') (h' : nd'.SameStore nd'') : nd.SameStore nd'' where
  log := h'.log.trans h.log
  backing := h'.backing.trans h.backing
  lastIncludedIndex := h'.lastIncludedIndex.trans h.lastIncludedIndex
  lastIncludedTerm := h'.lastIncludedTerm.trans h.lastIncludedTerm
  snapshot := h'.snapshot.trans h.snapshot
  saving := h'.saving.trans h.saving

theorem observe (nd : Node n C D) (t : ℕ) : nd.SameStore (nd.observe t) := by
  unfold Node.observe
  split <;> exact ⟨rfl, rfl, rfl, rfl, rfl, rfl⟩

theorem advanceMatch (nd : Node n C D) (peer : Fin n) (index : ℕ) :
    nd.SameStore (nd.advanceMatch peer index) := by
  unfold Node.advanceMatch
  split <;> exact ⟨rfl, rfl, rfl, rfl, rfl, rfl⟩

theorem leaves {eff : Effect n C D} (h : nd.SameStore eff.node) (he : eff.events = []) :
    nd.Leaves eff :=
  ⟨h, by simp [he]⟩

end SameStore

/-! ### The goroutines -/

variable {me : Fin n} {nd : Node n C D} {eff : Effect n C D}

theorem threadReply_leaves {fresh k call : ℕ} {request : Call n C D} {ok : Bool}
    (h : nd.threadReply me fresh k call request ok = some eff) : nd.Leaves eff := by
  have hobs (t : ℕ) := SameStore.observe nd t
  have hadv (t : ℕ) (peer : Fin n) (index : ℕ) :=
    (hobs t).trans (SameStore.advanceMatch (nd.observe t) peer index)
  cases threadReply_cases h with
  | voteCounted | beatRefused | appendDeposed =>
    exact SameStore.leaves ((hobs _).trans ⟨rfl, rfl, rfl, rfl, rfl, rfl⟩) rfl
  | voteWon => exact ⟨⟨rfl, rfl, rfl, rfl, rfl, rfl⟩, by simp [Event.isStored]⟩
  | beatMatched | appendMatched =>
    exact SameStore.leaves ((hadv _ _ _).trans ⟨rfl, rfl, rfl, rfl, rfl, rfl⟩) rfl
  | _ => exact SameStore.leaves ⟨rfl, rfl, rfl, rfl, rfl, rfl⟩ rfl

/-! ### The handlers -/

theorem held_of_raftStateFree (h : nd.raftStateFree = true) : nd.held = none := by
  simpa [raftStateFree] using h

theorem held_of_logFree (h : nd.logFree = true) : nd.held = none := by
  simp only [logFree, Bool.and_eq_true, Option.isNone_iff_eq_none] at h
  exact h.1

theorem handle_leaves {call : ℕ} {request : Request n C D}
    (h : nd.handle call request = some eff) : nd.Leaves eff := by
  -- the handler starts with its locks free, so that nothing was about to be saved
  have hstart {nd' nd'' : Node n C D} (hh : nd.held = none) (hsame : nd.SameStore nd')
      (hl : nd''.log = nd'.log) (hb : nd''.backing = nd'.backing)
      (hi : nd''.lastIncludedIndex = nd'.lastIncludedIndex)
      (ht : nd''.lastIncludedTerm = nd'.lastIncludedTerm)
      (hs : nd''.persister = nd'.persister) (hsv : nd''.saving = none) : nd.SameStore nd'' :=
    ⟨hl.trans hsame.log, hb.trans hsame.backing, hi.trans hsame.lastIncludedIndex,
      ht.trans hsame.lastIncludedTerm, (congrArg Persister.snapshot hs).trans hsame.snapshot,
      by rw [hsv, saving, hh]; rfl⟩
  cases handle_cases h with
  | requestVote args hfree =>
    exact SameStore.leaves (hstart (held_of_raftStateFree hfree) (.observe nd args.term)
      rfl rfl rfl rfl rfl rfl) rfl
  | appendEntries args hfree =>
    have hdown : nd.SameStore ((nd.observe args.term).stepDown args.term) := by
      refine (SameStore.observe nd args.term).trans ?_
      unfold stepDown
      split <;> exact ⟨rfl, rfl, rfl, rfl, rfl, rfl⟩
    exact SameStore.leaves (hstart (held_of_logFree hfree) hdown rfl rfl rfl rfl rfl rfl) rfl
  | installSnapshot args hfree =>
    exact SameStore.leaves (hstart (held_of_logFree hfree) (.observe nd args.term)
      rfl rfl rfl rfl rfl rfl) rfl

theorem saving_of_held {held : Held n C D} (hh : nd.held = some held) :
    nd.saving = held.saving := by
  rw [saving, hh]
  rfl

/-- A handler that returns without having saved anything. -/
theorem leaves_answer {held : Held n C D} (hh : nd.held = some held) (hs : held.saving = none)
    (call : ℕ) (reply : Reply) : nd.Leaves (nd.answer call reply) :=
  SameStore.leaves ⟨rfl, rfl, rfl, rfl, rfl, ((saving_of_held hh).trans hs).symm⟩ rfl

end Node

/-- The answer of `AppendEntries` writes neither log nor term. -/
theorem Node.appendCommit_fields (me : Fin n) (nd : Node n C D) (call : ℕ)
    (args : AppendEntriesArgs n C) :
    (nd.appendCommit me call args).node.log = nd.log ∧
    (nd.appendCommit me call args).node.lastIncludedIndex = nd.lastIncludedIndex ∧
    (nd.appendCommit me call args).node.lastIncludedTerm = nd.lastIncludedTerm ∧
    (nd.appendCommit me call args).node.currentTerm = nd.currentTerm := by
  simp only [appendCommit, followCommit]
  split <;> exact ⟨rfl, rfl, rfl, rfl⟩

/-! ### The steps that write -/

/-- The conditions under which `AppendEntries` copies the entries of a request. -/
@[mk_iff]
structure Node.Accepts (nd : Node n C D) (args : AppendEntriesArgs n C) : Prop where
  term : nd.currentTerm ≤ args.term
  lastIncluded : nd.lastIncludedIndex ≤ args.prevLogIndex
  bound : args.prevLogIndex ≤ nd.getLogLength - 1
  prevLogTerm : nd.getTermOfLog args.prevLogIndex = some args.prevLogTerm

/-- The log reaches up to the entry before the received ones. -/
theorem Node.Accepts.prev_lt {nd : Node n C D} {args : AppendEntriesArgs n C} (h : nd.Accepts args)
    (hne : nd.log ≠ []) : args.prevLogIndex + 1 ≤ nd.getLogLength := by
  have hle := h.bound
  have hpos := List.length_pos_iff.mpr hne
  unfold getLogLength at hle ⊢
  omega

section

variable (w : World n C D) (p : Fin n)

/-- What a step of peer `p` means for its log and its snapshot. -/
inductive Stored : Effect n C D → Action n C D → Prop
  /-- nothing -/
  | leave (hl : (w.nodes p).Leaves eff) : Stored eff a
  /-- `AppendEntries` copies the entries of the request -/
  | copy (hh : (w.nodes p).held = some (.appendLog call args)) (hacc : (w.nodes p).Accepts args) :
      Stored
        { node := { (w.nodes p).copyLog args with held := some (.appendCommit call args) } }
        (.resume p)
  /-- `AppendEntries` answers -/
  | accept (hh : (w.nodes p).held = some (.appendCommit call args)) :
      Stored ((w.nodes p).appendCommit p call args) (.resume p)
  /-- `InstallSnapshot` takes a snapshot over -/
  | install (hh : (w.nodes p).held = some (.installLog call args))
      (hi : (w.nodes p).installs args) :
      Stored
        { node :=
            { (w.nodes p).install args with held := some (.installIndex call args .testCommit) }
          events := [.installed p args.lastIncludedIndex args.data] } (.resume p)
  /-- `InstallSnapshot` saves it -/
  | installSave (hh : (w.nodes p).held = some (.installSave call args)) :
      Stored ((w.nodes p).installSave call args) (.resume p)
  /-- `Snapshot` compacts the log -/
  | compact (hfree : (w.nodes p).held = none) (hlt : (w.nodes p).lastIncludedIndex < index)
      (hle : index ≤ (w.nodes p).commitIndex) (hle' : index ≤ (w.nodes p).lastApplied)
      (ht : (w.nodes p).getTermOfLog index = some term) :
      Stored
        { node := { (w.nodes p).compact index term with held := some (.snapshotSave snapshot) }
          events := [.snapshotted p index snapshot] } (.snapshot p index snapshot)
  /-- `Snapshot` saves the snapshot -/
  | snapshotSave (hh : (w.nodes p).held = some (.snapshotSave snapshot)) :
      Stored ((w.nodes p).snapshotSave snapshot) (.resume p)
  /-- `Start` at a leader -/
  | start (hfree : (w.nodes p).held = none) (hs : (w.nodes p).state = .leaderState)
      (hi : (w.nodes p).leaderInitDone = true) :
      Stored
        { node := ((w.nodes p).appendCommand p command).go
            (.sendAppendEntriesToAll (w.nodes p).currentTerm none)
          events := [.started p (w.nodes p).getLogLength (w.nodes p).currentTerm command
            (w.nodes p).lastIncludedIndex ((w.nodes p).appendCommand p command).log] }
        (.start p command)
  /-- a restart -/
  | restart : Stored ((w.nodes p).restart p) (.restart p)

end

namespace World

variable {w : World n C D} {p : Fin n} {eff : Effect n C D} {a : Action n C D}

theorem resume_stored (h : (w.nodes p).resume p = some eff) : Stored w p eff (.resume p) := by
  cases Node.resume_cases h with
  | refuseVote hh | refuseAppend hh | ignoreSnapshot hh =>
    exact .leave (Node.leaves_answer hh rfl _ _)
  | grantVote hh =>
    have hsame : (w.nodes p).saving = none := Node.saving_of_held hh
    exact .leave ⟨⟨rfl, rfl, rfl, rfl, rfl, hsame.symm⟩, by simp [Event.isStored]⟩
  | voteExit | appendExit => exact .leave (Node.SameStore.leaves ⟨rfl, rfl, rfl, rfl, rfl, rfl⟩ rfl)
  | copyLog hh ht hlii hlen hprev =>
    exact .copy hh ⟨not_lt.mp ht, not_lt.mp hlii, not_lt.mp hlen, hprev⟩
  | appendCommit hh => exact .accept hh
  | install hh hi => exact .install hh hi
  | installTest hh ht =>
    refine .leave (Node.SameStore.leaves ⟨rfl, rfl, rfl, rfl, rfl, ?_⟩ rfl)
    rw [Node.saving_of_held hh]
    cases ht <;> rfl
  | setCommit hh | setApplied hh =>
    exact .leave (Node.SameStore.leaves
      ⟨rfl, rfl, rfl, rfl, rfl, (Node.saving_of_held hh).symm⟩ rfl)
  | installSave hh => exact .installSave hh
  | installSend hh =>
    exact .leave ⟨⟨rfl, rfl, rfl, rfl, rfl, (Node.saving_of_held hh).symm⟩,
      by simp [Node.installSend, Event.isStored]⟩
  | snapshotSave hh => exact .snapshotSave hh

theorem trySnapshot_stored {index : ℕ} {snapshot : Option D}
    (h : (w.nodes p).trySnapshot p index snapshot = some eff) :
    Stored w p eff (.snapshot p index snapshot) := by
  cases Node.trySnapshot_cases h with
  | ignore => exact .leave (Node.SameStore.leaves (.refl _) rfl)
  | exit => exact .leave (Node.SameStore.leaves ⟨rfl, rfl, rfl, rfl, rfl, rfl⟩ rfl)
  | compact hfree hlt hle hle' ht => exact .compact (Node.held_of_logFree hfree) hlt hle hle' ht

/-- **Classification.** Every step leaves the log and the snapshot alone, or is one of the
    steps that write them. -/
theorem local_stored (h : Local w p eff a) : Stored w p eff a := by
  cases h with
  | main h =>
    cases Node.mainStep_cases h <;> exact .leave
      ⟨⟨rfl, rfl, rfl, rfl, rfl, rfl⟩, by simp [Node.doElection, Event.isStored]⟩
  | thread k h =>
    cases Node.threadStep_cases h <;>
      exact .leave (Node.SameStore.leaves ⟨rfl, rfl, rfl, rfl, rfl, rfl⟩ rfl)
  | reply k call ok request _ h => exact .leave (Node.threadReply_leaves h)
  | apply h =>
    cases Node.applyStep_cases h <;>
      exact .leave ⟨⟨rfl, rfl, rfl, rfl, rfl, rfl⟩, by simp [Event.isStored]⟩
  | deliver call request _ _ h => exact .leave (Node.handle_leaves h)
  | resume h => exact resume_stored h
  | start command h =>
    cases Node.tryStart_cases h with
    | append hs hfree _ hi => exact .start (Node.held_of_logFree hfree) hs hi
    | ignore => exact .leave (Node.SameStore.leaves (.refl _) rfl)
  | snapshot index snapshot h => exact trySnapshot_stored h
  | restart h => subst h; exact .restart

/-- The step of `AppendEntries` that copies the entries of its request. -/
def Copies (w : World n C D) (p : Fin n) (eff : Effect n C D) (call : ℕ)
    (args : AppendEntriesArgs n C) : Prop :=
  (w.nodes p).held = some (.appendLog call args) ∧ (w.nodes p).Accepts args ∧
    eff = { node := { (w.nodes p).copyLog args with held := some (.appendCommit call args) } }

theorem resume_copies (h : (w.nodes p).resume p = some eff) {call : ℕ}
    {args : AppendEntriesArgs n C} (hh : eff.node.held = some (.appendCommit call args)) :
    Copies w p eff call args := by
  cases Node.resume_cases h with
  | voteExit hheld | appendExit hheld =>
    exact absurd (Option.some.inj (hheld.symm.trans hh)) (by simp)
  | copyLog hheld ht hlii hlen hprev =>
    cases hh
    exact ⟨hheld, ⟨not_lt.mp ht, not_lt.mp hlii, not_lt.mp hlen, hprev⟩, rfl⟩
  | installTest _ htest => cases htest <;> cases hh
  | _ => cases hh

/-- A handler that is ready to answer `Success` was ready before, or has just copied. -/
theorem held_appendCommit (h : Local w p eff a) {call : ℕ} {args : AppendEntriesArgs n C}
    (hh : eff.node.held = some (.appendCommit call args)) :
    (w.nodes p).held = some (.appendCommit call args) ∨ Copies w p eff call args := by
  cases h with
  | main h => exact .inl (Node.mainStep_held h ▸ hh)
  | thread k h => exact .inl (Node.threadStep_held h ▸ hh)
  | reply k call' ok request hc h => exact .inl (Node.threadReply_held h ▸ hh)
  | apply h => exact .inl (Node.applyStep_held h ▸ hh)
  | deliver call' request hc hp h =>
    generalize request.request = r at h
    cases Node.handle_cases h <;> cases hh
  | resume h => exact .inr (resume_copies h hh)
  | start command h => exact .inl (Node.tryStart_held h ▸ hh)
  | snapshot index snapshot h =>
    rcases Node.trySnapshot_held h with hk | hk
    · exact .inl (hk ▸ hh)
    · rw [hk] at hh; cases hh
  | restart h =>
    subst h
    exact absurd hh (by simp [Node.restart, Node.make_held])

/-- The log under an answer that is about to be given. -/
theorem appendCommit_of_local (hl : Local w p eff a) {call : ℕ} {args : AppendEntriesArgs n C}
    (hheld : eff.node.held = some (.appendCommit call args)) :
    eff.node.lastIncludedIndex = (w.nodes p).lastIncludedIndex ∧
      ((w.nodes p).held = some (.appendCommit call args) ∧ eff.node.log = (w.nodes p).log ∨
        (w.nodes p).Accepts args ∧ eff.node.log = ((w.nodes p).copyLog args).log) := by
  rcases held_appendCommit hl hheld with hold | ⟨-, hacc, rfl⟩
  · cases local_stored hl with
    | leave hs => exact ⟨hs.same.lastIncludedIndex, .inl ⟨hold, hs.same.log⟩⟩
    | accept => cases hheld
    | copy hh | install hh | installSave hh | snapshotSave hh | compact hh | start hh =>
      cases hh.symm.trans hold
    | restart => exact absurd hheld (by simp [Node.restart, Node.make_held])
  · refine ⟨?_, .inr ⟨hacc, rfl⟩⟩
    rcases Node.copyLog_eq (w.nodes p) args with hc | ⟨log, backing, hc⟩ <;> rw [hc]
    rfl

end World

/-! ### Slot 0 -/

namespace Node

variable {nd : Node n C D}

theorem copyLog_ne_nil (args : AppendEntriesArgs n C) (h : nd.log ≠ []) :
    (nd.copyLog args).log ≠ [] := by
  have hentries (entries : List (LogEntry C)) (nd : Node n C D) (index : ℕ) (h : nd.log ≠ []) :
      (nd.copyEntries index entries).log ≠ [] := by
    induction entries generalizing nd index with
    | nil => exact h
    | cons entry entries ih =>
      refine ih (nd.copyEntry index entry) (index + 1) ?_
      unfold copyEntry
      repeat' split
      · simp [appendEntry]
      · simp [appendEntry]
      · exact h
  unfold copyLog
  split
  · exact h
  · exact hentries args.entries nd (args.prevLogIndex + 1) h

theorem getTermOfLog_lt {index term : ℕ} (h : nd.getTermOfLog index = some term) :
    index < nd.getLogLength := by
  unfold getTermOfLog at h
  split at h
  · cases h
  · omega

theorem make_ne_nil (hd : nd.Durable) (h : nd.log ≠ []) :
    (make nd.persister nd.backing.room).log ≠ [] := by
  cases hr : nd.persister.raftstate with
  | none =>
    have hlog : (make nd.persister nd.backing.room).log = [LogEntry.zero] :=
      congrArg RaftBytes.log (make_fresh _ (.inl hr)).bytes
    simp [hlog]
  | some b =>
    have hlog : (make nd.persister nd.backing.room).log = nd.log :=
      congrArg RaftBytes.log ((make_bytes _ hr).trans (hd b hr))
    rw [hlog]
    exact h

end Node

namespace World

variable {w : World n C D} {p : Fin n} {eff : Effect n C D} {a : Action n C D}

theorem ne_nil_of_stored (hs : Stored w p eff a) (hw : w.Plumbed)
    (h : (w.nodes p).log ≠ []) : eff.node.log ≠ [] := by
  cases hs with
  | leave hl => rw [hl.same.log]; exact h
  | @copy call args => exact Node.copyLog_ne_nil args h
  | accept => rw [(Node.appendCommit_fields p _ _ _).1]; exact h
  | install => simp [Node.install, Node.persist, Node.moveLog]
  | installSave => exact h
  | compact hfree hlt hle hle' ht =>
    have hidx := Node.getTermOfLog_lt ht
    unfold Node.getLogLength at hidx
    simp only [Node.compact, Node.persist, Node.moveLog, ne_eq, List.drop_eq_nil_iff]
    omega
  | snapshotSave => exact h
  | start => simp [Node.appendCommand, Node.persist, Node.go, Node.appendEntry]
  | restart => exact Node.make_ne_nil (hw.durable p) h

/-- In every run slot 0 of every log is there. -/
theorem Reachable.log_ne_nil {ok : World n C D → Action n C D → Prop} (h : Reachable ok w)
    (p : Fin n) : (w.nodes p).log ≠ [] := by
  induction h using Reachable.induct generalizing p with
  | refl => simp [init, Node.make, Node.readPersist, Node.blank, Node.startFromSnapshot]
  | tail a hr _ hstep ih =>
    obtain ⟨q, eff, heff, rfl⟩ := step_eq_some hstep
    rcases eq_or_ne p q with rfl | hne
    · rw [after_nodes_self]
      exact ne_nil_of_stored (local_stored (effect_local heff)) (Reachable.plumbed hr) (ih p)
    · rw [after_nodes_of_ne _ _ _ hne]
      exact ih p

end World

end MitDistributed.Raft
