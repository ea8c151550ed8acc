import MitDistributed.Raft.Entries
import MitDistributed.Raft.Leadership
import MitDistributed.Raft.Stored

namespace MitDistributed.Raft

open Transition

/-!
# Raft — the stream of applied messages

`applyLoop` takes a batch of entries under the locks, sends it without them, and then adds the
length of the batch to `lastApplied`.  If `InstallSnapshot` takes over a snapshot in between,
the snapshot is announced before entries that it covers, and `lastApplied` ends up beyond what
was applied (`command_after_snapshot`).

As long as that does not happen (`World.InstallsBetweenBatches`), the messages of a peer are in
order (`apply_stream_in_order`): a command follows immediately on what was delivered before it,
and a snapshot is ahead of it.  The invariant ties what was delivered last to `lastApplied` and
to the places where `applyLoop` and the handler of a snapshot stand (`Node.Synced`).
-/

variable {n : ℕ} {C D : Type}

/-! ### The messages of a peer -/

/-- The index that an event brings the service of `p` to: that of a message on `applyCh`, or
    after `Make` that of the snapshot. -/
def Event.delivers (p : Fin n) : Event n C D → Option ℕ
  | .applied q (.command _ commandIndex) => if q = p then some commandIndex else none
  | .applied q (.snapshot _ _ snapshotIndex) => if q = p then some snapshotIndex else none
  | .made q lastIncludedIndex => if q = p then some lastIncludedIndex else none
  | _ => none

/-- The index that the service of `p` has been brought to. -/
def lastDelivered (p : Fin n) : List (Event n C D) → ℕ
  | [] => 0
  | e :: rest => (e.delivers p).getD (lastDelivered p rest)

/-- A command message of `p` comes immediately after `last`, a snapshot message ahead of it. -/
def Event.Follows (p : Fin n) (last : ℕ) : Event n C D → Prop
  | .applied q (.command _ commandIndex) => q = p → commandIndex = last + 1
  | .applied q (.snapshot _ _ snapshotIndex) => q = p → last < snapshotIndex
  | _ => True

/-- Every message of `p` follows on the one before it. -/
def InOrder (p : Fin n) : List (Event n C D) → Prop
  | [] => True
  | e :: rest => e.Follows p (lastDelivered p rest) ∧ InOrder p rest

instance (p : Fin n) (last : ℕ) (e : Event n C D) : Decidable (e.Follows p last) := by
  unfold Event.Follows
  split <;> infer_instance

instance decidableInOrder (p : Fin n) : (trace : List (Event n C D)) → Decidable (InOrder p trace)
  | [] => isTrue trivial
  | _ :: rest => have := decidableInOrder p rest; inferInstanceAs (Decidable (_ ∧ _))

/-- Whether an event matters for the stream. -/
def Event.isApply : Event n C D → Bool
  | .applied .. => true
  | .made .. => true
  | _ => false

theorem Event.delivers_of_not_isApply {p : Fin n} {e : Event n C D} (h : e.isApply = false) :
    e.delivers p = none := by
  cases e <;> first | rfl | simp [Event.isApply] at h

theorem Event.follows_of_delivers {p : Fin n} {e : Event n C D} (h : e.delivers p = none)
    (last : ℕ) : e.Follows p last := by
  match e with
  | .applied q (.command ..) | .applied q (.snapshot ..) =>
    intro hq
    simp [Event.delivers, hq] at h
  | .voted .. | .won .. | .accepted .. | .started .. | .snapshotted .. | .installed .. |
    .made .. => trivial

/-- Events that deliver nothing to `p` leave its stream as it is. -/
theorem stream_append {p : Fin n} {events trace : List (Event n C D)}
    (h : ∀ e ∈ events, e.delivers p = none) (ho : InOrder p trace) :
    lastDelivered p (events ++ trace) = lastDelivered p trace ∧ InOrder p (events ++ trace) := by
  induction events with
  | nil => exact ⟨rfl, ho⟩
  | cons e events ih =>
    obtain ⟨hlast, hord⟩ := ih fun e' he' => h e' (by simp [he'])
    have he := h e (by simp)
    refine ⟨?_, Event.follows_of_delivers he _, hord⟩
    rw [List.cons_append, lastDelivered, he]
    exact hlast

/-! ### Where `applyLoop` stands -/

/-- What a handler has left to do with a snapshot that it has taken over. -/
inductive Announces where
  | nothing
  /-- raise `lastApplied` to the index of the snapshot, then announce it -/
  | raise (lastIncludedIndex : ℕ)
  | announce
  deriving DecidableEq

def Held.announces : Held n C D → Announces
  | .installIndex _ args _ => .raise args.lastIncludedIndex
  | .installSave .. => .announce
  | .installSend .. => .announce
  | _ => .nothing

/-- What was delivered is what `lastApplied` says, unless a snapshot is about to be
    announced. -/
def InStep (lastApplied lastIncludedIndex last : ℕ) : Announces → Prop
  | .nothing => last = lastApplied
  | .raise index => last = lastApplied ∧ last < lastIncludedIndex ∧ index = lastIncludedIndex
  | .announce => last < lastIncludedIndex ∧ lastApplied = lastIncludedIndex

/-- The same while `applyLoop` is under way: what it has sent of a batch is not in
    `lastApplied` yet, and an index read before a snapshot came is outdated. -/
def ApplyPc.Synced (announces : Announces) (lastApplied lastIncludedIndex last : ℕ) :
    ApplyPc → Prop
  | .wait => InStep lastApplied lastIncludedIndex last announces
  | .needUpdate => InStep lastApplied lastIncludedIndex last announces
  | .take nextApplied =>
    (nextApplied = lastApplied + 1 ∨ nextApplied ≤ lastIncludedIndex) ∧
      InStep lastApplied lastIncludedIndex last announces
  | .send nextApplied toBeApplied i =>
    announces = .nothing ∧ nextApplied = lastApplied + 1 ∧ i ≤ toBeApplied.length ∧
      last = lastApplied + i
  | .store applied => announces = .nothing ∧ last = applied

namespace Node

def announces (nd : Node n C D) : Announces := nd.held.elim .nothing Held.announces

/-- The peer is in step with what was delivered. -/
def Synced (nd : Node n C D) (last : ℕ) : Prop :=
  nd.applying.Synced nd.announces nd.lastApplied nd.lastIncludedIndex last

/-- The fields that matter for the stream are the same. -/
structure Still (nd nd' : Node n C D) : Prop where
  applying : nd'.applying = nd.applying
  lastApplied : nd'.lastApplied = nd.lastApplied
  lastIncludedIndex : nd'.lastIncludedIndex = nd.lastIncludedIndex
  announces : nd'.announces = nd.announces

theorem Still.trans {nd nd' nd'' : Node n C D} (h : nd.Still nd') (h' : nd'.Still nd'') :
    nd.Still nd'' where
  applying := h'.applying.trans h.applying
  lastApplied := h'.lastApplied.trans h.lastApplied
  lastIncludedIndex := h'.lastIncludedIndex.trans h.lastIncludedIndex
  announces := h'.announces.trans h.announces

/-- A step that does not matter for the stream. -/
structure SameApply (nd : Node n C D) (eff : Effect n C D) : Prop where
  still : nd.Still eff.node
  events : ∀ e ∈ eff.events, e.isApply = false

variable {me : Fin n} {nd : Node n C D} {eff : Effect n C D} {last : ℕ}

theorem SameApply.synced (h : nd.SameApply eff) (hs : nd.Synced last) :
    eff.node.Synced last := by
  unfold Synced at hs ⊢
  rw [h.still.applying, h.still.lastApplied, h.still.lastIncludedIndex, h.still.announces]
  exact hs

theorem Still.sameApply (h : nd.Still eff.node) (he : eff.events = []) : nd.SameApply eff :=
  ⟨h, by simp [he]⟩

theorem Still.observe (nd : Node n C D) (t : ℕ) : nd.Still (nd.observe t) := by
  unfold Node.observe
  split <;> exact ⟨rfl, rfl, rfl, rfl⟩

theorem Still.advanceMatch (nd : Node n C D) (peer : Fin n) (index : ℕ) :
    nd.Still (nd.advanceMatch peer index) := by
  unfold Node.advanceMatch
  split <;> exact ⟨rfl, rfl, rfl, rfl⟩

theorem Still.copyLog (nd : Node n C D) (args : AppendEntriesArgs n C) :
    nd.Still (nd.copyLog args) := by
  rcases copyLog_eq nd args with h | ⟨log, backing, h⟩ <;> rw [h] <;> exact ⟨rfl, rfl, rfl, rfl⟩

theorem Still.followCommit (nd : Node n C D) (leaderCommit : ℕ) :
    nd.Still (nd.followCommit leaderCommit) := by
  unfold Node.followCommit
  split <;> exact ⟨rfl, rfl, rfl, rfl⟩

theorem announces_of_held {held : Held n C D} (h : nd.held = some held) :
    nd.announces = held.announces := by
  rw [announces, h]
  rfl

theorem announces_of_none (h : nd.held = none) : nd.announces = .nothing := by
  rw [announces, h]
  rfl

/-- Where `applyLoop` can lock the log, no snapshot is waiting to be announced. -/
theorem announces_of_logReadable (h : nd.logReadable = true) : nd.announces = .nothing := by
  unfold logReadable at h
  split at h
  · rename_i hh; exact announces_of_none hh
  · rename_i hh; exact announces_of_held hh
  · cases h

/-! ### Steps that do not matter -/

theorem mainStep_sameApply (h : nd.mainStep me = some eff) : nd.SameApply eff := by
  cases mainStep_cases h <;>
    exact ⟨⟨rfl, rfl, rfl, rfl⟩, by simp [doElection, Event.isApply]⟩

theorem threadStep_sameApply {fresh k : ℕ} (h : nd.threadStep me fresh k = some eff) :
    nd.SameApply eff := by
  cases threadStep_cases h <;> exact Still.sameApply ⟨rfl, rfl, rfl, rfl⟩ rfl

theorem threadReply_sameApply {fresh k call : ℕ} {request : Call n C D} {ok : Bool}
    (h : nd.threadReply me fresh k call request ok = some eff) : nd.SameApply eff := by
  have hobs (t : ℕ) := Still.observe nd t
  have hadv (t : ℕ) (peer : Fin n) (index : ℕ) :=
    (hobs t).trans (Still.advanceMatch (nd.observe t) peer index)
  cases threadReply_cases h with
  | voteCounted | beatRefused | appendDeposed =>
    exact Still.sameApply ((hobs _).trans ⟨rfl, rfl, rfl, rfl⟩) rfl
  | voteWon => exact ⟨⟨rfl, rfl, rfl, rfl⟩, by simp [Event.isApply]⟩
  | beatMatched | appendMatched =>
    exact Still.sameApply ((hadv _ _ _).trans ⟨rfl, rfl, rfl, rfl⟩) rfl
  | _ => exact Still.sameApply ⟨rfl, rfl, rfl, rfl⟩ rfl

theorem tryStart_sameApply {command : Option C} (h : nd.tryStart me command = some eff) :
    nd.SameApply eff := by
  cases tryStart_cases h <;> exact ⟨⟨rfl, rfl, rfl, rfl⟩, by simp [Event.isApply]⟩

theorem handle_sameApply {call : ℕ} {request : Request n C D}
    (h : nd.handle call request = some eff) : nd.SameApply eff := by
  have hhold {nd' : Node n C D} (hh : nd.held = none) (hst : nd.Still nd') {held : Held n C D}
      (ha : held.announces = .nothing) : nd.Still { nd' with held := some held } :=
    ⟨hst.applying, hst.lastApplied, hst.lastIncludedIndex, ha.trans (announces_of_none hh).symm⟩
  cases handle_cases h with
  | requestVote args hfree =>
    exact Still.sameApply (hhold (held_of_raftStateFree hfree) (.observe nd args.term) rfl) rfl
  | appendEntries args hfree =>
    refine Still.sameApply (hhold (held_of_logFree hfree) ?_ rfl) rfl
    refine (Still.observe nd args.term).trans ?_
    unfold stepDown
    split <;> exact ⟨rfl, rfl, rfl, rfl⟩
  | installSnapshot args hfree =>
    exact Still.sameApply (hhold (held_of_logFree hfree) (.observe nd args.term) rfl) rfl

/-- A handler with nothing to announce returns. -/
theorem release_still {held : Held n C D} (hh : nd.held = some held)
    (ha : held.announces = .nothing) {nd' : Node n C D} (hst : nd.Still nd') :
    nd.Still nd'.release :=
  ⟨hst.applying, hst.lastApplied, hst.lastIncludedIndex,
    (ha.symm.trans (announces_of_held hh).symm : .nothing = nd.announces)⟩

/-- What a step of a handler means for the stream. -/
inductive ResumeApply (me : Fin n) (nd : Node n C D) : Effect n C D → Prop
  | same {eff : Effect n C D} (h : nd.SameApply eff) : ResumeApply me nd eff
  | install {call : ℕ} {args : InstallSnapshotArgs n D}
      (hh : nd.held = some (.installLog call args)) (hi : nd.installs args) :
      ResumeApply me nd
        { node := { nd.install args with held := some (.installIndex call args .testCommit) }
          events := [.installed me args.lastIncludedIndex args.data] }
  | keepApplied {call : ℕ} {args : InstallSnapshotArgs n D}
      (hh : nd.held = some (.installIndex call args .testApplied))
      (hle : args.lastIncludedIndex ≤ nd.lastApplied) :
      ResumeApply me nd { node := { nd with held := some (.installSave call args) } }
  | setApplied {call : ℕ} {args : InstallSnapshotArgs n D}
      (hh : nd.held = some (.installIndex call args .setApplied)) :
      ResumeApply me nd { node :=
        { nd with
          lastApplied := args.lastIncludedIndex
          held := some (.installSave call args) } }
  | announce {call : ℕ} {args : InstallSnapshotArgs n D}
      (hh : nd.held = some (.installSend call args)) :
      ResumeApply me nd (nd.installSend me call args)

/-- Apart from what `InstallSnapshot` does to `lastApplied` and on `applyCh`, no step of a handler
    matters. -/
theorem resume_sameApply (h : nd.resume me = some eff) : nd.ResumeApply me eff := by
  cases resume_cases h with
  | voteExit | appendExit => exact .same (Still.sameApply ⟨rfl, rfl, rfl, rfl⟩ rfl)
  | refuseVote hh | refuseAppend hh | ignoreSnapshot hh =>
    exact .same (Still.sameApply (release_still hh rfl ⟨rfl, rfl, rfl, rfl⟩) rfl)
  | grantVote hh =>
    exact .same ⟨release_still hh rfl ⟨rfl, rfl, rfl, rfl⟩, by simp [Event.isApply]⟩
  | @copyLog _ args hh =>
    have hcopy := Still.copyLog nd args
    exact .same (Still.sameApply ⟨hcopy.applying, hcopy.lastApplied, hcopy.lastIncludedIndex,
      (announces_of_held hh).symm⟩ rfl)
  | appendCommit hh =>
    exact .same ⟨release_still hh rfl (.followCommit nd _), by simp [appendCommit, Event.isApply]⟩
  | installTest hh ht =>
    cases ht with
    | raiseCommit | keepCommit | raiseApplied =>
      exact .same (Still.sameApply ⟨rfl, rfl, rfl, (announces_of_held hh).symm⟩ rfl)
    | keepApplied hle => exact .keepApplied hh hle
  | setCommit hh | installSave hh | snapshotSave hh =>
    exact .same (Still.sameApply ⟨rfl, rfl, rfl, (announces_of_held hh).symm⟩ rfl)
  | setApplied hh => exact .setApplied hh
  | install hh hi => exact .install hh hi
  | installSend hh => exact .announce hh

end Node

/-! ### Steps that matter -/

/-- Whether a batch has been taken and is not accounted for yet. -/
def ApplyPc.sending : ApplyPc → Bool
  | .send .. => true
  | .store .. => true
  | _ => false

namespace Node

/-- If the handler under way is about to take over a snapshot, `applyLoop` has no batch in
    hand. -/
def InstallsBetweenBatches (nd : Node n C D) : Prop :=
  match nd.held with
  | some (.installLog _ args) => nd.installs args → nd.applying.sending = false
  | _ => True

/-- A condition on a handler that is about to take over a snapshot. -/
def decidableInstallLog (P : InstallSnapshotArgs n D → Prop) [DecidablePred P] :
    (held : Option (Held n C D)) →
      Decidable (match held with | some (.installLog _ args) => P args | _ => True)
  | some (.installLog _ args) => inferInstanceAs (Decidable (P args))
  | none | some (.requestVote ..) | some (.appendLog ..) | some (.appendCommit ..)
  | some (.installIndex ..) | some (.installSave ..) | some (.installSend ..)
  | some (.snapshotSave _) => instDecidableTrue

instance (nd : Node n C D) : Decidable nd.InstallsBetweenBatches :=
  decidableInstallLog (fun args => nd.installs args → nd.applying.sending = false) nd.held

/-- The stream of `p` is in order and in step with the peer after the step, which concerns no
    other stream. -/
structure Streams (p : Fin n) (trace : List (Event n C D)) (eff : Effect n C D) : Prop where
  synced : eff.node.Synced (lastDelivered p (eff.events ++ trace))
  inOrder : InOrder p (eff.events ++ trace)
  own : ∀ e ∈ eff.events, ∀ q, q ≠ p → e.delivers q = none

variable {p : Fin n} {trace : List (Event n C D)} {nd : Node n C D} {eff : Effect n C D}

theorem SameApply.streams (h : nd.SameApply eff) (hs : nd.Synced (lastDelivered p trace))
    (ho : InOrder p trace) : Streams p trace eff := by
  obtain ⟨hlast, hord⟩ :=
    stream_append (fun e he => Event.delivers_of_not_isApply (h.events e he)) ho
  refine ⟨?_, hord, fun e he q _ => Event.delivers_of_not_isApply (h.events e he)⟩
  rw [hlast]
  exact h.synced hs

/-- The place where `applyLoop` stands does not matter, as long as it has no batch in hand. -/
theorem inStep_of_synced {ann : Announces} {applied lii last : ℕ} {pc : ApplyPc}
    (h : pc.Synced ann applied lii last) (hp : pc.sending = false) :
    InStep applied lii last ann := by
  cases pc with
  | wait => exact h
  | needUpdate => exact h
  | take => exact h.2
  | send | store => cases hp

/-- While a snapshot is about to be announced, no batch is in hand. -/
theorem sending_of_announces {ann : Announces} {applied lii last : ℕ} {pc : ApplyPc}
    (h : pc.Synced ann applied lii last) (ha : ann ≠ .nothing) : pc.sending = false := by
  cases pc with
  | wait | needUpdate | take => rfl
  | send | store => exact absurd h.1 ha

theorem applyStep_streams (h : nd.applyStep p = some eff) (hs : nd.Synced (lastDelivered p trace))
    (ho : InOrder p trace) : Streams p trace eff := by
  unfold Synced at hs
  cases applyStep_cases h with
  | wake hpc | idle hpc =>
    rw [hpc] at hs
    exact ⟨hs, ho, by simp⟩
  | next hpc =>
    rw [hpc] at hs
    exact ⟨⟨.inl rfl, hs⟩, ho, by simp⟩
  | skip hpc =>
    rw [hpc] at hs
    exact ⟨hs.2, ho, by simp⟩
  | exit => exact ⟨hs, ho, by simp⟩
  | @take nextApplied toBeApplied hpc hread _ hlogs =>
    rw [hpc] at hs
    obtain ⟨hnext, hstep⟩ := hs
    have hann := announces_of_logReadable hread
    -- the batch starts above the snapshot, so the index read before is up to date
    have habove : ¬ nextApplied ≤ nd.lastIncludedIndex := Nat.not_le.mpr (getLogs_eq_some hlogs).1
    rw [hann] at hstep
    exact ⟨⟨hann, hnext.resolve_right habove, Nat.zero_le _, hstep⟩, ho, by simp⟩
  | @send nextApplied toBeApplied i hpc hlt =>
    rw [hpc] at hs
    obtain ⟨hann, hnext, hi, hlast⟩ := hs
    have hindex : i + nextApplied = lastDelivered p trace + 1 := by omega
    refine ⟨⟨hann, hnext, hlt, ?_⟩, ⟨fun _ => hindex, ho⟩, ?_⟩
    · simp only [List.cons_append, List.nil_append, lastDelivered, Event.delivers, if_pos,
        Option.getD_some]
      omega
    · simp +contextual [Event.delivers, eq_comm]
  | @load nextApplied toBeApplied i hpc hlt =>
    rw [hpc] at hs
    obtain ⟨hann, hnext, hi, hlast⟩ := hs
    refine ⟨⟨hann, ?_⟩, ho, by simp⟩
    show lastDelivered p trace = nd.lastApplied + toBeApplied.length
    omega
  | @store lastApplied hpc =>
    rw [hpc] at hs
    obtain ⟨hann, hlast⟩ := hs
    refine ⟨?_, ho, by simp⟩
    show InStep lastApplied nd.lastIncludedIndex (lastDelivered p trace) nd.announces
    rw [hann]
    exact hlast

variable {call : ℕ} {args : InstallSnapshotArgs n D}

/-- Taking over a snapshot between two batches. -/
theorem install_streams (hh : nd.held = some (.installLog call args)) (hi : nd.installs args)
    (hbetween : nd.applying.sending = false) (hs : nd.Synced (lastDelivered p trace))
    (ho : InOrder p trace) :
    Streams p trace
      { node := { nd.install args with held := some (.installIndex call args .testCommit) }
        events := [.installed p args.lastIncludedIndex args.data] } := by
  obtain ⟨-, hlii, happlied⟩ := hi
  unfold Synced at hs
  rw [announces_of_held hh] at hs
  have hlast : lastDelivered p trace = nd.lastApplied := inStep_of_synced hs hbetween
  refine ⟨?_, ⟨trivial, ho⟩, by simp [Event.delivers]⟩
  show nd.applying.Synced (.raise args.lastIncludedIndex) nd.lastApplied
    args.lastIncludedIndex (lastDelivered p trace)
  -- whatever was delivered lies below the snapshot
  have hstep : InStep nd.lastApplied args.lastIncludedIndex (lastDelivered p trace)
      (.raise args.lastIncludedIndex) := ⟨hlast, hlast ▸ happlied, rfl⟩
  cases happ : nd.applying with
  | wait => exact hstep
  | needUpdate => exact hstep
  | take nextApplied =>
    rw [happ] at hs
    exact ⟨hs.1.imp_right fun hle => hle.trans hlii.le, hstep⟩
  | send | store => rw [happ] at hbetween; cases hbetween

/-- Raising `lastApplied` to the index of the snapshot. -/
theorem setApplied_streams {pc : InstallPc} (hh : nd.held = some (.installIndex call args pc))
    (hs : nd.Synced (lastDelivered p trace)) (ho : InOrder p trace) :
    nd.lastApplied < args.lastIncludedIndex ∧
      Streams p trace { node :=
        { nd with
          lastApplied := args.lastIncludedIndex
          held := some (.installSave call args) } } := by
  unfold Synced at hs
  rw [announces_of_held hh] at hs
  have hbetween := sending_of_announces hs nofun
  obtain ⟨hlast, hlt, hindex⟩ : lastDelivered p trace = nd.lastApplied ∧
      lastDelivered p trace < nd.lastIncludedIndex ∧
      args.lastIncludedIndex = nd.lastIncludedIndex := inStep_of_synced hs hbetween
  refine ⟨by omega, ?_, ho, by simp⟩
  show nd.applying.Synced .announce args.lastIncludedIndex nd.lastIncludedIndex
    (lastDelivered p trace)
  have hstep : InStep args.lastIncludedIndex nd.lastIncludedIndex (lastDelivered p trace)
      .announce := ⟨hlt, hindex⟩
  cases happ : nd.applying with
  | wait => exact hstep
  | needUpdate => exact hstep
  | take nextApplied =>
    -- an index read before this write lies below the snapshot
    rw [happ] at hs
    have hnext := hs.1
    exact ⟨.inr (by omega), hstep⟩
  | send | store => rw [happ] at hbetween; cases hbetween

/-- Announcing it. -/
theorem installSend_streams (hh : nd.held = some (.installSend call args))
    (hs : nd.Synced (lastDelivered p trace)) (ho : InOrder p trace) :
    Streams p trace (nd.installSend p call args) := by
  unfold Synced at hs
  rw [announces_of_held hh] at hs
  have hbetween := sending_of_announces hs nofun
  obtain ⟨hlt, heq⟩ : lastDelivered p trace < nd.lastIncludedIndex ∧
      nd.lastApplied = nd.lastIncludedIndex := inStep_of_synced hs hbetween
  refine ⟨?_, ⟨fun _ => hlt, ho⟩, by
    simp +contextual [Node.installSend, Event.delivers, eq_comm]⟩
  have hlast : lastDelivered p ((nd.installSend p call args).events ++ trace) =
      nd.lastIncludedIndex := by
    simp [Node.installSend, lastDelivered, Event.delivers]
  rw [hlast]
  show nd.applying.Synced .nothing nd.lastApplied nd.lastIncludedIndex nd.lastIncludedIndex
  cases happ : nd.applying with
  | wait => exact heq.symm
  | needUpdate => exact heq.symm
  | take nextApplied => rw [happ] at hs; exact ⟨hs.1, heq.symm⟩
  | send | store => rw [happ] at hbetween; cases hbetween

/-- Compacting the log. -/
theorem compact_streams {index term : ℕ} {snapshot : Option D} (hfree : nd.held = none)
    (hlt : nd.lastIncludedIndex < index) (hs : nd.Synced (lastDelivered p trace))
    (ho : InOrder p trace) :
    Streams p trace
      { node := { nd.compact index term with held := some (.snapshotSave snapshot) }
        events := [.snapshotted p index snapshot] } := by
  unfold Synced at hs
  rw [announces_of_none hfree] at hs
  refine ⟨?_, ⟨trivial, ho⟩, by simp [Event.delivers]⟩
  show nd.applying.Synced .nothing nd.lastApplied index (lastDelivered p trace)
  cases happ : nd.applying with
  | wait => rw [happ] at hs; exact hs
  | needUpdate => rw [happ] at hs; exact hs
  | take nextApplied =>
    rw [happ] at hs
    exact ⟨hs.1.imp_right fun hle => hle.trans hlt.le, hs.2⟩
  | send | store => rw [happ] at hs; exact hs

theorem make_applying (ps : Persister n C D) (room : ℕ → ℕ) :
    (make ps room).applying = .wait := by
  unfold make readPersist
  split <;> rfl

theorem restart_streams (nd : Node n C D) (ho : InOrder p trace) :
    Streams p trace (nd.restart p) := by
  refine ⟨?_, ⟨trivial, ho⟩, by
    simp +contextual [Node.restart, Event.delivers, eq_comm]⟩
  have hlast : lastDelivered p ((nd.restart p).events ++ trace) =
      (make nd.persister nd.backing.room).lastIncludedIndex := by
    simp [Node.restart, lastDelivered, Event.delivers]
  rw [hlast]
  show (make nd.persister nd.backing.room).applying.Synced
    (make nd.persister nd.backing.room).announces (make nd.persister nd.backing.room).lastApplied
    (make nd.persister nd.backing.room).lastIncludedIndex _
  have happlied : (make nd.persister nd.backing.room).lastApplied =
      (make nd.persister nd.backing.room).lastIncludedIndex := by
    unfold make readPersist
    split
    · rfl
    · simp only [startFromSnapshot, blank]
      split <;> omega
  rw [make_applying, announces_of_none (make_held _ _), happlied]
  rfl

theorem resume_streams (hbetween : nd.InstallsBetweenBatches) (h : nd.resume p = some eff)
    (hs : nd.Synced (lastDelivered p trace)) (ho : InOrder p trace) : Streams p trace eff := by
  cases resume_sameApply h with
  | same hsame => exact hsame.streams hs ho
  | install hh hi =>
    unfold InstallsBetweenBatches at hbetween
    rw [hh] at hbetween
    exact install_streams hh hi (hbetween hi) hs ho
  | keepApplied hh hle =>
    -- nothing has been applied meanwhile, so that `lastApplied` is still below the snapshot
    exact absurd (setApplied_streams hh hs ho).1 (Nat.not_lt.mpr hle)
  | setApplied hh => exact (setApplied_streams hh hs ho).2
  | announce hh => exact installSend_streams hh hs ho

theorem trySnapshot_streams {index : ℕ} {snapshot : Option D}
    (h : nd.trySnapshot p index snapshot = some eff) (hs : nd.Synced (lastDelivered p trace))
    (ho : InOrder p trace) : Streams p trace eff := by
  cases trySnapshot_cases h with
  | ignore | exit => exact (Still.sameApply ⟨rfl, rfl, rfl, rfl⟩ rfl).streams hs ho
  | compact hfree hlt => exact compact_streams (held_of_logFree hfree) hlt hs ho

end Node

/-! ### Every run -/

namespace World

/-- A snapshot is taken over only while `applyLoop` of the peer has no batch in hand. -/
def InstallsBetweenBatches (w : World n C D) : Action n C D → Prop
  | .resume p => (w.nodes p).InstallsBetweenBatches
  | _ => True

instance (w : World n C D) : (a : Action n C D) → Decidable (w.InstallsBetweenBatches a)
  | .resume p => inferInstanceAs (Decidable (w.nodes p).InstallsBetweenBatches)
  | .main _ | .thread .. | .reply .. | .apply _ | .deliver _ | .start .. | .snapshot .. |
    .restart _ => isTrue trivial

/-- Every peer is in step with its stream, which is in order. -/
def Streamed (w : World n C D) : Prop :=
  ∀ p, (w.nodes p).Synced (lastDelivered p w.trace) ∧ InOrder p w.trace

variable {w w' : World n C D} {a : Action n C D}

theorem init_streamed (room : Fin n → ℕ → ℕ) :
    (init room : World n C D).Streamed := by
  intro p
  exact ⟨rfl, trivial⟩

theorem local_streams {p : Fin n} {eff : Effect n C D} (hw : w.Streamed)
    (hg : w.InstallsBetweenBatches a) (h : Local w p eff a) : Node.Streams p w.trace eff := by
  obtain ⟨hs, ho⟩ := hw p
  cases h with
  | main h => exact (Node.mainStep_sameApply h).streams hs ho
  | thread k h => exact (Node.threadStep_sameApply h).streams hs ho
  | reply k call ok request hc h => exact (Node.threadReply_sameApply h).streams hs ho
  | apply h => exact Node.applyStep_streams h hs ho
  | deliver call request hc hp h => exact (Node.handle_sameApply h).streams hs ho
  | resume h => exact Node.resume_streams hg h hs ho
  | start command h => exact (Node.tryStart_sameApply h).streams hs ho
  | snapshot index snapshot h => exact Node.trySnapshot_streams h hs ho
  | restart h => subst h; exact Node.restart_streams _ ho

theorem Streamed.step (hw : w.Streamed) (hg : w.InstallsBetweenBatches a)
    (h : w.step a = some w') : w'.Streamed := by
  obtain ⟨p, eff, heff, rfl⟩ := step_eq_some h
  have hst := local_streams hw hg (effect_local heff)
  intro q
  rcases eq_or_ne q p with rfl | hne
  · rw [after_nodes_self]
    exact ⟨hst.synced, hst.inOrder⟩
  · obtain ⟨hlast, hord⟩ := stream_append (fun e he => hst.own e he q hne) (hw q).2
    rw [after_nodes_of_ne _ _ _ hne]
    refine ⟨?_, hord⟩
    show (w.nodes q).Synced (lastDelivered q (eff.events ++ w.trace))
    rw [hlast]
    exact (hw q).1

end World

/-- **Exactly-once apply stream.** In every run in which snapshots are taken over between the
    batches of `applyLoop`, the messages of every peer are gap-free and forward-only. -/
theorem apply_stream_in_order {w : World n C D} (h : World.Reachable World.InstallsBetweenBatches w)
    (p : Fin n) : InOrder p w.trace := by
  have hw : w.Streamed :=
    World.Reachable.invariant (fun w a w' hs hg hstep => World.Streamed.step hs hg hstep) h
      World.init_streamed
  exact (hw p).2

/-- Leader 0 replicates a command to both others, and peer 2 learns that it is committed. -/
def commitAtPeer2 : List (Action 3 ℕ ℕ) :=
  electPeer0 ++ ([.main 0, .main 0, .main 0, .main 0, .start 0 (some 7), .thread 0 2, .thread 0 2,
    .thread 0 2, .thread 0 2, .thread 0 2, .thread 0 2, .thread 0 2, .thread 0 3, .thread 0 3,
    .thread 0 3, .deliver 2, .resume 1, .resume 1, .deliver 3, .resume 2, .resume 2,
    .reply 0 2 2 true, .thread 0 1, .thread 0 1, .thread 0 1, .thread 0 1, .thread 0 1, .main 0,
    .thread 0 3, .thread 0 3, .thread 0 3, .deliver 5, .resume 2,
    .resume 2] : List (Action 3 ℕ ℕ))

/-- The leader commits and applies a second command, compacts its log at that index, and sends
    its snapshot to peer 2, which takes it over. -/
def installAtPeer2 : List (Action 3 ℕ ℕ) :=
  [.thread 0 3, .start 0 (some 8), .thread 0 4, .thread 0 4, .thread 0 4, .thread 0 4,
    .thread 0 4, .thread 0 4, .thread 0 4, .deliver 6, .resume 1, .resume 1, .reply 0 4 6 true,
    .thread 0 1, .thread 0 1, .thread 0 1, .thread 0 1, .thread 0 1, .thread 0 1, .apply 0,
    .apply 0, .apply 0, .apply 0, .apply 0, .apply 0, .apply 0, .snapshot 0 2 (some 9), .resume 0,
    .start 0 (some 5), .thread 0 5, .thread 0 5, .thread 0 5, .thread 0 7, .deliver 7, .resume 2,
    .resume 2, .resume 2, .resume 2, .resume 2, .resume 2, .resume 2]

/-- In a run that keeps to the condition, peer 0 delivers two commands and peer 2 a
    snapshot. -/
theorem apply_stream_in_order_installAtPeer2 :
    ∃ w : World 3 ℕ ℕ, World.Reachable World.InstallsBetweenBatches w ∧
      lastDelivered 0 w.trace = 2 ∧ lastDelivered 2 w.trace = 2 ∧
      InOrder 0 w.trace ∧ InOrder 2 w.trace := by
  obtain ⟨w, hr, h0, h2⟩ := World.Reachable.exists_of_execOk
    World.InstallsBetweenBatches (commitAtPeer2 ++ installAtPeer2)
    (fun w => lastDelivered 0 w.trace = 2 ∧ lastDelivered 2 w.trace = 2) (by decide +kernel)
  exact ⟨w, hr, h0, h2, apply_stream_in_order hr 0, apply_stream_in_order hr 2⟩

/-- Peer 2 has taken the batch with index 1 when the snapshot at index 2 comes: it delivers the
    snapshot first, and the command at index 1 after it. -/
theorem command_after_snapshot :
    ∃ w : World 3 ℕ ℕ, World.Reachable (fun _ a => ∀ p, a ≠ .restart p) w ∧
      w.trace.head? = some (.applied 2 (.command (some 7) 1)) ∧
      lastDelivered 2 w.trace.tail = 2 ∧ ¬ InOrder 2 w.trace := by
  exact World.Reachable.exists_of_execOk (fun _ a => ∀ p, a ≠ .restart p)
    (commitAtPeer2 ++ [.apply 2, .apply 2, .apply 2] ++ installAtPeer2 ++ [.apply 2]) _
    (by decide +kernel)

end MitDistributed.Raft
