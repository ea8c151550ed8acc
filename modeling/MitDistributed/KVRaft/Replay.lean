import MitDistributed.KVRaft.Server

namespace MitDistributed.KVRaft

open Rsm Transition

/-!
# Key/value store — live application, snapshots and restarts

One `KVServer` and the messages that its `applyLoop` gets: commands of the log, snapshots of states
that other servers have reached, and both again when they are delivered twice; and restarts, which
begin with the snapshot that the `Persister` holds.  Whatever the mixture, the server is in the
state that plain replay of the log reaches (`Replica.Consistent`).
-/

/-- The encoder of snapshots, `labgob`, which is assumed to round-trip.  `D` is the type of
    non-empty byte strings. -/
structure Labgob (D : Type) where
  encode : ℕ → State → D
  decode : D → Option (ℕ × State)
  decode_encode : ∀ index st, decode (encode index st) = some (index, st)

/-- What `applyLoop` writes, and the snapshot in the `Persister`; `none` stands for no bytes. -/
structure Replica (D : Type) where
  state : State
  latestAppliedRaftIndex : ℕ
  snapshot : Option D

/-- A message on `applyCh`, or a restart.  Whether the server takes a snapshot after a command
    depends on the size of the raft state, which is left open (`compacts`); likewise whether Raft
    has just stored the snapshot that it passes on (`stores`). -/
inductive Msg
  | command (index : ℕ) (compacts : Bool)
  | snapshot (index : ℕ) (stores : Bool)
  | restart
  deriving DecidableEq, Repr

namespace Replica

variable {D : Type} (gob : Labgob D)

def serialize (kv : Replica D) : D := gob.encode kv.latestAppliedRaftIndex kv.state

/-- Nothing changes when there are no bytes, or when they cannot be decoded. -/
def deserialize (kv : Replica D) (snapshot : Option D) : Replica D :=
  match snapshot.bind gob.decode with
  | some (index, st) => { kv with state := st, latestAppliedRaftIndex := index }
  | none => kv

/-- `StartKVServer`, with what the `Persister` holds. -/
def start (snapshot : Option D) : Replica D :=
  ({ state := .initial, latestAppliedRaftIndex := 0, snapshot := snapshot } : Replica D).deserialize
    gob snapshot

/-- `applyLoop` gets a command. -/
def applyCommand (kv : Replica D) (index : ℕ) (op : Op) (compacts : Bool) : Replica D :=
  if index ≤ kv.latestAppliedRaftIndex then kv
  else
    let kv := { kv with state := (kv.state.applyOp op).1, latestAppliedRaftIndex := index }
    if compacts then { kv with snapshot := some (kv.serialize gob) } else kv

/-- `applyLoop` gets a snapshot. -/
def applySnapshot (kv : Replica D) (index : ℕ) (snapshot : Option D) : Replica D :=
  if index > kv.latestAppliedRaftIndex then kv.deserialize gob snapshot else kv

/-- One message, for a log of operations.  The command at `index` is the operation there, and none
    comes before its predecessor; the snapshot at `index` is the one of a server that has replayed
    the log up to there. -/
def step (log : List Op) (kv : Replica D) : Msg → Option (Replica D)
  | .command index compacts =>
    if 0 < index ∧ index ≤ kv.latestAppliedRaftIndex + 1 then
      (log[index - 1]?).map fun op => kv.applyCommand gob index op compacts
    else none
  | .snapshot index stores =>
    if index ≤ log.length then
      (machine.replay (log.take index)).map fun st =>
        { kv with
          snapshot := if stores then some (gob.encode index st) else kv.snapshot }.applySnapshot gob
            index (some (gob.encode index st))
    else none
  | .restart => some (start gob kv.snapshot)

/-! ### Plain replay -/

/-- The server is where plain replay of the log leads, and so is the snapshot it would restart
    from. -/
structure Consistent (log : List Op) (kv : Replica D) : Prop where
  le : kv.latestAppliedRaftIndex ≤ log.length
  state : machine.replay (log.take kv.latestAppliedRaftIndex) = some kv.state
  snapshot : ∀ data, kv.snapshot = some data → ∃ index ≤ log.length, ∃ st,
    machine.replay (log.take index) = some st ∧ data = gob.encode index st

variable {gob} {log : List Op} {kv kv' : Replica D} {msg : Msg}

@[simp] theorem deserialize_encode (kv : Replica D) (index : ℕ) (st : State) :
    kv.deserialize gob (some (gob.encode index st)) =
      { kv with state := st, latestAppliedRaftIndex := index } := by
  simp [deserialize, gob.decode_encode]

theorem Consistent.applyCommand (h : kv.Consistent gob log) {index : ℕ} {op : Op}
    (hindex : index ≤ kv.latestAppliedRaftIndex + 1) (hop : log[index - 1]? = some op)
    (compacts : Bool) : (kv.applyCommand gob index op compacts).Consistent gob log := by
  unfold Replica.applyCommand
  split
  · exact h
  rename_i hnew
  obtain rfl : index = kv.latestAppliedRaftIndex + 1 := by omega
  rw [Nat.add_sub_cancel] at hop
  obtain ⟨hlt, hget⟩ := List.getElem?_eq_some_iff.mp hop
  have hreplay : machine.replay (log.take (kv.latestAppliedRaftIndex + 1)) =
      some (kv.state.applyOp op).1 := by
    rw [List.take_add_one, hop, Option.toList_some]
    exact Machine.replay_concat h.state rfl
  dsimp only
  split
  · refine ⟨hlt, hreplay, fun data hdata => ?_⟩
    cases hdata
    exact ⟨_, hlt, _, hreplay, rfl⟩
  · exact ⟨hlt, hreplay, h.snapshot⟩

theorem Consistent.step (h : kv.Consistent gob log) (hstep : kv.step gob log msg = some kv') :
    kv'.Consistent gob log := by
  cases msg with
  | command index compacts =>
    simp only [Replica.step, Option.ite_none_right_eq_some, Option.map_eq_some_iff] at hstep
    obtain ⟨⟨-, hindex⟩, op, hop, rfl⟩ := hstep
    exact h.applyCommand hindex hop compacts
  | snapshot index stores =>
    simp only [Replica.step, Option.ite_none_right_eq_some, Option.map_eq_some_iff] at hstep
    obtain ⟨hle, st, hst, rfl⟩ := hstep
    have hstored : ∀ data,
        (if stores then some (gob.encode index st) else kv.snapshot) = some data →
        ∃ index ≤ log.length, ∃ st, machine.replay (log.take index) = some st ∧
          data = gob.encode index st := by
      intro data hdata
      split at hdata
      · cases hdata
        exact ⟨index, hle, st, hst, rfl⟩
      · exact h.snapshot data hdata
    generalize (if stores then some (gob.encode index st) else kv.snapshot) = saved at hstored ⊢
    unfold applySnapshot
    split
    · rw [deserialize_encode]
      exact ⟨hle, hst, hstored⟩
    · exact ⟨h.le, h.state, hstored⟩
  | restart =>
    cases hstep
    unfold start
    cases hs : kv.snapshot with
    | none => exact ⟨Nat.zero_le _, rfl, fun data hdata => by cases hdata⟩
    | some data =>
      obtain ⟨index, hle, st, hst, rfl⟩ := h.snapshot data hs
      rw [deserialize_encode]
      refine ⟨hle, hst, fun data hdata => ?_⟩
      cases hdata
      exact ⟨index, hle, st, hst, rfl⟩

/-- The index of the last command only grows, restarts apart. -/
theorem latestAppliedRaftIndex_mono (h : kv.step gob log msg = some kv') (hmsg : msg ≠ .restart) :
    kv.latestAppliedRaftIndex ≤ kv'.latestAppliedRaftIndex := by
  cases msg with
  | command index compacts =>
    simp only [Replica.step, Option.ite_none_right_eq_some, Option.map_eq_some_iff] at h
    obtain ⟨-, op, -, rfl⟩ := h
    unfold Replica.applyCommand
    split
    · exact le_rfl
    · rename_i hnew
      dsimp only
      split <;> exact (not_le.mp hnew).le
  | snapshot index stores =>
    simp only [Replica.step, Option.ite_none_right_eq_some, Option.map_eq_some_iff] at h
    obtain ⟨-, st, -, rfl⟩ := h
    generalize (if stores then some (gob.encode index st) else kv.snapshot) = saved
    unfold applySnapshot
    split
    · rename_i hnew
      rw [deserialize_encode]
      exact le_of_lt hnew
    · exact le_rfl
  | restart => exact absurd rfl hmsg

end Replica

/-- **Snapshot and replay equivalence.** However commands, snapshots and restarts are mixed, after
    every message the server is in the state that plain replay reaches at the index of its last
    command, and only a restart makes that index smaller. -/
theorem snapshot_replay_equivalence {D : Type} (gob : Labgob D) (log : List Op) (kv : Replica D)
    (h : Run (Replica.step gob log) (fun _ _ => True) (Replica.start gob none) kv) :
    kv.latestAppliedRaftIndex ≤ log.length ∧
      machine.replay (log.take kv.latestAppliedRaftIndex) = some kv.state ∧
      ∀ msg kv', kv.step gob log msg = some kv' → msg ≠ .restart →
        kv.latestAppliedRaftIndex ≤ kv'.latestAppliedRaftIndex := by
  have hinit : (Replica.start gob none).Consistent gob log :=
    ⟨Nat.zero_le _, rfl, fun data hdata => by cases hdata⟩
  have hkv : kv.Consistent gob log :=
    h.invariant (fun _ _ _ hkv _ hstep => hkv.step hstep) hinit
  exact ⟨hkv.le, hkv.state, fun _ _ hstep hmsg => Replica.latestAppliedRaftIndex_mono hstep hmsg⟩

/-- Snapshots that keep the state itself. -/
def plainGob : Labgob (ℕ × State) :=
  { encode := Prod.mk, decode := some, decode_encode := fun _ _ => rfl }

/-- Two appends of one client, the first of them twice. -/
def appendTwice : List Op :=
  [⟨.append, [0], [1], 7, 0⟩, ⟨.append, [0], [1], 7, 0⟩, ⟨.append, [0], [2], 7, 1⟩]

/-- Two commands, of which one comes again, a restart from the snapshot after the first one, and a
    snapshot of the whole log. -/
def mixedMessages : List Msg :=
  [.command 1 true, .command 2 false, .command 1 false, .restart, .snapshot 3 true]

theorem snapshot_replay_equivalence_mixedMessages :
    ∃ kv : Replica (ℕ × State), kv.latestAppliedRaftIndex = 3 ∧
      machine.replay (appendTwice.take kv.latestAppliedRaftIndex) = some kv.state := by
  obtain ⟨kv, hrun, hindex⟩ := exists_run_of_execOk (Replica.step plainGob appendTwice)
    (fun _ _ => True) (Replica.start plainGob none) mixedMessages
    (fun kv => kv.latestAppliedRaftIndex = 3) (by decide +kernel)
  exact ⟨kv, hindex, (snapshot_replay_equivalence plainGob appendTwice kv hrun).2.1⟩

end MitDistributed.KVRaft
