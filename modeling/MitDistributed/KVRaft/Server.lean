import MitDistributed.Rsm.Requests
import MitDistributed.Rsm.Soundness
import MitDistributed.Storage

namespace MitDistributed.KVRaft

open Rsm Transition

/-!
# Key/value store — servers and clerks

The replicated state of a `KVServer`, as its `applyLoop` makes it from the log, and the world of
servers and clerks.  A clerk repeats its request, server after server, until it gets a reply other
than `ErrWrongLeader`; requests and replies may be lost or late.
-/

inductive OpType
  | get
  | put
  | append
  deriving DecidableEq, Repr

structure Op where
  type : OpType
  key : Bytes
  value : Bytes
  clientId : ℤ
  requestId : ℤ
  deriving DecidableEq

inductive Err
  | ok
  | noKey
  | wrongLeader
  deriving DecidableEq, Repr

/-- What `applyLoop` sends to a waiting handler. -/
structure WaitChResponse where
  op : Op
  err : Err
  value : Bytes
  deriving DecidableEq

/-- The state of a server that follows from the log. -/
structure State where
  storage : Storage
  latestAppliedRequest : Requests

/-- What the operation does to the storage when it is applied for the first time. -/
def Op.write (op : Op) (storage : Storage) : Storage :=
  match op.type with
  | .get => storage
  | .put => storage.put op.key op.value
  | .append => storage.append op.key op.value

namespace State

def initial : State := { storage := .empty, latestAppliedRequest := .empty }

/-- Whether the request is new. -/
def isNew (st : State) (op : Op) : Prop :=
  op.requestId > st.latestAppliedRequest.latest op.clientId

instance (st : State) (op : Op) : Decidable (st.isNew op) := Int.decLt _ _

/-- Enter the request in the table. -/
def mark (st : State) (op : Op) : State :=
  { st with latestAppliedRequest := st.latestAppliedRequest.mark op.clientId op.requestId }

/-- Apply one operation. -/
def applyOp (st : State) (op : Op) : State × WaitChResponse :=
  match op.type with
  | .get =>
    (st.mark op,
      match st.storage.get? op.key with
      | some value => { op := op, err := .ok, value := value }
      | none => { op := op, err := .noKey, value := [] })
  | .put =>
    (if st.isNew op then { st.mark op with storage := st.storage.put op.key op.value }
      else st.mark op,
      { op := op, err := .ok, value := [] })
  | .append =>
    (if st.isNew op then { st.mark op with storage := st.storage.append op.key op.value }
      else st.mark op,
      { op := op, err := .ok, value := [] })

/-- Every operation is entered in the table. -/
theorem latestAppliedRequest_applyOp (st : State) (op : Op) :
    (st.applyOp op).1.latestAppliedRequest =
      st.latestAppliedRequest.mark op.clientId op.requestId := by
  unfold applyOp
  split
  · rfl
  · dsimp only
    split <;> rfl
  · dsimp only
    split <;> rfl

/-- A new operation does its write. -/
theorem storage_applyOp_of_isNew {st : State} {op : Op} (h : st.isNew op) :
    (st.applyOp op).1.storage = op.write st.storage := by
  unfold applyOp Op.write
  split
  · rfl
  · dsimp only
    rw [if_pos h]
  · dsimp only
    rw [if_pos h]

/-- Any other operation leaves the storage as it is. -/
theorem storage_applyOp_of_not_isNew {st : State} {op : Op} (h : ¬ st.isNew op) :
    (st.applyOp op).1.storage = st.storage := by
  unfold applyOp
  split
  · rfl
  · dsimp only
    rw [if_neg h]
    rfl
  · dsimp only
    rw [if_neg h]
    rfl

/-- The reply to a `GET` is the value of its key. -/
theorem reply_applyOp_get {st : State} {op : Op} (h : op.type = .get) :
    (st.applyOp op).2.err = .ok ∧ st.storage.get? op.key = some (st.applyOp op).2.value ∨
      (st.applyOp op).2.err = .noKey ∧ st.storage.get? op.key = none := by
  unfold applyOp
  rw [h]
  dsimp only
  split
  · rename_i value hget
    exact .inl ⟨rfl, hget⟩
  · rename_i hget
    exact .inr ⟨rfl, hget⟩

end State

/-- The server as a replicated state machine. -/
def machine : Rsm.Machine State Op WaitChResponse :=
  { init := .initial, apply := fun st op => some (st.applyOp op) }

/-- Every log can be replayed. -/
theorem exists_replay (log : List Op) : ∃ st, machine.replay log = some st := by
  induction log using List.reverseRecOn with
  | nil => exact ⟨_, rfl⟩
  | append_singleton log op ih =>
    obtain ⟨st, hst⟩ := ih
    exact ⟨_, Machine.replay_concat hst rfl⟩

/-- The table has the highest request of every client. -/
theorem latest_of_replay {log : List Op} {st : State} (h : machine.replay log = some st) :
    (∀ q ∈ log, q.requestId ≤ st.latestAppliedRequest.latest q.clientId) ∧
    ∀ c, st.latestAppliedRequest.latest c = -1 ∨
      ∃ q ∈ log, q.clientId = c ∧ q.requestId = st.latestAppliedRequest.latest c := by
  refine Requests.latest_of_replay State.latestAppliedRequest Op.clientId Op.requestId rfl ?_ h
  intro st op st' r happly
  obtain rfl : (st.applyOp op).1 = st' := congrArg Prod.fst (Option.some.inj happly)
  exact st.latestAppliedRequest_applyOp op

end MitDistributed.KVRaft
