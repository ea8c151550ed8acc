import MitDistributed.Rsm.Requests
import MitDistributed.ShardCtrler.Config
import MitDistributed.Storage

namespace MitDistributed.ShardKV

open Rsm ShardCtrler

/-!
# Sharded store — the replicated state of a group

`applyLoop` of a `ShardKV`: the shards of the group with their status, the configuration before
and the current one, and the table of the latest requests.  `State.applyOp` applies one operation;
it is `none` where the code panics, on a `PULL_SHARD` or `TRANSFER_DONE` of the current version
for a shard that the group does not have.

The conditions under which a server serves `Pull`, and under which its background tasks ask for
more, are here too, as functions of its state.
-/

inductive ShardStatus
  | working
  | pulling
  | leaving
  | waiting
  deriving DecidableEq, Repr

structure Shard where
  storage : Storage
  status : ShardStatus
  deriving DecidableEq

/-- The shard that a key is in. -/
def key2shard (key : Bytes) : ShardId :=
  ⟨(key.head?.getD 0).toNat % NShards, Nat.mod_lt _ (by decide)⟩

inductive Op
  | get (key : Bytes) (clientId requestId : ℤ)
  | put (key value : Bytes) (clientId requestId : ℤ)
  | append (key value : Bytes) (clientId requestId : ℤ)
  | updateConfig (config : Config)
  | pullShard (shard : ShardId) (configVersion : ℕ) (storage : Storage)
  | leaveShard (shard : ShardId) (configVersion : ℕ)
  | transferDone (shard : ShardId) (configVersion : ℕ)
  deriving DecidableEq

inductive Err
  | none
  | ok
  | noKey
  | wrongGroup
  | wrongLeader
  | configVersion
  deriving DecidableEq, Repr

/-- What `applyLoop` sends to a waiting handler. -/
structure WaitChResponse where
  err : Err
  value : Bytes
  deriving DecidableEq

/-- A response without a value. -/
def WaitChResponse.only (err : Err) : WaitChResponse := { err := err, value := [] }

/-- The state of a server that follows from the log. -/
structure State where
  shards : ShardId → Option Shard
  prevConfig : Config
  currConfig : Config
  latestAppliedRequest : Requests

namespace State

def initial : State :=
  { shards := fun _ => none
    prevConfig := .initial
    currConfig := .initial
    latestAppliedRequest := .empty }

/-- The number of the current configuration. -/
def num (st : State) : ℕ := st.currConfig.num

/-- The status of a shard, if the group has it. -/
def status (st : State) (s : ShardId) : Option ShardStatus := (st.shards s).map Shard.status

theorem exists_shard_of_status {st : State} {s : ShardId} {a b : ShardStatus}
    (h : st.status s = some a ∨ st.status s = some b) :
    ∃ sh, st.shards s = some sh ∧ (sh.status = a ∨ sh.status = b) := by
  rcases h with h | h
  · obtain ⟨sh, hsh, hs⟩ := Option.map_eq_some_iff.mp h
    exact ⟨sh, hsh, .inl hs⟩
  · obtain ⟨sh, hsh, hs⟩ := Option.map_eq_some_iff.mp h
    exact ⟨sh, hsh, .inr hs⟩

/-- Whether the group serves requests for the shard. -/
def serves (st : State) (s : ShardId) : Prop :=
  st.status s = some .working ∨ st.status s = some .waiting

instance (st : State) (s : ShardId) : Decidable (st.serves s) :=
  inferInstanceAs (Decidable (_ ∨ _))

/-- Whether every shard of the group is in status `WORKING`. -/
def allWorking (st : State) : Prop := ∀ s sh, st.shards s = some sh → sh.status = .working

instance (st : State) : Decidable st.allWorking :=
  decidable_of_iff (∀ s, (st.shards s).all fun sh => sh.status = .working) <| by
    refine forall_congr' fun s => ?_
    cases st.shards s with
    | none => simp
    | some sh => simp

/-- Replace one shard. -/
def setShard (st : State) (s : ShardId) (sh : Option Shard) : State :=
  { st with shards := Function.update st.shards s sh }

@[simp] theorem setShard_self (st : State) (s : ShardId) (sh : Option Shard) :
    (st.setShard s sh).shards s = sh := Function.update_self _ _ _

theorem setShard_of_ne (st : State) {s t : ShardId} (sh : Option Shard) (h : t ≠ s) :
    (st.setShard s sh).shards t = st.shards t := Function.update_of_ne h _ _

theorem status_setShard_self (st : State) (s : ShardId) (sh : Option Shard) :
    (st.setShard s sh).status s = sh.map Shard.status := by rw [status, setShard_self]

theorem status_setShard_of_ne (st : State) {s t : ShardId} (sh : Option Shard) (h : t ≠ s) :
    (st.setShard s sh).status t = st.status t := by rw [status, setShard_of_ne _ _ h, status]

/-! ### Client operations -/

/-- Enter a request in the table. -/
def mark (st : State) (clientId requestId : ℤ) : State :=
  { st with latestAppliedRequest := st.latestAppliedRequest.mark clientId requestId }

/-- A `PUT` or `APPEND`, which `write` does to the shard; a duplicate is only answered. -/
def applyWrite (st : State) (key : Bytes) (clientId requestId : ℤ)
    (write : Storage → Storage) : State × WaitChResponse :=
  match st.shards (key2shard key) with
  | some sh =>
    if sh.status = .working ∨ sh.status = .waiting then
      if requestId > st.latestAppliedRequest.latest clientId then
        ((st.mark clientId requestId).setShard (key2shard key)
          (some { sh with storage := write sh.storage }), .only .ok)
      else (st.mark clientId requestId, .only .ok)
    else (st, .only .wrongGroup)
  | none => (st, .only .wrongGroup)

def applyGet (st : State) (key : Bytes) (clientId requestId : ℤ) : State × WaitChResponse :=
  match st.shards (key2shard key) with
  | some sh =>
    if sh.status = .working ∨ sh.status = .waiting then
      (st.mark clientId requestId,
        match sh.storage.get? key with
        | some value => { err := .ok, value := value }
        | none => .only .noKey)
    else (st, .only .wrongGroup)
  | none => (st, .only .wrongGroup)

/-! ### Operations on shards -/

/-- The shards after a new configuration: the first one creates them, a later one asks for those
    that are new to the group and lets go of those that it assigns to others. -/
def updateShards (gid : Gid) (config : Config) (shards : ShardId → Option Shard) :
    ShardId → Option Shard := fun s =>
  if config.num = 1 then
    if config.shards s = gid then some { storage := .empty, status := .working } else shards s
  else
    match shards s with
    | none =>
      if config.shards s = gid then some { storage := .empty, status := .pulling } else none
    | some sh => if config.shards s ≠ gid then some { sh with status := .leaving } else some sh

def applyUpdateConfig (gid : Gid) (st : State) (config : Config) : State :=
  if st.num + 1 = config.num then
    { st with
      prevConfig := st.currConfig
      currConfig := config
      shards := updateShards gid config st.shards }
  else st

def applyPullShard (st : State) (s : ShardId) (configVersion : ℕ) (storage : Storage) :
    Option State :=
  if st.num = configVersion then
    match st.shards s with
    | some sh =>
      if sh.status = .pulling then
        some (st.setShard s (some { storage := storage, status := .waiting }))
      else some st
    | none => none
  else some st

def applyLeaveShard (st : State) (s : ShardId) (configVersion : ℕ) : State × WaitChResponse :=
  if st.num = configVersion then (st.setShard s none, .only .ok)
  else if st.num > configVersion then (st, .only .ok)
  else (st, .only .configVersion)

def applyTransferDone (st : State) (s : ShardId) (configVersion : ℕ) : Option State :=
  if st.num = configVersion then
    match st.shards s with
    | some sh =>
      if sh.status = .waiting then some (st.setShard s (some { sh with status := .working }))
      else some st
    | none => none
  else some st

/-- Apply one operation, at a server of group `gid`. -/
def applyOp (gid : Gid) (st : State) : Op → Option (State × WaitChResponse)
  | .get key clientId requestId => some (st.applyGet key clientId requestId)
  | .put key value clientId requestId =>
    some (st.applyWrite key clientId requestId fun storage => storage.put key value)
  | .append key value clientId requestId =>
    some (st.applyWrite key clientId requestId fun storage => storage.append key value)
  | .updateConfig config => some (st.applyUpdateConfig gid config, .only .none)
  | .pullShard s configVersion storage =>
    (st.applyPullShard s configVersion storage).map fun st' => (st', .only .none)
  | .leaveShard s configVersion => some (st.applyLeaveShard s configVersion)
  | .transferDone s configVersion =>
    (st.applyTransferDone s configVersion).map fun st' => (st', .only .none)

/-- What applying an operation does to the shards: it keeps their status, and the contents of those
    that are not served; or it takes effect as one of the operations on shards. -/
inductive Applies (gid : Gid) (st : State) : Op → State → Prop
  | keep {op : Op} {st' : State} (hprev : st'.prevConfig = st.prevConfig)
      (hcurr : st'.currConfig = st.currConfig)
      (hshards : ∀ s, st'.shards s = st.shards s ∨ st.serves s ∧ st'.status s = st.status s)
      (hlatest : ∀ c, st.latestAppliedRequest.latest c ≤ st'.latestAppliedRequest.latest c) :
      Applies gid st op st'
  | update {config : Config} (hnum : st.num + 1 = config.num) :
      Applies gid st (.updateConfig config)
        { st with
          prevConfig := st.currConfig
          currConfig := config
          shards := updateShards gid config st.shards }
  | pull {s : ShardId} {storage : Storage} {sh : Shard} (hsh : st.shards s = some sh)
      (hpulling : sh.status = .pulling) :
      Applies gid st (.pullShard s st.num storage)
        (st.setShard s (some { storage := storage, status := .waiting }))
  | leave (s : ShardId) : Applies gid st (.leaveShard s st.num) (st.setShard s none)
  | done {s : ShardId} {sh : Shard} (hsh : st.shards s = some sh)
      (hwaiting : sh.status = .waiting) :
      Applies gid st (.transferDone s st.num)
        (st.setShard s (some { sh with status := .working }))

variable {gid : Gid} {st st' : State} {op : Op} {r : WaitChResponse} {s : ShardId}

theorem Applies.same (op : Op) : st.Applies gid op st :=
  .keep rfl rfl (fun _ => .inl rfl) fun _ => le_rfl

theorem Applies.mark (op : Op) (c q : ℤ) : st.Applies gid op (st.mark c q) :=
  .keep rfl rfl (fun _ => .inl rfl) fun _ => Requests.le_latest_mark

theorem applies_write (op : Op) (key : Bytes) (clientId requestId : ℤ) (write : Storage → Storage) :
    st.Applies gid op (st.applyWrite key clientId requestId write).1 := by
  unfold applyWrite
  split
  · rename_i sh hsh
    split_ifs with hserves hnew
    · refine .keep rfl rfl (fun s => ?_) fun _ => Requests.le_latest_mark
      rcases eq_or_ne s (key2shard key) with rfl | hne
      · -- the shard that is written keeps its status
        refine .inr ⟨?_, ?_⟩
        · rw [serves, status, hsh]
          simpa using hserves
        · rw [status, status, hsh, setShard_self]
          rfl
      · exact .inl (setShard_of_ne _ _ hne)
    · exact .mark op clientId requestId
    · exact .same op
  · exact .same op

theorem applies_of_applyOp (h : st.applyOp gid op = some (st', r)) : st.Applies gid op st' := by
  cases op with
  | get key c q =>
    obtain rfl : (st.applyGet key c q).1 = st' := congrArg Prod.fst (Option.some.inj h)
    unfold applyGet
    split
    · split_ifs
      · exact .mark _ c q
      · exact .same _
    · exact .same _
  | put key value c q =>
    obtain rfl : (st.applyWrite key c q fun storage => storage.put key value).1 = st' :=
      congrArg Prod.fst (Option.some.inj h)
    exact applies_write _ _ _ _ _
  | append key value c q =>
    obtain rfl : (st.applyWrite key c q fun storage => storage.append key value).1 = st' :=
      congrArg Prod.fst (Option.some.inj h)
    exact applies_write _ _ _ _ _
  | updateConfig config =>
    obtain rfl : st.applyUpdateConfig gid config = st' := congrArg Prod.fst (Option.some.inj h)
    unfold applyUpdateConfig
    split_ifs with hnum
    · exact .update hnum
    · exact .same _
  | pullShard s v storage =>
    obtain ⟨st'', hst, heq⟩ := Option.map_eq_some_iff.mp h
    cases heq
    unfold applyPullShard at hst
    split_ifs at hst with hnum
    · split at hst
      · rename_i sh hsh
        split_ifs at hst with hpulling
        · cases hst
          exact hnum ▸ .pull hsh hpulling
        · cases hst
          exact .same _
      · cases hst
    · cases hst
      exact .same _
  | leaveShard s v =>
    obtain rfl : (st.applyLeaveShard s v).1 = st' := congrArg Prod.fst (Option.some.inj h)
    unfold applyLeaveShard
    split_ifs with hnum hgt
    · exact hnum ▸ .leave s
    · exact .same _
    · exact .same _
  | transferDone s v =>
    obtain ⟨st'', hst, heq⟩ := Option.map_eq_some_iff.mp h
    cases heq
    unfold applyTransferDone at hst
    split_ifs at hst with hnum
    · split at hst
      · rename_i sh hsh
        split_ifs at hst with hwaiting
        · cases hst
          exact hnum ▸ .done hsh hwaiting
        · cases hst
          exact .same _
      · cases hst
    · cases hst
      exact .same _

/-! ### Serving and asking -/

/-- The reply to a `Pull` for version `configVersion`: a copy of the shard, or `none` for
    `ErrConfigVersion`. -/
def pull (st : State) (s : ShardId) (configVersion : ℕ) : Option Storage :=
  if st.num > configVersion then none
  else if st.num < configVersion then none
  else (st.shards s).map Shard.storage

/-- What `fetchNextConfig` does with the configuration that the controllers report. -/
inductive Fetch
  | nothing
  | start (op : Op)
  /-- "Jump through some versions!" -/
  | fatal
  deriving DecidableEq

/-- One round of `fetchNextConfig`, where `query num` is the configuration the controllers report
    for `num`. -/
def fetchNextConfig (st : State) (query : ℕ → Config) : Fetch :=
  if st.allWorking then
    let currVersion := st.num
    let latestConfig := query (currVersion + 1)
    if latestConfig.num > currVersion then
      if latestConfig.num ≠ currVersion + 1 then .fatal else .start (.updateConfig latestConfig)
    else .nothing
  else .nothing

/-- The group that `pullShard` and `sendLeave` call for a shard, if the previous configuration has
    servers for it. -/
def exOwner (st : State) (s : ShardId) : Option Gid :=
  if (st.prevConfig.groups.get? (st.prevConfig.shards s)).isSome then
    some (st.prevConfig.shards s)
  else none

end State

end MitDistributed.ShardKV
