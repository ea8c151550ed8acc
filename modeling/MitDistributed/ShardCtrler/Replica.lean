import MitDistributed.ShardCtrler.Server
import MitDistributed.ShardCtrler.Traversal

namespace MitDistributed.ShardCtrler

open Rsm

/-!
# Shard controller — one replica as it runs

`applyLoop` with what `State` leaves out: the `Groups` of a configuration is a pointer to a map, the
four maps are run through in any order, and an index can be out of range.  `Replica.applyOp` is
`none` where the process ends.

* `Replica.applyOp_eq` — what an operation does, whatever the orders are;
* `Replica.Shows.applyOp` — a replica does what `State` does: in particular no operation writes to
  a map that an earlier configuration points to.
-/

/-- The orders in which one operation runs through `config.Groups` (to copy it),
    `op.JoinArgs.Servers`, `groups` and `groupToShards`. -/
structure Orders where
  copied : Order (Gid × List String)
  joined : Order (Gid × List String)
  grouped : Order Gid
  written : Order Gid

/-! ### Maps in memory -/

/-- The maps of groups that were made so far, by their addresses. -/
abbrev Heap := List Groups

namespace Heap

def read (heap : Heap) (addr : ℕ) : Groups := heap.getD addr .empty

/-- `m[gid] = servers` -/
def put (heap : Heap) (addr : ℕ) (gid : Gid) (servers : List String) : Heap :=
  heap.set addr ((heap.read addr).insert gid servers)

/-- `delete(m, gid)` -/
def delete (heap : Heap) (addr : ℕ) (gid : Gid) : Heap :=
  heap.set addr ((heap.read addr).erase gid)

@[simp] theorem read_concat_length (heap : Heap) (groups : Groups) :
    read (heap ++ [groups]) heap.length = groups := by
  simp [read]

theorem read_concat_of_lt {heap : Heap} {addr : ℕ} (h : addr < heap.length) (groups : Groups) :
    read (heap ++ [groups]) addr = heap.read addr := by
  simp [read, List.getD_eq_getElem?_getD, List.getElem?_append_left h]

/-- Writes to the last map leave the others alone. -/
theorem foldl_put_length (heap : Heap) (groups : Groups) (es : List (Gid × List String)) :
    es.foldl (fun heap' e => put heap' heap.length e.1 e.2) (heap ++ [groups]) =
      heap ++ [es.foldl (fun gs e => gs.insert e.1 e.2) groups] := by
  induction es generalizing groups with
  | nil => rfl
  | cons e es ih =>
    have hput : put (heap ++ [groups]) heap.length e.1 e.2 = heap ++ [groups.insert e.1 e.2] := by
      rw [put, read_concat_length]
      simp
    rw [List.foldl_cons, hput, ih]
    rfl

theorem foldl_delete_length (heap : Heap) (groups : Groups) (gids : List Gid) :
    gids.foldl (fun heap' gid => delete heap' heap.length gid) (heap ++ [groups]) =
      heap ++ [groups.leave gids] := by
  induction gids generalizing groups with
  | nil => rfl
  | cons gid gids ih =>
    have hdelete : delete (heap ++ [groups]) heap.length gid = heap ++ [groups.erase gid] := by
      rw [delete, read_concat_length]
      simp
    rw [List.foldl_cons, hdelete, ih]
    rfl

end Heap

/-! ### Running through a map of groups -/

/-- The order in which servers are entered does not matter. -/
theorem foldl_insert_run (order : Order (Gid × List String)) (groups servers : Groups) :
    (order.run servers.entries).foldl (fun gs e => gs.insert e.1 e.2) groups =
      groups.join servers := by
  refine (order.perm servers.entries).foldl_eq' (fun x hx y hy gs => ?_) groups
  rcases eq_or_ne x.1 y.1 with heq | hne
  · -- two entries of one group are the same entry
    have hx' := (Groups.lookup_eq_some_iff servers.sorted).mpr ((order.perm _).mem_iff.mp hx)
    have hy' := (Groups.lookup_eq_some_iff servers.sorted).mpr ((order.perm _).mem_iff.mp hy)
    rw [heq, hy'] at hx'
    rw [heq, Option.some.inj hx']
  · exact gs.insert_comm hne x.2 y.2

/-- The servers of a group after a `JOIN`. -/
theorem Groups.get?_join (groups servers : Groups) (gid : Gid) :
    (groups.join servers).get? gid = (servers.get? gid).or (groups.get? gid) := by
  obtain ⟨es, hes⟩ := servers
  show (es.foldl (fun gs e => gs.insert e.1 e.2) groups).get? gid = (es.lookup gid).or _
  induction es generalizing groups with
  | nil => rfl
  | cons e es ih =>
    obtain ⟨he, hes⟩ := List.pairwise_cons.mp hes
    rw [List.foldl_cons, ih _ hes, Groups.get?_insert, List.lookup_cons]
    rcases eq_or_ne gid e.1 with rfl | hne
    · have hnone : es.lookup e.1 = none := by
        refine Option.eq_none_iff_forall_ne_some.mpr fun servers hsome => ?_
        exact lt_irrefl e.1 (he (e.1, servers) ((Groups.lookup_eq_some_iff hes).mp hsome))
      simp [hnone]
    · rw [if_neg hne, beq_eq_false_iff_ne.mpr hne]

/-- Entering all servers of a map in an empty one makes a copy. -/
theorem Groups.empty_join (groups : Groups) : Groups.empty.join groups = groups := by
  refine Groups.ext_get? fun gid => ?_
  rw [Groups.get?_join]
  exact Option.or_none

/-! ### A replica -/

/-- A configuration whose groups are at an address. -/
structure ConfigRef where
  num : ℕ
  shards : Shards
  groups : ℕ

/-- What a configuration is, given the maps. -/
def Heap.config (heap : Heap) (c : ConfigRef) : Config :=
  { num := c.num, shards := c.shards, groups := heap.read c.groups }

/-- What `applyLoop` sends to a waiting handler; no configuration is the zero value `Config{}`. -/
structure Response where
  err : Err
  config : Option ConfigRef

/-- The response without a configuration. -/
def Response.done : Response := { err := .ok, config := none }

/-- The state of a replica. -/
structure Replica where
  heap : Heap
  configs : List ConfigRef
  latestAppliedRequest : Requests

namespace Replica

/-- `StartServer` -/
def initial : Replica :=
  { heap := [.empty]
    configs := [{ num := 0, shards := fun _ => 0, groups := 0 }]
    latestAppliedRequest := .empty }

/-- Whether the request was applied before. -/
def duplicated (r : Replica) (op : Op) : Bool :=
  !(op.requestId > r.latestAppliedRequest.latest op.clientId)

/-- Enter the request in the table. -/
def mark (r : Replica) (op : Op) : Replica :=
  { r with latestAppliedRequest := r.latestAppliedRequest.mark op.clientId op.requestId }

/-- `createNewConfigDeepCopy`: the same configuration with the next number and a map of its own. -/
def createNewConfigDeepCopy (copied : Order (Gid × List String)) (heap : Heap)
    (config : ConfigRef) : Heap × ConfigRef :=
  let addr := heap.length
  ((copied.run (heap.read config.groups).entries).foldl (fun heap e => heap.put addr e.1 e.2)
    (heap ++ [.empty]), { config with num := config.num + 1, groups := addr })

/-- Append a configuration. -/
def append (r : Replica) (heap : Heap) (config : ConfigRef) : Replica :=
  { r with heap := heap, configs := r.configs ++ [config] }

/-- Apply one operation. -/
def applyOp (o : Orders) (r : Replica) (op : Op) : Option (Replica × Response) :=
  match op.command with
  | .join servers =>
    if r.duplicated op then some (r.mark op, .done)
    else r.configs.getLast?.bind fun last =>
      let (heap, newConfig) := createNewConfigDeepCopy o.copied r.heap last
      let isFirst := (heap.read newConfig.groups).gids.length == 0
      let heap := (o.joined.run servers.entries).foldl
        (fun heap e => heap.put newConfig.groups e.1 e.2) heap
      (rebalanceShardIn o.grouped o.written (heap.read newConfig.groups) newConfig.shards true
        isFirst).map fun shards =>
          ((r.mark op).append heap { newConfig with shards := shards }, .done)
  | .leave gids =>
    if r.duplicated op then some (r.mark op, .done)
    else r.configs.getLast?.bind fun last =>
      let (heap, newConfig) := createNewConfigDeepCopy o.copied r.heap last
      let heap := gids.foldl (fun heap gid => heap.delete newConfig.groups gid) heap
      (rebalanceShardIn o.grouped o.written (heap.read newConfig.groups) newConfig.shards false
        false).map fun shards =>
          ((r.mark op).append heap { newConfig with shards := shards }, .done)
  | .move shard gid =>
    if r.duplicated op then some (r.mark op, .done)
    else r.configs.getLast?.bind fun last =>
      let (heap, newConfig) := createNewConfigDeepCopy o.copied r.heap last
      (shardOf shard).map fun s =>
        ((r.mark op).append heap
          { newConfig with shards := Function.update newConfig.shards s gid }, .done)
  | .query num =>
    if num < 0 ∨ num ≥ (r.configs.length : ℤ) - 1 then
      r.configs.getLast?.map fun c => (r.mark op, { err := .ok, config := some c })
    else r.configs[num.toNat]?.map fun c => (r.mark op, { err := .ok, config := some c })

/-! ### What an operation does -/

/-- Append a configuration, with its groups at a new address. -/
def add (r : Replica) (c : Config) : Replica :=
  r.append (r.heap ++ [c.groups]) { num := c.num, shards := c.shards, groups := r.heap.length }

/-- The effect of an operation, without the ways by which it comes about. -/
def effect (r : Replica) (op : Op) : Option (Replica × Response) :=
  match op.command with
  | .join servers =>
    if r.duplicated op then some (r.mark op, .done)
    else r.configs.getLast?.map fun last =>
      ((r.mark op).add ((r.heap.config last).join servers), .done)
  | .leave gids =>
    if r.duplicated op then some (r.mark op, .done)
    else r.configs.getLast?.map fun last =>
      ((r.mark op).add ((r.heap.config last).leave gids), .done)
  | .move shard gid =>
    if r.duplicated op then some (r.mark op, .done)
    else r.configs.getLast?.bind fun last => (shardOf shard).map fun s =>
      ((r.mark op).add ((r.heap.config last).move s gid), .done)
  | .query num =>
    if num < 0 ∨ num ≥ (r.configs.length : ℤ) - 1 then
      r.configs.getLast?.map fun c => (r.mark op, { err := .ok, config := some c })
    else r.configs[num.toNat]?.map fun c => (r.mark op, { err := .ok, config := some c })

theorem createNewConfigDeepCopy_eq (copied : Order (Gid × List String)) (heap : Heap)
    (config : ConfigRef) :
    createNewConfigDeepCopy copied heap config = (heap ++ [heap.read config.groups],
      { config with num := config.num + 1, groups := heap.length }) := by
  rw [createNewConfigDeepCopy, Heap.foldl_put_length, foldl_insert_run, Groups.empty_join]

/-- **The orders do not matter.** -/
theorem applyOp_eq (o : Orders) (r : Replica) (op : Op) : r.applyOp o op = r.effect op := by
  unfold applyOp effect
  cases op.command with
  | join servers =>
    refine if_congr Iff.rfl rfl ?_
    cases r.configs.getLast? with
    | none => rfl
    | some last =>
      dsimp only [Option.bind_some, Option.map_some]
      rw [createNewConfigDeepCopy_eq, Heap.foldl_put_length, foldl_insert_run,
        Heap.read_concat_length, Heap.read_concat_length, rebalanceShardIn_eq, Option.map_some]
      rfl
  | leave gids =>
    refine if_congr Iff.rfl rfl ?_
    cases r.configs.getLast? with
    | none => rfl
    | some last =>
      dsimp only [Option.bind_some, Option.map_some]
      rw [createNewConfigDeepCopy_eq, Heap.foldl_delete_length, Heap.read_concat_length,
        rebalanceShardIn_eq, Option.map_some]
      rfl
  | move shard gid =>
    refine if_congr Iff.rfl rfl ?_
    cases r.configs.getLast? with
    | none => rfl
    | some last =>
      dsimp only [Option.bind_some]
      rw [createNewConfigDeepCopy_eq]
      rfl
  | query num => rfl

/-! ### Refinement -/

/-- The configurations, with the groups they point to. -/
def view (r : Replica) : List Config := r.configs.map r.heap.config

/-- The replica is in the given state. -/
structure Shows (r : Replica) (st : State) : Prop where
  configs : r.view = st.history.configs
  stored : ∀ c ∈ r.configs, c.groups < r.heap.length
  requests : r.latestAppliedRequest = st.latestAppliedRequest

theorem initial_shows : initial.Shows .initial where
  configs := rfl
  stored := by simp [initial]
  requests := rfl

section Shows

variable {r : Replica} {st : State}

theorem Shows.getLast (h : r.Shows st) :
    ∃ last, r.configs.getLast? = some last ∧ r.heap.config last = st.history.latest := by
  have hlast : r.view.getLast? = some st.history.latest := by
    rw [h.configs, History.latest, List.getLast?_eq_some_getLast]
  rw [view, List.getLast?_map] at hlast
  exact Option.map_eq_some_iff.mp hlast

theorem Shows.mark (h : r.Shows st) (op : Op) : (r.mark op).Shows (st.mark op) where
  configs := h.configs
  stored := h.stored
  requests := by rw [Replica.mark, State.mark, h.requests]

/-- A new configuration has a map of its own, and the others keep theirs. -/
theorem Shows.add (h : r.Shows st) (c : Config) (hc : c.num = st.history.latest.num + 1) :
    (r.add c).Shows (st.push c hc) where
  configs := by
    have hold : r.configs.map (Heap.config (r.heap ++ [c.groups])) = st.history.configs := by
      rw [← h.configs]
      refine List.map_congr_left fun c' hc' => ?_
      rw [Heap.config, Heap.config, Heap.read_concat_of_lt (h.stored c' hc')]
    show (r.configs ++ [_]).map (Heap.config (r.heap ++ [c.groups])) = st.history.configs ++ [c]
    rw [List.map_append, hold, List.map_singleton, Heap.config, Heap.read_concat_length]
  stored c' hc' := by
    show c'.groups < (r.heap ++ [c.groups]).length
    rw [List.length_append, List.length_singleton]
    rcases List.mem_append.mp hc' with hold | hnew
    · exact (h.stored c' hold).trans (Nat.lt_succ_self _)
    · rw [List.mem_singleton.mp hnew]
      exact Nat.lt_succ_self _
  requests := h.requests

end Shows

end Replica

/-- A response with the configuration it points to. -/
def Response.view (heap : Heap) (response : Response) : WaitChResponse :=
  { err := response.err, config := (response.config.map heap.config).getD .initial }

/-- The two sides do the same: both end the process, or both go on. -/
def Agrees (x : Replica × Response) (y : State × WaitChResponse) : Prop :=
  x.1.Shows y.1 ∧ x.2.view x.1.heap = y.2

namespace Replica

variable {r : Replica} {st : State}

theorem Shows.duplicated (h : r.Shows st) (op : Op) : r.duplicated op = st.duplicated op := by
  rw [Replica.duplicated, State.duplicated, h.requests]

/-- What a `QUERY` reports. -/
theorem Shows.query (h : r.Shows st) (op : Op) (num : ℤ) (hop : op.command = .query num) :
    ∃ c, r.effect op = some (r.mark op, { err := .ok, config := some c }) ∧
      r.heap.config c = st.history.query num := by
  have hlen : r.configs.length = st.history.configs.length := by
    rw [← h.configs, view, List.length_map]
  rw [effect, hop, History.query]
  dsimp only
  rw [hlen]
  by_cases hlast : num < 0 ∨ num ≥ (st.history.configs.length : ℤ) - 1
  · obtain ⟨c, hc, hconfig⟩ := h.getLast
    rw [if_pos hlast, if_pos hlast, hc, Option.map_some]
    exact ⟨c, rfl, hconfig⟩
  · have hlt : num.toNat < r.configs.length := by omega
    have hget : st.history.configs[num.toNat]? = some (r.heap.config r.configs[num.toNat]) := by
      rw [← h.configs, view, List.getElem?_map, List.getElem?_eq_getElem hlt, Option.map_some]
    rw [if_neg hlast, if_neg hlast, List.getElem?_eq_getElem hlt, Option.map_some,
      List.getD_eq_getElem?_getD, hget, Option.getD_some]
    exact ⟨_, rfl, rfl⟩

/-- **Refinement.** An operation does to a replica what it does to the state that the replica is
    in, whatever the orders of the maps are. -/
theorem Shows.applyOp (h : r.Shows st) (o : Orders) (op : Op) :
    Option.Rel Agrees (r.applyOp o op) (st.applyOp op) := by
  have hmark := h.mark op
  obtain ⟨last, hlast, hconfig⟩ := h.getLast
  rw [applyOp_eq]
  cases hop : op.command with
  | join servers =>
    rw [effect, State.applyOp, hop]
    dsimp only
    rw [h.duplicated, hlast, Option.map_some, hconfig]
    split
    · exact .some ⟨hmark, rfl⟩
    · exact .some ⟨hmark.add _ rfl, rfl⟩
  | leave gids =>
    rw [effect, State.applyOp, hop]
    dsimp only
    rw [h.duplicated, hlast, Option.map_some, hconfig]
    split
    · exact .some ⟨hmark, rfl⟩
    · exact .some ⟨hmark.add _ rfl, rfl⟩
  | move shard gid =>
    rw [effect, State.applyOp, hop]
    dsimp only
    rw [h.duplicated, hlast, Option.bind_some, hconfig]
    split
    · exact .some ⟨hmark, rfl⟩
    · cases shardOf shard with
      | none => exact .none
      | some s => exact .some ⟨hmark.add _ rfl, rfl⟩
  | query num =>
    obtain ⟨c, heffect, hc⟩ := h.query op num hop
    rw [heffect, State.applyOp, hop]
    refine .some ⟨hmark, ?_⟩
    show WaitChResponse.mk .ok (r.heap.config c) = _
    rw [hc]

end Replica

end MitDistributed.ShardCtrler
