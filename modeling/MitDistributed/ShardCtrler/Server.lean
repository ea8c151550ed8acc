import MitDistributed.Rsm.Requests
import MitDistributed.ShardCtrler.Rebalance

namespace MitDistributed.ShardCtrler

open Balance Rsm Transition

/-!
# Shard controller — the replicated state

`applyLoop` of a controller: the configurations, indexed by their numbers, and the table of the
latest request of every client.  `State.applyOp` applies one operation and gives the response
that goes to a waiting handler; it is `none` where the code panics, on a `MOVE` of a shard that
does not exist.

The history of configurations carries that it is not empty and that configuration `k` has number
`k`.

* `History.query_num_le` — a `QUERY` never reports a later configuration than it asks for;
* `appended_balanced_iff` — when the configuration that a `JOIN` or `LEAVE` appends is balanced.
-/

/-- What an operation asks for. -/
inductive Command
  | join (servers : Groups)
  | leave (gids : List Gid)
  | move (shard : ℤ) (gid : Gid)
  | query (num : ℤ)
  deriving DecidableEq

def Command.isQuery : Command → Bool
  | .query _ => true
  | _ => false

/-- An operation, with the client and the request it is from. -/
structure Op where
  clientId : ℤ
  requestId : ℤ
  command : Command
  deriving DecidableEq

/-! ### Configurations -/

/-- The configurations so far. -/
structure History where
  configs : List Config
  ne : configs ≠ []
  numbered : ∀ (k : ℕ) (c : Config), configs[k]? = some c → c.num = k

namespace History

/-- Configuration 0, with no groups. -/
def initial : History where
  configs := [.initial]
  ne := List.cons_ne_nil _ _
  numbered k c h := by
    cases k with
    | zero => rw [List.getElem?_cons_zero, Option.some.injEq] at h; subst h; rfl
    | succ k => simp at h

/-- The last configuration. -/
def latest (h : History) : Config := h.configs.getLast h.ne

theorem latest_num (h : History) : h.latest.num + 1 = h.configs.length := by
  have hpos := List.length_pos_iff.mpr h.ne
  have hget : h.configs[h.configs.length - 1]? = some h.latest := by
    rw [latest, List.getLast_eq_getElem, List.getElem?_eq_getElem (by omega)]
  have hnum := h.numbered _ _ hget
  omega

/-- Append a configuration with the next number. -/
def push (h : History) (c : Config) (hc : c.num = h.latest.num + 1) : History where
  configs := h.configs ++ [c]
  ne := by simp
  numbered k c' hk := by
    have hlen := h.latest_num
    rw [List.getElem?_append] at hk
    split at hk
    · exact h.numbered k c' hk
    · rw [List.getElem?_singleton] at hk
      split at hk
      · rw [← Option.some.inj hk]; omega
      · exact absurd hk (by simp)

/-- The configuration that a `QUERY` for `num` reports: the last one if there is no such
    number. -/
def query (h : History) (num : ℤ) : Config :=
  if num < 0 ∨ num ≥ (h.configs.length : ℤ) - 1 then h.latest
  else h.configs.getD num.toNat h.latest

/-- A `QUERY` for an existing number or a later one does not report a later one. -/
theorem query_num_le (h : History) (num : ℤ) (h0 : 0 ≤ num) : ((h.query num).num : ℤ) ≤ num := by
  have hlen := h.latest_num
  unfold query
  split
  · rename_i hor
    omega
  · rename_i hin
    have hlt : num.toNat < h.configs.length := by omega
    have hget : h.configs[num.toNat]? = some h.configs[num.toNat] := List.getElem?_eq_getElem hlt
    have hnum := h.numbered _ _ hget
    rw [List.getD_eq_getElem?_getD, hget, Option.getD_some]
    omega

/-- What a `QUERY` reports is the configuration of its number. -/
theorem query_mem (h : History) (num : ℤ) :
    h.configs[(h.query num).num]? = some (h.query num) := by
  have hmem : h.query num ∈ h.configs := by
    unfold query
    split
    · exact List.getLast_mem h.ne
    · rename_i hin
      have hlt : num.toNat < h.configs.length := by omega
      rw [List.getD_eq_getElem?_getD, List.getElem?_eq_getElem hlt, Option.getD_some]
      exact List.getElem_mem hlt
  obtain ⟨k, hk⟩ := List.mem_iff_getElem?.mp hmem
  rw [h.numbered k _ hk]
  exact hk

end History

/-! ### New configurations -/

namespace Config

/-- The configuration after a `JOIN`. -/
def join (config : Config) (servers : Groups) : Config :=
  let groups := config.groups.join servers
  { config.next with
    groups := groups
    shards := rebalanceShard groups config.shards true (config.groups.gids.length == 0) }

/-- The configuration after a `LEAVE`. -/
def leave (config : Config) (gids : List Gid) : Config :=
  let groups := config.groups.leave gids
  { config.next with
    groups := groups
    shards := rebalanceShard groups config.shards false false }

/-- The configuration after a `MOVE`. -/
def move (config : Config) (shard : ShardId) (gid : Gid) : Config :=
  { config.next with shards := Function.update config.shards shard gid }

end Config

/-- The shard that an index means, if it is one. -/
def shardOf (shard : ℤ) : Option ShardId :=
  if h : 0 ≤ shard ∧ shard < NShards then some ⟨shard.toNat, by omega⟩ else none

/-! ### Applying operations -/

inductive Err
  | none
  | ok
  | wrongLeader
  deriving DecidableEq, Repr

/-- What `applyLoop` sends to a waiting handler. -/
structure WaitChResponse where
  err : Err
  config : Config
  deriving DecidableEq

/-- The response without a configuration. -/
def WaitChResponse.done : WaitChResponse := { err := .ok, config := .initial }

/-- The state of a controller that follows from the log. -/
structure State where
  history : History
  latestAppliedRequest : Requests

namespace State

def initial : State :=
  { history := .initial, latestAppliedRequest := .empty }

/-- Whether the request was applied before. -/
def duplicated (st : State) (op : Op) : Bool :=
  !(op.requestId > st.latestAppliedRequest.latest op.clientId)

/-- Enter the request in the table. -/
def mark (st : State) (op : Op) : State :=
  { st with latestAppliedRequest := st.latestAppliedRequest.mark op.clientId op.requestId }

/-- Append a configuration. -/
def push (st : State) (c : Config) (hc : c.num = st.history.latest.num + 1) : State :=
  { st with history := st.history.push c hc }

/-- Apply one operation. -/
def applyOp (st : State) (op : Op) : Option (State × WaitChResponse) :=
  match op.command with
  | .join servers =>
    if st.duplicated op then some (st.mark op, .done)
    else some ((st.mark op).push (st.history.latest.join servers) rfl, .done)
  | .leave gids =>
    if st.duplicated op then some (st.mark op, .done)
    else some ((st.mark op).push (st.history.latest.leave gids) rfl, .done)
  | .move shard gid =>
    if st.duplicated op then some (st.mark op, .done)
    else (shardOf shard).map fun s => ((st.mark op).push (st.history.latest.move s gid) rfl, .done)
  | .query num => some (st.mark op, { err := .ok, config := st.history.query num })

/-- What applying an operation can do: skip a duplicate, append a configuration, or report one. -/
inductive Applies (st : State) (op : Op) : State → WaitChResponse → Prop
  | skip (hwrite : op.command.isQuery = false) (hdup : st.duplicated op = true) :
      Applies st op (st.mark op) .done
  | append (hwrite : op.command.isQuery = false) (hfresh : st.duplicated op = false) (c : Config)
      (hc : c.num = st.history.latest.num + 1) : Applies st op ((st.mark op).push c hc) .done
  | query (num : ℤ) (hquery : op.command = .query num) :
      Applies st op (st.mark op) { err := .ok, config := st.history.query num }

variable {st' : State} {r : WaitChResponse}

theorem applies_of_applyOp {st : State} {op : Op} (h : st.applyOp op = some (st', r)) :
    st.Applies op st' r := by
  unfold applyOp at h
  split at h
  case h_1 servers hop | h_2 gids hop =>
    have hwrite : op.command.isQuery = false := by rw [hop]; rfl
    split at h
    · rename_i hdup
      cases h
      exact .skip hwrite hdup
    · rename_i hdup
      cases h
      exact .append hwrite (Bool.not_eq_true _ |>.mp hdup) _ rfl
  case h_3 shard gid hop =>
    have hwrite : op.command.isQuery = false := by rw [hop]; rfl
    split at h
    · rename_i hdup
      cases h
      exact .skip hwrite hdup
    · rename_i hdup
      obtain ⟨s, -, heq⟩ := Option.map_eq_some_iff.mp h
      cases heq
      exact .append hwrite (Bool.not_eq_true _ |>.mp hdup) _ rfl
  case h_4 num hop =>
    cases h
    exact .query num hop

/-- The response to a `QUERY`. -/
theorem config_of_applyOp {st : State} {op : Op} {num : ℤ} (h : st.applyOp op = some (st', r))
    (hop : op.command = .query num) : r.config = st.history.query num := by
  rw [applyOp, hop] at h
  cases h
  rfl

/-- The history of configurations only grows. -/
theorem Applies.history_isPrefix {st : State} {op : Op} (h : st.Applies op st' r) :
    st.history.configs <+: st'.history.configs := by
  cases h with
  | skip | query => exact List.prefix_refl _
  | append => exact List.prefix_append _ _

/-- Every operation is entered in the table. -/
theorem Applies.latestAppliedRequest {st : State} {op : Op} (h : st.Applies op st' r) :
    st'.latestAppliedRequest = st.latestAppliedRequest.mark op.clientId op.requestId := by
  cases h <;> rfl

/-- The state after one operation. -/
def step (st : State) (op : Op) : Option State := (st.applyOp op).map Prod.fst

end State

/-- The controller as a replicated state machine. -/
def machine : Rsm.Machine State Op WaitChResponse := { init := .initial, apply := State.applyOp }

/-- The history at a prefix of the log is one of the history at its end. -/
theorem history_isPrefix {pre log : List Op} {s t : State} (hpre : pre <+: log)
    (hs : machine.replay pre = some s) (ht : machine.replay log = some t) :
    s.history.configs <+: t.history.configs := by
  refine Rsm.Machine.replay_monotone (R := fun s t => s.history.configs <+: t.history.configs)
    (fun s => List.prefix_refl _) (fun s t u => List.IsPrefix.trans) ?_ hpre hs ht
  intro s op s' r happly
  exact (State.applies_of_applyOp happly).history_isPrefix

/-- The table has the highest request of every client. -/
theorem latest_of_replay {log : List Op} {st : State} (h : machine.replay log = some st) :
    (∀ q ∈ log, q.requestId ≤ st.latestAppliedRequest.latest q.clientId) ∧
      ∀ c, st.latestAppliedRequest.latest c = -1 ∨
        ∃ q ∈ log, q.clientId = c ∧ q.requestId = st.latestAppliedRequest.latest c :=
  Requests.latest_of_replay State.latestAppliedRequest Op.clientId Op.requestId rfl
    (fun _ _ _ _ happly => (State.applies_of_applyOp happly).latestAppliedRequest) h

/-! ### Balance -/

/-- What a `JOIN` or `LEAVE` needs to find in order to balance the shards: a `JOIN` to groups that
    are there, every shard at one of the groups; a `LEAVE` or a first `JOIN`, enough shards without
    a group to fill up the others. -/
def Levelable (config : Config) : Command → Prop
  | .join servers =>
    let groups := config.groups.join servers
    if config.groups.gids.length == 0 then
      Fillable groups.gids.toFinset (load config.shards)
        (orphanShards groups.gids config.shards).length
    else ∀ s, config.shards s ∈ groups.gids
  | .leave gids =>
    let groups := config.groups.leave gids
    Fillable groups.gids.toFinset (load config.shards)
      (orphanShards groups.gids config.shards).length
  | .move _ _ => True
  | .query _ => True

instance (config : Config) (command : Command) : Decidable (Levelable config command) := by
  unfold Levelable
  split <;> infer_instance

/-- **Balance of a `JOIN`.** -/
theorem Config.balanced_join_iff {config : Config} {servers : Groups}
    (hne : (config.join servers).groups.gids ≠ []) :
    Balanced (config.join servers).groups (config.join servers).shards ↔
      Levelable config (.join servers) := by
  rw [Levelable]
  by_cases hfirst : (config.groups.gids.length == 0) = true
  · rw [if_pos hfirst]
    exact balanced_adopted_iff hne (by rw [hfirst]; rfl)
  · rw [if_neg hfirst]
    have hdef : (config.join servers).shards =
        rebalanceShard (config.join servers).groups config.shards true false := by
      rw [Config.join, Bool.not_eq_true _ |>.mp hfirst]
    rw [hdef]
    exact balanced_levelled_iff hne

/-- **Balance of a `LEAVE`.** -/
theorem Config.balanced_leave_iff {config : Config} {gids : List Gid}
    (hne : (config.leave gids).groups.gids ≠ []) :
    Balanced (config.leave gids).groups (config.leave gids).shards ↔
      Levelable config (.leave gids) := by
  have hkind : (false && !false) = false := rfl
  rw [Levelable]
  exact balanced_adopted_iff hne hkind

/-- **Balance.** A `JOIN` or `LEAVE` that is no duplicate appends a configuration; if that has
    a group, it is balanced exactly if the one before was `Levelable`. -/
theorem appended_balanced_iff {st st' : State} {op : Op} {response : WaitChResponse}
    (hkind : (∃ servers, op.command = .join servers) ∨ ∃ gids, op.command = .leave gids)
    (hfresh : st.duplicated op = false) (h : st.applyOp op = some (st', response)) :
    ∃ config, st'.history.configs = st.history.configs ++ [config] ∧
      (config.groups.gids ≠ [] →
        (Balanced config.groups config.shards ↔ Levelable st.history.latest op.command)) := by
  rcases hkind with ⟨servers, hop⟩ | ⟨gids, hop⟩
  · simp only [State.applyOp, hop, hfresh, Bool.false_eq_true, if_false, Option.some.injEq,
      Prod.mk.injEq] at h
    obtain ⟨rfl, -⟩ := h
    rw [hop]
    exact ⟨_, rfl, Config.balanced_join_iff⟩
  · simp only [State.applyOp, hop, hfresh, Bool.false_eq_true, if_false, Option.some.injEq,
      Prod.mk.injEq] at h
    obtain ⟨rfl, -⟩ := h
    rw [hop]
    exact ⟨_, rfl, Config.balanced_leave_iff⟩

/-- Groups 1 and 2, each with one server. -/
def groups12 : Groups := ⟨[(1, ["a"]), (2, ["b"])], by decide⟩

/-- The first `JOIN` levels all shards between the two groups. -/
theorem appended_balanced_iff_groups12 :
    ∃ st' config, State.initial.applyOp ⟨7, 0, .join groups12⟩ = some (st', .done) ∧
      st'.history.configs = [.initial, config] ∧ config.groups = groups12 ∧
      Balanced config.groups config.shards := by
  obtain ⟨config, hconfigs, hiff⟩ := @appended_balanced_iff .initial _ ⟨7, 0, .join groups12⟩ _
    (.inl ⟨groups12, rfl⟩) rfl rfl
  have hconfig : Config.initial.join groups12 = config := by
    simpa [State.push, State.mark, History.push, State.initial, History.initial, History.latest]
      using hconfigs
  have hgroups : config.groups = groups12 := by rw [← hconfig]; rfl
  refine ⟨_, config, rfl, hconfigs, hgroups, (hiff ?_).mpr (by decide +kernel)⟩
  rw [hgroups]
  exact List.cons_ne_nil _ _

/-- A `MOVE` between the groups leaves 6 and 4 shards, which a `LEAVE` does not level. -/
def moveThenLeave : List Op :=
  [⟨7, 0, .join groups12⟩, ⟨7, 1, .move 0 1⟩, ⟨7, 2, .leave [3]⟩]

/-- A `MOVE` to a group that is not there takes the shard away from every later `JOIN`. -/
def moveThenJoin : List Op :=
  [⟨7, 0, .join groups12⟩, ⟨7, 1, .move 0 9⟩, ⟨7, 2, .join (.single 3 "c")⟩]

/-- Neither history ends in a balanced configuration: one has loads that differ by two, the other
    a shard at no group. -/
theorem unbalanced_after_move :
    (∃ st, exec State.step .initial moveThenLeave = some st ∧
      st.history.latest.groups = groups12 ∧ load st.history.latest.shards 1 = 6 ∧
      load st.history.latest.shards 2 = 4) ∧
    ∃ st, exec State.step .initial moveThenJoin = some st ∧
      st.history.latest.groups.gids = [1, 2, 3] ∧
      ∃ s, st.history.latest.shards s ∉ st.history.latest.groups.gids := by
  constructor
  · have hany : ((exec State.step .initial moveThenLeave).any fun st =>
        st.history.latest.groups = groups12 ∧ load st.history.latest.shards 1 = 6 ∧
          load st.history.latest.shards 2 = 4) = true := by decide +kernel
    obtain ⟨st, hst, hP⟩ := (Option.any_eq_true _ _).mp hany
    exact ⟨st, hst, of_decide_eq_true hP⟩
  · have hany : ((exec State.step .initial moveThenJoin).any fun st =>
        st.history.latest.groups.gids = [1, 2, 3] ∧
          ∃ s, st.history.latest.shards s ∉ st.history.latest.groups.gids) = true := by
      decide +kernel
    obtain ⟨st, hst, hP⟩ := (Option.any_eq_true _ _).mp hany
    exact ⟨st, hst, of_decide_eq_true hP⟩

end MitDistributed.ShardCtrler
