import MitDistributed.ShardCtrler.Server
import MitDistributed.ShardKV.Gate

namespace MitDistributed.ShardKV

open Rsm ShardCtrler Transition

/-!
# Sharded store — migrations and the configurations of the controller

A group that gets a shard asks the previous owner for it, whose servers are in the previous
configuration; a group that lets go of a shard waits until the new owner asks.  Both need owners
that are groups of their configuration.  `UPDATE_CONFIG` makes an exception for configuration 1
only, although the controller also makes configurations without groups later, when all have left,
and shards at groups that do not exist, by a `MOVE`.

* `migrations_have_peers` — if every `JOIN` and `LEAVE` leaves some group, and every `MOVE` is to
  an existing one, all migrations have a peer; `migration_without_peer` otherwise.
-/

/-! ### Owners that are groups -/

/-- The operation leaves some group, or moves the shard to an existing one. -/
def KeepsMembers (c : ShardCtrler.State) (op : ShardCtrler.Op) : Prop :=
  c.duplicated op = true ∨
    match op.command with
    | .join servers => (c.history.latest.groups.join servers).gids ≠ []
    | .leave gids => (c.history.latest.groups.leave gids).gids ≠ []
    | .move _ gid => gid ∈ c.history.latest.groups.gids
    | .query _ => True

instance (c : ShardCtrler.State) (op : ShardCtrler.Op) : Decidable (KeepsMembers c op) :=
  match hop : op.command with
  | .join servers => decidable_of_iff
      (c.duplicated op = true ∨ (c.history.latest.groups.join servers).gids ≠ [])
      (by rw [KeepsMembers, hop])
  | .leave gids => decidable_of_iff
      (c.duplicated op = true ∨ (c.history.latest.groups.leave gids).gids ≠ [])
      (by rw [KeepsMembers, hop])
  | .move _ gid => decidable_of_iff
      (c.duplicated op = true ∨ gid ∈ c.history.latest.groups.gids)
      (by rw [KeepsMembers, hop])
  | .query _ => isTrue (by rw [KeepsMembers, hop]; exact .inr trivial)

/-- Every shard is assigned to a group of the configuration. -/
def Owned (config : Config) : Prop := ∀ s, config.shards s ∈ config.groups.gids

/-- A `JOIN` next to groups that have all the shards, or the first one. -/
theorem owned_join {config : Config} {servers : Groups}
    (hne : (config.join servers).groups.gids ≠ []) (hold : config.groups.gids ≠ [] → Owned config) :
    Owned (config.join servers) := by
  intro s
  by_cases hfirst : (config.groups.gids.length == 0) = true
  · exact adopted_mem hne (by rw [hfirst]; rfl) s
  · have howned : Owned config := hold fun hnil => hfirst (by rw [hnil]; rfl)
    have hdef : (config.join servers).shards =
        rebalanceShard (config.join servers).groups config.shards true false := by
      rw [Config.join, Bool.not_eq_true _ |>.mp hfirst]
    rw [hdef]
    exact ((balanced_levelled_iff hne).mpr fun s => Groups.mem_gids_join (howned s)).1 s

theorem owned_leave {config : Config} {gids : List Gid}
    (hne : (config.leave gids).groups.gids ≠ []) : Owned (config.leave gids) := by
  have hkind : (false && !false) = false := rfl
  exact fun s => adopted_mem hne hkind s

theorem Owned.move {config : Config} (ho : Owned config) {gid : Gid}
    (hgid : gid ∈ config.groups.gids) (shard : ShardId) : Owned (config.move shard gid) := by
  intro s
  show Function.update config.shards shard gid s ∈ config.groups.gids
  rcases eq_or_ne s shard with rfl | hne
  · rw [Function.update_self]
    exact hgid
  · rw [Function.update_of_ne hne]
    exact ho s

/-- Configuration 0 has no groups, and all others are owned. -/
structure Members (h : History) : Prop where
  first : h.configs.head? = some .initial
  owned : ∀ config ∈ h.configs, config.num ≠ 0 → Owned config

namespace Members

variable {h : History}

theorem initial : Members .initial where
  first := rfl
  owned config hc hne := by
    rw [List.mem_singleton.mp hc] at hne
    exact absurd rfl hne

/-- The latest configuration has no groups, or is owned. -/
theorem latest (hm : Members h) (hne : h.latest.groups.gids ≠ []) : Owned h.latest := by
  refine hm.owned _ (List.getLast_mem h.ne) fun h0 => hne ?_
  -- the latest configuration is the first one
  have hlen := h.latest_num
  have hget : h.configs[0]? = some h.latest := by
    have hlast : h.configs[h.configs.length - 1]? = some h.latest := by
      rw [History.latest, List.getLast_eq_getElem, List.getElem?_eq_getElem (by omega)]
    rwa [← hlen, h0] at hlast
  have heq := hm.first
  rw [List.head?_eq_getElem?, hget] at heq
  rw [Option.some.inj heq]
  rfl

theorem push (hm : Members h) {config : Config} (hc : config.num = h.latest.num + 1)
    (ho : Owned config) : Members (h.push config hc) where
  first := by
    show (h.configs ++ [config]).head? = some .initial
    rw [List.head?_append, hm.first]
    rfl
  owned x hx hne := by
    rcases List.mem_append.mp hx with hold | hnew
    · exact hm.owned x hold hne
    · rw [List.mem_singleton.mp hnew]
      exact ho

/-- **Owners, step.** -/
theorem step {c c' : ShardCtrler.State} {op : ShardCtrler.Op} (hm : Members c.history)
    (hok : KeepsMembers c op) (hstep : c.step op = some c') : Members c'.history := by
  obtain ⟨⟨c'', r⟩, happly, rfl⟩ := Option.map_eq_some_iff.mp hstep
  unfold KeepsMembers at hok
  unfold ShardCtrler.State.applyOp at happly
  split at happly
  case h_1 servers hop =>
    rw [hop] at hok
    split at happly
    · cases happly
      exact hm
    · rename_i hdup
      cases happly
      exact hm.push rfl (owned_join (hok.resolve_left hdup) hm.latest)
  case h_2 gids hop =>
    rw [hop] at hok
    split at happly
    · cases happly
      exact hm
    · rename_i hdup
      cases happly
      exact hm.push rfl (owned_leave (hok.resolve_left hdup))
  case h_3 shard gid hop =>
    rw [hop] at hok
    split at happly
    · cases happly
      exact hm
    · rename_i hdup
      obtain ⟨s', -, heq⟩ := Option.map_eq_some_iff.mp happly
      cases heq
      have hgid := hok.resolve_left hdup
      exact hm.push rfl ((hm.latest (List.ne_nil_of_mem hgid)).move hgid s')
  case h_4 num hop =>
    cases happly
    exact hm

/-- **Owners, run.** -/
theorem run {c : ShardCtrler.State}
    (hr : Run ShardCtrler.State.step KeepsMembers .initial c) : Members c.history :=
  Run.invariant (I := fun c => Members c.history) (fun _ _ _ hm hok hstep => hm.step hok hstep) hr
    .initial

end Members

/-! ### Peers -/

/-- The first configurations are those of the controller. -/
def Configs.Follows (cs : Configs) (c : ShardCtrler.State) : Prop :=
  ∀ v, v < c.history.configs.length → c.history.configs[v]? = some (cs.config v)

theorem Configs.Follows.isSome_get? {cs : Configs} {c : ShardCtrler.State} (h : cs.Follows c)
    (hm : Members c.history) {v : ℕ} (h0 : 0 < v) (hv : v < c.history.configs.length)
    (s : ShardId) : ((cs.config v).groups.get? ((cs.config v).shards s)).isSome := by
  refine Groups.isSome_get?.mpr (hm.owned _ (List.mem_of_getElem? (h v hv)) ?_ s)
  rw [cs.numbered v]
  omega

/-- **Every migration has a peer.** If every `JOIN` and `LEAVE` leaves some group, and every `MOVE`
    is to an existing one, then a configuration `v ≥ 2` that takes effect at a group creates a
    `PULLING` shard only if there are servers to ask, and marks a shard `LEAVING` only if the new
    owner is a group of the configuration. -/
theorem migrations_have_peers {c : ShardCtrler.State}
    (hc : Run ShardCtrler.State.step KeepsMembers .initial c) {cs : Configs} (hcs : cs.Follows c)
    {ok : World → Action → Prop} {w : World} (hr : World.Reachable cs ok w) {g : Gid}
    {st st' : State} {e : Entry} {r : WaitChResponse} (hp : w.Performs g st e st' r)
    {config : Config} (hop : e.op = .updateConfig config) (hnum : st.num + 1 = config.num)
    (htwo : 2 ≤ config.num) (hlen : config.num < c.history.configs.length) (s : ShardId) :
    (st'.status s = some .pulling →
      (st'.prevConfig.groups.get? (st'.prevConfig.shards s)).isSome) ∧
    (st'.status s = some .leaving →
      (st'.currConfig.groups.get? (st'.currConfig.shards s)).isSome) := by
  have hm := Members.run hc
  have hconf := hr.sane.configured (Machine.Performs.visits_after hp)
  have hst' : st'.num = config.num := State.num_of_update (Machine.Performs.apply_eq hp) hop hnum
  rw [hconf.prev (by omega), hconf.curr (by omega), hst']
  exact ⟨fun _ => hcs.isSome_get? hm (by omega) (by omega) s,
    fun _ => hcs.isSome_get? hm (by omega) hlen s⟩

/-- The configurations of a controller, with the last one repeated. -/
def Configs.ofHistory (h : History) : Configs where
  config v := { h.configs.getD v h.latest with num := v }
  numbered _ := rfl

theorem Configs.follows_ofHistory (c : ShardCtrler.State) :
    (Configs.ofHistory c.history).Follows c := by
  intro v hv
  have hget := List.getElem?_eq_getElem hv
  have hnum := c.history.numbered v _ hget
  show _ = some { c.history.configs.getD v c.history.latest with num := v }
  rw [List.getD_eq_getElem?_getD, hget, Option.getD_some]
  generalize c.history.configs[v] = config at hnum
  rw [← hnum]

/-- The controller after a list of operations. -/
def ctrlerAfter (ops : List ShardCtrler.Op) : ShardCtrler.State :=
  (exec ShardCtrler.State.step .initial ops).getD .initial

/-- Group 1 joins, and group 2 after it. -/
def oneThenTwo : List ShardCtrler.Op :=
  [⟨7, 0, .join (.single 1 "a")⟩, ⟨7, 1, .join (.single 2 "b")⟩]

/-- Group 1 lets go of shard 0 when group 2 joins. -/
theorem migrations_have_peers_oneThenTwo :
    ∃ c cs, Run ShardCtrler.State.step KeepsMembers .initial c ∧ Configs.Follows cs c ∧
      ∃ w, World.Reachable cs (fun _ _ => True) w ∧
        ∃ st e st' r config, w.Performs 1 st e st' r ∧ e.op = .updateConfig config ∧
          config.num = 2 ∧ st'.status shardZero = some .leaving ∧
          (st'.currConfig.groups.get? (st'.currConfig.shards shardZero)).isSome := by
  have hc : Run ShardCtrler.State.step KeepsMembers .initial (ctrlerAfter oneThenTwo) :=
    Run.exec_getD (by decide +kernel)
  have hcs := Configs.follows_ofHistory (ctrlerAfter oneThenTwo)
  have hlen : 2 < (ctrlerAfter oneThenTwo).history.configs.length := by decide +kernel
  obtain ⟨w, hr, hlast⟩ := exists_run_of_execOk
    (World.step (.ofHistory (ctrlerAfter oneThenTwo).history)) (fun _ _ => True) World.init
    (fetchNext 1 ++ fetchNext 1)
    (fun w => ((machine 1).last? (w.groups 1).agreed).any fun x =>
      x.2.1 = configEntry (.ofHistory (ctrlerAfter oneThenTwo).history) 2 ∧ x.1.num = 1 ∧
        x.2.2.1.status shardZero = some .leaving)
    (by decide +kernel)
  obtain ⟨⟨st, e, st', r⟩, hx, hfacts⟩ := (Option.any_eq_true _ _).mp hlast
  obtain ⟨rfl, hnum, hleaving⟩ := of_decide_eq_true hfacts
  have hp := Machine.performs_of_last? hx
  exact ⟨_, _, hc, hcs, w, hr, st, _, st', r, _, hp, rfl, rfl, hleaving,
    (migrations_have_peers hc hcs hr hp rfl (by rw [hnum]; rfl) le_rfl hlen _).2 hleaving⟩

/-- Group 1 joins and leaves, and group 2 joins. -/
def oneLeavesTwoJoins : List ShardCtrler.Op :=
  [⟨7, 0, .join (.single 1 "a")⟩, ⟨7, 1, .leave [1]⟩,
    ⟨7, 2, .join (.single 2 "b")⟩]

/-- In configuration 2 all shards are at group 0, which does not exist.  So group 1 lets go of its
    shards for nobody, and in configuration 3 group 2 has nobody to ask for them. -/
theorem migration_without_peer :
    ∃ c, exec ShardCtrler.State.step .initial oneLeavesTwoJoins = some c ∧
      ∃ cs, Configs.Follows cs c ∧ ∃ w, World.Reachable cs (fun _ _ => True) w ∧
        (∃ st e st' r, w.Performs 1 st e st' r ∧ e = configEntry cs 2 ∧
          st'.status shardZero = some .leaving ∧
          st'.currConfig.groups.get? (st'.currConfig.shards shardZero) = none) ∧
        ∃ st e st' r, w.Performs 2 st e st' r ∧ e = configEntry cs 3 ∧
          st'.status shardZero = some .pulling ∧
          st'.prevConfig.groups.get? (st'.prevConfig.shards shardZero) = none := by
  have hsome : (exec ShardCtrler.State.step .initial oneLeavesTwoJoins).isSome = true := by
    decide +kernel
  have hc : exec ShardCtrler.State.step .initial oneLeavesTwoJoins =
      some (ctrlerAfter oneLeavesTwoJoins) := by
    obtain ⟨c, hc⟩ := Option.isSome_iff_exists.mp hsome
    rw [ctrlerAfter, hc, Option.getD_some]
  obtain ⟨w, hr, hone, htwo⟩ := exists_run_of_execOk
    (World.step (.ofHistory (ctrlerAfter oneLeavesTwoJoins).history)) (fun _ _ => True) World.init
    (fetchNext 1 ++ fetchNext 1 ++ fetchNext 2 ++ fetchNext 2 ++ fetchNext 2)
    (fun w => (((machine 1).last? (w.groups 1).agreed).any fun x =>
        x.2.1 = configEntry (.ofHistory (ctrlerAfter oneLeavesTwoJoins).history) 2 ∧
        x.2.2.1.status shardZero = some .leaving ∧
        x.2.2.1.currConfig.groups.get? (x.2.2.1.currConfig.shards shardZero) = none) ∧
      ((machine 2).last? (w.groups 2).agreed).any fun x =>
        x.2.1 = configEntry (.ofHistory (ctrlerAfter oneLeavesTwoJoins).history) 3 ∧
        x.2.2.1.status shardZero = some .pulling ∧
        x.2.2.1.prevConfig.groups.get? (x.2.2.1.prevConfig.shards shardZero) = none)
    (by decide +kernel)
  obtain ⟨⟨st₁, e₁, st₁', r₁⟩, hx₁, hfacts₁⟩ := (Option.any_eq_true _ _).mp hone
  obtain ⟨⟨st₂, e₂, st₂', r₂⟩, hx₂, hfacts₂⟩ := (Option.any_eq_true _ _).mp htwo
  exact ⟨_, hc, _, Configs.follows_ofHistory _, w, hr,
    ⟨st₁, e₁, st₁', r₁, Machine.performs_of_last? hx₁, of_decide_eq_true hfacts₁⟩,
    ⟨st₂, e₂, st₂', r₂, Machine.performs_of_last? hx₂, of_decide_eq_true hfacts₂⟩⟩

end MitDistributed.ShardKV
