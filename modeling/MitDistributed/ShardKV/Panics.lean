import MitDistributed.ShardKV.Live
import MitDistributed.ShardKV.Writes

namespace MitDistributed.ShardKV

open Rsm ShardCtrler Transition

/-!
# Sharded store — shards that are not there

`PULL_SHARD`, `TRANSFER_DONE` and every round of `pullShard` and `sendLeave` read the status of
their shard without a test whether the group has it, and a write to a shard that has no map yet
panics as well.  The version of the operation, or of the task, is all that is compared.

* `NilState` — the state of a group together with the maps that are `nil`.  A shard that is served
  has its map, whatever the log (`nil_replay`).
* `shards_present` — if no replica beyond the version of a `Leave` request serves it, nothing that
  a group can commit panics in any state that it goes through, and no task ever does.
* `late_leave_panics` — otherwise a late `Leave` request deletes the shard that its new owner is
  about to get: every server of the group panics at the `PULL_SHARD` that follows, and so does the
  task.
-/

/-! ### Maps that are `nil` -/

/-- The state of a server, and whether the `Storage` of a shard is `nil`. -/
structure NilState where
  state : State
  isNil : ShardId → Bool

namespace NilState

variable {gid : Gid} {x : NilState} {op : Op} {st' : State} {r : WaitChResponse}

def initial : NilState := { state := .initial, isNil := fun _ => false }

/-- Which maps are `nil` after an operation.  The map in a `PULL_SHARD` is the one that `Pull` has
    made, and the encoder sends it even if it is empty. -/
def isNilAfter (gid : Gid) (x : NilState) (op : Op) (s : ShardId) : Bool :=
  match op with
  | .updateConfig config =>
    if x.state.num + 1 = config.num ∧ config.shards s = gid ∧
        (config.num = 1 ∨ x.state.shards s = none) then
      -- the first configuration makes a map, a later one does not
      config.num ≠ 1
    else x.isNil s
  | .pullShard t v _ =>
    if s = t ∧ x.state.num = v ∧ x.state.status s = some .pulling then false else x.isNil s
  | _ => x.isNil s

/-- Apply one operation; `none` for a write to a `nil` map too. -/
def applyOp (gid : Gid) (x : NilState) (op : Op) : Option (NilState × WaitChResponse) :=
  if (x.state.effect op).any fun y => x.isNil y.1 then none
  else (x.state.applyOp gid op).map fun y =>
    ({ state := y.1, isNil := x.isNilAfter gid op }, y.2)

/-- Shards that are served have their maps. -/
def Filled (x : NilState) : Prop := ∀ s, x.state.serves s → x.isNil s = false

theorem Filled.initial : NilState.initial.Filled := fun _ _ => rfl

/-- Writes are to shards that are served. -/
theorem Filled.applyOp_eq (h : x.Filled) (gid : Gid) (op : Op) :
    x.applyOp gid op = (x.state.applyOp gid op).map fun y =>
      ({ state := y.1, isNil := x.isNilAfter gid op }, y.2) := by
  refine if_neg fun hany => ?_
  obtain ⟨⟨s, c, q⟩, heffect, hnil⟩ := (Option.any_eq_true _ _).mp hany
  have hserves := (State.effect_of_some gid heffect).1
  rw [h s hserves] at hnil
  cases hnil

/-- A new configuration. -/
theorem Filled.update (h : x.Filled) {config : Config} (hnum : x.state.num + 1 = config.num)
    {s : ShardId} {sh : Shard} (hsh : State.updateShards gid config x.state.shards s = some sh)
    (hserved : sh.status = .working ∨ sh.status = .waiting) :
    x.isNilAfter gid (.updateConfig config) s = false := by
  have hold (hst : x.state.shards s = some sh) : x.isNil s = false := by
    refine h s ?_
    rw [State.serves, State.status, hst]
    simpa using hserved
  unfold State.updateShards at hsh
  unfold isNilAfter
  dsimp only
  split at hsh
  · rename_i hone
    split at hsh
    · rename_i hmine
      rw [if_pos ⟨hnum, hmine, .inl hone⟩, hone]
      rfl
    · rename_i hother
      rw [if_neg fun hc => hother hc.2.1]
      exact hold hsh
  · rename_i hlater
    split at hsh
    · split at hsh <;> cases hsh
      simp at hserved
    · rename_i hst
      split at hsh
      · cases hsh
        simp at hserved
      · rw [if_neg fun hc => hc.2.2.elim hlater fun hnone => by rw [hnone] at hst; cases hst]
        exact hold (hst.trans hsh)

/-- **Maps, one entry.** -/
theorem Filled.applies (h : x.Filled) (happly : x.state.applyOp gid op = some (st', r)) :
    NilState.Filled { state := st', isNil := x.isNilAfter gid op } := by
  intro s hserves
  show x.isNilAfter gid op s = false
  -- the shard has been served before, and keeps its map
  have hkeep (hstatus : st'.status s = x.state.status s) : x.isNil s = false := by
    refine h s ?_
    rw [State.serves, ← hstatus]
    exact hserves
  have happ := State.applies_of_applyOp happly
  cases op with
  | get | put | append =>
    cases happ with
    | keep _ _ hshards => exact hkeep (State.status_of_keep (hshards s))
  | updateConfig config =>
    obtain rfl : x.state.applyUpdateConfig gid config = st' :=
      congrArg Prod.fst (Option.some.inj happly)
    unfold State.applyUpdateConfig at hserves hkeep
    split at hserves
    · rename_i hnum
      obtain ⟨sh, hsh, hserved⟩ := State.exists_shard_of_status hserves
      exact h.update hnum hsh hserved
    · rename_i hnum
      rw [if_neg hnum] at hkeep
      rw [isNilAfter, if_neg fun hc => hnum hc.1]
      exact hkeep rfl
  | pullShard t v storage =>
    rw [isNilAfter]
    split
    · rfl
    · rename_i hc
      cases happ with
      | keep _ _ hshards => exact hkeep (State.status_of_keep (hshards s))
      | pull hsh hpulling =>
        refine hkeep (State.status_setShard_of_ne _ _ ?_)
        rintro rfl
        exact hc ⟨rfl, rfl, by rw [State.status, hsh, Option.map_some, hpulling]⟩
  | leaveShard t v =>
    cases happ with
    | keep _ _ hshards => exact hkeep (State.status_of_keep (hshards s))
    | leave =>
      refine hkeep (State.status_setShard_of_ne _ _ ?_)
      rintro rfl
      rw [State.serves, State.status_setShard_self] at hserves
      simp at hserves
  | transferDone t v =>
    cases happ with
    | keep _ _ hshards => exact hkeep (State.status_of_keep (hshards s))
    | @done _ sh hsh hwaiting =>
      rcases eq_or_ne s t with rfl | hne
      · refine h s (.inr ?_)
        rw [State.status, hsh, Option.map_some, hwaiting]
      · exact hkeep (State.status_setShard_of_ne _ _ hne)

end NilState

/-- Group `gid` as a replicated state machine that knows which maps are `nil`. -/
def nilMachine (gid : Gid) : Machine NilState Entry WaitChResponse :=
  { init := .initial, apply := fun x e => x.applyOp gid e.op }

/-- **No write to a `nil` map.** Whatever the log, the group goes on exactly as far as if there
    were no `nil` maps, and the shards that it serves have their maps. -/
theorem nil_replay (gid : Gid) (log : List Entry) :
    Option.Rel (fun x st => x.state = st ∧ x.Filled) ((nilMachine gid).replay log)
      ((machine gid).replay log) := by
  suffices hrel : Option.Rel (fun x st => x.state = st ∧ x.Filled) ((nilMachine gid).replay log)
      ((machine gid).replay (log.map id)) by
    rwa [List.map_id] at hrel
  refine Machine.replay_rel id ⟨rfl, .initial⟩ ?_ log
  rintro x st e ⟨rfl, hfilled⟩
  show Option.Rel _ (x.applyOp gid e.op) (x.state.applyOp gid e.op)
  rw [hfilled.applyOp_eq]
  cases happly : x.state.applyOp gid e.op with
  | none => exact .none
  | some y => exact .some ⟨rfl, hfilled.applies happly⟩

theorem visits_of_nil {gid : Gid} {log : List Entry} {x : NilState}
    (h : (nilMachine gid).Visits log x) : (machine gid).Visits log x.state ∧ x.Filled := by
  obtain ⟨pre, hpre, hx⟩ := h
  have hrel := nil_replay gid pre
  rw [hx] at hrel
  generalize hst : (machine gid).replay pre = st at hrel
  cases hrel with
  | some hrel =>
    obtain ⟨rfl, hfilled⟩ := hrel
    exact ⟨⟨pre, hpre, hst⟩, hfilled⟩

theorem exists_nil_of_visits {gid : Gid} {log : List Entry} {st : State}
    (h : (machine gid).Visits log st) : ∃ x, (nilMachine gid).Visits log x ∧ x.state = st := by
  obtain ⟨pre, hpre, hst⟩ := h
  have hrel := nil_replay gid pre
  rw [hst] at hrel
  generalize hx : (nilMachine gid).replay pre = x at hrel
  cases hrel with
  | some hrel => exact ⟨_, ⟨pre, hpre, hx⟩, hrel.1⟩

/-! ### What a group can commit -/

namespace World

variable {cs : Configs} {w : World} {g : Gid} {st t : State} {s : ShardId} {e : Entry}

/-- A group that gets a shard in some version has it throughout the version. -/
theorem Sane.present (hw : w.Sane cs) (hplaced : ∀ n, w.Placed cs n) (hv : w.Visits g st)
    (hstatus : st.status s = some .pulling ∨ st.status s = some .waiting) (ht : w.Visits g t)
    (hnum : t.num = st.num) : t.shards s ≠ none := by
  obtain ⟨sh, hsh, hs⟩ := State.exists_shard_of_status hstatus
  have hne : sh.status ≠ .leaving := by
    rcases hs with hs | hs <;> rw [hs] <;> simp
  obtain ⟨hpos, howner⟩ := hw.owner hv hsh hne
  exact (hplaced st.num).has g t s ht hnum hpos howner

/-- **Nothing panics.** An entry that a group has started can be applied in every state that the
    group goes through. -/
theorem Sane.applyOp_ne_none (hw : w.Sane cs) (hplaced : ∀ n, w.Placed cs n)
    (he : e ∈ (w.groups g).started) (ht : w.Visits g t) : t.applyOp g e.op ≠ none := by
  have hjust := hw.started g e he
  unfold Justified at hjust
  cases hop : e.op with
  | get | put | append | updateConfig | leaveShard => exact Option.some_ne_none _
  | pullShard s v storage =>
    rw [hop] at hjust
    obtain ⟨-, st, hv, hnum, hpulling, -⟩ := hjust
    simp only [State.applyOp, ne_eq, Option.map_eq_none_iff]
    unfold State.applyPullShard
    split
    · rename_i hsame
      obtain ⟨sh, hsh⟩ := Option.ne_none_iff_exists'.mp
        (hw.present hplaced hv (.inl hpulling) ht (hsame.trans hnum.symm))
      rw [hsh]
      dsimp only
      split <;> exact Option.some_ne_none _
    · exact Option.some_ne_none _
  | transferDone s v =>
    rw [hop] at hjust
    obtain ⟨-, st, hv, hnum, hwaiting, -⟩ := hjust
    simp only [State.applyOp, ne_eq, Option.map_eq_none_iff]
    unfold State.applyTransferDone
    split
    · rename_i hsame
      obtain ⟨sh, hsh⟩ := Option.ne_none_iff_exists'.mp
        (hw.present hplaced hv (.inr hwaiting) ht (hsame.trans hnum.symm))
      rw [hsh]
      dsimp only
      split <;> exact Option.some_ne_none _
    · exact Option.some_ne_none _

/-- A later state of a server. -/
theorem Sane.evolves_server {w' : World} (hw : w.Sane cs) (hw' : w'.Sane cs)
    (hle : (w.groups g).agreed <+: (w'.groups g).agreed) {i : ℕ}
    (happlied : (w.server g i).applied ≤ (w'.server g i).applied) :
    (w.state g i).Evolves (w'.state g i) := by
  have hold := ((hw.sound g).servers i).mono hle fun _ ha => ha
  exact State.evolves_of_isPrefix (List.take_prefix_take_left happlied) hold.state_eq
    ((hw'.sound g).servers i).state_eq

end World

/-! ### Tasks -/

/-- The task is for a shard of the group, in a version that the state has reached. -/
structure Task.Belongs (cs : Configs) (g : Gid) (st : State) (t : Task) : Prop where
  pos : 0 < t.version
  owner : cs.owner t.version t.shard = g
  le : t.version ≤ st.num

/-- The tasks that an entry starts. -/
theorem World.Sane.starts {cs : Configs} {w : World} (hw : w.Sane cs) {g : Gid} {st st' : State}
    {e : Entry} {r : WaitChResponse} (hp : w.Performs g st e st' r) {t : Task}
    (ht : t ∈ st.starts g e.op) : t.Belongs cs g st' := by
  have hjust := hw.justified hp
  have happly := Machine.Performs.apply_eq hp
  unfold Justified at hjust
  unfold State.starts at ht
  split at ht
  · rename_i config hop
    rw [hop] at hjust
    split at ht
    · rename_i hnum
      obtain ⟨s, hs, rfl⟩ := List.mem_map.mp ht
      have hmine : config.shards s = g := (of_decide_eq_true (List.mem_filter.mp hs).2).1
      refine ⟨by show 0 < config.num; omega, ?_, (State.num_of_update happly hop hnum.1).ge⟩
      rw [hjust.2.1] at hmine
      exact hmine
    · cases ht
  · split at ht
    · rename_i hcond
      obtain rfl := List.mem_singleton.mp ht
      obtain ⟨rfl, hpulling⟩ := hcond
      obtain ⟨sh, hsh, hs⟩ := Option.map_eq_some_iff.mp hpulling
      obtain ⟨hpos, howner⟩ := hw.owner (Machine.Performs.visits hp) hsh (by rw [hs]; simp)
      exact ⟨hpos, howner, hp.applies.evolves.le⟩
    · cases ht
  · cases ht

namespace Live

variable {cs : Configs} {x x' : Live} {a : LiveAction}

/-- A replica serves a `Leave` request only if its version and that of the request are in relation
    `R`. -/
def ServesLeave (R : ℕ → ℕ → Prop) (x : Live) : LiveAction → Prop
  | .act b => x.world.ServesLeave R b
  | _ => True

instance {R : ℕ → ℕ → Prop} [DecidableRel R] (x : Live) (a : LiveAction) :
    Decidable (x.ServesLeave R a) := by
  unfold ServesLeave
  split <;> infer_instance

/-- The tasks of every server are for shards of its group. -/
def Tasked (cs : Configs) (x : Live) : Prop :=
  ∀ g s, ∀ t ∈ (x.memory g s).tasks, t.Belongs cs g (x.world.state g s)

/-- **Tasks, step.** -/
theorem Tasked.step (h : x.Tasked cs) (hw : x.world.Sane cs) (hstep : x.step cs a = some x') :
    x'.Tasked cs := by
  have hmoves := moves_of_step hstep
  have hw' := hmoves.sane hw
  intro g s t ht
  cases hmoves.attends hw g s with
  | keep hstate htasks =>
    rw [htasks] at ht
    rw [hstate]
    exact h g s t ht
  | apply hp htasks =>
    rw [htasks] at ht
    rcases List.mem_append.mp ht with hold | hnew
    · obtain ⟨hpos, howner, hle⟩ := h g s t hold
      exact ⟨hpos, howner, hle.trans hp.applies.evolves.le⟩
    · exact hw'.starts hp hnew
  | stop hstate _ _ htasks =>
    rw [htasks] at ht
    rw [hstate]
    exact h g s t (List.mem_of_mem_eraseIdx ht)
  | install _ _ hrest hlt htasks =>
    rw [htasks] at ht
    obtain ⟨hpos, howner, hle⟩ := h g s t ht
    have hevolves := hw.evolves_server hw' (hmoves.agreed hw g) (hlt.le.trans hrest.applied.ge)
    exact ⟨hpos, howner, hle.trans hevolves.le⟩
  | restart _ _ htasks =>
    rw [htasks] at ht
    cases ht

/-- **Tasks, run.** -/
theorem Reachable.tasked {ok : Live → LiveAction → Prop} (hr : Reachable cs ok x) :
    x.Tasked cs := by
  refine (Run.invariant (I := fun x => Reachable cs ok x ∧ x.Tasked cs) ?_ hr
    ⟨Run.refl _, fun _ _ _ ht => absurd ht List.not_mem_nil⟩).2
  intro x a x' hx hok hstep
  exact ⟨Run.tail a hx.1 hok hstep, hx.2.step hx.1.world.sane hstep⟩

end Live

/-- **No panic.** If no replica beyond the version of a `Leave` request serves it, every entry that
    a group has started can be applied in every state that its log leads through, with a shard
    there for `PULL_SHARD` and `TRANSFER_DONE` and a map for `PUT` and `APPEND`; and every round of
    every task finds its shard. -/
theorem shards_present {cs : Configs} {x : Live}
    (hr : Live.Reachable cs (Live.ServesLeave (· ≤ ·)) x) (g : Gid) :
    (∀ y e, (nilMachine g).Visits (x.world.groups g).agreed y → e ∈ (x.world.groups g).started →
      y.applyOp g e.op ≠ none) ∧
    ∀ i, ∀ t ∈ (x.memory g i).tasks, t.goesOn (x.world.state g i) ≠ none := by
  have hworld : World.Reachable cs (World.ServesLeave (· ≤ ·)) x.world :=
    hr.world_of (fun _ _ hok => hok) fun _ _ _ _ => trivial
  have hw := hworld.sane
  have hplaced := hw.placed hworld.ordered hworld.stamped
  constructor
  · intro y e hy he
    obtain ⟨hv, hfilled⟩ := visits_of_nil hy
    rw [hfilled.applyOp_eq, ne_eq, Option.map_eq_none_iff]
    exact hw.applyOp_ne_none hplaced he hv
  · intro i t ht
    obtain ⟨hpos, howner, hle⟩ := hr.tasked g i t ht
    unfold Task.goesOn
    split
    · exact Option.some_ne_none _
    · rename_i hnot
      have hnum : (x.world.state g i).num = t.version := le_antisymm (not_lt.mp hnot) hle
      rw [ne_eq, Option.map_eq_none_iff]
      exact (hplaced t.version).has g _ t.shard (World.visits_state (hw.sound g) i) hnum hpos howner

/-- Group 2 has `PULL_SHARD` for shard 0 in its log, and its task runs. -/
def twoPulls : List LiveAction :=
  (fetchNext 1 ++ fetchNext 2 ++ fetchNext 1 ++ fetchNext 2 ++
    [Action.askPull 2 0 shardZero, .pull 1 0 0, .gotPull 2 0 0]).map .act

theorem shards_present_twoPulls :
    ∃ x, Live.Reachable oneToTwo (Live.ServesLeave (· ≤ ·)) x ∧
      (∃ e, (x.server 2 0).raftLog[(x.server 2 0).applied]? = some e ∧
        e.op = .pullShard shardZero 2 .empty ∧
        ∃ y : NilState, y.state = x.world.state 2 0 ∧ y.applyOp 2 e.op ≠ none) ∧
      Task.pullShard shardZero 2 ∈ (x.memory 2 0).tasks ∧
      (Task.pullShard shardZero 2).goesOn (x.world.state 2 0) ≠ none := by
  obtain ⟨x, hr, hnext, htask⟩ := exists_run_of_execOk (Live.step oneToTwo)
    (Live.ServesLeave (· ≤ ·)) Live.init twoPulls
    (fun x => ((x.server 2 0).raftLog[(x.server 2 0).applied]?.any fun e =>
        e.op = .pullShard shardZero 2 .empty) ∧
      Task.pullShard shardZero 2 ∈ (x.memory 2 0).tasks)
    (by decide +kernel)
  obtain ⟨e, he, hop⟩ := (Option.any_eq_true _ _).mp hnext
  obtain ⟨happly, hrounds⟩ := shards_present hr 2
  have hw := (Live.Reachable.world hr).sane
  obtain ⟨y, hy, hstate⟩ := exists_nil_of_visits (World.visits_state (hw.sound 2) 0)
  have hstarted := ((hw.sound 2).servers 0).logStarted e (List.mem_of_getElem? he)
  exact ⟨x, hr, ⟨e, he, of_decide_eq_true hop, y, hstate, happly y e hy hstarted⟩, htask,
    hrounds 0 _ htask⟩

/-- As in `lateLeave`, but the first request for version 2 comes while group 1 is about to get the
    shard again: it serves the request, then starts `PULL_SHARD`, and applies the deletion. -/
def leaveBeforePull : List LiveAction :=
  (fetchNext 1 ++ fetchNext 2 ++ fetchNext 1 ++ fetchNext 2 ++ pullNext 2 1 0 ++
    [Action.askLeave 2 0 shardZero] ++ leaveNext 2 1 1 0 ++ fetchNext 1 ++ fetchNext 2 ++
    [Action.leave 1 0 0, .askPull 1 0 shardZero, .pull 2 0 1, .gotPull 1 0 1] ++
    applyNext 1 0).map .act

/-- The next entry of the log panics, and so does the task. -/
theorem late_leave_panics :
    ∃ x, Live.Reachable thereAndBack (fun _ _ => True) x ∧
      (∃ e, (x.server 1 0).raftLog[(x.server 1 0).applied]? = some e ∧
        e.op = .pullShard shardZero 3 .empty ∧
        (x.world.state 1 0).applyOp 1 e.op = none) ∧
      Task.pullShard shardZero 3 ∈ (x.memory 1 0).tasks ∧
      (Task.pullShard shardZero 3).goesOn (x.world.state 1 0) = none := by
  obtain ⟨x, hr, hnext, htask, hgoes⟩ := exists_run_of_execOk (Live.step thereAndBack)
    (fun _ _ => True) Live.init leaveBeforePull
    (fun x => ((x.server 1 0).raftLog[(x.server 1 0).applied]?.any fun e =>
        e.op = .pullShard shardZero 3 .empty ∧ ((x.world.state 1 0).applyOp 1 e.op).isNone) ∧
      Task.pullShard shardZero 3 ∈ (x.memory 1 0).tasks ∧
      (Task.pullShard shardZero 3).goesOn (x.world.state 1 0) = none)
    (by decide +kernel)
  obtain ⟨e, he, hfacts⟩ := (Option.any_eq_true _ _).mp hnext
  obtain ⟨hop, happly⟩ := of_decide_eq_true hfacts
  exact ⟨x, hr, ⟨e, he, hop, Option.isNone_iff_eq_none.mp happly⟩, htask, hgoes⟩

end MitDistributed.ShardKV
