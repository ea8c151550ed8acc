import MitDistributed.ShardKV.World

namespace MitDistributed.ShardKV

open Rsm ShardCtrler Transition

/-!
# Sharded store — status and configuration

Within a version, the shards of a group move only towards `WORKING` or away: a shard is neither
added nor lost to `PULLING` or `LEAVING`, and one that is `LEAVING` keeps its contents
(`State.Evolves`).  So a group that was ready for the next configuration when it was proposed is
still ready when it takes effect, unless the version has changed by then and it has no effect at
all (`World.Sane.gate`).

* `statuses_coherent` — in every state of every group, the shards in status `LEAVING` are those
  that the configuration assigns to others, and a configuration takes effect only when all shards
  are `WORKING`.
-/

/-! ### How the state of a group evolves -/

namespace State

/-- A state and a later one. -/
structure Evolves (s t : State) : Prop where
  le : s.num ≤ t.num
  configs : s.num = t.num → t.prevConfig = s.prevConfig
  latest : ∀ c, s.latestAppliedRequest.latest c ≤ t.latestAppliedRequest.latest c
  working : s.num = t.num → s.allWorking → t.allWorking
  leaving : s.num = t.num → ∀ x sh, t.shards x = some sh → sh.status = .leaving →
    s.shards x = some sh
  pulling : s.num = t.num → ∀ x, t.status x = some .pulling → s.status x = some .pulling

namespace Evolves

theorem refl (s : State) : s.Evolves s where
  le := le_rfl
  configs _ := rfl
  latest _ := le_rfl
  working _ h := h
  leaving _ _ _ h _ := h
  pulling _ _ h := h

theorem trans (s t u : State) (hst : s.Evolves t) (htu : t.Evolves u) : s.Evolves u := by
  -- if the first and the last version are the same, so is the one between
  have hmid (h : s.num = u.num) : s.num = t.num ∧ t.num = u.num := by
    have h1 := hst.le
    have h2 := htu.le
    omega
  refine ⟨hst.le.trans htu.le, fun h => ?_, fun c => (hst.latest c).trans (htu.latest c),
    fun h hall => ?_, fun h x sh hx hl => ?_, fun h x hp => ?_⟩
  · obtain ⟨h1, h2⟩ := hmid h
    exact (htu.configs h2).trans (hst.configs h1)
  · obtain ⟨h1, h2⟩ := hmid h
    exact htu.working h2 (hst.working h1 hall)
  · obtain ⟨h1, h2⟩ := hmid h
    exact hst.leaving h1 x sh (htu.leaving h2 x sh hx hl) hl
  · obtain ⟨h1, h2⟩ := hmid h
    exact hst.pulling h1 x (htu.pulling h2 x hp)

end Evolves

variable {gid : Gid} {st st' : State} {op : Op} {r : WaitChResponse} {s : ShardId}

/-- An operation without effect on the shards keeps their status. -/
theorem status_of_keep
    (hshards : st'.shards s = st.shards s ∨ st.serves s ∧ st'.status s = st.status s) :
    st'.status s = st.status s := by
  rcases hshards with heq | ⟨-, heq⟩
  · rw [status, heq, status]
  · exact heq

theorem num_of_keep (hcurr : st'.currConfig = st.currConfig) : st'.num = st.num := by
  rw [num, hcurr, num]

/-- A change of one shard, to nothing or to a status in which it is served. -/
theorem evolves_setShard {sh : Option Shard}
    (hsh : ∀ x, sh = some x → x.status = .working ∨ x.status = .waiting ∧ ¬ st.allWorking) :
    st.Evolves (st.setShard s sh) := by
  refine ⟨le_rfl, fun _ => rfl, fun _ => le_rfl, fun _ hall x y hy => ?_, fun _ x y hy hl => ?_,
    fun _ x hp => ?_⟩
  · rcases eq_or_ne x s with rfl | hne
    · rw [setShard_self] at hy
      rcases hsh y hy with hw | ⟨-, hnot⟩
      · exact hw
      · exact absurd hall hnot
    · rw [setShard_of_ne _ _ hne] at hy
      exact hall x y hy
  · rcases eq_or_ne x s with rfl | hne
    · rw [setShard_self] at hy
      rcases hsh y hy with hw | ⟨hw, -⟩
      · cases hw.symm.trans hl
      · cases hw.symm.trans hl
    · rw [setShard_of_ne _ _ hne] at hy
      exact hy
  · rcases eq_or_ne x s with rfl | hne
    · rw [status, setShard_self] at hp
      obtain ⟨y, hy, hys⟩ := Option.map_eq_some_iff.mp hp
      rcases hsh y hy with hw | ⟨hw, -⟩
      · cases hw.symm.trans hys
      · cases hw.symm.trans hys
    · rw [status, setShard_of_ne _ _ hne] at hp
      exact hp

/-- **Evolution, step.** -/
theorem Applies.evolves (h : st.Applies gid op st') : st.Evolves st' := by
  cases h with
  | keep hprev hcurr hshards hlatest =>
    refine ⟨by rw [num, num, hcurr], fun _ => hprev, hlatest, fun _ hall x sh hsh => ?_,
      fun _ x sh hsh hl => ?_, fun _ x hp => ?_⟩
    · rcases hshards x with heq | ⟨-, heq⟩
      · exact hall x sh (heq ▸ hsh)
      · rw [status, status, hsh] at heq
        obtain ⟨sh', hsh', hstatus⟩ := Option.map_eq_some_iff.mp heq.symm
        exact hstatus ▸ hall x sh' hsh'
    · rcases hshards x with heq | ⟨hserves, heq⟩
      · exact heq ▸ hsh
      · -- a shard that is served is not leaving
        rw [status, hsh, Option.map_some, hl] at heq
        rcases hserves with hw | hw
        · exact absurd (heq.trans hw) (by simp)
        · exact absurd (heq.trans hw) (by simp)
    · rcases hshards x with heq | ⟨-, heq⟩
      · rw [status, heq] at hp
        exact hp
      · exact heq ▸ hp
  | @update config hnum =>
    have hne : st.num ≠ config.num := by omega
    have hle : st.num ≤ config.num := by omega
    exact ⟨hle, fun h => absurd h hne, fun _ => le_rfl, fun h => absurd h hne,
      fun h => absurd h hne, fun h => absurd h hne⟩
  | pull hsh hpulling =>
    refine evolves_setShard fun x hx => .inr ⟨?_, fun hall => ?_⟩
    · rw [← Option.some.inj hx]
    · cases hpulling.symm.trans (hall _ _ hsh)
  | leave s => exact evolves_setShard fun x hx => by cases hx
  | done hsh hwaiting =>
    refine evolves_setShard fun x hx => .inl ?_
    rw [← Option.some.inj hx]

/-- How a group comes to a shard with a new configuration. -/
inductive Updated (gid : Gid) (config : Config) (st : State) (s : ShardId) : Shard → Prop
  | first (hone : config.num = 1) (hmine : config.shards s = gid) :
      Updated gid config st s { storage := .empty, status := .working }
  | pulling (hlater : config.num ≠ 1) (hmine : config.shards s = gid) (hnone : st.shards s = none) :
      Updated gid config st s { storage := .empty, status := .pulling }
  | leaving {sh : Shard} (hother : config.shards s ≠ gid) (hsh : st.shards s = some sh) :
      Updated gid config st s { sh with status := .leaving }
  | kept {sh : Shard} (hmine : config.shards s = gid) (hsh : st.shards s = some sh) :
      Updated gid config st s sh

theorem updated_of_updateShards {config : Config} {sh : Shard}
    (hfirst : config.num = 1 → st.shards s = none)
    (h : updateShards gid config st.shards s = some sh) : Updated gid config st s sh := by
  unfold updateShards at h
  by_cases hone : config.num = 1
  · rw [if_pos hone] at h
    by_cases hmine : config.shards s = gid
    · rw [if_pos hmine] at h
      cases h
      exact .first hone hmine
    · rw [if_neg hmine, hfirst hone] at h
      cases h
  · rw [if_neg hone] at h
    split at h
    · rename_i hnone
      split at h <;> cases h
      rename_i hmine
      exact .pulling hone hmine hnone
    · rename_i sh' hsh
      split at h
      · rename_i hother
        cases h
        exact .leaving hother hsh
      · rename_i hmine
        cases h
        exact .kept (not_not.mp hmine) hsh

theorem updateShards_eq_none_iff {config : Config} :
    updateShards gid config st.shards s = none ↔ st.shards s = none ∧ config.shards s ≠ gid := by
  unfold updateShards
  cases st.shards s with
  | none => split_ifs <;> simp_all
  | some sh => split_ifs <;> simp_all

/-- What an operation does to one shard, if a configuration takes effect only when all shards are
    `WORKING`. -/
inductive Turns (gid : Gid) (st : State) (s : ShardId) : Op → State → Prop
  | keep {op : Op} {st' : State} (hprev : st'.prevConfig = st.prevConfig)
      (hcurr : st'.currConfig = st.currConfig)
      (hshard : st'.shards s = st.shards s ∨ st.serves s ∧ st'.status s = st.status s) :
      Turns gid st s op st'
  | update {config : Config} (hnum : st.num + 1 = config.num) (hall : st.allWorking)
      (hnew : ∀ sh, updateShards gid config st.shards s = some sh → Updated gid config st s sh) :
      Turns gid st s (.updateConfig config)
        { st with
          prevConfig := st.currConfig
          currConfig := config
          shards := updateShards gid config st.shards }
  | pull {storage : Storage} (hpulling : st.status s = some .pulling) :
      Turns gid st s (.pullShard s st.num storage)
        (st.setShard s (some { storage := storage, status := .waiting }))
  | leave : Turns gid st s (.leaveShard s st.num) (st.setShard s none)
  | done {sh : Shard} (hwaiting : st.status s = some .waiting) :
      Turns gid st s (.transferDone s st.num) (st.setShard s (some { sh with status := .working }))

theorem Applies.turns (h : st.Applies gid op st') (hnone : st.num = 0 → ∀ s, st.shards s = none)
    (hgate : ∀ config, op = .updateConfig config → st.num + 1 = config.num → st.allWorking)
    (s : ShardId) : st.Turns gid s op st' := by
  cases h with
  | keep hprev hcurr hshards => exact .keep hprev hcurr (hshards s)
  | update hnum =>
    exact .update hnum (hgate _ rfl hnum) fun sh hsh =>
      updated_of_updateShards (fun hone => hnone (by omega) s) hsh
  | @pull s' storage sh hsh hpulling =>
    rcases eq_or_ne s s' with rfl | hne
    · exact .pull (by rw [status, hsh, Option.map_some, hpulling])
    · exact .keep rfl rfl (.inl (setShard_of_ne _ _ hne))
  | leave s' =>
    rcases eq_or_ne s s' with rfl | hne
    · exact .leave
    · exact .keep rfl rfl (.inl (setShard_of_ne _ _ hne))
  | @done s' sh hsh hwaiting =>
    rcases eq_or_ne s s' with rfl | hne
    · exact .done (by rw [status, hsh, Option.map_some, hwaiting])
    · exact .keep rfl rfl (.inl (setShard_of_ne _ _ hne))

/-! ### Configurations and status along a log -/

/-- The configurations of a state are those of the sequence, and there are no shards before the
    first one. -/
structure Configured (cs : Configs) (st : State) : Prop where
  none : st.num = 0 → ∀ s, st.shards s = none
  curr : 0 < st.num → st.currConfig = cs.config st.num
  prev : 1 < st.num → st.prevConfig = cs.config (st.num - 1)

/-- The shards in status `LEAVING` are those that the configuration assigns to others. -/
def Coherent (gid : Gid) (st : State) : Prop :=
  ∀ s sh, st.shards s = some sh → (sh.status = .leaving ↔ st.currConfig.shards s ≠ gid)

theorem Configured.initial {cs : Configs} : State.initial.Configured cs where
  none _ _ := rfl
  curr h := absurd h (lt_irrefl 0)
  prev h := absurd h (by decide)

theorem Configured.applies {cs : Configs} (h : st.Configured cs) (happ : st.Applies gid op st')
    (hconfig : ∀ config, op = .updateConfig config → config = cs.config config.num) :
    st'.Configured cs := by
  have hset (s : ShardId) (sh sh' : Shard) (x : Option Shard) (hsh : st.shards s = some sh) :
      (st.setShard s x).Configured cs := by
    refine ⟨fun hnum => ?_, h.curr, h.prev⟩
    exact absurd ((h.none hnum s).symm.trans hsh) (by simp)
  cases happ with
  | keep hprev hcurr hshards =>
    have hnum : st'.num = st.num := by rw [num, num, hcurr]
    refine ⟨fun h0 s => ?_, ?_, ?_⟩
    · have hnone := h.none (hnum ▸ h0) s
      rcases hshards s with heq | ⟨-, heq⟩
      · exact heq.trans hnone
      · rw [status, status, hnone] at heq
        exact Option.map_eq_none_iff.mp heq
    · rw [hnum, hcurr]
      exact h.curr
    · rw [hnum, hprev]
      exact h.prev
  | @update config hnum =>
    refine ⟨fun h0 => ?_, fun _ => hconfig config rfl, fun h1 => ?_⟩
    · have h0' : config.num = 0 := h0
      omega
    · have h1' : 1 < config.num := h1
      show st.currConfig = cs.config (config.num - 1)
      rw [h.curr (by omega), ← hnum, Nat.add_sub_cancel]
  | @pull s storage sh hsh => exact hset s sh sh _ hsh
  | leave s =>
    refine ⟨fun h0 x => ?_, h.curr, h.prev⟩
    rcases eq_or_ne x s with rfl | hne
    · exact setShard_self _ _ _
    · rw [setShard_of_ne _ _ hne]
      exact h.none h0 x
  | @done s sh hsh => exact hset s sh sh _ hsh

theorem Coherent.applies {cs : Configs} (h : st.Coherent gid) (hc : st.Configured cs)
    (happ : st.Applies gid op st')
    (hgate : ∀ config, op = .updateConfig config → st.num + 1 = config.num → st.allWorking) :
    st'.Coherent gid := by
  intro s sh hsh
  -- a shard that is not leaving is the group's own
  have hown {a : ShardStatus} (hs : st.status s = some a) (ha : a ≠ .leaving) :
      ¬ st.currConfig.shards s ≠ gid := by
    obtain ⟨sh', hsh', rfl⟩ := Option.map_eq_some_iff.mp hs
    exact (h s sh' hsh').not.mp ha
  cases happ.turns hc.none hgate s with
  | keep hprev hcurr hshard =>
    rw [hcurr]
    have hstatus := status_of_keep hshard
    rw [status, status, hsh] at hstatus
    obtain ⟨sh', hsh', hs⟩ := Option.map_eq_some_iff.mp hstatus.symm
    exact hs ▸ h s sh' hsh'
  | update hnum hall hnew =>
    cases hnew sh hsh with
    | first _ hmine => exact iff_of_false (by simp) (not_not.mpr hmine)
    | pulling _ hmine => exact iff_of_false (by simp) (not_not.mpr hmine)
    | leaving hother => exact iff_of_true rfl hother
    | kept hmine hsh => exact iff_of_false (by rw [hall s sh hsh]; simp) (not_not.mpr hmine)
  | pull hs | done hs =>
    rw [setShard_self] at hsh
    cases hsh
    exact iff_of_false (by simp) (hown hs (by simp))
  | leave =>
    rw [setShard_self] at hsh
    cases hsh

/-- The version after a configuration that takes effect. -/
theorem num_of_update {e : Entry} {config : Config} (h : st.applyOp gid e.op = some (st', r))
    (hop : e.op = .updateConfig config) (hnum : st.num + 1 = config.num) :
    st'.num = config.num := by
  rw [hop] at h
  obtain rfl : st.applyUpdateConfig gid config = st' := congrArg Prod.fst (Option.some.inj h)
  rw [applyUpdateConfig, if_pos hnum]
  rfl

end State

/-- A group only moves on along its log. -/
theorem State.evolves_of_isPrefix {g : Gid} {pre log : List Entry} {st t : State}
    (hpre : pre <+: log) (hst : (machine g).replay pre = some st)
    (ht : (machine g).replay log = some t) : st.Evolves t :=
  Machine.replay_monotone State.Evolves.refl State.Evolves.trans
    (fun _ _ _ _ happly => (State.applies_of_applyOp happly).evolves) hpre hst ht

namespace World

variable {cs : Configs} {w : World} {g : Gid} {st st' t : State} {e : Entry} {r : WaitChResponse}

/-- The agreed log of group `g` leads through the step. -/
def Performs (w : World) (g : Gid) (st : State) (e : Entry) (st' : State) (r : WaitChResponse) :
    Prop := (machine g).Performs (w.groups g).agreed st e st' r

theorem Performs.applies (h : w.Performs g st e st' r) : st.Applies g e.op st' :=
  State.applies_of_applyOp (Machine.Performs.apply_eq h)

/-- A state is before a step or after it. -/
theorem Performs.evolves (h : w.Performs g st e st' r) (ht : w.Visits g t) :
    t.Evolves st ∨ st'.Evolves t :=
  Machine.Performs.total State.Evolves.refl State.Evolves.trans
    (fun _ _ _ _ happly => (State.applies_of_applyOp happly).evolves) h ht

/-- Of two states one is before the other. -/
theorem Visits.evolves (hs : w.Visits g st) (ht : w.Visits g t) :
    st.Evolves t ∨ t.Evolves st :=
  Machine.Visits.total State.Evolves.refl State.Evolves.trans
    (fun _ _ _ _ happly => (State.applies_of_applyOp happly).evolves) hs ht

namespace Sane

theorem justified (hw : w.Sane cs) (h : w.Performs g st e st' r) : w.Justified cs g e :=
  hw.started g e ((hw.sound g).agreed e (Machine.Performs.mem h))

/-- **The configuration gate.** A configuration takes effect only when all shards are
    `WORKING`. -/
theorem gate (hw : w.Sane cs) (h : w.Performs g st e st' r) {config : Config}
    (hop : e.op = .updateConfig config) (hnum : st.num + 1 = config.num) : st.allWorking := by
  have hjust := hw.justified h
  rw [Justified, hop] at hjust
  obtain ⟨-, -, st₀, hv, hall, hnum₀⟩ := hjust
  rcases h.evolves hv with hbefore | hafter
  · exact hbefore.working (by omega) hall
  · -- after the step the version is higher than the one it was proposed for
    have hle := hafter.le
    have hst' : st'.num = config.num := State.num_of_update (Machine.Performs.apply_eq h) hop hnum
    omega

theorem configured (hw : w.Sane cs) (hv : w.Visits g st) : st.Configured cs := by
  refine Machine.visits_induction (I := State.Configured cs) .initial ?_ hv
  intro st e st' r hp hst
  refine hst.applies (Performs.applies hp) fun config hop => ?_
  have hjust := hw.justified hp
  rw [Justified, hop] at hjust
  exact hjust.2.1

theorem turns (hw : w.Sane cs) (hp : w.Performs g st e st' r) (s : ShardId) :
    st.Turns g s e.op st' :=
  hp.applies.turns (hw.configured (Machine.Performs.visits hp)).none (fun _ => hw.gate hp) s

theorem coherent (hw : w.Sane cs) (hv : w.Visits g st) : st.Coherent g := by
  refine Machine.visits_induction (m := machine g) (I := State.Coherent g)
    (fun s sh hsh => by cases hsh) ?_ hv
  intro st e st' r hp hst
  exact hst.applies (hw.configured (Machine.Performs.visits hp)) (Performs.applies hp)
    fun config hop hnum => hw.gate hp hop hnum

/-- A shard that is not `LEAVING` is at its owner. -/
theorem owner (hw : w.Sane cs) (hv : w.Visits g st) {s : ShardId} {sh : Shard}
    (hsh : st.shards s = some sh) (hs : sh.status ≠ .leaving) :
    0 < st.num ∧ cs.owner st.num s = g := by
  have hconf := hw.configured hv
  have hpos : 0 < st.num := by
    refine Nat.pos_of_ne_zero fun h0 => ?_
    exact absurd ((hconf.none h0 s).symm.trans hsh) (by simp)
  refine ⟨hpos, ?_⟩
  have hmine := not_not.mp ((hw.coherent hv s sh hsh).not.mp hs)
  rw [hconf.curr hpos] at hmine
  exact hmine

/-- And so is one that is served. -/
theorem owner_of_serves (hw : w.Sane cs) (hv : w.Visits g st) {s : ShardId}
    (hserves : st.serves s) : 0 < st.num ∧ cs.owner st.num s = g := by
  obtain ⟨sh, hsh, hstatus⟩ := State.exists_shard_of_status hserves
  refine hw.owner hv hsh ?_
  rcases hstatus with hs | hs <;> rw [hs] <;> simp

end Sane

end World

/-- **Status and configuration.** In every state that a group goes through, the shards in status
    `LEAVING` are those that the current configuration assigns to others; and a configuration
    takes effect only in a state where all shards are `WORKING`. -/
theorem statuses_coherent {cs : Configs} {ok : World → Action → Prop} {w : World}
    (hr : World.Reachable cs ok w) :
    (∀ g st, w.Visits g st → ∀ s sh, st.shards s = some sh →
      (sh.status = .leaving ↔ st.currConfig.shards s ≠ g)) ∧
    ∀ g st e st' r config, w.Performs g st e st' r → e.op = .updateConfig config →
      st.num + 1 = config.num → st.allWorking := by
  have hw := hr.sane
  exact ⟨fun g st hv => hw.coherent hv, fun g st e st' r config hp hop hnum => hw.gate hp hop hnum⟩

/-- Shard 0 goes from group 1 to group 2. -/
def oneToTwo : Configs := oneShard fun v => if v ≤ 1 then 1 else 2

/-- Group 1 has applied configuration 2. -/
def groupOneLeaves : List Action := fetchNext 1 ++ fetchNext 1

theorem statuses_coherent_groupOneLeaves :
    ∃ w, World.Reachable oneToTwo (fun _ _ => True) w ∧
      ∃ st sh, w.Visits 1 st ∧ st.num = 2 ∧ st.shards shardZero = some sh ∧
        sh.status = .leaving ∧ st.currConfig.shards shardZero ≠ 1 := by
  obtain ⟨w, hr, hnum, hstatus⟩ := exists_run_of_execOk (World.step oneToTwo) (fun _ _ => True)
    World.init groupOneLeaves
    (fun w => (w.state 1 0).num = 2 ∧ (w.state 1 0).status shardZero = some .leaving)
    (by decide +kernel)
  have hv := World.visits_state ((World.Reachable.sane hr).sound 1) 0
  obtain ⟨sh, hsh, hl⟩ := Option.map_eq_some_iff.mp hstatus
  exact ⟨w, hr, _, sh, hv, hnum, hsh, hl,
    ((statuses_coherent hr).1 1 _ hv _ sh hsh).mp hl⟩

end MitDistributed.ShardKV
