import MitDistributed.ShardKV.Sharing

namespace MitDistributed.ShardKV

open Rsm ShardCtrler Transition

/-!
# Sharded store — snapshots and the tasks of a migration

A snapshot has the replicated state and nothing of the tasks that run.

* `Live.Reachable.restored` — a server that restores a snapshot has the state that was encoded;
* `restore_resumes_migrations` — as long as maps are encoded unchanged, every server has the state
  that its log leads to, snapshots or not; and as long as no migration is restored whose task does
  not run, each one has its task.  `restart_strands_migration` otherwise.
-/

/-! ### What is encoded -/

namespace State

variable {st : State} {contents : ShardId → Storage} {s : ShardId}

@[simp] theorem num_withContents : (st.withContents contents).num = st.num := rfl

@[simp] theorem status_withContents : (st.withContents contents).status s = st.status s := by
  rw [status, withContents, Option.map_map]
  rfl

/-- The contents of a state are what it is encoded with. -/
theorem withContents_contents :
    st.withContents (st.withContents contents).contents = st.withContents contents := by
  have hshards : (fun s => (st.shards s).map fun sh =>
      { sh with storage := (st.withContents contents).contents s }) =
        (st.withContents contents).shards := by
    funext s
    show _ = (st.shards s).map _
    cases hsh : st.shards s with
    | none => rfl
    | some sh =>
      have hnew : (st.withContents contents).shards s = some { sh with storage := contents s } := by
        show (st.shards s).map _ = _
        rw [hsh, Option.map_some]
      rw [Option.map_some, contents_eq s _ hnew]
      rfl
  rw [withContents, hshards]
  rfl

end State

namespace Live

variable {cs : Configs} {x x' : Live} {a : LiveAction} {g : Gid} {i j k : ℕ} {w w' : World}

/-- But for the contents of the shards, the snapshot is the state that the first entries of the
    agreed log lead to. -/
def Image.Fits (agreed : List Entry) (y : Image) : Prop :=
  y.applied ≤ agreed.length ∧ ∃ st, (machine y.gid).replay (agreed.take y.applied) = some st ∧
    y.state = st.withContents y.state.contents

theorem Image.Fits.mono {agreed agreed' : List Entry} {y : Image} (h : Image.Fits agreed y)
    (hpre : agreed <+: agreed') : Image.Fits agreed' y := by
  obtain ⟨hle, st, hst, heq⟩ := h
  refine ⟨hle.trans hpre.length_le, st, ?_, heq⟩
  rw [take_eq_of_isPrefix hpre hle]
  exact hst

/-- **Snapshots, step.** -/
theorem Moves.fits (h : x.Moves cs a x') (hw : x.world.Sane cs)
    (hx : ∀ y ∈ x.images, Image.Fits (x.world.groups y.gid).agreed y) :
    ∀ y ∈ x'.images, Image.Fits (x'.world.groups y.gid).agreed y := by
  have hagreed := h.agreed hw
  -- no snapshot is taken
  have hold (hsame : x'.images = x.images) :
      ∀ y ∈ x'.images, Image.Fits (x'.world.groups y.gid).agreed y := by
    intro y hy
    exact (hx y (hsame ▸ hy)).mono (hagreed y.gid)
  cases h with
  | serialize g s =>
    intro y hy
    rcases List.mem_append.mp hy with hy | hy
    · exact hx y hy
    · rw [List.mem_singleton.mp hy]
      have hsound := (hw.sound g).servers s
      exact ⟨hsound.applied_le, _, hsound.state_eq, State.withContents_contents.symm⟩
  | plain | pull | gotPull | apply | goOn | stop | encode | truncate | receive | install
  | restart => exact hold rfl

theorem Reachable.fits {ok : Live → LiveAction → Prop} (hr : Reachable cs ok x) :
    ∀ y ∈ x.images, Image.Fits (x.world.groups y.gid).agreed y :=
  (Run.invariant (I := fun x => x.world.Sane cs ∧
      ∀ y ∈ x.images, Image.Fits (x.world.groups y.gid).agreed y)
    (fun _ _ _ hx _ hstep =>
      ⟨(moves_of_step hstep).sane hx.1, (moves_of_step hstep).fits hx.1 hx.2⟩)
    hr ⟨.init, fun _ hy => absurd hy List.not_mem_nil⟩).2

/-- The snapshot that a step restores, and where. -/
def Restores (x : Live) (g : Gid) (s : ℕ) (y : Image) : LiveAction → Prop
  | .install h j i => h = g ∧ j = s ∧ x.images[i]? = some y
  | .restart h j (some i) => h = g ∧ j = s ∧ x.images[i]? = some y
  | _ => False

/-- A snapshot is restored as it was encoded. -/
theorem actual_of_restored {y : Image} {log : List Entry}
    (hy : Image.Fits (w'.groups y.gid).agreed y) (hw : w'.Sane cs)
    (hrest : w.Restored w' y.gid i y.applied log) :
    (w'.state y.gid i).withContents y.state.contents = y.state := by
  obtain ⟨-, st, hst, heq⟩ := hy
  have hstate : w'.state y.gid i = st := hw.restored_state hrest hst
  rw [hstate, ← heq]

theorem Reachable.restored {ok : Live → LiveAction → Prop} (hr : Reachable cs ok x) {y : Image}
    (ha : x.Restores g i y a) (hstep : x.step cs a = some x') :
    x'.actual g i = y.state ∧ (x'.server g i).applied = y.applied := by
  have hmoves := moves_of_step hstep
  have hw' := hmoves.sane hr.world.sane
  have hfits := hmoves.fits hr.world.sane hr.fits
  cases hmoves with
  | @install j y' s w w' hy hs hs' =>
    obtain ⟨rfl, rfl, hj⟩ := ha
    obtain rfl : y' = y := Option.some.inj (hy.symm.trans hj)
    obtain ⟨hrest, -⟩ := World.restored_install hs hs'
    refine ⟨?_, hrest.applied⟩
    rw [actual, setMemory_self]
    exact actual_of_restored (hfits y' (List.mem_of_getElem? hy)) hw' hrest
  | @restart h j k st s w w' hi hs hs' =>
    cases j with
    | none => exact ha.elim
    | some j =>
      obtain ⟨rfl, rfl, hj⟩ := ha
      obtain rfl : ⟨h, k, st⟩ = y := Option.some.inj (hi.symm.trans hj)
      have hrest := World.restored_restart hs hs'
      refine ⟨?_, hrest.applied⟩
      rw [actual, setMemory_self]
      exact actual_of_restored (hfits _ (List.mem_of_getElem? hi)) hw' hrest
  | plain | pull | gotPull | apply | goOn | stop | encode | serialize | truncate | receive =>
    exact ha.elim

end Live

/-! ### Tasks -/

namespace State

variable {gid : Gid} {st st' : State} {op : Op} {s : ShardId} {tasks : List Task}

/-- Every migration of the state has its task. -/
def Attended (st : State) (tasks : List Task) : Prop :=
  ∀ s, (st.status s = some .pulling → .pullShard s st.num ∈ tasks) ∧
    (st.status s = some .waiting → .sendLeave s st.num ∈ tasks)

instance (st : State) (tasks : List Task) : Decidable (st.Attended tasks) :=
  inferInstanceAs (Decidable (∀ s, (st.status s = some .pulling → .pullShard s st.num ∈ tasks) ∧
    (st.status s = some .waiting → .sendLeave s st.num ∈ tasks)))

/-- A task that has something to do is among them. -/
theorem attended_iff : st.Attended tasks ↔
    ∀ t : Task, t.version = st.num → st.status t.shard = some t.status → t ∈ tasks := by
  constructor
  · rintro h (⟨s, v⟩ | ⟨s, v⟩) hversion hstatus
    · obtain rfl : v = st.num := hversion
      exact (h s).1 hstatus
    · obtain rfl : v = st.num := hversion
      exact (h s).2 hstatus
  · intro h s
    exact ⟨fun hs => h (.pullShard s st.num) rfl hs, fun hs => h (.sendLeave s st.num) rfl hs⟩

theorem attended_initial : State.initial.Attended [] :=
  fun _ => ⟨fun h => (by cases h), fun h => by cases h⟩

theorem Attended.withContents {contents : ShardId → Storage} :
    (st.withContents contents).Attended tasks ↔ st.Attended tasks := by
  simp [Attended]

/-- A configuration starts the tasks of the shards that it adds. -/
theorem Updated.attended {config : Config} {sh : Shard} (h : Updated gid config st s sh)
    (hnum : st.num + 1 = config.num) (hall : st.allWorking) :
    (sh.status = .pulling → .pullShard s config.num ∈ st.starts gid (.updateConfig config)) ∧
      sh.status ≠ .waiting := by
  cases h with
  | first | leaving => exact ⟨fun h => (by cases h), by simp⟩
  | kept hmine hst =>
    rw [hall s sh hst]
    simp
  | pulling hlater hmine hnone =>
    refine ⟨fun _ => ?_, by simp⟩
    rw [starts, if_pos ⟨hnum, hlater⟩]
    refine List.mem_map.mpr ⟨s, List.mem_filter.mpr ⟨List.mem_finRange s, ?_⟩, rfl⟩
    exact decide_eq_true ⟨hmine, hnone⟩

/-- **Tasks, one entry.** -/
theorem Attended.applies (h : st.Attended tasks) (happ : st.Applies gid op st')
    (hnone : st.num = 0 → ∀ s, st.shards s = none)
    (hgate : ∀ config, op = .updateConfig config → st.num + 1 = config.num → st.allWorking) :
    st'.Attended (tasks ++ st.starts gid op) := by
  intro s
  cases happ.turns hnone hgate s with
  | keep hprev hcurr hshard =>
    rw [status_of_keep hshard, num_of_keep hcurr]
    exact ⟨fun hs => List.mem_append_left _ ((h s).1 hs),
      fun hs => List.mem_append_left _ ((h s).2 hs)⟩
  | update hnum hall hnew =>
    constructor
    · intro hstatus
      obtain ⟨sh, hsh, hs⟩ := Option.map_eq_some_iff.mp hstatus
      exact List.mem_append_right _ (((hnew sh hsh).attended hnum hall).1 hs)
    · intro hstatus
      obtain ⟨sh, hsh, hs⟩ := Option.map_eq_some_iff.mp hstatus
      exact absurd hs ((hnew sh hsh).attended hnum hall).2
  | pull hpulling =>
    rw [status_setShard_self]
    refine ⟨fun hs => (by cases hs), fun _ => List.mem_append_right _ ?_⟩
    rw [starts, if_pos ⟨rfl, hpulling⟩]
    exact List.mem_singleton.mpr rfl
  | leave | done =>
    rw [status_setShard_self]
    exact ⟨fun hs => (by cases hs), fun hs => by cases hs⟩

/-- A task that stops is not one of a migration. -/
theorem Attended.eraseIdx (h : st.Attended tasks) {i : ℕ} {t : Task} (ht : tasks[i]? = some t)
    (hstop : t.goesOn st = some false) : st.Attended (tasks.eraseIdx i) := by
  rw [attended_iff] at h ⊢
  intro u hversion hstatus
  have hne : u ≠ t := by
    rintro rfl
    unfold Task.goesOn at hstop
    rw [if_neg (by omega)] at hstop
    obtain ⟨sh, hsh, hs⟩ := Option.map_eq_some_iff.mp hstop
    rw [status, hsh, Option.map_some, Option.some.injEq] at hstatus
    exact of_decide_eq_false hs hstatus
  obtain ⟨n, hn⟩ := List.mem_iff_getElem?.mp (h u hversion hstatus)
  refine List.mem_eraseIdx_iff_getElem?.mpr ⟨n, ?_, hn⟩
  rintro rfl
  exact hne (Option.some.inj (hn.symm.trans ht))

end State

namespace Live

variable {cs : Configs} {x x' : Live} {a : LiveAction} {g : Gid} {i : ℕ} {w : World}

/-- A snapshot is restored only if all of its migrations have their tasks. -/
def RestoresAttended (x : Live) : LiveAction → Prop
  | .install g s i => ∀ y ∈ x.images[i]?, y.state.Attended (x.memory g s).tasks
  | .restart _ _ (some i) => ∀ y ∈ x.images[i]?, y.state.Attended []
  | _ => True

instance (x : Live) (a : LiveAction) : Decidable (x.RestoresAttended a) := by
  unfold RestoresAttended
  split <;> infer_instance

/-- Every migration of every server has its task. -/
def Attended (x : Live) : Prop := ∀ g s, (x.world.state g s).Attended (x.memory g s).tasks

theorem attended_of_restored {w' : World} {y : Image} {log : List Entry} {tasks : List Task}
    (hy : Image.Fits (w'.groups y.gid).agreed y) (hw : w'.Sane cs)
    (hrest : w.Restored w' y.gid i y.applied log) (h : y.state.Attended tasks) :
    (w'.server y.gid i).state.Attended tasks := by
  rw [← actual_of_restored hy hw hrest] at h
  exact State.Attended.withContents.mp h

namespace Attended

theorem init : Live.init.Attended := fun _ _ => State.attended_initial

/-- **Tasks, step.** -/
theorem step (h : x.Attended) (hw : x.world.Sane cs)
    (hfits : ∀ y ∈ x.images, Image.Fits (x.world.groups y.gid).agreed y)
    (hok : x.RestoresAttended a) (hstep : x.step cs a = some x') : x'.Attended := by
  have hmoves := moves_of_step hstep
  have hw' := hmoves.sane hw
  have hfits (y : Image) (hy : y ∈ x.images) : Image.Fits (x'.world.groups y.gid).agreed y :=
    (hfits y hy).mono (hmoves.agreed hw y.gid)
  intro g s
  cases hmoves.attends hw g s with
  | keep hstate htasks =>
    rw [hstate, htasks]
    exact h g s
  | apply hp htasks =>
    have hv := Machine.Performs.visits hp
    rw [htasks]
    exact (h g s).applies hp.applies (hw'.configured hv).none
      fun config hop hnum => hw'.gate hp hop hnum
  | stop hstate ht hstop htasks =>
    rw [hstate, htasks]
    exact (h g s).eraseIdx ht hstop
  | @install i y log hy hgid hrest hlt htasks =>
    subst hgid
    rw [htasks]
    exact attended_of_restored (hfits y (List.mem_of_getElem? hy)) hw' hrest (hok y hy)
  | @restart i k st log hi hrest htasks =>
    rw [htasks]
    cases i with
    | none =>
      obtain ⟨rfl, rfl⟩ := hi
      have hstate : (x'.world.server g s).state = State.initial := hw'.restored_state hrest rfl
      show (x'.world.server g s).state.Attended []
      rw [hstate]
      exact State.attended_initial
    | some i => exact attended_of_restored (hfits _ (List.mem_of_getElem? hi)) hw' hrest (hok _ hi)

end Attended

/-- **Tasks, run.** -/
theorem Reachable.attended {ok : Live → LiveAction → Prop}
    (hok : ∀ x a, ok x a → x.RestoresAttended a) (hr : Reachable cs ok x) : x.Attended := by
  refine (Run.invariant (I := fun x => Reachable cs ok x ∧ x.Attended) ?_ hr
    ⟨Run.refl _, Attended.init⟩).2
  intro x a x' hx ha hstep
  exact ⟨Run.tail a hx.1 ha hstep, hx.2.step hx.1.world.sane hx.1.fits (hok x a ha) hstep⟩

end Live

/-- **Snapshots and migrations.** Every server has the state that the entries it has applied lead
    to, and every shard that is `PULLING` or `WAITING` there has its task. -/
theorem restore_resumes_migrations {cs : Configs} {x : Live}
    (hr : Live.Reachable cs (fun x a => x.EncodesUnchanged a ∧ x.RestoresAttended a) x) (g : Gid)
    (i : ℕ) :
    (machine g).replay ((x.world.groups g).agreed.take (x.server g i).applied) =
        some (x.actual g i) ∧
      ∀ s, ((x.actual g i).status s = some .pulling →
          .pullShard s (x.actual g i).num ∈ (x.memory g i).tasks) ∧
        ((x.actual g i).status s = some .waiting →
          .sendLeave s (x.actual g i).num ∈ (x.memory g i).tasks) := by
  have hfaithful : x.Faithful := Live.Reachable.faithful (hr.mono fun _ _ hok => hok.1)
  constructor
  · rw [hfaithful.actual_eq]
    exact ((hr.world.sane.sound g).servers i).state_eq
  · exact State.Attended.withContents.mpr (hr.attended (fun _ _ hok => hok.2) g i)

/-- Server 0 of group 2 restarts from a snapshot before it asks for shard 0. -/
def restartsBefore : List LiveAction :=
  (fetchNext 2).map .act ++ [.serialize 2 0, .restart 2 0 (some 0)] ++ (fetchNext 2).map .act

theorem restore_resumes_migrations_restartsBefore :
    ∃ x, Live.Reachable oneToTwo (fun x a => x.EncodesUnchanged a ∧ x.RestoresAttended a) x ∧
      (x.server 2 0).applied = 2 ∧ (x.actual 2 0).status shardZero = some .pulling ∧
      (machine 2).replay ((x.world.groups 2).agreed.take 2) = some (x.actual 2 0) ∧
      .pullShard shardZero 2 ∈ (x.memory 2 0).tasks := by
  obtain ⟨x, hr, happlied, hpulling, hnum⟩ := exists_run_of_execOk (Live.step oneToTwo)
    (fun x a => x.EncodesUnchanged a ∧ x.RestoresAttended a) Live.init restartsBefore
    (fun x => (x.server 2 0).applied = 2 ∧ (x.actual 2 0).status shardZero = some .pulling ∧
      (x.actual 2 0).num = 2)
    (by decide +kernel)
  obtain ⟨hstate, htasks⟩ := restore_resumes_migrations hr 2 0
  rw [happlied] at hstate
  exact ⟨x, hr, happlied, hpulling, hstate, hnum ▸ (htasks shardZero).1 hpulling⟩

/-- Server 0 of group 2 restarts from a snapshot while it asks for shard 0. -/
def restartsWithin : List LiveAction :=
  (fetchNext 2 ++ fetchNext 2).map .act ++ [.serialize 2 0, .restart 2 0 (some 0)]

/-- Server 0 of group 2 restarts without a snapshot after it has applied an append to the shard it
    has pulled, and applies its log again as it was persisted. -/
def restartsAfter : List LiveAction :=
  (fetchNext 1 ++ fetchNext 2 ++ fetchNext 1 ++ fetchNext 2 ++ pullNext 2 1 0 ++
      appendAt 2 0).map .act ++
    ([.encode 2 0 0, .encode 2 0 1, .encode 2 0 2, .encode 2 0 3, .restart 2 0 none,
      .receive 2 0 0, .receive 2 0 1, .receive 2 0 2, .receive 2 0 3] : List LiveAction) ++
    (applyNext 2 0 ++ applyNext 2 0 ++ applyNext 2 0 ++ applyNext 2 0).map .act

/-- A shard is `PULLING` and nothing is done about it; and a server that applies its log again has
    another state. -/
theorem restart_strands_migration :
    (∃ x, Live.Reachable oneToTwo Live.EncodesUnchanged x ∧ (x.actual 2 0).num = 2 ∧
      (x.actual 2 0).status shardZero = some .pulling ∧ (x.memory 2 0).tasks = []) ∧
    ∃ x, Live.Reachable oneToTwo Live.RestoresAttended x ∧ (x.server 2 0).applied = 4 ∧
      ((x.actual 2 0).contents shardZero).get? [50] = some [120, 120] ∧
      ∃ st ∈ (machine 2).replay ((x.world.groups 2).agreed.take 4),
        (st.contents shardZero).get? [50] = some [120] :=
  ⟨exists_run_of_execOk (Live.step oneToTwo) Live.EncodesUnchanged Live.init restartsWithin
      (fun x => (x.actual 2 0).num = 2 ∧ (x.actual 2 0).status shardZero = some .pulling ∧
        (x.memory 2 0).tasks = []) (by decide +kernel),
    exists_run_of_execOk (Live.step oneToTwo) Live.RestoresAttended Live.init restartsAfter
      (fun x => (x.server 2 0).applied = 4 ∧
        ((x.actual 2 0).contents shardZero).get? [50] = some [120, 120] ∧
        ∃ st ∈ (machine 2).replay ((x.world.groups 2).agreed.take 4),
          (st.contents shardZero).get? [50] = some [120]) (by decide +kernel)⟩

end MitDistributed.ShardKV
