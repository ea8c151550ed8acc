import MitDistributed.ShardKV.Gate

namespace MitDistributed.ShardKV

open Rsm ShardCtrler Transition

/-!
# Sharded store — how a shard passes from group to group

Where the shards of a group come from and where they go, whatever the messages do.

* `World.Sane.left` — a shard that is `LEAVING` was `WORKING` up to the configuration that gave it
  away, and has had the same contents since;
* `World.Sane.obtained` — a shard that is served was served in the version before, or has been
  pulled from the previous owner in this one;
* `World.Ordered` — when the log of a group comes to an entry for a `Leave` request, the group has
  reached the version of the request.
-/

namespace State

variable {gid : Gid} {st st' : State} {op : Op} {s : ShardId}

/-- What a `PULL_SHARD` does. -/
theorem applyPullShard_spec {v : ℕ} {storage : Storage}
    (h : st.applyPullShard s v storage = some st') :
    (st.num = v ∧ st.status s = some .pulling) ∧
        st' = st.setShard s (some { storage := storage, status := .waiting }) ∨
      ¬ (st.num = v ∧ st.status s = some .pulling) ∧ st' = st := by
  unfold applyPullShard at h
  split_ifs at h with hnum
  · cases hsh : st.shards s with
    | none =>
      rw [hsh] at h
      cases h
    | some sh =>
      rw [hsh] at h
      have hstatus : st.status s = some sh.status := by rw [status, hsh, Option.map_some]
      rw [hstatus, Option.some.injEq]
      dsimp only at h
      split_ifs at h with hpulling
      · exact .inl ⟨⟨hnum, hpulling⟩, (Option.some.inj h).symm⟩
      · exact .inr ⟨fun hcond => hpulling hcond.2, (Option.some.inj h).symm⟩
  · exact .inr ⟨fun hcond => hnum hcond.1, (Option.some.inj h).symm⟩

end State

namespace World

variable {cs : Configs} {w w' : World} {a : Action} {g : Gid} {st st' t : State} {e : Entry}
  {r : WaitChResponse} {s : ShardId} {sh : Shard} {v : ℕ}

/-! ### Leaving -/

/-- The step in which a group lets go of a shard with contents `storage`, for version `v`: that of
    the entry after `pre`. -/
structure LetsGo (w : World) (g : Gid) (s : ShardId) (v : ℕ) (pre : List Entry) (storage : Storage)
    (st st' : State) : Prop where
  performs : ∃ e r config, e.op = .updateConfig config ∧ pre ++ [e] <+: (w.groups g).agreed ∧
    (machine g).replay pre = some st ∧ (machine g).apply st e = some (st', r)
  num : st.num + 1 = v
  before : st.shards s = some { storage := storage, status := .working }
  after : st'.shards s = some { storage := storage, status := .leaving }

namespace Sane

/-- A shard that is `LEAVING` was let go of in this version. -/
theorem left (hw : w.Sane cs) (hv : w.Visits g t) :
    ∀ storage, t.shards s = some { storage := storage, status := .leaving } →
      ∃ pre st st', w.LetsGo g s t.num pre storage st st' := by
  refine Machine.visits_induction (m := machine g)
    (I := fun t => ∀ storage, t.shards s = some { storage := storage, status := .leaving } →
      ∃ pre st st', w.LetsGo g s t.num pre storage st st') (fun _ h => by cases h) ?_ hv
  intro st e st' r hp ih storage hsh
  have hturns := hw.turns hp s
  generalize hop : e.op = op at hturns
  cases hturns with
  | keep hprev hcurr hshard =>
    rcases hshard with heq | ⟨hserves, hstatus⟩
    · rw [State.num_of_keep hcurr]
      exact ih storage (heq ▸ hsh)
    · -- a shard that is served is not leaving
      rw [State.status, hsh] at hstatus
      rw [State.serves, ← hstatus] at hserves
      exact absurd hserves (by simp)
  | @update config hnum hall hnew =>
    generalize heq : ({ storage := storage, status := .leaving } : Shard) = sh at hsh
    cases hnew sh hsh with
    | first | pulling => cases heq
    | @leaving sh hother hst =>
      obtain rfl : storage = sh.storage := congrArg Shard.storage heq
      obtain ⟨pre, hpre, hst', happly⟩ := hp
      refine ⟨pre, st, _, ⟨e, r, config, hop, hpre, hst', happly⟩, hnum, ?_, ?_⟩
      · rw [hst, ← hall s sh hst]
      · rw [heq]
        exact hsh
    | kept hmine hst =>
      exact absurd ((congrArg Shard.status heq).trans (hall s _ hst)) (by simp)
  | pull | leave | done =>
    rw [State.setShard_self] at hsh
    cases hsh

end Sane

/-! ### Arriving -/

/-- The group has asked for the shard in this version, and the previous owner has sent it. -/
def Sent (w : World) (g : Gid) (st : State) (s : ShardId) : Prop :=
  (∃ t, w.Visits g t ∧ t.num = st.num ∧ t.status s = some .pulling) ∧
    ∃ storage, ⟨st.prevConfig.shards s, s, st.num, storage⟩ ∈ w.pulled

/-- The shard was there before this version, or this is the first one. -/
def Inherited (w : World) (g : Gid) (st : State) (s : ShardId) : Prop :=
  st.num = 1 ∨ ∃ t, w.Visits g t ∧ t.num + 1 = st.num ∧ t.status s = some .working

namespace Sane

/-- Where a shard that is served comes from. -/
theorem obtained (hw : w.Sane cs) (hv : w.Visits g t) :
    ∀ s, (t.status s = some .waiting → w.Sent g t s) ∧
      (t.status s = some .working → w.Inherited g t s ∨ w.Sent g t s) := by
  refine Machine.visits_induction (m := machine g)
    (I := fun t => ∀ s, (t.status s = some .waiting → w.Sent g t s) ∧
      (t.status s = some .working → w.Inherited g t s ∨ w.Sent g t s))
    (fun _ => ⟨fun h => (by cases h), fun h => by cases h⟩) ?_ hv
  intro st e st' r hp ih s
  have hturns := hw.turns hp s
  generalize hop : e.op = op at hturns
  cases hturns with
  | keep hprev hcurr hshard =>
    rw [State.status_of_keep hshard, Inherited, Sent, State.num_of_keep hcurr, hprev]
    exact ih s
  | @update config hnum hall hnew =>
    have hinherited (sh : Shard) (hsh : State.updateShards g config st.shards s = some sh) :
        (sh.status = .working → w.Inherited g
          { st with
            prevConfig := st.currConfig
            currConfig := config
            shards := State.updateShards g config st.shards } s) ∧ sh.status ≠ .waiting := by
      cases hnew sh hsh with
      | first hone => exact ⟨fun _ => .inl hone, by simp⟩
      | pulling => exact ⟨fun h => (by cases h), by simp⟩
      | leaving => exact ⟨fun h => (by cases h), by simp⟩
      | kept hmine hst =>
        have hworking := hall s sh hst
        refine ⟨fun _ => .inr ⟨st, Machine.Performs.visits hp, hnum, ?_⟩, by rw [hworking]; simp⟩
        rw [State.status, hst, Option.map_some, hworking]
    constructor
    · intro hstatus
      obtain ⟨sh, hsh, hwaiting⟩ := Option.map_eq_some_iff.mp hstatus
      exact absurd hwaiting (hinherited sh hsh).2
    · intro hstatus
      obtain ⟨sh, hsh, hworking⟩ := Option.map_eq_some_iff.mp hstatus
      exact .inl ((hinherited sh hsh).1 hworking)
  | @pull storage =>
    -- the entry was started with the reply of the previous owner
    have hjust := hw.justified hp
    rw [Justified, hop] at hjust
    obtain ⟨-, st₀, hv₀, hnum, hstatus, hpulled⟩ := hjust
    have hprev : st₀.prevConfig = st.prevConfig := by
      rcases Visits.evolves hv₀ (Machine.Performs.visits hp) with hle | hle
      · exact (hle.configs hnum).symm
      · exact hle.configs hnum.symm
    rw [hprev] at hpulled
    rw [State.status_setShard_self]
    exact ⟨fun _ => ⟨⟨st₀, hv₀, hnum, hstatus⟩, storage, hpulled⟩, fun h => by cases h⟩
  | leave =>
    rw [State.status_setShard_self]
    exact ⟨fun h => (by cases h), fun h => by cases h⟩
  | done hwaiting =>
    rw [State.status_setShard_self]
    exact ⟨fun h => (by cases h), fun _ => .inr ((ih s).1 hwaiting)⟩

/-- A group that asks for a shard did not have it in the version before. -/
theorem asked (hw : w.Sane cs) (hv : w.Visits g t) :
    ∀ s, t.status s = some .pulling ∨ t.status s = some .waiting →
      1 < t.num ∧ ∃ st, w.Visits g st ∧ st.num + 1 = t.num ∧ st.shards s = none := by
  refine Machine.visits_induction (m := machine g)
    (I := fun t => ∀ s, t.status s = some .pulling ∨ t.status s = some .waiting →
      1 < t.num ∧ ∃ st, w.Visits g st ∧ st.num + 1 = t.num ∧ st.shards s = none)
    (fun _ h => absurd h (by simp [machine, State.initial, State.status])) ?_ hv
  intro st e st' r hp ih s hstatus
  have hturns := hw.turns hp s
  generalize hop : e.op = op at hturns
  cases hturns with
  | keep hprev hcurr hshard =>
    rw [State.status_of_keep hshard] at hstatus
    rw [State.num_of_keep hcurr]
    exact ih s hstatus
  | @update config hnum hall hnew =>
    obtain ⟨sh, hsh, hs⟩ := State.exists_shard_of_status hstatus
    cases hnew sh hsh with
    | first | leaving => exact absurd hs (by simp)
    | kept hmine hst =>
      rw [hall s sh hst] at hs
      exact absurd hs (by simp)
    | pulling hlater hmine hnone =>
      exact ⟨show 1 < config.num by omega, st, Machine.Performs.visits hp, hnum, hnone⟩
  | pull hpulling => exact ih s (.inl hpulling)
  | leave | done =>
    rw [State.status_setShard_self] at hstatus
    exact absurd hstatus (by simp)

/-- Who asks a group to delete a shard. -/
theorem wanted (hw : w.Sane cs) (h : ⟨g, s, v⟩ ∈ w.leaves) :
    ∃ b t, w.Visits b t ∧ t.num = v ∧ t.status s = some .waiting ∧ t.prevConfig.shards s = g :=
  hw.leaves _ h

/-- Who asks a group to delete a shard has got it from the group, in the version of the request. -/
theorem requested (hw : w.Sane cs) (h : ⟨g, s, v⟩ ∈ w.leaves) : ∃ t, w.Visits g t ∧ t.num = v := by
  obtain ⟨b, st, hv, hnum, hwaiting, hprev⟩ := hw.wanted h
  obtain ⟨-, storage, hsent⟩ := (hw.obtained hv s).1 hwaiting
  rw [hprev] at hsent
  obtain ⟨t, sh, ht, htnum, -⟩ := hw.pulled _ hsent
  exact ⟨t, ht, htnum.trans hnum⟩

end Sane

/-! ### The handover -/

/-- The entry after `pre` is the one with which a group takes over a shard for version `v`. -/
structure TakesOver (w : World) (g : Gid) (s : ShardId) (v : ℕ) (pre : List Entry) : Prop where
  agrees : ∃ e storage, pre ++ [e] <+: (w.groups g).agreed ∧ e.op = .pullShard s v storage
  before : ∃ st, (machine g).replay pre = some st ∧ st.num = v ∧ st.status s = some .pulling

/-- After a group has taken over a shard, it does not do so again in the version. -/
theorem TakesOver.length_le {pre pre' : List Entry} (h : w.TakesOver g s v pre)
    (h' : w.TakesOver g s v pre') : pre.length ≤ pre'.length := by
  obtain ⟨e, storage, hpre, -⟩ := h.agrees
  obtain ⟨e', storage', hpre', hop⟩ := h'.agrees
  obtain ⟨st, hst, hnum, hpulling⟩ := h.before
  obtain ⟨st', hst', hnum', hpulling'⟩ := h'.before
  by_contra hlt
  have hlate : pre' ++ [e'] <+: pre := List.prefix_of_prefix_length_le hpre'
    ((List.prefix_append _ _).trans hpre) (by rw [List.length_append]; exact Nat.not_le.mp hlt)
  obtain ⟨t, ht⟩ := Machine.replay_of_isPrefix hlate hst
  obtain ⟨u, r, hu, happly⟩ := Machine.apply_of_replay_concat ht
  obtain rfl : u = st' := Option.some.inj (hu.symm.trans hst')
  have hev := State.evolves_of_isPrefix hlate ht hst
  -- the shard is not asked for any more
  have happly : u.applyOp g e'.op = some (t, r) := happly
  rw [hop] at happly
  obtain ⟨t', ht', heq⟩ := Option.map_eq_some_iff.mp happly
  obtain rfl : t' = t := congrArg Prod.fst heq
  rcases State.applyPullShard_spec ht' with ⟨-, rfl⟩ | ⟨hcond, -⟩
  · have hstill := hev.pulling (hnum'.trans hnum.symm) s hpulling
    rw [State.status_setShard_self] at hstill
    cases hstill
  · exact hcond ⟨hnum', hpulling'⟩

/-- A group takes over a shard once in a version. -/
theorem TakesOver.unique {pre pre' : List Entry} (h : w.TakesOver g s v pre)
    (h' : w.TakesOver g s v pre') : pre = pre' := by
  obtain ⟨e, storage, hpre, -⟩ := h.agrees
  obtain ⟨e', storage', hpre', -⟩ := h'.agrees
  have hle : pre <+: pre' := List.prefix_of_prefix_length_le ((List.prefix_append _ _).trans hpre)
    ((List.prefix_append _ _).trans hpre') (h.length_le h')
  exact hle.eq_of_length (le_antisymm hle.length_le (h'.length_le h))

section

variable {pre : List Entry} {storage : Storage} (h : w.LetsGo g s v pre storage st st')

include h

end

theorem Justified.cause (h : w.Justified cs g e) (hcause : e.cause = some (s, v)) :
    ∃ u, e.op = .leaveShard s u ∧ ⟨g, s, v⟩ ∈ w.leaves := by
  have hnone (hcause' : e.cause = none) : ∃ u, e.op = .leaveShard s u ∧ ⟨g, s, v⟩ ∈ w.leaves :=
    absurd (hcause'.symm.trans hcause) (by simp)
  unfold Justified at h
  split at h
  · exact hnone h
  · exact hnone h
  · exact hnone h
  · exact hnone h.1
  · exact hnone h.1
  · rename_i s' u hop
    obtain ⟨v', hcause', hleaves, -⟩ := h
    obtain ⟨rfl, rfl⟩ := Prod.mk.inj (Option.some.inj (hcause'.symm.trans hcause))
    exact ⟨u, hop, hleaves⟩
  · exact hnone h.1

/-- The group after a step: as before, or after a step of one of its servers. -/
theorem Moves.group (h : w.Moves cs a w') (g : Gid) :
    w'.groups g = w.groups g ∨ ∃ s x, w.act g s x = some (w'.groups g) ∧
      (x = .apply → a = .internal g s .apply) := by
  cases h with
  | @starts _ g' s x e c hact hkind =>
    rcases eq_or_ne g g' with rfl | hne
    · rw [setGroup_self]
      refine .inr ⟨s, x, hact, fun hx => ?_⟩
      subst hx
      exact absurd hkind (by simp)
    · exact .inl (setGroup_of_ne _ _ hne)
  | @internal g' s x c hact =>
    rcases eq_or_ne g g' with rfl | hne
    · refine .inr ⟨s, x, ?_, fun hx => hx ▸ rfl⟩
      rw [setGroup_self]
      exact hact
    · exact .inl (setGroup_of_ne _ _ hne)
  | asks | gives | wants => exact .inl rfl

/-- A step that the log of a group leads through after a step of the world: it did so before, or
    it is the first server to apply the entry. -/
theorem Sane.performs_step (hw : w.Sane cs) (h : w.Moves cs a w') (hp : w'.Performs g st e st' r) :
    w.Performs g st e st' r ∨ e ∈ (w.groups g).started ∧
      (machine g).replay (w.groups g).agreed = some st ∧ ∃ s, a = .internal g s .apply := by
  obtain ⟨pre, hpre, hst, happly⟩ := hp
  rcases h.group g with hsame | ⟨s, x, hact, hx⟩
  · rw [hsame] at hpre
    exact .inl ⟨pre, hpre, hst, happly⟩
  · rcases (hw.sound g).concat_isPrefix hact hpre with hold | ⟨rfl, hstarted, happlies, -⟩
    · exact .inl ⟨pre, hold, hst, happly⟩
    · exact .inr ⟨hstarted, hst, s, hx happlies⟩

/-- The log of a group has come to the version of a `Leave` request before the entry for it. -/
def Ordered (w : World) : Prop :=
  ∀ g st e st' r s v, w.Performs g st e st' r → e.cause = some (s, v) → v ≤ st.num

theorem Ordered.init : World.init.Ordered := by
  intro g st e st' r s v hp
  exact absurd (Machine.Performs.mem hp) List.not_mem_nil

/-- **Order, step.** -/
theorem Ordered.step (ho : w.Ordered) (hw : w.Sane cs) (h : w.step cs a = some w') :
    w'.Ordered := by
  intro g st e st' r s v hp hcause
  rcases hw.performs_step (moves_of_step hw h) hp with hold | ⟨hstarted, hst, -⟩
  · exact ho g st e st' r s v hold hcause
  · obtain ⟨u, -, hleaves⟩ := (hw.started g e hstarted).cause hcause
    obtain ⟨t, ⟨pre, hpre, ht⟩, rfl⟩ := hw.requested hleaves
    exact (State.evolves_of_isPrefix hpre ht hst).le

/-- **Order, run.** -/
theorem Reachable.ordered {ok : World → Action → Prop} (hr : Reachable cs ok w) : w.Ordered :=
  (Run.invariant (I := fun w => w.Sane cs ∧ w.Ordered)
    (fun _ _ _ hw _ hstep => ⟨hw.1.step hstep, hw.2.step hw.1 hstep⟩) hr ⟨.init, .init⟩).2

end World

end MitDistributed.ShardKV
