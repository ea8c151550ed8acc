import MitDistributed.ShardKV.Handoff

namespace MitDistributed.ShardKV

open Rsm ShardCtrler Transition

/-!
# Sharded store — `Leave` requests

`Leave` starts a `LEAVE_SHARD` with the version of the replica that serves it, not with that of
the request.  The operation deletes the shard if the group is still at this version when it is
applied.  So a request that comes late, when the shard has returned to the group, deletes it
again; and one that a lagging replica serves is answered `OK` and deletes nothing.

* `leave_removes_leaving` — if no replica beyond the version of the request serves it, only shards
  that are `LEAVING` for this version are deleted; `late_leave_removes_working` otherwise.
* `leave_ok_means_deleted` — if no replica behind the version of the request serves it, and no
  handler loses its entry, then a shard is deleted when `Leave` is answered `OK`;
  `lagging_leave_strands` otherwise.
-/

namespace World

variable {cs : Configs} {w w' : World} {a : Action} {g : Gid} {st st' t : State} {e : Entry}
  {r : WaitChResponse} {s : ShardId} {u v : ℕ} {R : ℕ → ℕ → Prop}

/-- A replica serves a `Leave` request only if its version and that of the request are in relation
    `R`. -/
def ServesLeave (R : ℕ → ℕ → Prop) (w : World) : Action → Prop
  | .leave g s i => ∀ x ∈ w.leaves[i]?, R (w.state g s).num x.version
  | _ => True

instance [DecidableRel R] (w : World) (a : Action) : Decidable (w.ServesLeave R a) := by
  unfold ServesLeave
  split <;> infer_instance

/-- The versions of the entries for `Leave` requests, and those of the requests. -/
def Stamped (R : ℕ → ℕ → Prop) (w : World) : Prop :=
  ∀ g, ∀ e ∈ (w.groups g).started, ∀ s u v, e.op = .leaveShard s u → e.cause = some (s, v) → R u v

/-- An entry that was started after a step of the world: it was so before, or the step is `Leave`
    if it is for a `Leave` request. -/
theorem Sane.started_step (hw : w.Sane cs) (h : w.Moves cs a w') (he : e ∈ (w'.groups g).started) :
    e ∈ (w.groups g).started ∨ ∀ s u v, e.op = .leaveShard s u → e.cause = some (s, v) →
      ∃ i j, a = .leave g i j ∧ (w.state g i).num = u ∧ w.leaves[j]? = some ⟨g, s, v⟩ := by
  cases h with
  | @starts _ g' i x e' c hact hkind hjust hleave =>
    rcases eq_or_ne g g' with rfl | hne
    · rw [setGroup_self, ((hw.sound g).agrees hact).2] at he
      rcases List.mem_append.mp he with hold | hnew
      · exact .inl hold
      · refine .inr fun s u v hop hcause => ?_
        obtain rfl : e = e' := by
          rcases hkind with rfl | rfl | rfl <;> exact List.mem_singleton.mp hnew
        obtain ⟨j, ha, hnum, hj⟩ := hleave s u v hop hcause
        exact ⟨i, j, ha, hnum, hj⟩
    · rw [setGroup_of_ne _ _ hne] at he
      exact .inl he
  | @internal g' i x c hact hint =>
    refine .inl ?_
    rcases eq_or_ne g g' with rfl | hne
    · rw [setGroup_self, ((hw.sound g).agrees hact).2, hint, List.append_nil] at he
      exact he
    · rw [setGroup_of_ne _ _ hne] at he
      exact he
  | asks | gives | wants => exact .inl he

theorem Stamped.init : World.init.Stamped R :=
  fun _ _ he => absurd he List.not_mem_nil

/-- **Versions of entries, step.** -/
theorem Stamped.step (hstamped : w.Stamped R) (hw : w.Sane cs) (hok : w.ServesLeave R a)
    (h : w.step cs a = some w') : w'.Stamped R := by
  intro g e he s u v hop hcause
  rcases hw.started_step (moves_of_step hw h) he with hold | hnew
  · exact hstamped g e hold s u v hop hcause
  · obtain ⟨i, j, rfl, rfl, hj⟩ := hnew s u v hop hcause
    exact hok _ hj

/-- **Versions of entries, run.** -/
theorem Reachable.stamped (hr : Reachable cs (ServesLeave R) w) : w.Stamped R :=
  (Run.invariant (I := fun w => w.Sane cs ∧ w.Stamped R)
    (fun _ _ _ hw hok hstep => ⟨hw.1.step hstep, hw.2.step hw.1 hok hstep⟩) hr ⟨.init, .init⟩).2

/-! ### Late requests -/

/-- Whose shards are where, in version `n`: an owner has its shard, and one that gets it in this
    version was not the owner before. -/
structure Placed (cs : Configs) (w : World) (n : ℕ) : Prop where
  has : ∀ g st s, w.Visits g st → st.num = n → 0 < n → cs.owner n s = g → st.shards s ≠ none
  gets : ∀ g st s, w.Visits g st → st.num = n →
    st.status s = some .pulling ∨ st.status s = some .waiting →
      1 < n ∧ cs.owner (n - 1) s ≠ g

/-- How a shard can be deleted, if the entries for `Leave` requests have at most the version of the
    request. -/
theorem Sane.deletes (hw : w.Sane cs) (ho : w.Ordered) (hstamped : w.Stamped (· ≤ ·))
    (hgets : ∀ g t s, w.Visits g t → t.num = st.num →
      t.status s = some .pulling ∨ t.status s = some .waiting →
        1 < st.num ∧ cs.owner (st.num - 1) s ≠ g)
    (hp : w.Performs g st e st' r) (hop : e.op = .leaveShard s st.num) :
    e.cause = some (s, st.num) ∧ 0 < st.num ∧ cs.owner st.num s ≠ g := by
  have hjust := hw.justified hp
  rw [Justified, hop] at hjust
  obtain ⟨v, hcause, hleaves, -⟩ := hjust
  -- the version of the request is that of the state
  have hle := ho g st e st' r s v hp hcause
  have hge := hstamped g e ((hw.sound g).agreed e (Machine.Performs.mem hp)) s _ v hop hcause
  obtain rfl : v = st.num := le_antisymm hle hge
  obtain ⟨b, t, ht, htnum, hwaiting, hprev⟩ := hw.wanted hleaves
  obtain ⟨hone, hne⟩ := hgets b t s ht htnum (.inr hwaiting)
  -- who asks is the owner, and was not before
  have hconf := hw.configured ht
  obtain ⟨sh, hsh, hstatus⟩ := Option.map_eq_some_iff.mp hwaiting
  have hb : cs.owner st.num s = b := by
    rw [← htnum]
    exact (hw.owner ht hsh (by rw [hstatus]; simp)).2
  have hg : cs.owner (st.num - 1) s = g := by
    rw [← hprev, hconf.prev (by omega), htnum, Configs.owner]
  refine ⟨hcause, by omega, ?_⟩
  rw [hb, ← hg]
  exact fun heq => hne heq.symm

/-- What an update has to start from: every owner in the version before has its shard. -/
theorem Sane.gets_of_has (hw : w.Sane cs) {n : ℕ}
    (hhas : ∀ g st s, w.Visits g st → st.num = n → 0 < n → cs.owner n s = g → st.shards s ≠ none)
    (hv : w.Visits g t) (hnum : t.num = n + 1)
    (hstatus : t.status s = some .pulling ∨ t.status s = some .waiting) :
    1 < t.num ∧ cs.owner n s ≠ g := by
  obtain ⟨hone, st, hst, hstnum, hnone⟩ := hw.asked hv s hstatus
  exact ⟨hone, fun howner => hhas g st s hst (by omega) (by omega) howner hnone⟩

/-- An owner keeps its shard through the version. -/
theorem Sane.has_of_gets (hw : w.Sane cs) (ho : w.Ordered) (hstamped : w.Stamped (· ≤ ·)) {n : ℕ}
    (hgets : ∀ g t s, w.Visits g t → t.num = n →
      t.status s = some .pulling ∨ t.status s = some .waiting → 1 < n ∧ cs.owner (n - 1) s ≠ g)
    (hn : 0 < n) (howner : cs.owner n s = g) (hv : w.Visits g t) :
    t.num = n → t.shards s ≠ none := by
  refine Machine.visits_induction (m := machine g) (I := fun t => t.num = n → t.shards s ≠ none)
    (fun h => absurd h hn.ne) ?_ hv
  intro st e st' r hp ih hnum
  have hturns := hw.turns hp s
  generalize hop : e.op = op at hturns
  cases hturns with
  | keep hprev hcurr hshard =>
    have hsame := State.num_of_keep hcurr
    have hstatus := State.status_of_keep hshard
    intro hnone
    rw [State.status, hnone, State.status] at hstatus
    exact ih (hsame ▸ hnum) (Option.map_eq_none_iff.mp hstatus.symm)
  | @update config =>
    have hmine : config.shards s = g := by
      have hjust := hw.justified hp
      rw [Justified, hop] at hjust
      have hnum : config.num = n := hnum
      rw [hjust.2.1, hnum]
      exact howner
    exact fun hnone => (State.updateShards_eq_none_iff.mp hnone).2 hmine
  | pull | done =>
    rw [State.setShard_self]
    simp
  | leave =>
    obtain rfl : st.num = n := hnum
    exact absurd howner (hw.deletes ho hstamped hgets hp hop).2.2

/-- **Whose shards are where.** -/
theorem Sane.placed (hw : w.Sane cs) (ho : w.Ordered) (hstamped : w.Stamped (· ≤ ·)) (n : ℕ) :
    w.Placed cs n := by
  induction n with
  | zero =>
    refine ⟨fun _ _ _ _ _ h => absurd h (lt_irrefl 0), fun g st s hv hnum hstatus => ?_⟩
    have hnone := (hw.configured hv).none hnum s
    rw [State.status, hnone] at hstatus
    exact absurd hstatus (by simp)
  | succ n ih =>
    have hgets : ∀ g t s, w.Visits g t → t.num = n + 1 →
        t.status s = some .pulling ∨ t.status s = some .waiting →
          1 < n + 1 ∧ cs.owner (n + 1 - 1) s ≠ g := by
      intro g t s hv hnum hstatus
      have h := hw.gets_of_has ih.has hv hnum hstatus
      rw [hnum] at h
      exact h
    refine ⟨fun g st s hv hnum hpos howner => ?_, hgets⟩
    exact hw.has_of_gets ho hstamped hgets hpos howner hv hnum

/-- The operation that deletes a shard. -/
theorem op_of_deletes (h : st.Turns g s e.op st') (hsome : st.shards s ≠ none)
    (hnone : st'.shards s = none) : e.op = .leaveShard s st.num := by
  generalize e.op = op at h
  cases h with
  | keep hprev hcurr hshard =>
    have hstatus := State.status_of_keep hshard
    rw [State.status, hnone, State.status] at hstatus
    exact absurd (Option.map_eq_none_iff.mp hstatus.symm) hsome
  | update => exact absurd (State.updateShards_eq_none_iff.mp hnone).1 hsome
  | pull | done =>
    rw [State.setShard_self] at hnone
    cases hnone
  | leave => rfl

end World

/-- **No live data is deleted.** If no replica beyond the version of a `Leave` request serves it, a
    group deletes a shard only on behalf of `Leave(s, v)`, at version `v`, and while the shard is
    `LEAVING`. -/
theorem leave_removes_leaving {cs : Configs} {w : World}
    (hr : World.Reachable cs (World.ServesLeave (· ≤ ·)) w) {g : Gid} {st st' : State} {e : Entry}
    {r : WaitChResponse} (hp : w.Performs g st e st' r) {s : ShardId} (hsome : st.shards s ≠ none)
    (hnone : st'.shards s = none) :
    e.cause = some (s, st.num) ∧ st.status s = some .leaving := by
  have hw := hr.sane
  have hop := World.op_of_deletes (hw.turns hp s) hsome hnone
  have hplaced := hw.placed hr.ordered hr.stamped st.num
  obtain ⟨hcause, hpos, howner⟩ := hw.deletes hr.ordered hr.stamped hplaced.gets hp hop
  have hv := Machine.Performs.visits hp
  obtain ⟨sh, hsh⟩ := Option.ne_none_iff_exists'.mp hsome
  have hother : st.currConfig.shards s ≠ g := by
    rw [(hw.configured hv).curr hpos]
    exact howner
  rw [State.status, hsh, Option.map_some, (hw.coherent hv s sh hsh).mpr hother]
  exact ⟨hcause, rfl⟩

/-- Group 2 has got shard 0 from group 1, which deletes it. -/
def twoTakesOver : List Action :=
  fetchNext 1 ++ fetchNext 2 ++ fetchNext 1 ++ fetchNext 2 ++ pullNext 2 1 0 ++
    [Action.askLeave 2 0 shardZero, .leave 1 0 0] ++ applyNext 1 0

theorem leave_removes_leaving_twoTakesOver :
    ∃ w, World.Reachable oneToTwo (World.ServesLeave (· ≤ ·)) w ∧
      ∃ st e st' r, w.Performs 1 st e st' r ∧ st.shards shardZero ≠ none ∧
        st'.shards shardZero = none ∧ st.num = 2 ∧ e.cause = some (shardZero, st.num) ∧
          st.status shardZero = some .leaving := by
  obtain ⟨w, hr, hlast⟩ := exists_run_of_execOk (World.step oneToTwo) (World.ServesLeave (· ≤ ·))
    World.init twoTakesOver
    (fun w => ((machine 1).last? (w.groups 1).agreed).any fun x =>
      x.1.shards shardZero ≠ none ∧ x.2.2.1.shards shardZero = none ∧ x.1.num = 2)
    (by decide +kernel)
  obtain ⟨⟨st, e, st', r⟩, hx, hfacts⟩ := (Option.any_eq_true _ _).mp hlast
  obtain ⟨hsome, hnone, hnum⟩ := of_decide_eq_true hfacts
  have hp := Machine.performs_of_last? hx
  exact ⟨w, hr, st, e, st', r, hp, hsome, hnone, hnum, leave_removes_leaving hr hp hsome hnone⟩

/-- Shard 0 goes from group 1 to group 2 and back. -/
def thereAndBack : Configs := oneShard fun v => if v = 2 then 2 else 1

/-- Group 2 has sent two `Leave` requests for version 2.  The first is delayed until group 1 has
    the shard again, in version 3. -/
def lateLeave : List Action :=
  fetchNext 1 ++ fetchNext 2 ++ fetchNext 1 ++ fetchNext 2 ++ pullNext 2 1 0 ++
    [Action.askLeave 2 0 shardZero] ++ leaveNext 2 1 1 0 ++
    fetchNext 1 ++ fetchNext 2 ++ pullNext 1 2 1 ++ leaveNext 1 2 2 0 ++
    [Action.leave 1 0 0] ++ applyNext 1 0

/-- A late `Leave` request for version 2 deletes a shard that is `WORKING` in version 3. -/
theorem late_leave_removes_working :
    ∃ w, World.Reachable thereAndBack (fun _ _ => True) w ∧
      ∃ st e st' r, w.Performs 1 st e st' r ∧ e.cause = some (shardZero, 2) ∧ st.num = 3 ∧
        st.status shardZero = some .working ∧ st'.shards shardZero = none := by
  obtain ⟨w, hr, hlast⟩ := exists_run_of_execOk (World.step thereAndBack) (fun _ _ => True)
    World.init lateLeave
    (fun w => ((machine 1).last? (w.groups 1).agreed).any fun x =>
      x.2.1.cause = some (shardZero, 2) ∧ x.1.num = 3 ∧ x.1.status shardZero = some .working ∧
        x.2.2.1.shards shardZero = none)
    (by decide +kernel)
  obtain ⟨⟨st, e, st', r⟩, hx, hfacts⟩ := (Option.any_eq_true _ _).mp hlast
  exact ⟨w, hr, st, e, st', r, Machine.performs_of_last? hx, of_decide_eq_true hfacts⟩

/-! ### Lagging replicas -/

namespace World

variable {cs : Configs} {w w' : World} {a : Action} {g : Gid} {st st' t : State} {e : Entry}
  {r : WaitChResponse} {s : ShardId} {u v : ℕ}

/-- Consensus takes no entry away from a handler that waits for it to be applied. -/
def KeepsWaiting (w : World) : Action → Prop
  | .internal g s x => ((w.groups g).servers s).KeepsWaiting x
  | _ => True

instance (w : World) (a : Action) : Decidable (w.KeepsWaiting a) := by
  unfold KeepsWaiting
  split <;> infer_instance

/-- The replicated state of a group. -/
def Full (w : World) (g : Gid) (st : State) : Prop :=
  (machine g).replay (w.groups g).agreed = some st

/-- Replies are to the handlers' own entries, in every group. -/
def Kept (w : World) : Prop := ∀ g, (w.groups g).Kept

theorem Kept.setGroup (hkept : w.Kept) (hw : w.Sane cs) {i : ℕ} {x : Act Entry}
    {c : Cluster State Entry WaitChResponse} (hact : w.act g i x = some c)
    (hkeeps : ((w.groups g).servers i).KeepsWaiting x) (h : Gid) :
    ((w.setGroup g c).groups h).Kept := by
  rcases eq_or_ne h g with rfl | hne
  · rw [setGroup_self]
    exact (hkept h).step (hw.sound h) hkeeps hact
  · rw [setGroup_of_ne _ _ hne]
    exact hkept h

/-- **Own entries, step.** -/
theorem Kept.step (hkept : w.Kept) (hw : w.Sane cs) (hok : w.KeepsWaiting a)
    (h : w.step cs a = some w') : w'.Kept := by
  intro g
  cases moves_of_step hw h with
  | starts hact hkind =>
    refine hkept.setGroup hw hact ?_ g
    rcases hkind with rfl | rfl | rfl <;> exact trivial
  | internal hact => exact hkept.setGroup hw hact hok g
  | asks | gives | wants => exact hkept g

/-- Every state that a group goes through comes before its replicated state. -/
theorem Visits.evolves_full (hv : w.Visits g t) (hfull : w.Full g st) : t.Evolves st := by
  obtain ⟨pre, hpre, ht⟩ := hv
  exact State.evolves_of_isPrefix hpre ht hfull

/-- The group has reached version `v`, and the shard is not `LEAVING` for this version. -/
def Gone (s : ShardId) (v : ℕ) (st : State) : Prop :=
  v ≤ st.num ∧ (st.status s = some .leaving → v < st.num)

theorem Gone.evolves (h : Gone s v st) (hle : st.Evolves t) : Gone s v t := by
  refine ⟨h.1.trans hle.le, fun hleaving => ?_⟩
  by_contra hnot
  -- in the same version the shard was `LEAVING` before
  have hsame : st.num = t.num := le_antisymm hle.le (le_trans (not_lt.mp hnot) h.1)
  obtain ⟨sh, hsh, hl⟩ := Option.map_eq_some_iff.mp hleaving
  have hsh' := hle.leaving hsame s sh hsh hl
  have hlt := h.2 (by rw [State.status, hsh', Option.map_some, hl])
  omega

/-- What a `LEAVE_SHARD` that is answered `OK` has done. -/
theorem gone_of_applyOp (h : st.applyOp g (.leaveShard s u) = some (st', r)) (hok : r.err = .ok)
    (hle : v ≤ u) : Gone s v st' := by
  have heq := Option.some.inj h
  unfold State.applyLeaveShard at heq
  split_ifs at heq with hnum hgt
  · obtain rfl : st.setShard s none = st' := congrArg Prod.fst heq
    refine ⟨by rw [← hnum] at hle; exact hle, fun hl => ?_⟩
    rw [State.status_setShard_self] at hl
    cases hl
  · obtain rfl : st = st' := congrArg Prod.fst heq
    exact ⟨by omega, fun _ => by omega⟩
  · obtain rfl : WaitChResponse.only .configVersion = r := congrArg Prod.snd heq
    cases hok

/-- What an `OK` to `Leave` says about the replicated state. -/
theorem Sane.gone (hw : w.Sane cs) (hkept : w.Kept) (hstamped : w.Stamped fun u v => v ≤ u)
    {y : Answer Entry WaitChResponse} (hy : y ∈ (w.groups g).answers)
    (hcause : y.op.cause = some (s, v)) (hreply : y.reply = some r) (hok : r.err = .ok)
    (hfull : w.Full g st) : Gone s v st := by
  have hat := (hkept g).answers y hy r hreply
  obtain ⟨t, e, t', ht, hget, happly⟩ :=
    Machine.performs_of_responseAt ((hw.sound g).answers y hy r hreply)
  obtain rfl : y.op = e := Option.some.inj (hat.symm.trans hget)
  have hstarted := (hw.sound g).agreed y.op (List.mem_of_getElem? hat)
  obtain ⟨u, hop, -⟩ := (hw.started g y.op hstarted).cause hcause
  have hle : v ≤ u := hstamped g y.op hstarted s u v hop hcause
  have hv : w.Visits g t' := by
    refine ⟨(w.groups g).agreed.take (y.pos + 1), List.take_prefix _ _, ?_⟩
    rw [List.take_add_one, hget]
    exact Machine.replay_concat ht happly
  have happly : t.applyOp g y.op.op = some (t', r) := happly
  rw [hop] at happly
  exact (gone_of_applyOp happly hok hle).evolves (hv.evolves_full hfull)

end World

/-- **`OK` means deleted.** If no replica behind the version of a `Leave` request serves it, and no
    handler loses the entry that it waits for, then the group that answers `OK` to `Leave(s, v)`
    has reached version `v`, and has no copy of `s` that is `LEAVING` for it; and so it is with the
    previous owner whenever the new one has started `TRANSFER_DONE`. -/
theorem leave_ok_means_deleted {cs : Configs} {w : World}
    (hr : World.Reachable cs
      (fun w a => w.ServesLeave (fun u v => v ≤ u) a ∧ w.KeepsWaiting a) w) :
    (∀ g s v st, ∀ y ∈ (w.groups g).answers, y.op.cause = some (s, v) →
      (∃ r, y.reply = some r ∧ r.err = .ok) → w.Full g st →
        v ≤ st.num ∧ (st.status s = some .leaving → v < st.num)) ∧
    ∀ b s v, ∀ e ∈ (w.groups b).started, e.op = .transferDone s v →
      ∃ t, w.Visits b t ∧ t.num = v ∧ ∀ st, w.Full (t.prevConfig.shards s) st →
        v ≤ st.num ∧ (st.status s = some .leaving → v < st.num) := by
  obtain ⟨hw, hstamped, hkept⟩ := Run.invariant
    (I := fun w => w.Sane cs ∧ w.Stamped (fun u v => v ≤ u) ∧ w.Kept)
    (fun _ _ _ hw hok hstep => ⟨hw.1.step hstep, hw.2.1.step hw.1 hok.1 hstep,
      hw.2.2.step hw.1 hok.2 hstep⟩) hr ⟨.init, .init, fun _ => .init⟩
  refine ⟨fun g s v st y hy hcause ⟨r, hreply, hok⟩ hfull => ?_, fun b s v e he hop => ?_⟩
  · exact hw.gone hkept hstamped hy hcause hreply hok hfull
  · have hjust := hw.started b e he
    rw [World.Justified, hop] at hjust
    obtain ⟨-, t, hv, hnum, -, y, hy, hcause, r, hreply, hok⟩ := hjust
    exact ⟨t, hv, hnum, fun st hfull => hw.gone hkept hstamped hy hcause hreply hok hfull⟩

/-- Group 2 has got shard 0, and group 1 has answered `OK` to its `Leave`. -/
def oneAnswers : List Action := twoTakesOver ++ replyNext 1

theorem leave_ok_means_deleted_oneAnswers :
    ∃ w, World.Reachable oneToTwo
        (fun w a => w.ServesLeave (fun u v => v ≤ u) a ∧ w.KeepsWaiting a) w ∧
      ∃ y ∈ (w.groups 1).answers, y.op.cause = some (shardZero, 2) ∧
        (∃ r, y.reply = some r ∧ r.err = .ok) ∧ ∃ st, w.Full 1 st ∧
          2 ≤ st.num ∧ (st.status shardZero = some .leaving → 2 < st.num) := by
  obtain ⟨w, hr, hanswer⟩ := exists_run_of_execOk (World.step oneToTwo)
    (fun w a => w.ServesLeave (fun u v => v ≤ u) a ∧ w.KeepsWaiting a) World.init oneAnswers
    (fun w => ∃ y ∈ (w.groups 1).answers, y.op.cause = some (shardZero, 2) ∧
      y.reply = some (.only .ok))
    (by decide +kernel)
  obtain ⟨y, hy, hcause, hreply⟩ := hanswer
  have hok : ∃ r, y.reply = some r ∧ r.err = .ok := ⟨_, hreply, rfl⟩
  obtain ⟨st, hst⟩ := ((World.Reachable.sane hr).sound 1).replays
  exact ⟨w, hr, y, hy, hcause, hok, st, hst,
    (leave_ok_means_deleted hr).1 1 shardZero 2 st y hy hcause hok hst⟩

/-- Server 1 of group 1 has applied configuration 1, and has configuration 2 in its log, when it
    comes to lead and serves the `Leave` request of group 2. -/
def laggingLeave : List Action :=
  fetchNext 1 ++ [Action.internal 1 1 (.overwrite [configEntry oneToTwo 1])] ++ applyNext 1 1 ++
    fetchNext 1 ++
    [Action.internal 1 1 (.overwrite [configEntry oneToTwo 1, configEntry oneToTwo 2])] ++
    fetchNext 2 ++ fetchNext 2 ++ pullNext 2 1 0 ++
    [Action.askLeave 2 0 shardZero, .leave 1 1 0] ++ applyNext 1 1 ++ applyNext 1 1 ++
    [Action.internal 1 1 (.receive 0), .internal 1 1 (.finish 0), .gotLeft 2 0 shardZero 0] ++
    applyNext 2 0

/-- Group 1 answers `OK` to `Leave` and keeps the shard in status `LEAVING`, while group 2 has come
    to status `WORKING`, so that nobody asks again. -/
theorem lagging_leave_strands :
    ∃ w, World.Reachable oneToTwo (fun w a => w.KeepsWaiting a) w ∧
      (∃ y ∈ (w.groups 1).answers, y.op.cause = some (shardZero, 2) ∧
        y.reply = some (.only .ok)) ∧
      (∃ st, w.Full 1 st ∧ st.num = 2 ∧ st.status shardZero = some .leaving) ∧
      ∃ st, w.Full 2 st ∧ st.num = 2 ∧ st.status shardZero = some .working := by
  obtain ⟨w, hr, hanswer, hone, htwo⟩ := exists_run_of_execOk (World.step oneToTwo)
    (fun w a => w.KeepsWaiting a) World.init laggingLeave
    (fun w => (∃ y ∈ (w.groups 1).answers, y.op.cause = some (shardZero, 2) ∧
        y.reply = some (.only .ok)) ∧
      ((machine 1).replay (w.groups 1).agreed).any (fun st =>
        st.num = 2 ∧ st.status shardZero = some .leaving) ∧
      ((machine 2).replay (w.groups 2).agreed).any fun st =>
        st.num = 2 ∧ st.status shardZero = some .working)
    (by decide +kernel)
  obtain ⟨st₁, hst₁, hfacts₁⟩ := (Option.any_eq_true _ _).mp hone
  obtain ⟨st₂, hst₂, hfacts₂⟩ := (Option.any_eq_true _ _).mp htwo
  exact ⟨w, hr, hanswer, ⟨st₁, hst₁, of_decide_eq_true hfacts₁⟩,
    ⟨st₂, hst₂, of_decide_eq_true hfacts₂⟩⟩

end MitDistributed.ShardKV
