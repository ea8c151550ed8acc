import MitDistributed.ShardKV.Leave

namespace MitDistributed.ShardKV

open Rsm ShardCtrler Transition

/-!
# Sharded store — at most one group serves a shard

A group that serves a shard got it from the previous owner, which served it up to the version
before, and so on back to the first owner.  So when a group serves a shard in version `n`, every
owner in an earlier version has left that version (`World.Sane.passed_on`), and of two groups that
serve the same shard one would be behind the other and not at its own version any more.

The chain breaks at a group that has lost its shard to a late `Leave` request and is the owner in
the next version too: it asks itself for the shard (`served_by_two`).
-/

namespace World

variable {cs : Configs} {w : World} {g h : Gid} {st t : State} {s : ShardId} {n u : ℕ}

/-- **The chain of owners.** When a group serves a shard, every owner in an earlier version has
    left that version. -/
theorem Sane.passed_on (hw : w.Sane cs) (hplaced : ∀ n, w.Placed cs n) (hv : w.Visits g st)
    (hnum : st.num = n) (hserves : st.serves s) (hu : 0 < u) (hlt : u < n) :
    ∃ t, w.Visits (cs.owner u s) t ∧ u < t.num := by
  -- from version to version; the shard was there in the version before, or came from its owner
  induction n generalizing g st with
  | zero => exact absurd hlt (Nat.not_lt_zero u)
  | succ n ih =>
    have hsource : w.Inherited g st s ∨ w.Sent g st s := by
      rcases hserves with hworking | hwaiting
      · exact (hw.obtained hv s).2 hworking
      · exact .inr ((hw.obtained hv s).1 hwaiting)
    rcases hsource with (hone | ⟨t, ht, htnum, hworking⟩) |
      ⟨⟨t₀, ht₀, htnum₀, hpulling⟩, storage, hsent⟩
    · omega
    · have htn : t.num = n := by omega
      obtain ⟨-, howner⟩ := hw.owner_of_serves ht (.inl hworking)
      rcases Nat.lt_succ_iff_lt_or_eq.mp hlt with hlt' | rfl
      · exact ih ht htn (.inl hworking) hlt'
      · rw [← htn, howner]
        exact ⟨st, hv, by omega⟩
    · -- the previous owner is another group, which was `LEAVING` the shard when it sent it
      obtain ⟨-, hother⟩ := (hplaced (n + 1)).gets g t₀ s ht₀ (htnum₀.trans hnum) (.inl hpulling)
      rw [Nat.add_sub_cancel] at hother
      have hsrc : st.prevConfig.shards s = cs.owner n s := by
        rw [(hw.configured hv).prev (by omega), hnum, Nat.add_sub_cancel, Configs.owner]
      rw [hsrc, hnum] at hsent
      obtain ⟨t, sh, ht, htnum, htsh, -⟩ := hw.pulled _ hsent
      have htnum : t.num = n + 1 := htnum
      rcases Nat.lt_succ_iff_lt_or_eq.mp hlt with hlt' | rfl
      · obtain ⟨-, hmine⟩ := hw.owner_of_serves hv hserves
        have hleaving : sh.status = .leaving := by
          refine (hw.coherent ht s sh htsh).mpr ?_
          rw [(hw.configured ht).curr (by omega), htnum, ← hnum]
          show cs.owner st.num s ≠ cs.owner n s
          rw [hmine]
          exact fun heq => hother heq.symm
        obtain ⟨pre, st₀, st₁, hgo⟩ := hw.left ht sh.storage (by rw [htsh, ← hleaving])
        obtain ⟨e, r, config, -, hp⟩ := hgo.performs
        have hnum₀ := hgo.num
        refine ih (Machine.Performs.visits ⟨pre, hp⟩) (by omega) (.inl ?_) hlt'
        rw [State.status, hgo.before, Option.map_some]
      · exact ⟨t, ht, by omega⟩

/-- Of two groups that serve a shard, none is behind the other. -/
theorem Sane.eq_of_serves (hw : w.Sane cs) (hplaced : ∀ n, w.Placed cs n) (hg : w.Full g st)
    (hh : w.Full h t) (hgs : st.serves s) (hhs : t.serves s) (hle : st.num ≤ t.num) : g = h := by
  have hvg : w.Visits g st := Machine.visits_self hg
  have hvh : w.Visits h t := Machine.visits_self hh
  obtain ⟨hpos, hgo⟩ := hw.owner_of_serves hvg hgs
  obtain ⟨-, hho⟩ := hw.owner_of_serves hvh hhs
  rcases Nat.lt_or_eq_of_le hle with hlt | heq
  · obtain ⟨t', ht', hlt'⟩ := hw.passed_on hplaced hvh rfl hhs hpos hlt
    rw [hgo] at ht'
    have hle' := (Visits.evolves_full ht' hg).le
    omega
  · rw [← hgo, ← hho, heq]

theorem Sane.serves_unique (hw : w.Sane cs) (hplaced : ∀ n, w.Placed cs n) (hg : w.Full g st)
    (hh : w.Full h t) (hgs : st.serves s) (hhs : t.serves s) : g = h := by
  rcases le_total st.num t.num with hle | hle
  · exact hw.eq_of_serves hplaced hg hh hgs hhs hle
  · exact (hw.eq_of_serves hplaced hh hg hhs hgs hle).symm

end World

/-- **At most one group serves a shard.** If no replica beyond the version of a `Leave` request
    serves it, the replicated states of two different groups never both have the same shard in
    status `WORKING` or `WAITING`. -/
theorem served_by_one {cs : Configs} {w : World}
    (hr : World.Reachable cs (World.ServesLeave (· ≤ ·)) w) {g h : Gid} (hne : g ≠ h) {st t : State}
    (hg : w.Full g st) (hh : w.Full h t) {s : ShardId} (hgs : st.serves s) :
    ¬ t.serves s :=
  fun hhs => hne (hr.sane.serves_unique (hr.sane.placed hr.ordered hr.stamped) hg hh hgs hhs)

/-- Group 2 serves shard 0 in version 2, and group 1 does not. -/
theorem served_by_one_twoTakesOver :
    ∃ w, World.Reachable oneToTwo (World.ServesLeave (· ≤ ·)) w ∧
      ∃ st t, w.Full 2 st ∧ w.Full 1 t ∧ st.serves shardZero ∧ ¬ t.serves shardZero := by
  obtain ⟨w, hr, htwo⟩ := exists_run_of_execOk (World.step oneToTwo) (World.ServesLeave (· ≤ ·))
    World.init twoTakesOver
    (fun w => ((machine 2).replay (w.groups 2).agreed).any fun st => st.serves shardZero)
    (by decide +kernel)
  obtain ⟨st, hst, hserves⟩ := (Option.any_eq_true _ _).mp htwo
  have hserves := of_decide_eq_true hserves
  obtain ⟨t, ht⟩ := ((World.Reachable.sane hr).sound 1).replays
  exact ⟨w, hr, st, t, hst, ht, hserves, served_by_one hr (by decide) hst ht hserves⟩

/-- A late `Leave` request for version 2 deletes the shard of group 1 in version 3, while group 2
    still serves it in version 2.  In version 4 group 1 asks itself for the shard. -/
def askItself : List Action :=
  fetchNext 1 ++ fetchNext 2 ++ fetchNext 1 ++ fetchNext 2 ++ pullNext 2 1 0 ++
    [Action.askLeave 2 0 shardZero] ++ leaveNext 2 1 1 0 ++
    fetchNext 1 ++ [Action.leave 1 0 0] ++ applyNext 1 0 ++
    fetchNext 1 ++ pullNext 1 1 1

/-- Two groups serve shard 0. -/
theorem served_by_two :
    ∃ w, World.Reachable thereAndBack (fun _ _ => True) w ∧
      (∃ st, w.Full 1 st ∧ st.num = 4 ∧ st.serves shardZero) ∧
      ∃ st, w.Full 2 st ∧ st.num = 2 ∧ st.serves shardZero := by
  obtain ⟨w, hr, hone, htwo⟩ := exists_run_of_execOk (World.step thereAndBack) (fun _ _ => True)
    World.init askItself
    (fun w => ((machine 1).replay (w.groups 1).agreed).any (fun st =>
        st.num = 4 ∧ st.serves shardZero) ∧
      ((machine 2).replay (w.groups 2).agreed).any fun st => st.num = 2 ∧ st.serves shardZero)
    (by decide +kernel)
  obtain ⟨st₁, hst₁, hfacts₁⟩ := (Option.any_eq_true _ _).mp hone
  obtain ⟨st₂, hst₂, hfacts₂⟩ := (Option.any_eq_true _ _).mp htwo
  exact ⟨w, hr, ⟨st₁, hst₁, of_decide_eq_true hfacts₁⟩, ⟨st₂, hst₂, of_decide_eq_true hfacts₂⟩⟩

end MitDistributed.ShardKV
