import MitDistributed.ShardCtrler.Server
import MitDistributed.ShardCtrler.Traversal

namespace MitDistributed.ShardCtrler

open Balance

/-!
# Shard controller — no more transfers than needed

A shard that changes its group has to be handed over, so `rebalanceShard` should move as few as
possible.  The loop of a `JOIN` moves one shard in every round, and every round brings the groups
one shard nearer to some level loads (`Shift.excess_lt`); so it moves no more shards than any other
way to a balanced configuration does.  A `LEAVE` and the first `JOIN` move the shards without a
group, and no others.

`rebalanceShard_transfers` — both, for the function as it runs.
-/

variable {groups : Groups} {gids : List Gid} {t : Table} {P : ShardId → Prop} {shards : Shards}

/-- A round of the loop of a `JOIN` moves at most one shard. -/
theorem hammingDist_moveShard_le (h : t.Splits gids P) (hne : gids ≠ [])
    (hgap : ¬ (maxGroup t gids).2 - (minGroup t gids).2 ≤ 1) (shards : Shards) :
    hammingDist (assignShards gids t shards)
      (assignShards gids (moveShard t (maxGroup t gids).1 (minGroup t gids).1) shards) ≤ 1 := by
  obtain ⟨⟨s, rest, hsrc⟩, hsplit, hshift⟩ := moveShard_spec h hne hgap
  have hsrcMem := List.mem_toFinset.mp hshift.src
  have hsub : (Finset.univ.filter fun x => assignShards gids t shards x ≠
      assignShards gids (moveShard t (maxGroup t gids).1 (minGroup t gids).1) shards x) ⊆ {s} := by
    intro x hx
    by_contra hxs
    rw [Finset.mem_singleton] at hxs
    refine (Finset.mem_filter.mp hx).2
      (assignShards_congr (fun _ => Iff.rfl) h hsplit fun g hg => ?_).symm
    rw [moveShard_eq hshift.ne hsrc, mem_giveShard, h.mem_drop hsrcMem hsrc hg]
    simp [hxs]
  exact (Finset.card_le_card hsub).trans_eq (Finset.card_singleton s)

/-- **The loop of a `JOIN`** moves no more shards than have to leave their groups on the way to
    any level loads. -/
theorem hammingDist_levelShards_le (h : t.Splits gids P) (hne : gids ≠ []) (shards : Shards)
    {b : Gid → ℕ} (hb : Level gids.toFinset b)
    (hsum : ∑ g ∈ gids.toFinset, b g = ∑ g ∈ gids.toFinset, t.sizes g) (fuel : ℕ) :
    hammingDist (assignShards gids t shards) (assignShards gids (levelShards gids fuel t) shards) ≤
      excess gids.toFinset t.sizes b := by
  induction fuel generalizing t b with
  | zero =>
    rw [levelShards, hammingDist_self]
    exact Nat.zero_le _
  | succ fuel ih =>
    rw [levelShards]
    by_cases hgap : (maxGroup t gids).2 - (minGroup t gids).2 ≤ 1
    · rw [if_pos hgap, hammingDist_self]
      exact Nat.zero_le _
    rw [if_neg hgap]
    obtain ⟨-, hsplit, hshift⟩ := moveShard_spec h hne hgap
    obtain ⟨-, hmaxLen, hmax⟩ := maxGroup_spec t hne
    obtain ⟨-, hminLen, hmin⟩ := minGroup_spec t hne fun g hg => h.length_le hg
    obtain ⟨b', hb', hsum', hlt⟩ := hshift.excess_lt
      (fun g hg => (hmax g (List.mem_toFinset.mp hg)).trans_eq hmaxLen)
      (fun g hg => hminLen.symm.trans_le (hmin g (List.mem_toFinset.mp hg))) hb hsum
    have hone := hammingDist_moveShard_le h hne hgap shards
    have hrest := ih hsplit hb' hsum'
    have htri := hammingDist_triangle (assignShards gids t shards)
      (assignShards gids (moveShard t (maxGroup t gids).1 (minGroup t gids).1) shards)
      (assignShards gids
        (levelShards gids fuel (moveShard t (maxGroup t gids).1 (minGroup t gids).1)) shards)
    omega

/-- Writing back the table of the start changes nothing. -/
theorem assignShards_groupToShards (gids : List Gid) (shards : Shards) :
    assignShards gids (groupToShards gids shards) shards = shards := by
  have hsplit := splits_groupToShards gids shards
  funext s
  by_cases hs : shards s ∈ gids
  · exact assignShards_of_mem hsplit.unique hs ((mem_groupToShards hs).mpr rfl)
  · refine assignShards_of_not_mem fun g hg hsg => hs ?_
    rwa [(mem_groupToShards hg).mp hsg]

/-- **A `JOIN` next to other groups** moves no more shards than any other way to a balanced
    configuration. -/
theorem transfers_levelled_le (hne : groups.gids ≠ []) (hall : ∀ s, shards s ∈ groups.gids)
    {other : Shards} (hother : Balanced groups other) :
    hammingDist shards (rebalanceShard groups shards true false) ≤ hammingDist shards other := by
  have hsplit := splits_groupToShards groups.gids shards
  have hsizes : ∀ g ∈ groups.gids.toFinset,
      (groupToShards groups.gids shards).sizes g = count shards g :=
    fun g hg => sizes_groupToShards (List.mem_toFinset.mp hg)
  have hmem {f : Shards} (hf : ∀ s, f s ∈ groups.gids) (s : ShardId) : f s ∈ groups.gids.toFinset :=
    List.mem_toFinset.mpr (hf s)
  have hsum : ∑ g ∈ groups.gids.toFinset, count other g =
      ∑ g ∈ groups.gids.toFinset, (groupToShards groups.gids shards).sizes g := by
    rw [Finset.sum_congr rfl hsizes, sum_count (hmem hother.1), sum_count (hmem hall)]
  have hexcess : excess groups.gids.toFinset (groupToShards groups.gids shards).sizes
      (count other) = excess groups.gids.toFinset (count shards) (count other) :=
    Finset.sum_congr rfl fun g hg => by rw [hsizes g hg]
  have hle := hammingDist_levelShards_le hsplit hne shards hother.2 hsum (NShards * NShards)
  rw [assignShards_groupToShards] at hle
  rw [rebalanceShard_levelled]
  exact hle.trans (hexcess.trans_le (excess_count_le shards other))

/-- **A `LEAVE` that leaves some group, or a first `JOIN`,** moves the shards without a group and
    no others. -/
theorem adopted_ne_iff (hne : groups.gids ≠ []) {isJoin isFirst : Bool}
    (hkind : (isJoin && !isFirst) = false) (s : ShardId) :
    rebalanceShard groups shards isJoin isFirst s ≠ shards s ↔ shards s ∉ groups.gids := by
  have hnew : rebalanceShard groups shards isJoin isFirst s ∈ groups.gids :=
    adopted_mem hne hkind s
  constructor
  · intro hmoved hold
    refine hmoved ?_
    obtain ⟨hsplit, -, -⟩ := splits_adopted hne shards
    rw [rebalanceShard_adopted hne hkind]
    exact assignShards_of_mem hsplit.unique hold
      (mem_adoptShards_of_mem ((mem_groupToShards hold).mpr rfl))
  · intro hold heq
    exact hold (heq ▸ hnew)

/-- **Complete, balanced, and no more transfers than needed.**  A `JOIN` next to other groups ends
    with a balanced configuration that is reached with as few transfers as any other.  A `LEAVE`
    and the first `JOIN` move exactly the shards without a group; all shards then have one, and the
    groups are level if they were level without those shards. -/
theorem rebalanceShard_transfers (hne : groups.gids ≠ []) :
    (∀ shards : Shards, (∀ s, shards s ∈ groups.gids) →
      ∃ result, (∀ grouped written,
          rebalanceShardIn grouped written groups shards true false = some result) ∧
        Balanced groups result ∧ ∀ other, Balanced groups other →
          hammingDist shards result ≤ hammingDist shards other) ∧
    ∀ (shards : Shards) (isJoin isFirst : Bool), (isJoin = true → isFirst = true) →
      ∃ result, (∀ grouped written,
          rebalanceShardIn grouped written groups shards isJoin isFirst = some result) ∧
        (∀ s, result s ≠ shards s ↔ shards s ∉ groups.gids) ∧ (∀ s, result s ∈ groups.gids) ∧
        (Level groups.gids.toFinset (load shards) → Level groups.gids.toFinset (load result)) := by
  refine ⟨fun shards hall => ?_, fun shards isJoin isFirst hkind => ?_⟩
  · refine ⟨_, fun grouped written => rebalanceShardIn_eq grouped written groups shards true false,
      (balanced_levelled_iff hne).mpr hall, fun other hother => ?_⟩
    exact transfers_levelled_le hne hall hother
  · have hkind' : (isJoin && !isFirst) = false := by
      cases isJoin with
      | false => rfl
      | true => rw [hkind rfl]; rfl
    refine ⟨_, fun grouped written =>
      rebalanceShardIn_eq grouped written groups shards isJoin isFirst,
      adopted_ne_iff hne hkind', adopted_mem hne hkind', fun hlevel => ?_⟩
    have hfill : Fillable groups.gids.toFinset (load shards)
        (orphanShards groups.gids shards).length := (fillable_zero.mpr hlevel).mono (Nat.zero_le _)
    exact ((balanced_adopted_iff hne hkind').mpr hfill).2

/-- Group 2 joins group 1, which holds all shards: five of them move. -/
theorem rebalanceShard_transfers_groups12 :
    ∃ result,
      rebalanceShardIn (.decreasing Gid) (.increasing Gid) groups12 (fun _ => 1) true false =
        some result ∧ Balanced groups12 result ∧ hammingDist (fun _ => 1) result ≤ 5 := by
  obtain ⟨hjoin, -⟩ := @rebalanceShard_transfers groups12 (by decide)
  obtain ⟨result, hresult, hbalanced, hleast⟩ := hjoin (fun _ => 1) (by decide)
  refine ⟨result, hresult _ _, hbalanced, ?_⟩
  refine (hleast (fun s => if s.val < 5 then 1 else 2) (by decide +kernel)).trans ?_
  decide +kernel

end MitDistributed.ShardCtrler
