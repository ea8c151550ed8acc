import MitDistributed.ShardCtrler.Rebalance
import Mathlib.Data.List.Sort

namespace MitDistributed.ShardCtrler

open Balance Function

/-!
# Shard controller — `rebalanceShard` as it runs

Go runs through a map in any order, and a different one each time.  Here `rebalanceShard` is
written with the orders of its two maps as parameters, with its table as a Go map, and with what
can go wrong: it is `none` if the loop of a `JOIN` does not come to its end within `maxRounds`
rounds, or takes the first shard of a group that has none.

`rebalanceShardIn_eq` — none of that happens, and whatever the orders are, the result is the one of
`rebalanceShard`.
-/

/-- The order in which Go runs through a map, given what is in the map. -/
structure Order (α : Type) where
  run : List α → List α
  perm : ∀ items, (run items).Perm items

/-- The order of the keys. -/
def Order.increasing (α : Type) : Order α := ⟨id, List.Perm.refl⟩

/-- The opposite order. -/
def Order.decreasing (α : Type) : Order α := ⟨List.reverse, List.reverse_perm⟩

/-! ### The table -/

/-- A `map[int][]int`; an id that is not a key has no shards. -/
structure ShardMap where
  keys : List Gid
  rows : Table

namespace ShardMap

def empty : ShardMap := ⟨[], fun _ => []⟩

/-- `m[gid] = row` -/
def set (m : ShardMap) (gid : Gid) (row : List ShardId) : ShardMap where
  keys := if gid ∈ m.keys then m.keys else gid :: m.keys
  rows := update m.rows gid row

@[simp] theorem rows_set (m : ShardMap) (gid : Gid) (row : List ShardId) :
    (m.set gid row).rows = update m.rows gid row := rfl

theorem keys_set_of_mem {m : ShardMap} {gid : Gid} (h : gid ∈ m.keys) (row : List ShardId) :
    (m.set gid row).keys = m.keys := if_pos h

end ShardMap

/-- Every group becomes a key, with no shards. -/
def makeRows (gids : List Gid) : ShardMap :=
  gids.foldl (fun m gid => m.set gid []) .empty

/-- Enter a shard at its group, if that is a key. -/
def enterShard (shards : Shards) (m : ShardMap) (s : ShardId) : ShardMap :=
  if shards s ∈ m.keys then m.set (shards s) (m.rows (shards s) ++ [s]) else m

/-- The table with which the loops start. -/
def startMap (gids : List Gid) (shards : Shards) : ShardMap :=
  (List.finRange NShards).foldl (enterShard shards) (makeRows gids)

/-! ### The loops -/

/-- The rounds that the loop of a `JOIN` is given. -/
def maxRounds : ℕ := NShards * NShards + 1

/-- The loop of a `JOIN`. -/
def levelLoop (sortedGIDs : List Gid) : ℕ → ShardMap → Option ShardMap
  | 0, _ => none
  | rounds + 1, m =>
    let most := maxGroup m.rows sortedGIDs
    let least := minGroup m.rows sortedGIDs
    if most.2 - least.2 ≤ 1 then some m
    else
      match m.rows most.1 with
      | [] => none
      | s :: _ =>
        let m := m.set least.1 (m.rows least.1 ++ [s])
        levelLoop sortedGIDs rounds (m.set most.1 (m.rows most.1).tail)

/-- The loop of a `LEAVE` and of the first `JOIN`. -/
def adoptLoop (sortedGIDs : List Gid) : List ShardId → ShardMap → ShardMap
  | [], m => m
  | s :: orphans, m =>
    let least := minGroup m.rows sortedGIDs
    adoptLoop sortedGIDs orphans (m.set least.1 (m.rows least.1 ++ [s]))

/-- `rebalanceShard`, with the orders of `groups` and of `groupToShards`. -/
def rebalanceShardIn (grouped written : Order Gid) (groups : Groups) (shards : Shards)
    (isJoin isFirst : Bool) : Option Shards :=
  let gids := grouped.run groups.gids
  let sortedGIDs := gids.insertionSort (· ≤ ·)
  let m := startMap gids shards
  if isJoin && !isFirst then
    (levelLoop sortedGIDs maxRounds m).map fun m =>
      assignShards (written.run m.keys) m.rows shards
  else if groups.gids.length > 0 then
    let orphans := (List.finRange NShards).filter (shards · ∉ m.keys)
    let m := adoptLoop sortedGIDs orphans m
    some (assignShards (written.run m.keys) m.rows shards)
  else some (assignShards (written.run m.keys) m.rows fun _ => 0)

/-! ### The table at the start -/

/-- The Go map has the keys `gids` and the rows `t`. -/
structure ShardMap.Shows (m : ShardMap) (gids : List Gid) (t : Table) : Prop where
  keys : ∀ gid, gid ∈ m.keys ↔ gid ∈ gids
  rows : m.rows = t

section Start

variable {m : ShardMap} {gids : List Gid} {t : Table} {gid : Gid} {shards : Shards}

theorem ShardMap.Shows.set (h : m.Shows gids t) (hgid : gid ∈ gids) (row : List ShardId) :
    (m.set gid row).Shows gids (update t gid row) where
  keys k := by rw [ShardMap.keys_set_of_mem ((h.keys gid).mpr hgid)]; exact h.keys k
  rows := by rw [ShardMap.rows_set, h.rows]

theorem makeRows_shows (gids : List Gid) : (makeRows gids).Shows gids fun _ => [] := by
  induction gids using List.reverseRecOn with
  | nil => exact ⟨fun gid => Iff.rfl, rfl⟩
  | append_singleton gids gid ih =>
    have hstep : makeRows (gids ++ [gid]) = (makeRows gids).set gid [] := by
      rw [makeRows, List.foldl_append]
      rfl
    rw [hstep]
    refine ⟨fun k => ?_, ?_⟩
    · unfold ShardMap.set
      by_cases hmem : gid ∈ (makeRows gids).keys
      · rw [if_pos hmem, ih.keys k, List.mem_append, List.mem_singleton]
        refine ⟨.inl, fun hk => hk.elim id fun heq => ?_⟩
        exact heq ▸ (ih.keys gid).mp hmem
      · rw [if_neg hmem, List.mem_cons, ih.keys k, List.mem_append, List.mem_singleton, or_comm]
    · rw [ShardMap.rows_set, ih.rows]
      exact update_eq_self gid _

/-- Entering the shards one by one. -/
theorem enterShards_shows (gids : List Gid) (shards : Shards) (entered : List ShardId) :
    (entered.foldl (enterShard shards) (makeRows gids)).Shows gids fun gid =>
      if gid ∈ gids then entered.filter (shards · = gid) else [] := by
  induction entered using List.reverseRecOn with
  | nil =>
    refine ⟨(makeRows_shows gids).keys, (makeRows_shows gids).rows.trans ?_⟩
    funext gid
    simp
  | append_singleton entered s ih =>
    rw [List.foldl_append, List.foldl_cons, List.foldl_nil]
    generalize hm : entered.foldl (enterShard shards) (makeRows gids) = m at ih
    unfold enterShard
    by_cases hs : shards s ∈ gids
    · rw [if_pos ((ih.keys _).mpr hs)]
      have hset := ih.set hs (m.rows (shards s) ++ [s])
      refine ⟨hset.keys, hset.rows.trans ?_⟩
      funext gid
      rcases eq_or_ne gid (shards s) with rfl | hne
      · rw [update_self, ih.rows]
        simp [hs]
      · rw [update_of_ne hne, List.filter_append]
        simp [hne.symm]
    · rw [if_neg fun hmem => hs ((ih.keys _).mp hmem)]
      refine ⟨ih.keys, ih.rows.trans ?_⟩
      funext gid
      by_cases hgid : gid ∈ gids
      · have hne : shards s ≠ gid := fun heq => hs (heq ▸ hgid)
        simp [hgid, hne]
      · simp [hgid]

/-- Whatever the order of the groups is, the loops start with the same table. -/
theorem startMap_shows (grouped : Order Gid) (gids : List Gid) (shards : Shards) :
    (startMap (grouped.run gids) shards).Shows gids (groupToShards gids shards) := by
  have hmem (gid : Gid) : gid ∈ grouped.run gids ↔ gid ∈ gids := (grouped.perm gids).mem_iff
  have h := enterShards_shows (grouped.run gids) shards (List.finRange NShards)
  refine ⟨fun gid => (h.keys gid).trans (hmem gid), h.rows.trans ?_⟩
  funext gid
  rw [groupToShards]
  exact if_congr (hmem gid) rfl rfl

/-- Sorting undoes the order of the groups. -/
theorem sort_run (grouped : Order Gid) (groups : Groups) :
    (grouped.run groups.gids).insertionSort (· ≤ ·) = groups.gids := by
  have hsorted : groups.gids.Pairwise (· ≤ ·) := by
    rw [Groups.gids, List.pairwise_map]
    exact groups.sorted.imp fun hlt => hlt.le
  exact ((List.perm_insertionSort _ _).trans (grouped.perm _)).eq_of_pairwise
    (fun x y _ _ hxy hyx => le_antisymm hxy hyx) (List.pairwise_insertionSort _ _) hsorted

end Start

/-! ### The loops -/

section Loops

variable {m : ShardMap} {gids : List Gid} {t : Table} {P : ShardId → Prop}

/-- **The loop of a `JOIN`** comes to its end within one round more than its energy, and never
    finds the fullest group without a shard. -/
theorem levelLoop_eq (hm : m.Shows gids t) (h : t.Splits gids P) (hne : gids ≠ []) {fuel : ℕ}
    (hfuel : energy gids.toFinset t.sizes ≤ fuel) :
    ∃ m', levelLoop gids (fuel + 1) m = some m' ∧ m'.Shows gids (levelShards gids fuel t) := by
  induction fuel generalizing m t with
  | zero =>
    have hgap : (maxGroup t gids).2 - (minGroup t gids).2 ≤ 1 := by
      by_contra hgap
      obtain ⟨-, -, hshift⟩ := moveShard_spec h hne hgap
      exact absurd (hshift.energy_lt.trans_le hfuel) (Nat.not_lt_zero _)
    refine ⟨m, ?_, hm⟩
    rw [levelLoop, hm.rows, if_pos hgap]
  | succ fuel ih =>
    by_cases hgap : (maxGroup t gids).2 - (minGroup t gids).2 ≤ 1
    · refine ⟨m, ?_, ?_⟩
      · rw [levelLoop, hm.rows, if_pos hgap]
      · rw [levelShards, if_pos hgap]
        exact hm
    · obtain ⟨⟨s, rest, hsrc⟩, hsplit, hshift⟩ := moveShard_spec h hne hgap
      have hset := hm.set (List.mem_toFinset.mp hshift.dst) (t (minGroup t gids).1 ++ [s])
      have hset' := hset.set (List.mem_toFinset.mp hshift.src) rest
      have hmove : moveShard t (maxGroup t gids).1 (minGroup t gids).1 = update
          (update t (minGroup t gids).1 (t (minGroup t gids).1 ++ [s]))
          (maxGroup t gids).1 rest := by
        rw [moveShard, hsrc]
        rfl
      rw [← hmove] at hset'
      obtain ⟨m', hm', hshows⟩ := ih hset' hsplit (by have := hshift.energy_lt; omega)
      refine ⟨m', ?_, ?_⟩
      · rw [levelLoop, hm.rows, if_neg hgap, hsrc]
        dsimp only
        rw [ShardMap.rows_set, hm.rows, update_of_ne hshift.ne.symm, hsrc]
        exact hm'
      · rw [levelShards, if_neg hgap]
        exact hshows

/-- **The loop of a `LEAVE`** gives every shard to a group. -/
theorem adoptLoop_shows (hne : gids ≠ []) {orphans : List ShardId} (hnodup : orphans.Nodup)
    (horphan : ∀ s ∈ orphans, ¬ P s) (hm : m.Shows gids t) (h : t.Splits gids P) :
    (adoptLoop gids orphans m).Shows gids (adoptShards gids orphans t) := by
  induction orphans generalizing m t P with
  | nil => exact hm
  | cons s orphans ih =>
    obtain ⟨hs, hnodup'⟩ := List.nodup_cons.mp hnodup
    obtain ⟨hmin, -, -⟩ := minGroup_spec t hne fun g hg => h.length_le hg
    have hgive := h.give hmin (horphan s List.mem_cons_self)
    have hrest (x : ShardId) (hx : x ∈ orphans) : ¬ (P x ∨ x = s) := by
      rintro (hP | rfl)
      · exact horphan x (List.mem_cons_of_mem s hx) hP
      · exact hs hx
    rw [adoptLoop, adoptShards, hm.rows]
    exact ih hnodup' hrest (hm.set hmin _) hgive

/-- The order in which the table is written back does not matter, as no shard stands in it
    twice. -/
theorem ShardMap.Shows.assign (hm : m.Shows gids t) (h : t.Splits gids P) (written : Order Gid)
    (shards : Shards) :
    assignShards (written.run m.keys) m.rows shards = assignShards gids t shards := by
  have hmem (g : Gid) : g ∈ written.run m.keys ↔ g ∈ gids :=
    (written.perm m.keys).mem_iff.trans (hm.keys g)
  rw [hm.rows]
  funext s
  exact assignShards_congr hmem h h fun g _ => Iff.rfl

end Loops

/-! ### The whole function -/

/-- **`rebalanceShard` comes to its end, and the orders of its maps do not matter.** -/
theorem rebalanceShardIn_eq (grouped written : Order Gid) (groups : Groups) (shards : Shards)
    (isJoin isFirst : Bool) :
    rebalanceShardIn grouped written groups shards isJoin isFirst =
      some (rebalanceShard groups shards isJoin isFirst) := by
  have hstart := startMap_shows grouped groups.gids shards
  have hsplit := splits_groupToShards groups.gids shards
  unfold rebalanceShardIn rebalanceShard
  dsimp only
  rw [sort_run]
  by_cases hkind : (isJoin && !isFirst) = true
  · rw [if_pos hkind, if_pos hkind]
    by_cases hne : groups.gids = []
    · -- without groups the loop ends in the first round
      rw [hne] at hstart hsplit ⊢
      exact congrArg some (hstart.assign hsplit written shards)
    · have hfuel := energy_groupToShards_le groups.gids shards
      obtain ⟨m, hm, hshows⟩ := levelLoop_eq hstart hsplit hne hfuel
      obtain ⟨hsplit', -⟩ := levelShards_spec hsplit hne hfuel
      rw [maxRounds, hm, Option.map_some, hshows.assign hsplit' written]
  · rw [if_neg hkind, if_neg hkind]
    by_cases hpos : groups.gids.length > 0
    · have hne : groups.gids ≠ [] := List.length_pos_iff.mp hpos
      obtain ⟨hsplit', -, -⟩ := splits_adopted hne shards
      have horphans : (List.finRange NShards).filter
          (shards · ∉ (startMap (grouped.run groups.gids) shards).keys) =
          orphanShards groups.gids shards :=
        List.filter_congr fun s _ => by simp only [hstart.keys (shards s)]
      have hadopt := adoptLoop_shows hne (nodup_orphanShards groups.gids shards)
        (fun s hs => mem_orphanShards.mp hs) hstart hsplit
      rw [if_pos hpos, if_pos hpos, horphans, hadopt.assign hsplit' written]
    · have hnil : groups.gids = [] := List.length_eq_zero_iff.mp (Nat.le_zero.mp (not_lt.mp hpos))
      rw [if_neg hpos, if_neg hpos, hstart.assign hsplit written, hnil]
      rfl

end MitDistributed.ShardCtrler
