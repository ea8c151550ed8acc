import MitDistributed.Balance.Leveling
import MitDistributed.ShardCtrler.Config
import Mathlib.Data.Fintype.Card

namespace MitDistributed.ShardCtrler

open Balance Function

/-!
# Shard controller — `rebalanceShard`

The assignment of the shards after a `JOIN` or a `LEAVE`.  A `JOIN` of groups next to others
moves shards one by one from the group with most shards to the one with fewest (`levelShards`);
the first `JOIN` and a `LEAVE` hand shards without a group to the group with fewest, and move
nothing else (`adoptShards`).

What comes out is balanced exactly if, in the first case, every shard had a group
(`balanced_levelled_iff`), and in the second, the shards without a group are enough to level the
groups (`balanced_adopted_iff`).
-/

/-- The shards of each group; `nil` for an id that is not a key of the map. -/
abbrev Table := Gid → List ShardId

/-- The shards that the groups have at the start. -/
def groupToShards (gids : List Gid) (shards : Shards) : Table := fun gid =>
  if gid ∈ gids then (List.finRange NShards).filter (shards · = gid) else []

/-- The last of the groups whose number of shards is best, and that number. -/
def pickGroup (better : ℕ → ℕ → Bool) (start : Gid × ℕ) (t : Table) (gids : List Gid) :
    Gid × ℕ :=
  gids.foldl (fun best gid =>
    if better (t gid).length best.2 then (gid, (t gid).length) else best) start

/-- The group with most shards. -/
def maxGroup (t : Table) (gids : List Gid) : Gid × ℕ := pickGroup (· ≥ ·) (-1, 0) t gids

/-- The group with fewest shards. -/
def minGroup (t : Table) (gids : List Gid) : Gid × ℕ := pickGroup (· ≤ ·) (-1, NShards + 1) t gids

/-- Append a shard to those of `dst`. -/
def giveShard (t : Table) (dst : Gid) (s : ShardId) : Table :=
  update t dst (t dst ++ [s])

/-- Give the first shard of `src` to `dst`. -/
def moveShard (t : Table) (src dst : Gid) : Table :=
  match t src with
  | [] => t
  | s :: rest => update (giveShard t dst s) src rest

/-- The loop of a `JOIN`.  `fuel` bounds its rounds; `NShards * NShards` is enough
    (`levelShards_spec`). -/
def levelShards (gids : List Gid) : ℕ → Table → Table
  | 0, t => t
  | fuel + 1, t =>
    if (maxGroup t gids).2 - (minGroup t gids).2 ≤ 1 then t
    else levelShards gids fuel (moveShard t (maxGroup t gids).1 (minGroup t gids).1)

/-- The shards whose group is not a key of the map. -/
def orphanShards (gids : List Gid) (shards : Shards) : List ShardId :=
  (List.finRange NShards).filter (shards · ∉ gids)

/-- The loop of a `LEAVE` and of the first `JOIN`. -/
def adoptShards (gids : List Gid) : List ShardId → Table → Table
  | [], t => t
  | s :: orphans, t => adoptShards gids orphans (giveShard t (minGroup t gids).1 s)

/-- Write the table back. -/
def assignShards (gids : List Gid) (t : Table) (shards : Shards) : Shards :=
  gids.foldl (fun shards gid => (t gid).foldl (fun shards s => update shards s gid) shards)
    shards

/-- `rebalanceShard`.  Without groups every shard goes to the invalid group. -/
def rebalanceShard (groups : Groups) (shards : Shards) (isJoin isFirst : Bool) : Shards :=
  let gids := groups.gids
  let t := groupToShards gids shards
  if isJoin && !isFirst then
    assignShards gids (levelShards gids (NShards * NShards) t) shards
  else if gids.length > 0 then
    assignShards gids (adoptShards gids (orphanShards gids shards) t) shards
  else fun _ => 0

/-! ### Tables -/

/-- The groups hold disjoint sets of shards, which together are those with `P`. -/
structure Table.Splits (t : Table) (gids : List Gid) (P : ShardId → Prop) : Prop where
  nodup : ∀ g ∈ gids, (t g).Nodup
  unique : ∀ g ∈ gids, ∀ h ∈ gids, ∀ s, s ∈ t g → s ∈ t h → g = h
  mem : ∀ s, (∃ g ∈ gids, s ∈ t g) ↔ P s

/-- How many shards a group holds in the table. -/
def Table.sizes (t : Table) : Gid → ℕ := fun g => (t g).length

section Tables

variable {t : Table} {gids : List Gid} {P : ShardId → Prop} {shards : Shards} {g : Gid}
  {s : ShardId}

theorem mem_groupToShards (hg : g ∈ gids) : s ∈ groupToShards gids shards g ↔ shards s = g := by
  simp [groupToShards, hg]

theorem mem_orphanShards : s ∈ orphanShards gids shards ↔ shards s ∉ gids := by
  simp [orphanShards]

theorem nodup_orphanShards (gids : List Gid) (shards : Shards) : (orphanShards gids shards).Nodup :=
  (List.nodup_finRange _).filter _

theorem mem_giveShard {dst : Gid} {x : ShardId} :
    x ∈ giveShard t dst s g ↔ x ∈ t g ∨ (x = s ∧ g = dst) := by
  unfold giveShard
  rcases eq_or_ne g dst with rfl | hne
  · simp
  · simp [hne]

/-- Moving a shard is taking it off one group and giving it to another. -/
theorem moveShard_eq {src dst : Gid} {rest : List ShardId} (hne : dst ≠ src)
    (ht : t src = s :: rest) :
    moveShard t src dst = giveShard (update t src rest) dst s := by
  unfold moveShard giveShard
  rw [ht, update_of_ne hne]
  exact update_comm hne _ _ _

theorem splits_groupToShards (gids : List Gid) (shards : Shards) :
    (groupToShards gids shards).Splits gids fun s => shards s ∈ gids where
  nodup g hg := by
    rw [groupToShards, if_pos hg]
    exact (List.nodup_finRange _).filter _
  unique g hg h hh s hs hs' :=
    ((mem_groupToShards hg).mp hs).symm.trans ((mem_groupToShards hh).mp hs')
  mem s := by
    constructor
    · rintro ⟨g, hg, hs⟩
      rwa [(mem_groupToShards hg).mp hs]
    · intro hs
      exact ⟨shards s, hs, (mem_groupToShards hs).mpr rfl⟩

namespace Table.Splits

theorem length_le (h : t.Splits gids P) (hg : g ∈ gids) : (t g).length ≤ NShards := by
  have hle := (h.nodup g hg).length_le_card
  rwa [Fintype.card_fin] at hle

variable {src : Gid} {rest : List ShardId}

/-- Taking the first shard off a group takes it away from all of them. -/
theorem mem_drop (h : t.Splits gids P) (hs : src ∈ gids) (ht : t src = s :: rest) (hg : g ∈ gids)
    {x : ShardId} : x ∈ update t src rest g ↔ x ∈ t g ∧ x ≠ s := by
  have hnodup := h.nodup src hs
  rw [ht, List.nodup_cons] at hnodup
  have hin : s ∈ t src := by rw [ht]; exact List.mem_cons_self
  rcases eq_or_ne g src with rfl | hne
  · rw [update_self, ht, List.mem_cons]
    constructor
    · intro hx
      exact ⟨.inr hx, fun heq => hnodup.1 (heq ▸ hx)⟩
    · rintro ⟨hx, hxs⟩
      exact hx.resolve_left hxs
  · rw [update_of_ne hne]
    refine ⟨fun hx => ⟨hx, ?_⟩, fun hx => hx.1⟩
    rintro rfl
    exact hne (h.unique g hg src hs x hx hin)

theorem drop (h : t.Splits gids P) (hs : src ∈ gids) (ht : t src = s :: rest) :
    Table.Splits (update t src rest) gids fun x => P x ∧ x ≠ s := by
  have hnodup := h.nodup src hs
  rw [ht, List.nodup_cons] at hnodup
  have hplace {g : Gid} {x : ShardId} (hg : g ∈ gids) :
      x ∈ update t src rest g ↔ x ∈ t g ∧ x ≠ s := h.mem_drop hs ht hg
  refine ⟨fun g hg => ?_, fun g hg g' hg' x hx hx' => ?_, fun x => ?_⟩
  · rcases eq_or_ne g src with rfl | hne
    · rw [update_self]; exact hnodup.2
    · rw [update_of_ne hne]; exact h.nodup g hg
  · exact h.unique g hg g' hg' x ((hplace hg).mp hx).1 ((hplace hg').mp hx').1
  · rw [← h.mem x]
    constructor
    · rintro ⟨g, hg, hx⟩
      exact ⟨⟨g, hg, ((hplace hg).mp hx).1⟩, ((hplace hg).mp hx).2⟩
    · rintro ⟨⟨g, hg, hx⟩, hxs⟩
      exact ⟨g, hg, (hplace hg).mpr ⟨hx, hxs⟩⟩

/-- Giving a shard that no group holds to one of them. -/
theorem give (h : t.Splits gids P) {dst : Gid} (hd : dst ∈ gids) (hs : ¬ P s) :
    Table.Splits (giveShard t dst s) gids fun x => P x ∨ x = s := by
  have hfree {g : Gid} (hg : g ∈ gids) : s ∉ t g := fun hx => hs ((h.mem s).mp ⟨g, hg, hx⟩)
  have hplace {g : Gid} {x : ShardId} :
      x ∈ giveShard t dst s g ↔ x ∈ t g ∨ (x = s ∧ g = dst) := mem_giveShard
  refine ⟨fun g hg => ?_, fun g hg g' hg' x hx hx' => ?_, fun x => ?_⟩
  · rcases eq_or_ne g dst with rfl | hne
    · rw [giveShard, update_self, List.nodup_append]
      refine ⟨h.nodup g hg, List.nodup_singleton s, ?_⟩
      intro x hx y hy heq
      rw [List.mem_singleton.mp hy] at heq
      exact hfree hg (heq ▸ hx)
    · rw [giveShard, update_of_ne hne]; exact h.nodup g hg
  · rcases hplace.mp hx with hxg | ⟨rfl, rfl⟩
    · rcases hplace.mp hx' with hxg' | ⟨rfl, -⟩
      · exact h.unique g hg g' hg' x hxg hxg'
      · exact absurd hxg (hfree hg)
    · rcases hplace.mp hx' with hxg' | ⟨-, rfl⟩
      · exact absurd hxg' (hfree hg')
      · rfl
  · constructor
    · rintro ⟨g, hg, hx⟩
      rcases hplace.mp hx with hxg | ⟨rfl, -⟩
      · exact .inl ((h.mem x).mp ⟨g, hg, hxg⟩)
      · exact .inr rfl
    · rintro (hx | rfl)
      · obtain ⟨g, hg, hxg⟩ := (h.mem x).mpr hx
        exact ⟨g, hg, hplace.mpr (.inl hxg)⟩
      · exact ⟨dst, hd, hplace.mpr (.inr ⟨rfl, rfl⟩)⟩

theorem congr {Q : ShardId → Prop} (h : t.Splits gids P) (hPQ : ∀ s, P s ↔ Q s) :
    t.Splits gids Q :=
  ⟨h.nodup, h.unique, fun s => (h.mem s).trans (hPQ s)⟩

/-- Moving a shard between two groups keeps the split. -/
theorem move (h : t.Splits gids P) {dst : Gid} (hs : src ∈ gids) (hd : dst ∈ gids) (hne : dst ≠ src)
    (ht : t src = s :: rest) : (moveShard t src dst).Splits gids P := by
  have hPs : P s := (h.mem s).mp ⟨src, hs, by rw [ht]; exact List.mem_cons_self⟩
  rw [moveShard_eq hne ht]
  refine ((h.drop hs ht).give hd fun hx => hx.2 rfl).congr fun x => ?_
  constructor
  · rintro (hx | rfl)
    · exact hx.1
    · exact hPs
  · intro hx
    by_cases hxs : x = s
    · exact .inr hxs
    · exact .inl ⟨hx, hxs⟩

end Table.Splits

/-! ### The fullest and the emptiest group -/

section Pick

variable (better : ℕ → ℕ → Bool) (hrefl : ∀ a, better a a = true)
  (htrans : ∀ a b c, better a b = true → better b c = true → better a c = true)
  (htotal : ∀ a b, better a b = false → better b a = true)

include hrefl htrans htotal

/-- The group that is picked is the start or one of the groups, and none of them is better. -/
theorem pickGroup_spec (t : Table) (gids : List Gid) (start : Gid × ℕ) :
    (pickGroup better start t gids = start ∨ (pickGroup better start t gids).1 ∈ gids ∧
      (pickGroup better start t gids).2 = (t (pickGroup better start t gids).1).length) ∧
    better (pickGroup better start t gids).2 start.2 = true ∧
    ∀ g ∈ gids, better (pickGroup better start t gids).2 (t g).length = true := by
  induction gids generalizing start with
  | nil => exact ⟨.inl rfl, hrefl _, fun g hg => absurd hg List.not_mem_nil⟩
  | cons gid gids ih =>
    by_cases hb : better (t gid).length start.2 = true
    · have hstep : pickGroup better start t (gid :: gids) =
          pickGroup better (gid, (t gid).length) t gids := by
        unfold pickGroup
        rw [List.foldl_cons, if_pos hb]
      obtain ⟨hr, hbest, hall⟩ := ih (gid, (t gid).length)
      rw [hstep]
      refine ⟨.inr ?_, htrans _ _ _ hbest hb, fun g hg => ?_⟩
      · rcases hr with hr | ⟨hmem, hlen⟩
        · rw [hr]; exact ⟨List.mem_cons_self, rfl⟩
        · exact ⟨List.mem_cons_of_mem _ hmem, hlen⟩
      · rcases List.mem_cons.mp hg with rfl | hg
        · exact hbest
        · exact hall g hg
    · have hstep : pickGroup better start t (gid :: gids) = pickGroup better start t gids := by
        unfold pickGroup
        rw [List.foldl_cons, if_neg hb]
      obtain ⟨hr, hbest, hall⟩ := ih start
      rw [hstep]
      refine ⟨hr.imp_right fun hr => ⟨List.mem_cons_of_mem _ hr.1, hr.2⟩, hbest, fun g hg => ?_⟩
      rcases List.mem_cons.mp hg with rfl | hg
      · exact htrans _ _ _ hbest (htotal _ _ (Bool.not_eq_true _ ▸ hb))
      · exact hall g hg

/-- Where the start is beaten by every group, one of the groups is picked. -/
theorem pickGroup_mem (t : Table) (start : Gid × ℕ) (hne : gids ≠ [])
    (hstart : ∀ g ∈ gids, better (t g).length start.2 = true) :
    (pickGroup better start t gids).1 ∈ gids ∧
      (pickGroup better start t gids).2 = (t (pickGroup better start t gids).1).length ∧
      ∀ g ∈ gids, better (pickGroup better start t gids).2 (t g).length = true := by
  obtain ⟨gid, rest, rfl⟩ := List.exists_cons_of_ne_nil hne
  have hfirst : pickGroup better start t (gid :: rest) =
      pickGroup better (gid, (t gid).length) t rest := by
    unfold pickGroup
    rw [List.foldl_cons, if_pos (hstart gid List.mem_cons_self)]
  obtain ⟨hr, hbest, hall⟩ := pickGroup_spec better hrefl htrans htotal t rest (gid, (t gid).length)
  rw [hfirst]
  refine ⟨?_, ?_, fun g hg => ?_⟩
  · rcases hr with hr | ⟨hmem, -⟩
    · rw [hr]; exact List.mem_cons_self
    · exact List.mem_cons_of_mem _ hmem
  · rcases hr with hr | ⟨-, hlen⟩
    · rw [hr]
    · exact hlen
  · rcases List.mem_cons.mp hg with rfl | hg
    · exact hbest
    · exact hall g hg

end Pick

theorem maxGroup_spec (t : Table) (hne : gids ≠ []) :
    (maxGroup t gids).1 ∈ gids ∧ (maxGroup t gids).2 = (t (maxGroup t gids).1).length ∧
      ∀ g ∈ gids, (t g).length ≤ (maxGroup t gids).2 := by
  obtain ⟨hmem, hlen, hall⟩ := pickGroup_mem (· ≥ ·) (by simp)
    (by simp only [decide_eq_true_eq]; omega)
    (by simp only [decide_eq_true_eq, decide_eq_false_iff_not]; omega) t (-1, 0) hne (by simp)
  exact ⟨hmem, hlen, fun g hg => of_decide_eq_true (hall g hg)⟩

theorem minGroup_spec (t : Table) (hne : gids ≠ []) (hle : ∀ g ∈ gids, (t g).length ≤ NShards) :
    (minGroup t gids).1 ∈ gids ∧ (minGroup t gids).2 = (t (minGroup t gids).1).length ∧
      ∀ g ∈ gids, (minGroup t gids).2 ≤ (t g).length := by
  have hstart (g : Gid) (hg : g ∈ gids) : decide ((t g).length ≤ NShards + 1) = true :=
    decide_eq_true ((hle g hg).trans (Nat.le_succ _))
  obtain ⟨hmem, hlen, hall⟩ := pickGroup_mem (· ≤ ·) (by simp)
    (by simp only [decide_eq_true_eq]; omega)
    (by simp only [decide_eq_true_eq, decide_eq_false_iff_not]; omega) t (-1, NShards + 1) hne
    hstart
  exact ⟨hmem, hlen, fun g hg => of_decide_eq_true (hall g hg)⟩

/-! ### The loops -/

theorem sizes_giveShard (t : Table) (dst : Gid) (s : ShardId) :
    (giveShard t dst s).sizes = put t.sizes dst := by
  funext g
  unfold Table.sizes giveShard put
  rcases eq_or_ne g dst with rfl | hne
  · rw [update_self, update_self, List.length_append, List.length_singleton]
  · rw [update_of_ne hne, update_of_ne hne]

theorem sum_sizes_le (h : t.Splits gids P) : ∑ g ∈ gids.toFinset, t.sizes g ≤ NShards := by
  classical
  have hdisj : (gids.toFinset : Set Gid).PairwiseDisjoint fun g => (t g).toFinset := by
    intro g hg g' hg' hne
    refine Finset.disjoint_left.mpr fun x hx hx' => hne ?_
    exact h.unique g (List.mem_toFinset.mp hg) g' (List.mem_toFinset.mp hg') x
      (List.mem_toFinset.mp hx) (List.mem_toFinset.mp hx')
  have hcard : ∑ g ∈ gids.toFinset, t.sizes g =
      (gids.toFinset.biUnion fun g => (t g).toFinset).card := by
    rw [Finset.card_biUnion hdisj]
    refine Finset.sum_congr rfl fun g hg => ?_
    exact (List.toFinset_card_of_nodup (h.nodup g (List.mem_toFinset.mp hg))).symm
  rw [hcard]
  exact (Finset.card_le_univ _).trans_eq (Fintype.card_fin _)

/-- One round of the loop of a `JOIN` moves a shard from the fullest group to the emptiest. -/
theorem moveShard_spec (h : t.Splits gids P) (hne : gids ≠ [])
    (hgap : ¬ (maxGroup t gids).2 - (minGroup t gids).2 ≤ 1) :
    (∃ s rest, t (maxGroup t gids).1 = s :: rest) ∧
      (moveShard t (maxGroup t gids).1 (minGroup t gids).1).Splits gids P ∧
      Shift gids.toFinset t.sizes (moveShard t (maxGroup t gids).1 (minGroup t gids).1).sizes
        (maxGroup t gids).1 (minGroup t gids).1 := by
  obtain ⟨hmax, hmaxLen, -⟩ := maxGroup_spec t hne
  obtain ⟨hmin, hminLen, -⟩ := minGroup_spec t hne fun g hg => h.length_le hg
  obtain ⟨s, rest, hsrc⟩ : ∃ s rest, t (maxGroup t gids).1 = s :: rest := by
    refine List.exists_cons_of_ne_nil fun hnil => ?_
    rw [hnil, List.length_nil] at hmaxLen
    omega
  have hdiff : (minGroup t gids).1 ≠ (maxGroup t gids).1 := by
    intro heq
    rw [heq] at hminLen
    omega
  have hlen : (t (maxGroup t gids).1).length = rest.length + 1 := by
    rw [hsrc, List.length_cons]
  have hmove : moveShard t (maxGroup t gids).1 (minGroup t gids).1 =
      update (giveShard t (minGroup t gids).1 s) (maxGroup t gids).1 rest := by
    unfold moveShard
    rw [hsrc]
  refine ⟨⟨s, rest, hsrc⟩, h.move hmax hmin hdiff hsrc, ?_⟩
  refine ⟨List.mem_toFinset.mpr hmax, List.mem_toFinset.mpr hmin, ?_, ?_, ?_, ?_⟩
  · show (t (minGroup t gids).1).length + 1 < (t (maxGroup t gids).1).length
    omega
  · show (moveShard t _ _ _).length + 1 = (t (maxGroup t gids).1).length
    rw [hmove, update_self, hlen]
  · show (moveShard t _ _ _).length = (t (minGroup t gids).1).length + 1
    rw [hmove, update_of_ne hdiff, giveShard, update_self, List.length_append,
      List.length_singleton]
  · intro g _ hgmax hgmin
    show (moveShard t _ _ g).length = (t g).length
    rw [hmove, update_of_ne hgmax, giveShard, update_of_ne hgmin]

/-- **The loop of a `JOIN`.** With fuel for its energy it ends with level groups that hold the
    shards they held. -/
theorem levelShards_spec (h : t.Splits gids P) (hne : gids ≠ []) {fuel : ℕ}
    (hfuel : energy gids.toFinset t.sizes ≤ fuel) :
    (levelShards gids fuel t).Splits gids P ∧
      Level gids.toFinset (levelShards gids fuel t).sizes := by
  induction fuel generalizing t with
  | zero =>
    refine ⟨h, fun g hg g' _ => ?_⟩
    have hzero : t.sizes g ^ 2 = 0 :=
      Finset.sum_eq_zero_iff.mp (Nat.le_zero.mp hfuel) g hg
    have hg0 : t.sizes g = 0 := by simpa using hzero
    show t.sizes g ≤ _
    omega
  | succ fuel ih =>
    unfold levelShards
    split
    · rename_i hgap
      obtain ⟨-, -, hmax⟩ := maxGroup_spec t hne
      obtain ⟨-, -, hmin⟩ := minGroup_spec t hne fun g hg => h.length_le hg
      refine ⟨h, fun g hg g' hg' => ?_⟩
      have hle := hmax g (List.mem_toFinset.mp hg)
      have hle' := hmin g' (List.mem_toFinset.mp hg')
      show (t g).length ≤ (t g').length + 1
      omega
    · rename_i hgap
      obtain ⟨-, hsplit, hshift⟩ := moveShard_spec h hne hgap
      have hlt := hshift.energy_lt
      exact ih hsplit (by omega)

/-- **The loop of a `LEAVE`.** It hands every orphan to a group, and levels the groups exactly if
    the orphans are enough for that. -/
theorem adoptShards_spec (hne : gids ≠ []) {orphans : List ShardId} (hnodup : orphans.Nodup)
    (horphan : ∀ s ∈ orphans, ¬ P s) (h : t.Splits gids P) :
    (adoptShards gids orphans t).Splits gids (fun s => P s ∨ s ∈ orphans) ∧
      (Level gids.toFinset (adoptShards gids orphans t).sizes ↔
        Fillable gids.toFinset t.sizes orphans.length) := by
  induction orphans generalizing t P with
  | nil =>
    refine ⟨h.congr fun s => by simp, ?_⟩
    exact fillable_zero.symm
  | cons s orphans ih =>
    obtain ⟨hs, hnodup'⟩ := List.nodup_cons.mp hnodup
    obtain ⟨hmin, hlen, hall⟩ := minGroup_spec t hne fun g hg => h.length_le hg
    have hgive := h.give hmin (horphan s List.mem_cons_self)
    have hrest (x : ShardId) (hx : x ∈ orphans) : ¬ (P x ∨ x = s) := by
      rintro (hP | rfl)
      · exact horphan x (List.mem_cons_of_mem s hx) hP
      · exact hs hx
    obtain ⟨hsplit, hlevel⟩ := ih hnodup' hrest hgive
    refine ⟨hsplit.congr fun x => by rw [List.mem_cons, or_assoc], ?_⟩
    have hleast (g : Gid) (hg : g ∈ gids.toFinset) :
        t.sizes (minGroup t gids).1 ≤ t.sizes g :=
      hlen.symm.trans_le (hall g (List.mem_toFinset.mp hg))
    rw [List.length_cons, fillable_succ (List.mem_toFinset.mpr hmin) hleast, ← sizes_giveShard]
    exact hlevel

/-- The groups keep the shards they have. -/
theorem mem_adoptShards_of_mem {orphans : List ShardId} (hs : s ∈ t g) :
    s ∈ adoptShards gids orphans t g := by
  induction orphans generalizing t with
  | nil => exact hs
  | cons x orphans ih => exact ih (mem_giveShard.mpr (.inl hs))

/-! ### Writing the table back -/

theorem foldl_update (l : List ShardId) (gid : Gid) (shards : Shards) (s : ShardId) :
    l.foldl (fun shards s => update shards s gid) shards s =
      if s ∈ l then gid else shards s := by
  induction l generalizing shards with
  | nil => simp
  | cons x l ih =>
    rw [List.foldl_cons, ih]
    by_cases hs : s ∈ l
    · rw [if_pos hs, if_pos (List.mem_cons_of_mem x hs)]
    · rw [if_neg hs]
      rcases eq_or_ne s x with rfl | hne
      · rw [update_self, if_pos List.mem_cons_self]
      · rw [update_of_ne hne, if_neg (by simp [hne, hs])]

theorem assignShards_of_not_mem (h : ∀ g ∈ gids, s ∉ t g) :
    assignShards gids t shards s = shards s := by
  unfold assignShards
  induction gids generalizing shards with
  | nil => rfl
  | cons gid gids ih =>
    rw [List.foldl_cons, ih fun g hg => h g (List.mem_cons_of_mem gid hg), foldl_update,
      if_neg (h gid List.mem_cons_self)]

theorem assignShards_of_mem (hunique : ∀ g ∈ gids, ∀ h ∈ gids, ∀ s, s ∈ t g → s ∈ t h → g = h)
    (hg : g ∈ gids) (hs : s ∈ t g) : assignShards gids t shards s = g := by
  induction gids generalizing shards with
  | nil => cases hg
  | cons gid gids ih =>
    have hunique' : ∀ g ∈ gids, ∀ h ∈ gids, ∀ s, s ∈ t g → s ∈ t h → g = h :=
      fun g hg h hh => hunique g (List.mem_cons_of_mem gid hg) h (List.mem_cons_of_mem gid hh)
    have hstep : assignShards (gid :: gids) t shards =
        assignShards gids t ((t gid).foldl (fun shards s => update shards s gid) shards) :=
      rfl
    by_cases hmem : g ∈ gids
    · rw [hstep]
      exact ih hunique' hmem
    · -- the group is the first one, and no later group holds the shard
      obtain rfl : g = gid := (List.mem_cons.mp hg).resolve_right hmem
      rw [hstep, assignShards_of_not_mem, foldl_update, if_pos hs]
      intro h hh hs'
      exact hmem (hunique g hg h (List.mem_cons_of_mem g hh) s hs hs' ▸ hh)

/-- Two tables that agree about a shard assign it alike, whatever the order of the groups is. -/
theorem assignShards_congr {gids' : List Gid} {t' : Table} {Q : ShardId → Prop}
    (hgids : ∀ g, g ∈ gids' ↔ g ∈ gids) (h : t.Splits gids P) (h' : t'.Splits gids Q)
    (hs : ∀ g ∈ gids, s ∈ t' g ↔ s ∈ t g) :
    assignShards gids' t' shards s = assignShards gids t shards s := by
  by_cases hmem : ∃ g ∈ gids, s ∈ t g
  · obtain ⟨g, hg, hsg⟩ := hmem
    rw [assignShards_of_mem h.unique hg hsg]
    refine assignShards_of_mem (fun x hx y hy => ?_) ((hgids g).mpr hg) ((hs g hg).mpr hsg)
    exact h'.unique x ((hgids x).mp hx) y ((hgids y).mp hy)
  · have hout : ∀ g ∈ gids, s ∉ t g := fun g hg hsg => hmem ⟨g, hg, hsg⟩
    rw [assignShards_of_not_mem hout]
    refine assignShards_of_not_mem fun g hg hsg => ?_
    exact hout g ((hgids g).mp hg) ((hs g ((hgids g).mp hg)).mp hsg)

end Tables

/-! ### Balance -/

/-- The number of shards assigned to a group. -/
def load (shards : Shards) (gid : Gid) : ℕ :=
  (Finset.univ.filter fun s => shards s = gid).card

/-- Every shard is assigned to a group of the map, and no two groups differ by more than one
    shard. -/
def Balanced (groups : Groups) (shards : Shards) : Prop :=
  (∀ s, shards s ∈ groups.gids) ∧ Level groups.gids.toFinset (load shards)

instance (groups : Groups) (shards : Shards) : Decidable (Balanced groups shards) :=
  inferInstanceAs (Decidable (_ ∧ _))

section Balance

variable {groups : Groups} {t : Table} {P : ShardId → Prop} {shards : Shards}

theorem sizes_groupToShards {gids : List Gid} {g : Gid} (hg : g ∈ gids) :
    (groupToShards gids shards).sizes g = load shards g := by
  have hnodup := (splits_groupToShards gids shards).nodup g hg
  unfold Table.sizes load
  rw [← List.toFinset_card_of_nodup hnodup]
  congr 1
  ext s
  rw [List.mem_toFinset, mem_groupToShards hg, Finset.mem_filter]
  simp

/-- Writing back a table of all shards of the groups gives each group what the table gives it. -/
theorem load_assignShards (h : t.Splits groups.gids P) (hP : ∀ s, ¬ P s → shards s ∉ groups.gids)
    {g : Gid} (hg : g ∈ groups.gids) :
    load (assignShards groups.gids t shards) g = t.sizes g := by
  unfold load Table.sizes
  rw [← List.toFinset_card_of_nodup (h.nodup g hg)]
  congr 1
  ext s
  rw [List.mem_toFinset, Finset.mem_filter]
  constructor
  · rintro ⟨-, hs⟩
    by_cases hPs : P s
    · obtain ⟨g', hg', hmem⟩ := (h.mem s).mpr hPs
      rw [assignShards_of_mem h.unique hg' hmem] at hs
      exact hs ▸ hmem
    · rw [assignShards_of_not_mem fun g' hg' hmem => hPs ((h.mem s).mp ⟨g', hg', hmem⟩)] at hs
      exact absurd (hs ▸ hg) (hP s hPs)
  · intro hs
    exact ⟨Finset.mem_univ s, assignShards_of_mem h.unique hg hs⟩

theorem assignShards_mem_iff (h : t.Splits groups.gids P) (hP : ∀ s, ¬ P s → shards s ∉ groups.gids)
    (s : ShardId) :
    assignShards groups.gids t shards s ∈ groups.gids ↔ P s := by
  constructor
  · intro hs
    by_contra hPs
    rw [assignShards_of_not_mem fun g hg hmem => hPs ((h.mem s).mp ⟨g, hg, hmem⟩)] at hs
    exact hP s hPs hs
  · intro hPs
    obtain ⟨g, hg, hmem⟩ := (h.mem s).mpr hPs
    rw [assignShards_of_mem h.unique hg hmem]
    exact hg

theorem balanced_assignShards_iff (shards : Shards) (h : t.Splits groups.gids P)
    (hP : ∀ s, ¬ P s → shards s ∉ groups.gids) :
    Balanced groups (assignShards groups.gids t shards) ↔
      (∀ s, P s) ∧ Level groups.gids.toFinset t.sizes := by
  have hload (g : Gid) (hg : g ∈ groups.gids.toFinset) :
      load (assignShards groups.gids t shards) g = t.sizes g :=
    load_assignShards h hP (List.mem_toFinset.mp hg)
  refine and_congr (forall_congr' fun s => assignShards_mem_iff h hP s) ?_
  refine forall₂_congr fun g hg => forall₂_congr fun g' hg' => ?_
  rw [hload g hg, hload g' hg']

theorem energy_groupToShards_le (gids : List Gid) (shards : Shards) :
    energy gids.toFinset (groupToShards gids shards).sizes ≤ NShards * NShards := by
  have hle := sum_sizes_le (splits_groupToShards gids shards)
  refine (energy_le_sq _ _).trans ?_
  rw [sq]
  exact Nat.mul_le_mul hle hle

theorem rebalanceShard_levelled (groups : Groups) (shards : Shards) :
    rebalanceShard groups shards true false = assignShards groups.gids
      (levelShards groups.gids (NShards * NShards) (groupToShards groups.gids shards)) shards := by
  unfold rebalanceShard
  rfl

/-- **A `JOIN` next to other groups** gives a balanced configuration exactly if every shard was
    assigned to one of the groups before. -/
theorem balanced_levelled_iff (hne : groups.gids ≠ []) :
    Balanced groups (rebalanceShard groups shards true false) ↔
      ∀ s, shards s ∈ groups.gids := by
  obtain ⟨hsplit, hlevel⟩ := levelShards_spec (splits_groupToShards groups.gids shards) hne
    (energy_groupToShards_le groups.gids shards)
  have hiff := balanced_assignShards_iff shards hsplit fun s hs => hs
  rw [rebalanceShard_levelled, hiff]
  exact and_iff_left hlevel

/-- The table of a `LEAVE` that leaves some group, or of a first `JOIN`. -/
theorem splits_adopted (hne : groups.gids ≠ []) (shards : Shards) :
    (adoptShards groups.gids (orphanShards groups.gids shards)
      (groupToShards groups.gids shards)).Splits groups.gids
        (fun s => shards s ∈ groups.gids ∨ s ∈ orphanShards groups.gids shards) ∧
      (Level groups.gids.toFinset (adoptShards groups.gids (orphanShards groups.gids shards)
          (groupToShards groups.gids shards)).sizes ↔
        Fillable groups.gids.toFinset (groupToShards groups.gids shards).sizes
          (orphanShards groups.gids shards).length) ∧
      ∀ s, shards s ∈ groups.gids ∨ s ∈ orphanShards groups.gids shards := by
  obtain ⟨hsplit, hlevel⟩ := adoptShards_spec hne (nodup_orphanShards groups.gids shards)
    (fun s hs => mem_orphanShards.mp hs) (splits_groupToShards groups.gids shards)
  refine ⟨hsplit, hlevel, fun s => ?_⟩
  rw [mem_orphanShards]
  exact em _

variable {isJoin isFirst : Bool}

theorem rebalanceShard_adopted (hne : groups.gids ≠ []) (hkind : (isJoin && !isFirst) = false) :
    rebalanceShard groups shards isJoin isFirst = assignShards groups.gids
      (adoptShards groups.gids (orphanShards groups.gids shards)
        (groupToShards groups.gids shards)) shards := by
  unfold rebalanceShard
  rw [hkind]
  exact if_pos (List.length_pos_iff.mpr hne)

/-- **A `LEAVE` that leaves some group, or a first `JOIN`,** gives every shard to a group. -/
theorem adopted_mem (hne : groups.gids ≠ []) (hkind : (isJoin && !isFirst) = false) (s : ShardId) :
    rebalanceShard groups shards isJoin isFirst s ∈ groups.gids := by
  obtain ⟨hsplit, -, hall⟩ := splits_adopted hne shards
  rw [rebalanceShard_adopted hne hkind, assignShards_mem_iff hsplit fun s hs => absurd (hall s) hs]
  exact hall s

/-- **A `LEAVE` that leaves some group, or a first `JOIN`,** gives a balanced configuration
    exactly if the shards without a group are enough to level the groups. -/
theorem balanced_adopted_iff (hne : groups.gids ≠ []) (hkind : (isJoin && !isFirst) = false) :
    Balanced groups (rebalanceShard groups shards isJoin isFirst) ↔
      Fillable groups.gids.toFinset (load shards) (orphanShards groups.gids shards).length := by
  obtain ⟨hsplit, hlevel, hall⟩ := splits_adopted hne shards
  have hiff := balanced_assignShards_iff shards hsplit fun s hs => absurd (hall s) hs
  have hsizes : Fillable groups.gids.toFinset (groupToShards groups.gids shards).sizes
      (orphanShards groups.gids shards).length ↔
      Fillable groups.gids.toFinset (load shards) (orphanShards groups.gids shards).length := by
    refine forall₂_congr fun g hg => ?_
    unfold deficit
    rw [Finset.sum_congr rfl fun g' hg' => ?_]
    rw [sizes_groupToShards (List.mem_toFinset.mp hg),
      sizes_groupToShards (List.mem_toFinset.mp hg')]
  rw [rebalanceShard_adopted hne hkind, hiff, ← hsizes]
  exact (and_iff_right hall).trans hlevel

end Balance

end MitDistributed.ShardCtrler
