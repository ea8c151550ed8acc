import Mathlib.Algebra.BigOperators.Group.Finset.Basic
import Mathlib.Algebra.Order.BigOperators.Group.Finset
import Mathlib.InformationTheory.Hamming
import Mathlib.Tactic.Ring
import Mathlib.Tactic.Linarith

namespace MitDistributed.Balance

open Finset Function

/-!
# Leveling loads

Loads `c : ι → ℕ` over a finite set `s`, and the two greedy ways to make them level:

* *filling* puts new items one by one on a least load.  `Fillable s c k` says that `k` items are
  enough, and is exact: one step of filling turns `Fillable s c (k + 1)` into `Fillable s c' k`
  (`fillable_succ`), and with no items left it says that the loads are level (`fillable_zero`).
* *shifting* moves one item from a greatest load to a least one, as long as they differ by two or
  more.  The sum of squares decreases with every step (`Shift.energy_lt`), and so does the number
  of items that have to leave their places on the way to some level loads (`Shift.excess_lt`): no
  other way to level the loads moves fewer items.
-/

variable {ι : Type*} {s : Finset ι} {c : ι → ℕ} {k : ℕ} {g h m : ι}

/-- No two loads differ by more than one. -/
def Level (s : Finset ι) (c : ι → ℕ) : Prop := ∀ g ∈ s, ∀ h ∈ s, c g ≤ c h + 1

instance : Decidable (Level s c) := inferInstanceAs (Decidable (∀ g ∈ s, ∀ h ∈ s, c g ≤ c h + 1))

/-! ### Filling -/

/-- The number of items that bring every load to within one of the load of `g`. -/
def deficit (s : Finset ι) (c : ι → ℕ) (g : ι) : ℕ := ∑ h ∈ s, (c g - 1 - c h)

/-- `k` items are enough to level the loads without moving any. -/
def Fillable (s : Finset ι) (c : ι → ℕ) (k : ℕ) : Prop := ∀ g ∈ s, deficit s c g ≤ k

instance : Decidable (Fillable s c k) := inferInstanceAs (Decidable (∀ g ∈ s, deficit s c g ≤ k))

theorem Fillable.mono {k' : ℕ} (h : Fillable s c k) (hk : k ≤ k') : Fillable s c k' :=
  fun g hg => (h g hg).trans hk

theorem fillable_zero : Fillable s c 0 ↔ Level s c := by
  constructor
  · intro hf g hg h hh
    have hsum : deficit s c g = 0 := Nat.le_zero.mp (hf g hg)
    have hterm := sum_eq_zero_iff.mp hsum h hh
    omega
  · intro hl g hg
    refine Nat.le_zero.mpr (sum_eq_zero fun h hh => ?_)
    have hle := hl g hg h hh
    omega

/-- A least load needs nothing. -/
theorem deficit_least (hmin : ∀ h ∈ s, c m ≤ c h) : deficit s c m = 0 := by
  refine sum_eq_zero fun h hh => ?_
  have hle := hmin h hh
  omega

/-- The load of `m` grows by one item. -/
def put [DecidableEq ι] (c : ι → ℕ) (m : ι) : ι → ℕ := update c m (c m + 1)

section Fill

variable [DecidableEq ι]

@[simp] theorem put_self : put c m m = c m + 1 := update_self _ _ _

@[simp] theorem put_of_ne (hne : g ≠ m) : put c m g = c g := update_of_ne hne _ _

/-- Nor does it when it has grown by one. -/
theorem deficit_put_self (hmin : ∀ h ∈ s, c m ≤ c h) : deficit s (put c m) m = 0 := by
  refine sum_eq_zero fun h hh => ?_
  have hle := hmin h hh
  rcases eq_or_ne h m with rfl | hne
  · rw [put_self]; omega
  · rw [put_self, put_of_ne hne]; omega

/-- Filling the least load takes one off the deficit, as long as there is any. -/
theorem deficit_put (hm : m ∈ s) (hmin : ∀ h ∈ s, c m ≤ c h) (hne : g ≠ m) :
    deficit s (put c m) g = deficit s c g - 1 := by
  have hrest : ∑ h ∈ s.erase m, (put c m g - 1 - put c m h) =
      ∑ h ∈ s.erase m, (c g - 1 - c h) := by
    refine sum_congr rfl fun h hh => ?_
    rw [put_of_ne hne, put_of_ne (ne_of_mem_erase hh)]
  unfold deficit
  rw [← add_sum_erase s _ hm, ← add_sum_erase s (fun h => c g - 1 - c h) hm, hrest,
    put_of_ne hne, put_self]
  by_cases hlow : c m < c g - 1
  · omega
  · -- the least load is high enough, so all are
    have hzero : ∑ h ∈ s.erase m, (c g - 1 - c h) = 0 := by
      refine sum_eq_zero fun h hh => ?_
      have hle := hmin h (mem_of_mem_erase hh)
      omega
    omega

/-- **Filling, step.** Putting an item on a least load is one step towards level loads. -/
theorem fillable_succ (hm : m ∈ s) (hmin : ∀ h ∈ s, c m ≤ c h) :
    Fillable s c (k + 1) ↔ Fillable s (put c m) k := by
  constructor
  · intro hf g hg
    rcases eq_or_ne g m with rfl | hne
    · rw [deficit_put_self hmin]; exact Nat.zero_le k
    · have hle := hf g hg
      rw [deficit_put hm hmin hne]
      omega
  · intro hf g hg
    rcases eq_or_ne g m with rfl | hne
    · rw [deficit_least hmin]; exact Nat.zero_le _
    · have hle := hf g hg
      rw [deficit_put hm hmin hne] at hle
      omega

end Fill

/-! ### Shifting -/

/-- One item moves from `g` to `m`, which has at least two items less. -/
structure Shift (s : Finset ι) (c c' : ι → ℕ) (g m : ι) : Prop where
  src : g ∈ s
  dst : m ∈ s
  gap : c m + 1 < c g
  src_eq : c' g + 1 = c g
  dst_eq : c' m = c m + 1
  rest : ∀ h ∈ s, h ≠ g → h ≠ m → c' h = c h

/-- The sum of the squares of the loads. -/
def energy (s : Finset ι) (c : ι → ℕ) : ℕ := ∑ h ∈ s, c h ^ 2

namespace Shift

variable {c' b : ι → ℕ}

theorem ne (hs : Shift s c c' g m) : m ≠ g := by
  have hgap := hs.gap
  rintro rfl
  omega

/-- What a shift does to a sum over the loads. -/
theorem sum_eq [DecidableEq ι] (hs : Shift s c c' g m) (f : ℕ → ℕ) :
    ∑ h ∈ s, f (c' h) + (f (c g) + f (c m)) = ∑ h ∈ s, f (c h) + (f (c' g) + f (c' m)) := by
  have hm' : m ∈ s.erase g := mem_erase.mpr ⟨hs.ne, hs.dst⟩
  have hsum : ∑ h ∈ (s.erase g).erase m, f (c' h) = ∑ h ∈ (s.erase g).erase m, f (c h) := by
    refine sum_congr rfl fun h hh => ?_
    obtain ⟨hhm, hh'⟩ := mem_erase.mp hh
    obtain ⟨hhg, hhs⟩ := mem_erase.mp hh'
    rw [hs.rest h hhs hhg hhm]
  rw [← add_sum_erase s _ hs.src, ← add_sum_erase (s.erase g) _ hm', hsum,
    ← add_sum_erase s (fun h => f (c h)) hs.src,
    ← add_sum_erase (s.erase g) (fun h => f (c h)) hm']
  omega

/-- No item is lost. -/
theorem sum_loads [DecidableEq ι] (hs : Shift s c c' g m) :
    ∑ h ∈ s, c' h = ∑ h ∈ s, c h := by
  have hsum := hs.sum_eq id
  have hsrc := hs.src_eq
  have hdst := hs.dst_eq
  simp only [id_eq] at hsum
  omega

/-- **Shifting, step.** A shift lowers the energy. -/
theorem energy_lt [DecidableEq ι] (hs : Shift s c c' g m) : energy s c' < energy s c := by
  have hsum := hs.sum_eq (· ^ 2)
  have hgap := hs.gap
  have hsrc := hs.src_eq
  obtain ⟨d, hd⟩ : ∃ d, c' g = c m + 1 + d := ⟨c' g - (c m + 1), by omega⟩
  have hsq : c' g ^ 2 + c' m ^ 2 < c g ^ 2 + c m ^ 2 := by
    rw [hs.dst_eq, ← hsrc, hd]
    ring_nf
    nlinarith
  unfold energy
  omega

end Shift

/-- The energy is at most the square of the number of items, which bounds the number of shifts. -/
theorem energy_le_sq (s : Finset ι) (c : ι → ℕ) : energy s c ≤ (∑ h ∈ s, c h) ^ 2 := by
  classical
  induction s using Finset.induction_on with
  | empty => simp [energy]
  | @insert h s hh ih =>
    unfold energy at ih ⊢
    rw [sum_insert hh, sum_insert hh]
    calc c h ^ 2 + ∑ x ∈ s, c x ^ 2 ≤ c h ^ 2 + (∑ x ∈ s, c x) ^ 2 := Nat.add_le_add_left ih _
      _ ≤ (c h + ∑ x ∈ s, c x) ^ 2 := by
        have hsq : (c h + ∑ x ∈ s, c x) ^ 2 =
            c h ^ 2 + (∑ x ∈ s, c x) ^ 2 + 2 * (c h * ∑ x ∈ s, c x) := by ring
        omega

/-! ### Fewest moves -/

/-- The items that have to leave their places to get from the loads `c` to the loads `b`. -/
def excess (s : Finset ι) (c b : ι → ℕ) : ℕ := ∑ h ∈ s, (c h - b h)

section Excess

variable [DecidableEq ι] {b c' : ι → ℕ}

/-- Exchanging two goals keeps the sum, and if their loads are equal it keeps the excess too. -/
theorem level_swap (hl : Level s b) (hg : g ∈ s) (hh : h ∈ s) (heq : c g = c h) :
    Level s (b ∘ Equiv.swap g h) ∧ ∑ x ∈ s, (b ∘ Equiv.swap g h) x = ∑ x ∈ s, b x ∧
      excess s c (b ∘ Equiv.swap g h) = excess s c b := by
  have hmem {x : ι} (hx : x ∈ s) : Equiv.swap g h x ∈ s := by
    rw [Equiv.swap_apply_def]
    split_ifs <;> assumption
  have hmoved : {x | Equiv.swap g h x ≠ x} ⊆ (s : Set ι) := by
    intro x hx
    rcases (Equiv.swap_apply_ne_self_iff.mp hx).2 with rfl | rfl
    · exact hg
    · exact hh
  have hc (x : ι) : c (Equiv.swap g h x) = c x := by
    rw [Equiv.swap_apply_def]
    split_ifs with hxg hxh
    · rw [hxg, heq]
    · rw [hxh, heq]
    · rfl
  refine ⟨fun x hx y hy => hl _ (hmem hx) _ (hmem hy), Equiv.Perm.sum_comp _ s b hmoved, ?_⟩
  calc excess s c (b ∘ Equiv.swap g h)
      = ∑ x ∈ s, (c (Equiv.swap g h x) - b (Equiv.swap g h x)) :=
        sum_congr rfl fun x _ => by rw [hc x, Function.comp_apply]
    _ = excess s c b := Equiv.Perm.sum_comp _ s (fun x => c x - b x) hmoved

/-- Level goals can be chosen so that the fullest place loses an item. -/
theorem exists_level_src (hl : Level s b) (hsum : ∑ x ∈ s, b x = ∑ x ∈ s, c x) (hg : g ∈ s)
    (hmax : ∀ x ∈ s, c x ≤ c g) (hm : m ∈ s) (hgap : c m + 1 < c g) :
    ∃ b', Level s b' ∧ ∑ x ∈ s, b' x = ∑ x ∈ s, c x ∧ excess s c b' = excess s c b ∧
      b' g < c g := by
  by_cases hlt : b g < c g
  · exact ⟨b, hl, hsum, rfl, hlt⟩
  -- otherwise another of the fullest places loses one, and the two can be exchanged
  obtain ⟨h, hh, hlow⟩ : ∃ h ∈ s, b h < c h := by
    by_contra hall
    have hle : ∀ x ∈ s, c x ≤ b x := fun x hx => not_lt.mp fun hx' => hall ⟨x, hx, hx'⟩
    have hmlt : c m < b m := by have := hl g hg m hm; omega
    have := sum_lt_sum hle ⟨m, hm, hmlt⟩
    omega
  have hgh := hl g hg h hh
  have hch := hmax h hh
  obtain ⟨hlevel, hsum', hexcess⟩ := level_swap hl hg hh (c := c) (by omega)
  refine ⟨_, hlevel, hsum'.trans hsum, hexcess, ?_⟩
  rw [Function.comp_apply, Equiv.swap_apply_left]
  omega

/-- Level goals can be chosen so that the emptiest place gains an item. -/
theorem exists_level_dst (hl : Level s b) (hsum : ∑ x ∈ s, b x = ∑ x ∈ s, c x) (hm : m ∈ s)
    (hmin : ∀ x ∈ s, c m ≤ c x) (hg : g ∈ s) (hgap : c m + 1 < c g) :
    ∃ b', Level s b' ∧ ∑ x ∈ s, b' x = ∑ x ∈ s, c x ∧ excess s c b' = excess s c b ∧
      c m < b' m ∧ b' g = b g := by
  by_cases hlt : c m < b m
  · exact ⟨b, hl, hsum, rfl, hlt, rfl⟩
  obtain ⟨h, hh, hhigh⟩ : ∃ h ∈ s, c h < b h := by
    by_contra hall
    have hle : ∀ x ∈ s, b x ≤ c x := fun x hx => not_lt.mp fun hx' => hall ⟨x, hx, hx'⟩
    have hglt : b g < c g := by have := hl g hg m hm; omega
    have := sum_lt_sum hle ⟨g, hg, hglt⟩
    omega
  have hhm := hl h hh m hm
  have hch := hmin h hh
  obtain ⟨hlevel, hsum', hexcess⟩ := level_swap hl hm hh (c := c) (by omega)
  have hgm : g ≠ m := by rintro rfl; omega
  have hgh : g ≠ h := by rintro rfl; omega
  refine ⟨_, hlevel, hsum'.trans hsum, hexcess, ?_, ?_⟩
  · rw [Function.comp_apply, Equiv.swap_apply_left]
    omega
  · rw [Function.comp_apply, Equiv.swap_apply_of_ne_of_ne hgm hgh]

/-- **Fewest moves, step.** Whatever level loads one wants to get to, after a shift from a
    fullest to an emptiest place some level loads are nearer. -/
theorem Shift.excess_lt (hs : Shift s c c' g m) (hmax : ∀ x ∈ s, c x ≤ c g)
    (hmin : ∀ x ∈ s, c m ≤ c x) (hl : Level s b) (hsum : ∑ x ∈ s, b x = ∑ x ∈ s, c x) :
    ∃ b', Level s b' ∧ ∑ x ∈ s, b' x = ∑ x ∈ s, c' x ∧ excess s c' b' < excess s c b := by
  obtain ⟨b₁, hl₁, hsum₁, hexcess₁, hsrc⟩ := exists_level_src hl hsum hs.src hmax hs.dst hs.gap
  obtain ⟨b₂, hl₂, hsum₂, hexcess₂, hdst, hsame⟩ :=
    exists_level_dst hl₁ hsum₁ hs.dst hmin hs.src hs.gap
  refine ⟨b₂, hl₂, hsum₂.trans hs.sum_loads.symm, ?_⟩
  rw [← hexcess₁, ← hexcess₂]
  have hsrc' := hs.src_eq
  refine sum_lt_sum (fun x hx => ?_) ⟨g, hs.src, by omega⟩
  rcases eq_or_ne x g with rfl | hxg
  · omega
  · rcases eq_or_ne x m with rfl | hxm
    · have hdst' := hs.dst_eq
      omega
    · rw [hs.rest x hx hxg hxm]

end Excess

/-! ### Placements -/

section Placements

variable {κ : Type*} [Fintype κ] [DecidableEq ι]

/-- How many items a placement puts at `g`. -/
def count (f : κ → ι) (g : ι) : ℕ := (univ.filter fun x => f x = g).card

theorem sum_count {f : κ → ι} (hf : ∀ x, f x ∈ s) : ∑ g ∈ s, count f g = Fintype.card κ :=
  (card_eq_sum_card_fiberwise fun x _ => hf x).symm

/-- The items that have to leave their places do so in every other placement with those loads. -/
theorem excess_count_le (f f' : κ → ι) : excess s (count f) (count f') ≤ hammingDist f f' := by
  classical
  have hterm (g : ι) : count f g - count f' g ≤
      ((univ.filter fun x => f x ≠ f' x).filter fun x => f x = g).card := by
    have hsub : (univ.filter fun x => f x = g) ⊆
        ((univ.filter fun x => f x ≠ f' x).filter fun x => f x = g) ∪
          univ.filter fun x => f' x = g := by
      intro x hx
      have hxg : f x = g := (mem_filter.mp hx).2
      by_cases hsame : f x = f' x
      · exact mem_union_right _ (mem_filter.mpr ⟨mem_univ x, hsame ▸ hxg⟩)
      · exact mem_union_left _ (mem_filter.mpr ⟨mem_filter.mpr ⟨mem_univ x, hsame⟩, hxg⟩)
    have hle := (card_le_card hsub).trans (card_union_le _ _)
    unfold count
    omega
  calc excess s (count f) (count f')
      ≤ ∑ g ∈ s, ((univ.filter fun x => f x ≠ f' x).filter fun x => f x = g).card :=
        sum_le_sum fun g _ => hterm g
    _ = ((univ.filter fun x => f x ≠ f' x).filter fun x => f x ∈ s).card :=
        sum_card_fiberwise_eq_card_filter _ s f
    _ ≤ hammingDist f f' := card_filter_le _ _

end Placements

end MitDistributed.Balance
