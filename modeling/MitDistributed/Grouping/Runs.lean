import Mathlib.Data.List.Nodup
import Mathlib.Data.List.Perm.Basic
import Mathlib.Order.Lattice
import Mathlib.Tactic.Common

namespace MitDistributed.Grouping

/-!
# Groups of equal keys in a sorted list

One pass over a list that collects neighbours with the same key.  On a list that is sorted by key
every key makes one group, with all its values (`groups_spec`).

Lists that are split by a function of the key have, together, the groups of the whole
(`Split.perm_keys`), each with the values it has there up to their order (`Split.values_perm`).
-/

variable {α κ ν : Type*}

section Groups

variable [DecidableEq κ] (key : α → κ) (val : α → ν)

/-- Collect values for `k` until the key changes. -/
def groupLoop (k : κ) (vs : List ν) : List α → List (κ × List ν)
  | [] => [(k, vs)]
  | x :: xs =>
    if key x = k then groupLoop k (vs ++ [val x]) xs
    else (k, vs) :: groupLoop (key x) [val x] xs

/-- The groups of neighbours with the same key. -/
def groups : List α → List (κ × List ν)
  | [] => []
  | x :: xs => groupLoop key val (key x) [val x] xs

/-- All values of a key. -/
def values (k : κ) (l : List α) : List ν := (l.filter fun x => key x = k).map val

variable {key val} {k : κ} {x : α} {l l' : List α}

@[simp] theorem values_nil : values key val k [] = [] := rfl

theorem values_cons_of_eq (h : key x = k) :
    values key val k (x :: l) = val x :: values key val k l := by
  simp [values, h]

theorem values_cons_of_ne (h : key x ≠ k) : values key val k (x :: l) = values key val k l := by
  simp [values, h]

theorem values_eq_nil (h : ∀ y ∈ l, key y ≠ k) : values key val k l = [] := by
  rw [values, List.filter_eq_nil_iff.mpr fun y hy => by simpa using h y hy, List.map_nil]

theorem values_perm (h : l.Perm l') : (values key val k l).Perm (values key val k l') :=
  (h.filter _).map val

/-- The loop takes the values up to the next key and starts again there. -/
theorem groupLoop_eq (k : κ) (vs : List ν) (l : List α) :
    groupLoop key val k vs l =
      (k, vs ++ (l.takeWhile fun x => key x = k).map val) ::
        groups key val (l.dropWhile fun x => key x = k) := by
  induction l generalizing vs with
  | nil => simp [groupLoop, groups]
  | cons x l ih =>
    unfold groupLoop
    by_cases hx : key x = k
    · rw [if_pos hx, ih, List.takeWhile_cons_of_pos (by simpa using hx),
        List.dropWhile_cons_of_pos (by simpa using hx), List.map_cons, List.append_assoc]
      rfl
    · rw [if_neg hx, List.takeWhile_cons_of_neg (by simpa using hx),
        List.dropWhile_cons_of_neg (by simpa using hx), List.map_nil, List.append_nil]
      rfl

end Groups

/-! ### Sorted lists -/

section Sorted

variable [LinearOrder κ] {key : α → κ} {val : α → ν}

/-- The list is sorted by key; equal keys may stand in any order. -/
def Sorted (key : α → κ) (l : List α) : Prop := l.Pairwise fun a b => key a ≤ key b

/-- The groups of `l`, one for each key, in increasing order. -/
structure GroupsOf (key : α → κ) (val : α → ν) (l : List α) (gs : List (κ × List ν)) : Prop where
  increasing : (gs.map Prod.fst).Pairwise (· < ·)
  values : ∀ g ∈ gs, g.2 = values key val g.1 l
  mem_keys : ∀ k, k ∈ gs.map Prod.fst ↔ k ∈ l.map key

/-- What the loop returns when it has the values `vs` for `k` and nothing smaller is to come. -/
theorem groupLoop_spec {k : κ} (vs : List ν) {l : List α} (hl : Sorted key l)
    (hk : ∀ x ∈ l, k ≤ key x) :
    ((groupLoop key val k vs l).map Prod.fst).Pairwise (· < ·) ∧
    (∀ g ∈ groupLoop key val k vs l,
      g.1 = k ∧ g.2 = vs ++ values key val k l ∨ k < g.1 ∧ g.2 = values key val g.1 l) ∧
    ∀ j, j ∈ (groupLoop key val k vs l).map Prod.fst ↔ j = k ∨ j ∈ l.map key := by
  induction l generalizing k vs with
  | nil => simp [groupLoop]
  | cons x l ih =>
    obtain ⟨hx, hl⟩ := List.pairwise_cons.mp hl
    obtain ⟨hkx, hkl⟩ := List.forall_mem_cons.mp hk
    unfold groupLoop
    split
    · -- one more value for `k`
      rename_i heq
      obtain ⟨hinc, hval, hmem⟩ := ih (vs ++ [val x]) hl hkl
      refine ⟨hinc, fun g hg => ?_, fun j => ?_⟩
      · rcases hval g hg with ⟨hgk, hg2⟩ | ⟨hlt, hg2⟩
        · exact .inl ⟨hgk, by rw [hg2, values_cons_of_eq heq, List.append_assoc]; rfl⟩
        · exact .inr ⟨hlt, by rw [hg2, values_cons_of_ne (heq ▸ hlt.ne)]⟩
      · rw [hmem, List.map_cons, List.mem_cons, heq]
        tauto
    · -- the group of `k` is complete
      rename_i hne
      have hlt : k < key x := lt_of_le_of_ne hkx (Ne.symm hne)
      obtain ⟨hinc, hval, hmem⟩ := ih [val x] hl hx
      have hlow : ∀ g ∈ groupLoop key val (key x) [val x] l, key x ≤ g.1 := fun g hg =>
        (hval g hg).elim (fun h => h.1.ge) fun h => h.1.le
      refine ⟨?_, fun g hg => ?_, fun j => ?_⟩
      · rw [List.map_cons, List.pairwise_cons]
        refine ⟨fun j hj => ?_, hinc⟩
        obtain ⟨g, hg, rfl⟩ := List.mem_map.mp hj
        exact hlt.trans_le (hlow g hg)
      · rcases List.mem_cons.mp hg with rfl | hg
        · have hnone : values key val k (x :: l) = [] := values_eq_nil fun y hy => by
            rcases List.mem_cons.mp hy with rfl | hy
            · exact hne
            · exact (hlt.trans_le (hx y hy)).ne'
          exact .inl ⟨rfl, by rw [hnone, List.append_nil]⟩
        · refine .inr ⟨hlt.trans_le (hlow g hg), ?_⟩
          rcases hval g hg with ⟨hgk, hg2⟩ | ⟨hgt, hg2⟩
          · rw [hg2, hgk, values_cons_of_eq rfl]
            rfl
          · rw [hg2, values_cons_of_ne hgt.ne]
      · rw [List.map_cons, List.mem_cons, hmem, List.map_cons, List.mem_cons]

/-- **The groups of a sorted list.** -/
theorem groups_spec {l : List α} (hl : Sorted key l) : GroupsOf key val l (groups key val l) := by
  cases l with
  | nil => exact ⟨List.Pairwise.nil, fun g hg => absurd hg List.not_mem_nil, fun k => Iff.rfl⟩
  | cons x l =>
    obtain ⟨hx, hl⟩ := List.pairwise_cons.mp hl
    obtain ⟨hinc, hval, hmem⟩ := groupLoop_spec [val x] hl hx
    refine ⟨hinc, fun g hg => ?_, fun k => ?_⟩
    · rcases hval g hg with ⟨hgk, hg2⟩ | ⟨hgt, hg2⟩
      · rw [hg2, hgk, values_cons_of_eq rfl]
        rfl
      · rw [hg2, values_cons_of_ne hgt.ne]
    · rw [List.map_cons, List.mem_cons]
      exact hmem k

/-- No key has two groups. -/
theorem GroupsOf.nodup_keys {l : List α} {gs : List (κ × List ν)} (h : GroupsOf key val l gs) :
    (gs.map Prod.fst).Nodup :=
  h.increasing.imp fun hlt => hlt.ne

/-- A key of the list has exactly one group, with all its values. -/
theorem GroupsOf.filter_eq {l : List α} {gs : List (κ × List ν)} (h : GroupsOf key val l gs) {k : κ}
    (hk : k ∈ l.map key) :
    gs.filter (fun g => g.1 = k) = [(k, Grouping.values key val k l)] := by
  obtain ⟨⟨j, vs⟩, hg, rfl⟩ := List.mem_map.mp ((h.mem_keys k).mpr hk)
  obtain ⟨as, bs, rfl⟩ := List.append_of_mem hg
  have hvs : vs = Grouping.values key val j l := h.values _ hg
  have hnd := h.nodup_keys
  rw [List.map_append, List.map_cons, List.nodup_append, List.nodup_cons] at hnd
  obtain ⟨-, ⟨hbs, -⟩, has⟩ := hnd
  -- neither side of the group has the key again
  have hleft : as.filter (fun g => g.1 = j) = [] := List.filter_eq_nil_iff.mpr fun g hgas => by
    simpa using has g.1 (List.mem_map_of_mem hgas) j (List.mem_cons_self ..)
  have hright : bs.filter (fun g => g.1 = j) = [] := List.filter_eq_nil_iff.mpr fun g hgbs => by
    have hmem : g.1 ∈ bs.map Prod.fst := List.mem_map_of_mem hgbs
    have hne : g.1 ≠ j := fun heq => hbs (heq ▸ hmem)
    simpa using hne
  rw [List.filter_append, List.filter_cons_of_pos (by simp), hleft, hright, hvs, List.nil_append]

end Sorted

/-! ### Lists split by their keys -/

section Split

/-- `parts 0`, …, `parts (n - 1)` are the elements of `all`, split by `bucket` of the key; the
    order inside a part is free. -/
structure Split (key : α → κ) (bucket : κ → ℕ) (n : ℕ) (all : List α) (parts : ℕ → List α) :
    Prop where
  bound : ∀ x ∈ all, bucket (key x) < n
  perm : ∀ r < n, (parts r).Perm (all.filter fun x => bucket (key x) = r)

namespace Split

variable {key : α → κ} {bucket : κ → ℕ} {n : ℕ} {all : List α} {parts : ℕ → List α}

theorem mem_keys (h : Split key bucket n all parts) {r : ℕ} (hr : r < n) {k : κ} :
    k ∈ (parts r).map key ↔ k ∈ all.map key ∧ bucket k = r := by
  rw [((h.perm r hr).map key).mem_iff]
  constructor
  · intro hk
    obtain ⟨x, hx, rfl⟩ := List.mem_map.mp hk
    rw [List.mem_filter, decide_eq_true_eq] at hx
    exact ⟨List.mem_map_of_mem hx.1, hx.2⟩
  · rintro ⟨hk, hb⟩
    obtain ⟨x, hx, rfl⟩ := List.mem_map.mp hk
    exact List.mem_map_of_mem (List.mem_filter.mpr ⟨hx, decide_eq_true hb⟩)

theorem bucket_lt (h : Split key bucket n all parts) {k : κ} (hk : k ∈ all.map key) :
    bucket k < n := by
  obtain ⟨x, hx, rfl⟩ := List.mem_map.mp hk
  exact h.bound x hx

/-- The part of a key has all its values. -/
theorem values_perm [DecidableEq κ] (h : Split key bucket n all parts) (val : α → ν) {k : κ}
    (hk : bucket k < n) :
    (values key val k (parts (bucket k))).Perm (values key val k all) := by
  have hfilter : values key val k (all.filter fun x => bucket (key x) = bucket k) =
      values key val k all := by
    unfold values
    rw [List.filter_filter]
    congr 1
    refine List.filter_congr fun x _ => ?_
    by_cases hx : key x = k <;> simp [hx]
  exact hfilter ▸ Grouping.values_perm (h.perm _ hk)

variable [LinearOrder κ] {val : α → ν} {gs : List (κ × List ν)} {part : ℕ → List (κ × List ν)}

/-- The groups of the parts have, together, the keys of the groups of the whole. -/
theorem perm_keys (h : Split key bucket n all parts)
    (hpart : ∀ r < n, GroupsOf key val (parts r) (part r)) (hgs : GroupsOf key val all gs) :
    ((List.range n).flatMap fun r => (part r).map Prod.fst).Perm (gs.map Prod.fst) := by
  have hmem : ∀ r < n, ∀ k, k ∈ (part r).map Prod.fst ↔ k ∈ all.map key ∧ bucket k = r :=
    fun r hr k => ((hpart r hr).mem_keys k).trans (h.mem_keys hr)
  rw [List.perm_ext_iff_of_nodup _ hgs.nodup_keys]
  · intro k
    rw [List.mem_flatMap, hgs.mem_keys]
    constructor
    · rintro ⟨r, hr, hk⟩
      exact ((hmem r (List.mem_range.mp hr) k).mp hk).1
    · intro hk
      have hlt := h.bucket_lt hk
      exact ⟨bucket k, List.mem_range.mpr hlt, (hmem _ hlt k).mpr ⟨hk, rfl⟩⟩
  · -- a key is in no two parts
    rw [List.nodup_flatMap]
    refine ⟨fun r hr => (hpart r (List.mem_range.mp hr)).nodup_keys, ?_⟩
    refine List.nodup_range.pairwise_of_forall_ne fun r hr s hs hne k hkr hks => hne ?_
    rw [← ((hmem r (List.mem_range.mp hr) k).mp hkr).2,
      ← ((hmem s (List.mem_range.mp hs) k).mp hks).2]

/-- **Grouping the parts is grouping the whole**, for a result that does not depend on the order
    of a key's values. -/
theorem perm_results {τ : Type*} (h : Split key bucket n all parts)
    (hpart : ∀ r < n, GroupsOf key val (parts r) (part r)) (hgs : GroupsOf key val all gs)
    {f : κ → List ν → τ} (hf : ∀ k vs vs', vs.Perm vs' → f k vs = f k vs') :
    ((List.range n).flatMap fun r => (part r).map fun g => f g.1 g.2).Perm
      (gs.map fun g => f g.1 g.2) := by
  -- on both sides the result of a group is a function of its key alone
  have hwhole : (gs.map fun g => f g.1 g.2) =
      (gs.map Prod.fst).map fun k => f k (values key val k all) := by
    rw [List.map_map]
    exact List.map_congr_left fun g hg => congrArg (f g.1) (hgs.values g hg)
  have hparts : ((List.range n).flatMap fun r => (part r).map fun g => f g.1 g.2) =
      ((List.range n).flatMap fun r => (part r).map Prod.fst).map
        fun k => f k (values key val k all) := by
    rw [List.map_flatMap]
    refine List.flatMap_congr fun r hr => ?_
    have hr := List.mem_range.mp hr
    rw [List.map_map]
    refine List.map_congr_left fun g hg => ?_
    have hkey := ((hpart r hr).mem_keys g.1).mp (List.mem_map_of_mem hg)
    have hbucket := ((h.mem_keys hr).mp hkey).2
    have hperm := h.values_perm val (hbucket.trans_lt hr)
    rw [hbucket] at hperm
    exact hf _ _ _ ((hpart r hr).values g hg ▸ hperm)
  rw [hwhole, hparts]
  exact (h.perm_keys hpart hgs).map _

end Split

end Split

end MitDistributed.Grouping
