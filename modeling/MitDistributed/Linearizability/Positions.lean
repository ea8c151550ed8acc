import MitDistributed.Linearizability.History

namespace MitDistributed.Linearizability

open Transition

/-!
# Operations that take effect at positions of a log

A service that performs its operations in the order of a log is linearizable if every operation has
a position of its own in it, and the positions agree with real time (`linearizable_of_positions`).
The log may have other entries.
-/

variable {ι σ : Type*} {step : σ → ι → Option σ} {before : ι → ι → Prop} {ops : List ι}
  {pos : ι → ℕ} {n p : ℕ} {s : σ}

/-- The operations at the first `n` positions. -/
def placed (ops : List ι) (pos : ι → ℕ) (n : ℕ) : List ι :=
  (List.range n).filterMap fun p => ops.find? fun i => pos i = p

theorem placed_succ :
    placed ops pos (n + 1) = placed ops pos n ++ (ops.find? fun i => pos i = n).toList := by
  rw [placed, List.range_succ, List.filterMap_append, ← placed]
  cases h : ops.find? fun i => pos i = n <;> simp [h]

theorem mem_of_find?_pos {i : ι} (h : (ops.find? fun i => pos i = p) = some i) :
    i ∈ ops ∧ pos i = p :=
  ⟨List.mem_of_find?_eq_some h, by simpa using List.find?_some h⟩

theorem find?_pos {i : ι} (hinj : ∀ i ∈ ops, ∀ j ∈ ops, pos i = pos j → i = j) (hi : i ∈ ops) :
    (ops.find? fun j => pos j = pos i) = some i := by
  obtain ⟨j, hj⟩ : ∃ j, (ops.find? fun j => decide (pos j = pos i)) = some j := by
    rw [← Option.isSome_iff_exists, List.find?_isSome]
    exact ⟨i, hi, decide_eq_true rfl⟩
  obtain ⟨hmem, hpos⟩ := mem_of_find?_pos hj
  rw [hj, hinj j hmem i hi hpos]

theorem pairwise_placed : (placed ops pos n).Pairwise fun i j => pos i < pos j := by
  refine List.Pairwise.filterMap _ (fun p q hpq i hi j hj => ?_) List.pairwise_lt_range
  rw [(mem_of_find?_pos hi).2, (mem_of_find?_pos hj).2]
  exact hpq

theorem placed_perm (hnodup : ops.Nodup) (hlt : ∀ i ∈ ops, pos i < n)
    (hinj : ∀ i ∈ ops, ∀ j ∈ ops, pos i = pos j → i = j) : (placed ops pos n).Perm ops := by
  have hplaced : (placed ops pos n).Nodup :=
    pairwise_placed.imp fun {i j} h heq => (heq ▸ h).ne rfl
  refine (List.perm_ext_iff_of_nodup hplaced hnodup).mpr fun i => ?_
  rw [placed, List.mem_filterMap]
  constructor
  · rintro ⟨p, -, hi⟩
    exact (mem_of_find?_pos hi).1
  · intro hi
    exact ⟨pos i, List.mem_range.mpr (hlt i hi), find?_pos hinj hi⟩

/-- **Positions of a log.** `R p` relates the first `p` entries of the log to states of the object:
    the entry at the position of an operation performs the operation, and the others do nothing. -/
theorem linearizable_of_positions (hnodup : ops.Nodup) (hlt : ∀ i ∈ ops, pos i < n)
    (hinj : ∀ i ∈ ops, ∀ j ∈ ops, pos i = pos j → i = j)
    (hbefore : ∀ i ∈ ops, ∀ j ∈ ops, before i j → pos i < pos j) {R : ℕ → σ → Prop} (h0 : R 0 s)
    (hperform : ∀ i ∈ ops, ∀ s, R (pos i) s → ∃ s', step s i = some s' ∧ R (pos i + 1) s')
    (hskip : ∀ p < n, (∀ i ∈ ops, pos i ≠ p) → ∀ s, R p s → R (p + 1) s) :
    Linearizable step before s ops := by
  have hexec (p : ℕ) (hp : p ≤ n) : ∃ s', exec step s (placed ops pos p) = some s' ∧ R p s' := by
    induction p with
    | zero => exact ⟨s, rfl, h0⟩
    | succ p ih =>
      obtain ⟨t, ht, hR⟩ := ih (Nat.le_of_succ_le hp)
      rw [placed_succ, exec_append, ht]
      cases hfind : ops.find? fun i => pos i = p with
      | none =>
        refine ⟨t, rfl, hskip p hp (fun i hi hpos => ?_) t hR⟩
        simpa [hpos] using List.find?_eq_none.mp hfind i hi
      | some i =>
        obtain ⟨hi, rfl⟩ := mem_of_find?_pos hfind
        obtain ⟨t', ht', hR'⟩ := hperform i hi t hR
        exact ⟨t', by simp [exec, ht'], hR'⟩
  obtain ⟨t, ht, -⟩ := hexec n le_rfl
  have hperm := placed_perm hnodup hlt hinj
  refine ⟨placed ops pos n, hperm, ?_, by rw [ht, Option.isSome_some]⟩
  refine pairwise_placed.imp_of_mem fun {i j} hi hj hij hji => ?_
  exact lt_asymm hij (hbefore j (hperm.subset hj) i (hperm.subset hi) hji)

end MitDistributed.Linearizability
