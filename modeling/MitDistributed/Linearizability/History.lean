import Mathlib.Data.List.Dedup
import Mathlib.Data.List.Flatten
import Mathlib.Data.List.Nodup
import Mathlib.Data.List.Perm.Basic
import Mathlib.Logic.Function.Basic
import Mathlib.Order.MinMax
import MitDistributed.Transition.Run

namespace MitDistributed.Linearizability

open Function Transition

/-!
# Linearizable histories

Operations `i : ι` that were called and returned, against an object given by a partial step
function: `step s i` is `none` where the object in state `s` could not have answered `i` as it was
answered.  `before i j` says that `i` had returned when `j` was called.

* `Linearization` — an order of the operations that the object could have performed and that does
  not contradict `before`;
* `linearizable_iff_exists_first` — the same one operation at a time: some operation that none of
  the others precedes comes first;
* `exists_points` — an order that does not contradict real time puts every operation at a point
  between its call and its return;
* `linearizable_partsStep_iff` — an object made of independent parts is linearizable exactly if
  every part is.
-/

variable {ι σ : Type*}

/-- The operations in an order that the object could have performed from state `s`. -/
structure Linearization (step : σ → ι → Option σ) (before : ι → ι → Prop) (s : σ)
    (ops order : List ι) : Prop where
  perm : order.Perm ops
  realTime : order.Pairwise fun i j => ¬ before j i
  legal : (exec step s order).isSome = true

def Linearizable (step : σ → ι → Option σ) (before : ι → ι → Prop) (s : σ) (ops : List ι) : Prop :=
  ∃ order, Linearization step before s ops order

variable {step : σ → ι → Option σ} {before : ι → ι → Prop} {s s' : σ} {ops order : List ι} {i : ι}

theorem isSome_exec_cons {rest : List ι} :
    (exec step s (i :: rest)).isSome = true ↔
      ∃ s', step s i = some s' ∧ (exec step s' rest).isSome = true := by
  rw [exec]
  cases step s i with
  | none => simp
  | some s' => simp

/-- Only what comes before what among the operations matters. -/
theorem linearizable_congr {before' : ι → ι → Prop}
    (h : ∀ i ∈ ops, ∀ j ∈ ops, (before i j ↔ before' i j)) :
    Linearizable step before s ops ↔ Linearizable step before' s ops := by
  refine exists_congr fun order => ⟨fun ho => ⟨ho.perm, ?_, ho.legal⟩,
    fun ho => ⟨ho.perm, ?_, ho.legal⟩⟩
  · refine ho.realTime.imp_of_mem fun {i j} hi hj hij => ?_
    rwa [← h j (ho.perm.subset hj) i (ho.perm.subset hi)]
  · refine ho.realTime.imp_of_mem fun {i j} hi hj hij => ?_
    rwa [h j (ho.perm.subset hj) i (ho.perm.subset hi)]

/-- The names of the operations do not matter. -/
theorem linearizable_map {κ : Type*} (f : κ → ι) {names : List κ} :
    Linearizable step before s (names.map f) ↔
      Linearizable (fun s k => step s (f k)) (fun k l => before (f k) (f l)) s names := by
  constructor
  · rintro ⟨order, horder⟩
    obtain ⟨named, rfl, hperm⟩ : Relation.Comp (· = List.map f ·) List.Perm order names := by
      rw [List.eq_map_comp_perm]
      exact horder.perm
    refine ⟨named, hperm, List.pairwise_map.mp horder.realTime, ?_⟩
    rw [← exec_map]
    exact horder.legal
  · rintro ⟨order, horder⟩
    refine ⟨order.map f, horder.perm.map f, List.pairwise_map.mpr horder.realTime, ?_⟩
    rw [exec_map]
    exact horder.legal

theorem linearizable_nil : Linearizable step before s [] :=
  ⟨[], .refl [], .nil, rfl⟩

/-- **One at a time.** Operations can be linearized exactly if one of them, which none of the others
    precedes, can be performed and then the others can be linearized. -/
theorem linearizable_iff_exists_first [DecidableEq ι] (hne : ops ≠ []) :
    Linearizable step before s ops ↔
      ∃ i ∈ ops, (∀ j ∈ ops.erase i, ¬ before j i) ∧
        ∃ s', step s i = some s' ∧ Linearizable step before s' (ops.erase i) := by
  constructor
  · rintro ⟨order, horder⟩
    cases order with
    | nil => exact absurd horder.perm.symm.eq_nil hne
    | cons i rest =>
      obtain ⟨hfirst, hrest⟩ := List.pairwise_cons.mp horder.realTime
      obtain ⟨s', hs', hlegal⟩ := isSome_exec_cons.mp horder.legal
      have hmem : i ∈ ops := horder.perm.subset List.mem_cons_self
      have hperm : rest.Perm (ops.erase i) :=
        List.perm_cons i |>.mp (horder.perm.trans (List.perm_cons_erase hmem))
      exact ⟨i, hmem, fun j hj => hfirst j (hperm.symm.subset hj), s', hs', rest, hperm, hrest,
        hlegal⟩
  · rintro ⟨i, hmem, hfirst, s', hs', rest, hperm, hrest, hlegal⟩
    refine ⟨i :: rest, ?_, ?_, isSome_exec_cons.mpr ⟨s', hs', hlegal⟩⟩
    · exact (hperm.cons i).trans (List.perm_cons_erase hmem).symm
    · exact List.pairwise_cons.mpr ⟨fun j hj => hfirst j (hperm.subset hj), hrest⟩

/-! ### Points in time -/

section Points

variable {T : Type*} [LinearOrder T] {call ret : ι → T}

/-- **Linearization points.** In an order that does not contradict real time, every operation has a
    point between its call and its return, and the points are in the same order. -/
theorem exists_points (hcall : ∀ i ∈ order, call i ≤ ret i) (hnodup : order.Nodup)
    (h : order.Pairwise fun i j => ¬ ret j < call i) :
    ∃ point : ι → T, order.Pairwise (fun i j => point i ≤ point j) ∧
      ∀ i ∈ order, call i ≤ point i ∧ point i ≤ ret i := by
  classical
  induction order with
  | nil => exact ⟨call, .nil, fun _ hi => absurd hi List.not_mem_nil⟩
  | cons x rest ih =>
    obtain ⟨hx, hrest⟩ := List.pairwise_cons.mp h
    obtain ⟨hnew, hnodup⟩ := List.nodup_cons.mp hnodup
    obtain ⟨point, hmono, hin⟩ :=
      ih (fun i hi => hcall i (List.mem_cons_of_mem x hi)) hnodup hrest
    -- nothing later returns before `x` is called, so that all points can wait for that
    refine ⟨fun i => if i = x then call x else max (call x) (point i), ?_, fun i hi => ?_⟩
    · refine List.pairwise_cons.mpr ⟨fun j hj => ?_, hmono.imp_of_mem fun {i j} hi hj hij => ?_⟩
      · have hne : j ≠ x := fun h => hnew (h ▸ hj)
        simp [hne]
      · have hi' : i ≠ x := fun h => hnew (h ▸ hi)
        have hj' : j ≠ x := fun h => hnew (h ▸ hj)
        simp only [hi', hj', if_false]
        exact max_le_max le_rfl hij
    · rcases List.mem_cons.mp hi with rfl | hi
      · simp [hcall i List.mem_cons_self]
      · have hne : i ≠ x := fun h => hnew (h ▸ hi)
        simp only [hne, if_false]
        exact ⟨(hin i hi).1.trans (le_max_right _ _),
          max_le (not_lt.mp (hx i hi)) (hin i hi).2⟩

/-- Operations in the order of points between their calls and their returns do not contradict real
    time. -/
theorem pairwise_of_points {point : ι → T} (hin : ∀ i ∈ order, call i ≤ point i ∧ point i ≤ ret i)
    (h : order.Pairwise fun i j => point i ≤ point j) :
    order.Pairwise fun i j => ¬ ret j < call i := by
  refine h.imp_of_mem fun {i j} hi hj hij => not_lt.mpr ?_
  exact (hin i hi).1.trans (hij.trans (hin j hj).2)

end Points

/-! ### Objects made of independent parts -/

section Parts

variable {K τ : Type*} [DecidableEq K]

/-- The object whose part `k` is performed upon by the operations with key `k`. -/
def partsStep (key : ι → K) (part : τ → ι → Option τ) (s : K → τ) (i : ι) : Option (K → τ) :=
  (part (s (key i)) i).map (update s (key i))

variable {key : ι → K} {part : τ → ι → Option τ} {s : K → τ}

/-- The parts do not see each other's operations. -/
theorem isSome_exec_partsStep :
    (exec (partsStep key part) s order).isSome = true ↔
      ∀ k, (exec part (s k) (order.filter (key · = k))).isSome = true := by
  induction order generalizing s with
  | nil => simp [exec]
  | cons i rest ih =>
    have hother {k : K} (hk : key i ≠ k) :
        (i :: rest).filter (key · = k) = rest.filter (key · = k) :=
      List.filter_cons_of_neg (by simpa using hk)
    have hown : (i :: rest).filter (key · = key i) = i :: rest.filter (key · = key i) :=
      List.filter_cons_of_pos (by simp)
    rw [isSome_exec_cons]
    simp only [partsStep, Option.map_eq_some_iff]
    constructor
    · rintro ⟨_, ⟨t, ht, rfl⟩, hrest⟩ k
      have hk := ih.mp hrest k
      by_cases h : key i = k
      · subst h
        rw [update_self] at hk
        rw [hown]
        exact isSome_exec_cons.mpr ⟨t, ht, hk⟩
      · rw [update_of_ne (Ne.symm h)] at hk
        rwa [hother h]
    · intro h
      have hfirst := h (key i)
      rw [hown] at hfirst
      obtain ⟨t, ht, hrest⟩ := isSome_exec_cons.mp hfirst
      refine ⟨_, ⟨t, ht, rfl⟩, ih.mpr fun k => ?_⟩
      by_cases hk : key i = k
      · subst hk
        rwa [update_self]
      · rw [update_of_ne (Ne.symm hk), ← hother hk]
        exact h k

variable {T : Type*} [LinearOrder T] {call ret : ι → T}

/-- A linearization of the whole is one of every part. -/
theorem Linearization.of_partsStep (h : Linearization (partsStep key part) before s ops order)
    (k : K) :
    Linearization part before (s k) (ops.filter (key · = k)) (order.filter (key · = k)) where
  perm := h.perm.filter _
  realTime := h.realTime.sublist List.filter_sublist
  legal := isSome_exec_partsStep.mp h.legal k

/-- The operations, listed part by part, each part in an order of its own. -/
theorem flatMap_orders_perm {orders : K → List ι} (hnodup : ops.Nodup)
    (h : ∀ k, (orders k).Perm (ops.filter (key · = k))) :
    ((ops.map key).dedup.flatMap orders).Perm ops := by
  have hmem {k : K} {i : ι} : i ∈ orders k ↔ i ∈ ops ∧ key i = k := by
    rw [(h k).mem_iff, List.mem_filter, decide_eq_true_eq]
  have hlist : ((ops.map key).dedup.flatMap orders).Nodup := by
    refine List.nodup_flatMap.mpr ⟨fun k _ => (h k).nodup_iff.mpr (hnodup.filter _), ?_⟩
    refine (List.nodup_dedup _).imp fun {k l} hkl i hk hl => hkl ?_
    exact (hmem.mp hk).2.symm.trans (hmem.mp hl).2
  refine (List.perm_ext_iff_of_nodup hlist hnodup).mpr fun i => ?_
  rw [List.mem_flatMap]
  refine ⟨fun ⟨k, _, hi⟩ => (hmem.mp hi).1, fun hi => ⟨key i, ?_, hmem.mpr ⟨hi, rfl⟩⟩⟩
  exact List.mem_dedup.mpr (List.mem_map_of_mem hi)

/-- **Locality.** Where every operation returns no earlier than it was called, an object made of
    independent parts is linearizable exactly if every part is. -/
theorem linearizable_partsStep_iff (hcall : ∀ i ∈ ops, call i ≤ ret i) (hnodup : ops.Nodup) :
    Linearizable (partsStep key part) (fun i j => ret i < call j) s ops ↔
      ∀ k, Linearizable part (fun i j => ret i < call j) (s k) (ops.filter (key · = k)) := by
  refine ⟨fun ⟨order, h⟩ k => ⟨_, h.of_partsStep k⟩, fun h => ?_⟩
  choose orders horders using h
  have hmem {k : K} {i : ι} (hi : i ∈ orders k) : i ∈ ops ∧ key i = k := by
    rw [(horders k).perm.mem_iff, List.mem_filter] at hi
    exact ⟨hi.1, of_decide_eq_true hi.2⟩
  have hpoints (k : K) := exists_points (fun i hi => hcall i (hmem hi).1)
    ((horders k).perm.nodup_iff.mpr (hnodup.filter _)) (horders k).realTime
  choose points hmono hin using hpoints
  -- all operations by their points; a stable sort keeps the order inside each part
  let point (i : ι) : T := points (key i) i
  let listed := (ops.map key).dedup.flatMap orders
  let merged := listed.mergeSort fun i j => decide (point i ≤ point j)
  have htrans (a b c : ι) (hab : decide (point a ≤ point b) = true)
      (hbc : decide (point b ≤ point c) = true) : decide (point a ≤ point c) = true :=
    decide_eq_true ((of_decide_eq_true hab).trans (of_decide_eq_true hbc))
  have htotal (a b : ι) : (decide (point a ≤ point b) || decide (point b ≤ point a)) = true := by
    simpa using le_total (point a) (point b)
  have hsorted : merged.Pairwise fun i j => point i ≤ point j :=
    (List.pairwise_mergeSort htrans htotal listed).imp fun h => of_decide_eq_true h
  have hperm : merged.Perm ops :=
    (List.mergeSort_perm _ _).trans (flatMap_orders_perm hnodup fun k => (horders k).perm)
  have hpart (k : K) : merged.filter (key · = k) = orders k := by
    have hlisted : (orders k).Sublist listed := by
      by_cases hk : k ∈ (ops.map key).dedup
      · simpa using (List.singleton_sublist.mpr hk).flatMap orders
      · have hnil : ops.filter (key · = k) = [] := by
          refine List.filter_eq_nil_iff.mpr fun i hi hki => hk (List.mem_dedup.mpr ?_)
          exact of_decide_eq_true hki ▸ List.mem_map_of_mem hi
        have hempty : orders k = [] := (hnil ▸ (horders k).perm).eq_nil
        exact hempty ▸ List.nil_sublist _
    have hordered : (orders k).Pairwise fun i j => decide (point i ≤ point j) = true := by
      refine (hmono k).imp_of_mem fun {i j} hi hj hij => decide_eq_true ?_
      simp only [point, (hmem hi).2, (hmem hj).2]
      exact hij
    have hsub := (List.sublist_mergeSort htrans htotal hordered hlisted).filter (key · = k)
    rw [List.filter_eq_self.mpr fun i hi => decide_eq_true (hmem hi).2] at hsub
    refine (hsub.eq_of_length ?_).symm
    exact ((horders k).perm.trans (hperm.filter _).symm).length_eq
  refine ⟨merged, hperm, pairwise_of_points (fun i hi => ?_) hsorted, ?_⟩
  · have hi' : i ∈ orders (key i) := by
      rw [← hpart]
      exact List.mem_filter.mpr ⟨hi, by simp⟩
    exact hin (key i) i hi'
  · exact isSome_exec_partsStep.mpr fun k => hpart k ▸ (horders k).legal

end Parts

end MitDistributed.Linearizability
