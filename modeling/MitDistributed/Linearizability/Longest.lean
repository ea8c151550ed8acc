import MitDistributed.Linearizability.Search

namespace MitDistributed.Linearizability

open Transition

/-!
# The longest sequences that a search meets

A search that writes down, wherever it has to turn back, how many operations it has linearized, has
in the end for each operation the length of a longest partial linearization with it.

* `Extends` — operations that can be linearized next, one after the other;
* `Covered` — every way to go on has been written down, as the property `P` of what has been given
  up in `Invariant`;
* `Charted.covered_of_ret` — it holds of what the search turns back from;
* `Charted.length_le` — at the end nothing longer exists.
-/

variable {ι σ : Type*} [DecidableEq ι]

section Extends

variable (step : σ → ι → Option σ) (hist : List (Tick ι)) (ops : List ι)

/-- The operations of the list can be linearized one after the other from `D` and `s` on. -/
def Extends : Finset ι → σ → List ι → Prop
  | _, _, [] => True
  | D, s, i :: ext =>
    Enabled hist ops D i ∧ ∃ s', step s i = some s' ∧ Extends (insert i D) s' ext

/-- With `best` for each operation, no way to go on from `D` and `s` is longer than what its
    operations have. -/
def Covered (best : ι → ℕ) (D : Finset ι) (s : σ) : Prop :=
  ∀ ext, Extends step hist ops D s ext → ∀ i, i ∈ D ∨ i ∈ ext → D.card + ext.length ≤ best i

end Extends

variable {step : σ → ι → Option σ} {equal : σ → σ → Bool} {hist post : List (Tick ι)}
  {ops order ext : List ι} {init s s' t : σ} {D : Finset ι} {i r : ι} {best best' : ι → ℕ}
  {x : Search ι σ}

/-- What can come next is a partial linearization, relative to what has been linearized. -/
theorem extends_of_partial (hsub : order ⊆ ops) (hnodup : order.Nodup) (hnew : ∀ i ∈ order, i ∉ D)
    (hreal : order.Pairwise fun i j => ¬ Before hist j i)
    (hclosed : ∀ i ∈ order, ∀ j ∈ ops, j ∉ D → j ∉ order → ¬ Before hist j i)
    (hlegal : exec step s order = some s') : Extends step hist ops D s order := by
  induction order generalizing D s with
  | nil => trivial
  | cons i order ih =>
    obtain ⟨hi, hnodup⟩ := List.nodup_cons.mp hnodup
    obtain ⟨hfirst, hreal⟩ := List.pairwise_cons.mp hreal
    obtain ⟨u, hu, hlegal⟩ := Option.bind_eq_some_iff.mp hlegal
    refine ⟨⟨hsub List.mem_cons_self, hnew i List.mem_cons_self, fun j hj hjD hji => ?_⟩, u, hu, ?_⟩
    · by_cases hmem : j ∈ order
      · exact hfirst j hmem
      · exact hclosed i List.mem_cons_self j hj hjD (by simp [hji, hmem])
    · refine ih (fun j hj => hsub (List.mem_cons_of_mem i hj)) hnodup (fun j hj => ?_) hreal
        (fun j hj k hk hkD hkj => ?_) hlegal
      · rw [Finset.mem_insert, not_or]
        exact ⟨fun heq => hi (heq ▸ hj), hnew j (List.mem_cons_of_mem i hj)⟩
      · rw [Finset.mem_insert, not_or] at hkD
        exact hclosed j (List.mem_cons_of_mem i hj) k hk hkD.2 (by simp [hkD.1, hkj])

theorem PartialLinearization.extends
    (h : PartialLinearization step hist ops init order s) : Extends step hist ops ∅ init order :=
  extends_of_partial h.subset h.nodup (fun _ _ => by simp) h.realTime
    (fun i hi j hj _ hjo => h.closed i hi j hj hjo) h.legal

theorem Simulates.extends (h : Simulates step equal) (hst : equal s t = true)
    (hs : Extends step hist ops D s ext) : Extends step hist ops D t ext := by
  induction ext generalizing D s t with
  | nil => trivial
  | cons i ext ih =>
    obtain ⟨henabled, s', hs', hrest⟩ := hs
    obtain ⟨t', ht', hst'⟩ := h s t hst i s' hs'
    exact ⟨henabled, t', ht', ih hst' hrest⟩

theorem Covered.mono (hbest : ∀ i, best i ≤ best' i) (h : Covered step hist ops best D s) :
    Covered step hist ops best' D s :=
  fun ext hext i hi => (h ext hext i hi).trans (hbest i)

/-- The invariant for the longest sequences. -/
abbrev Charted (step : σ → ι → Option σ) (hist : List (Tick ι)) (ops : List ι) (best : ι → ℕ)
    (init : σ) (x : Search ι σ) : Prop :=
  Invariant (Covered step hist ops best) step hist init x

namespace Charted

/-- What the search turns back from is covered once the operations on the stack have its length. -/
theorem covered_of_ret (hp : Paired ops hist) (h : Charted step hist ops best init x)
    (hpost : x.post = .ret r :: post) (hbest : ∀ i, best i ≤ best' i)
    (hdone : ∀ i ∈ done x.stack, (done x.stack).card ≤ best' i) :
    Covered step hist ops best' (done x.stack) x.state := by
  intro ext hext i hi
  cases ext with
  | nil => exact hdone i (hi.resolve_right List.not_mem_nil)
  | cons j ext =>
    obtain ⟨henabled, s', hs', hrest⟩ := hext
    have hcovered := h.of_enabled hp hpost henabled hs'
    have hmem : i ∈ insert j (done x.stack) ∨ i ∈ ext := by
      rcases hi with hi | hi
      · exact .inl (Finset.mem_insert_of_mem hi)
      · exact (List.mem_cons.mp hi).imp_left fun heq => Finset.mem_insert.mpr (.inl heq)
    have hlen := hcovered ext hrest i hmem
    rw [Finset.card_insert_of_notMem henabled.2.1] at hlen
    rw [List.length_cons]
    exact (by omega : _ ≤ best i).trans (hbest i)

/-- An iteration keeps the invariant, if it writes down the length where it turns back. -/
theorem next (hp : Paired ops hist) (hequal : Simulates step equal)
    (h : Charted step hist ops best init x) {y : Search ι σ} (hy : x.next step equal = .inl y)
    (hbest : ∀ i, best i ≤ best' i)
    (hret : ∀ r post, x.post = .ret r :: post → ∀ i ∈ done x.stack, (done x.stack).card ≤ best' i) :
    Charted step hist ops best' init y := by
  have hmono : Charted step hist ops best' init x := Invariant.mono (fun _ _ hc => hc.mono hbest) h
  have hmove := Search.move_next step equal x
  rw [hy] at hmove
  cases hmove with
  | illegal hpost hstep =>
    refine hmono.skip hpost fun s' hs' => ?_
    rw [hstep] at hs'
    cases hs'
  | known hpost hstep hreached =>
    refine hmono.skip hpost fun s' hs' => ?_
    obtain rfl := Option.some.inj (hstep.symm.trans hs')
    exact hmono.of_reached hp.nodup
      (fun D s t hst ht ext hext i hi => ht ext (hequal.extends hst hext) i hi) hpost hreached
  | linearize hpost hstep => exact hmono.push hpost hstep
  | @back r post f stack hpost hstack =>
    exact hmono.pop hstack (covered_of_ret hp h hpost hbest (hret r post hpost))

/-- **Nothing longer.** When the search gives up, no partial linearization is longer than what its
    operations have. -/
theorem length_le (hp : Paired ops hist) (h : Charted step hist ops best init x)
    (hb : x.next step equal = .inr false) (hfirst : PartialLinearization step hist ops init order s)
    (hi : i ∈ order) :
    order.length ≤ best i := by
  have hmove := Search.move_next step equal x
  rw [hb] at hmove
  cases hmove with
  | @reject r post hpost hstack =>
    have hlegal := (h.explored.partialLinearization hp).legal
    have hcovered := covered_of_ret hp h hpost (fun i => le_refl (best i)) (by simp [hstack])
    rw [hstack] at hlegal hcovered
    obtain rfl : init = x.state := by simpa [exec] using hlegal
    simpa using hcovered order hfirst.extends i (.inr hi)

end Charted

end MitDistributed.Linearizability
