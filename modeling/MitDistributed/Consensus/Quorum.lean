import Mathlib.Data.Fintype.Card
import Mathlib.Data.Finset.Card

namespace MitDistributed.Consensus

/-!
# Majorities and votes

Two majorities of a finite set of voters have a voter in common, so that a vote in which
every voter supports at most one choice elects at most one.
-/

variable {ι κ : Type*} [Fintype ι]

/-- More than half of all voters. -/
def Majority (s : Finset ι) : Prop := Fintype.card ι < 2 * s.card

instance (s : Finset ι) : Decidable (Majority s) :=
  inferInstanceAs (Decidable (_ < _))

/-- Two majorities meet. -/
theorem Majority.meet [DecidableEq ι] {s t : Finset ι} (hs : Majority s) (ht : Majority t) :
    ∃ x ∈ s, x ∈ t := by
  have hcard : (Finset.univ : Finset ι).card < s.card + t.card := by
    unfold Majority at hs ht
    rw [Finset.card_univ]
    omega
  obtain ⟨x, hx⟩ := Finset.inter_nonempty_of_card_lt_card_add_card
    (Finset.subset_univ s) (Finset.subset_univ t) hcard
  exact ⟨x, (Finset.mem_inter.mp hx).1, (Finset.mem_inter.mp hx).2⟩

/-- `c` has the votes of a majority. -/
def Elected (vote : ι → κ → Prop) (c : κ) : Prop :=
  ∃ s : Finset ι, Majority s ∧ ∀ v ∈ s, vote v c

theorem Elected.mono {vote vote' : ι → κ → Prop} {c : κ} (h : Elected vote c)
    (hv : ∀ v, vote v c → vote' v c) : Elected vote' c := by
  obtain ⟨s, hs, hvote⟩ := h
  exact ⟨s, hs, fun v hvs => hv v (hvote v hvs)⟩

/-- **Uniqueness.** If no voter supports two choices, at most one choice is elected. -/
theorem Elected.unique [DecidableEq ι] {vote : ι → κ → Prop} {c c' : κ}
    (hone : ∀ v c c', vote v c → vote v c' → c = c') (h : Elected vote c)
    (h' : Elected vote c') : c = c' := by
  obtain ⟨s, hs, hvote⟩ := h
  obtain ⟨t, ht, hvote'⟩ := h'
  obtain ⟨x, hxs, hxt⟩ := hs.meet ht
  exact hone x c c' (hvote x hxs) (hvote' x hxt)

end MitDistributed.Consensus
