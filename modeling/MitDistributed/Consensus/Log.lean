import Mathlib.Data.List.Basic
import Mathlib.Data.List.Infix
import Mathlib.Tactic.Common

namespace MitDistributed.Consensus

/-!
# Consensus — logs with terms

A log is a list of entries, and every entry has a term.  Indices count from one; index 0
stands before the first entry, with term 0.

* `termAt tm l i` — the term of the entry at index `i`;
* `Matching tm l l'` — if the entries at one index have the same term, the logs agree up to
  that index;
* `UpToDate tm l l'` — `l'` is at least as up-to-date as `l`.
-/

variable {E : Type} {tm : E → ℕ} {l l' l'' : List E} {i k : ℕ}

/-! ### Prefixes -/

theorem take_prefix_of_isPrefix (h : l <+: l') (hk : k ≤ l.length) : l'.take k <+: l := by
  rw [List.prefix_iff_eq_take.mp h, List.length_take] at hk
  rw [List.prefix_iff_eq_take.mp h]
  exact List.take_prefix_take_left (by omega)

theorem take_eq_take_of_isPrefix (h : l <+: l') (hk : k ≤ l.length) : l.take k = l'.take k := by
  obtain ⟨t, rfl⟩ := h
  rw [List.take_append_of_le_length hk]

/-! ### Terms -/

/-- The term of the entry at index `i`; 0 for index 0 and beyond the end. -/
def termAt (tm : E → ℕ) (l : List E) : ℕ → ℕ
  | 0 => 0
  | i + 1 => ((l[i]?).map tm).getD 0

theorem termAt_succ_of_getElem? {e : E} (h : l[i]? = some e) : termAt tm l (i + 1) = tm e := by
  simp [termAt, h]

theorem termAt_of_isPrefix (h : l <+: l') (hi : i ≤ l.length) : termAt tm l i = termAt tm l' i := by
  cases i with
  | zero => rfl
  | succ i =>
    obtain ⟨t, rfl⟩ := h
    rw [termAt, termAt, List.getElem?_append_left (by omega)]

theorem termAt_take (hi : i ≤ k) : termAt tm (l.take k) i = termAt tm l i := by
  cases i with
  | zero => rfl
  | succ i => rw [termAt, termAt, List.getElem?_take_of_lt (by omega)]

/-- The term of the last entry. -/
def lastTerm (tm : E → ℕ) (l : List E) : ℕ := termAt tm l l.length

/-! ### Log Matching -/

/-- Logs whose entries at an index have the same term agree up to that index. -/
def Matching (tm : E → ℕ) (l l' : List E) : Prop :=
  ∀ i, i ≤ l.length → i ≤ l'.length → termAt tm l i = termAt tm l' i → l.take i = l'.take i

instance [DecidableEq E] (tm : E → ℕ) (l l' : List E) : Decidable (Matching tm l l') :=
  decidable_of_iff (∀ i, i ≤ l.length → i ≤ l'.length → termAt tm l i = termAt tm l' i →
    l.take i = l'.take i) Iff.rfl

theorem Matching.refl (l : List E) : Matching tm l l := fun _ _ _ _ => rfl

theorem Matching.symm (h : Matching tm l l') : Matching tm l' l :=
  fun i hi hi' ht => (h i hi' hi ht.symm).symm

/-- A log that matches another one matches its prefixes. -/
theorem Matching.of_isPrefix (h : Matching tm l l'') (hp : l' <+: l'') : Matching tm l l' := by
  intro i hi hi' ht
  rw [termAt_of_isPrefix hp hi'] at ht
  rw [h i hi (hi'.trans hp.length_le) ht, take_eq_take_of_isPrefix hp hi']

/-- A log that is at least as long as another one may grow. -/
theorem Matching.append_left (h : Matching tm l l') (hle : l'.length ≤ l.length) (x : List E) :
    Matching tm (l ++ x) l' := by
  intro i _ hi' ht
  have hi : i ≤ l.length := hi'.trans hle
  rw [← termAt_of_isPrefix (List.prefix_append l x) hi] at ht
  rw [List.take_append_of_le_length hi]
  exact h i hi hi' ht

/-- Two logs that match agree up to an index if they agree on its term. -/
theorem Matching.take_isPrefix (h : Matching tm l l') (hi : i ≤ l.length) (hi' : i ≤ l'.length)
    (ht : termAt tm l i = termAt tm l' i) : l.take i <+: l' := by
  rw [h i hi hi' ht]
  exact List.take_prefix _ _

/-! ### Receiving entries -/

/-- Receiving `l` turns a log into `l'`: it stays as it is if it holds `l` already, and is
    replaced otherwise. -/
def Overwrites (old l l' : List E) : Prop :=
  (l <+: old ∧ l' = old) ∨ (¬ l <+: old ∧ l' = l)

theorem Overwrites.isPrefix {old : List E} (h : Overwrites old l l') : l <+: l' := by
  rcases h with ⟨h, rfl⟩ | ⟨-, rfl⟩
  · exact h
  · exact List.prefix_refl _

/-- What the old log shares with the log that `l` is a part of is not lost. -/
theorem Overwrites.keeps {old x : List E} (h : Overwrites old l l') (hl : l <+: l'')
    (hx : x <+: old) (hxl : x <+: l'') : x <+: l' := by
  rcases h with ⟨-, rfl⟩ | ⟨hnot, rfl⟩
  · exact hx
  · rcases List.prefix_or_prefix_of_prefix hxl hl with h | h
    · exact h
    · exact absurd (h.trans hx) hnot

/-- Put an entry behind the first `k` ones: past the end it is appended, an entry of another
    term is overwritten with all that follows it, and one of the same term is kept. -/
def put (tm : E → ℕ) (l : List E) (k : ℕ) (e : E) : List E :=
  if l.length ≤ k then l ++ [e]
  else if termAt tm l (k + 1) ≠ tm e then l.take k ++ [e]
  else l

/-- Receiving a log entry by entry: from `k` entries to `k + 1`. -/
theorem Overwrites.put {old x : List E} {e : E} (hm : Matching tm old l) (he : l[k]? = some e)
    (h : Overwrites old (l.take k) x) : Overwrites old (l.take (k + 1)) (put tm x k e) := by
  obtain ⟨hlt, rfl⟩ := List.getElem?_eq_some_iff.mp he
  have hlen : (l.take k).length = k := by rw [List.length_take]; omega
  have hlen' : (l.take (k + 1)).length = k + 1 := by rw [List.length_take]; omega
  have hsucc : l.take k ++ [l[k]] = l.take (k + 1) := List.take_append_getElem hlt
  have hterm : termAt tm l (k + 1) = tm l[k] := termAt_succ_of_getElem? he
  unfold Consensus.put
  rcases h with ⟨hp, rfl⟩ | ⟨hnot, rfl⟩
  · have hk : k ≤ x.length := hlen ▸ hp.length_le
    have htake : x.take k = l.take k := by rw [List.prefix_iff_eq_take.mp hp, hlen]
    by_cases hend : x.length ≤ k
    · -- the old log ends here
      rw [if_pos hend]
      refine .inr ⟨fun hp' => ?_, ?_⟩
      · have := hp'.length_le
        omega
      · rw [← hsucc, ← htake, List.take_of_length_le hend]
    rw [if_neg hend]
    by_cases hsame : termAt tm x (k + 1) = tm l[k]
    · rw [if_neg (not_not.mpr hsame)]
      refine .inl ⟨?_, rfl⟩
      exact hm.symm.take_isPrefix (by omega) (by omega) (hterm.trans hsame.symm)
    · rw [if_pos hsame]
      refine .inr ⟨fun hp' => hsame ?_, by rw [htake, hsucc]⟩
      rw [← termAt_of_isPrefix hp' hlen'.ge, termAt_take le_rfl, hterm]
  · rw [if_pos hlen.le, hsucc]
    refine .inr ⟨fun hp' => hnot ?_, rfl⟩
    exact (List.take_prefix_take_left (Nat.le_succ k)).trans hp'

/-! ### Up-to-date logs -/

/-- `l'` is at least as up-to-date as `l`: its last entry has a higher term, or the same term
    and no lower index. -/
def UpToDate (tm : E → ℕ) (l l' : List E) : Prop :=
  lastTerm tm l < lastTerm tm l' ∨ lastTerm tm l = lastTerm tm l' ∧ l.length ≤ l'.length

end MitDistributed.Consensus
