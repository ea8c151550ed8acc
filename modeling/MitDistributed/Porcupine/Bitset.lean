import Mathlib.Algebra.Ring.Nat
import Mathlib.Data.Finset.Insert

namespace MitDistributed.Porcupine

/-!
# The set of linearized operations (`porcupine/bitset.go`)

A set of operation ids as 64-bit words.  An access behind the last word panics, which is `none`
here.

* `Represents` — the words hold a given set of ids, and no others;
* `Represents.set`, `Represents.clear` — the updates add and remove one id;
* `Represents.eq_iff` — two bitsets of one size are equal exactly if they hold the same set, so
  that nothing depends on how well `hash` separates them.
-/

abbrev Bitset := List (BitVec 64)

def newBitset (bits : ℕ) : Bitset :=
  let extra := if bits % 64 ≠ 0 then 1 else 0
  List.replicate (bits / 64 + extra) 0#64

def bitsetIndex (pos : ℕ) : ℕ × ℕ :=
  (pos / 64, pos % 64)

namespace Bitset

/-- Change the word of `pos`, given the mask of its bit. -/
def modifyWord (f : BitVec 64 → BitVec 64 → BitVec 64) (b : Bitset) (pos : ℕ) : Option Bitset :=
  let (major, minor) := bitsetIndex pos
  b[major]?.map fun word => List.set b major (f word (1#64 <<< minor))

def set (b : Bitset) (pos : ℕ) : Option Bitset :=
  b.modifyWord (fun word mask => word ||| mask) pos

def clear (b : Bitset) (pos : ℕ) : Option Bitset :=
  b.modifyWord (fun word mask => word &&& ~~~mask) pos

def get (b : Bitset) (pos : ℕ) : Option Bool :=
  let (major, minor) := bitsetIndex pos
  b[major]?.map fun word => word &&& (1#64 <<< minor) != 0#64

def onesCount64 (word : BitVec 64) : ℕ :=
  (List.range 64).countP word.getLsbD

def popcnt (b : Bitset) : ℕ :=
  (b.map onesCount64).sum

def hash (b : Bitset) : BitVec 64 :=
  b.foldl (fun hash word => hash ^^^ word) (BitVec.ofNat 64 b.popcnt)

def equals (b b2 : Bitset) : Bool :=
  if b.length ≠ b2.length then false
  else (b.zip b2).all fun words => words.1 == words.2

theorem equals_iff {b b2 : Bitset} : b.equals b2 = true ↔ b = b2 := by
  unfold equals
  split
  next hlen => simp only [Bool.false_eq_true, false_iff]; exact fun h => hlen (h ▸ rfl)
  next hlen =>
    rw [not_not] at hlen
    constructor
    · intro h
      refine List.ext_getElem hlen fun i hi hi2 => ?_
      have hmem : (b[i], b2[i]) ∈ b.zip b2 := List.mem_iff_getElem.mpr
        ⟨i, by simp [hi, hi2], by simp⟩
      simpa using List.all_eq_true.mp h _ hmem
    · rintro rfl
      refine List.all_eq_true.mpr fun words h => ?_
      obtain ⟨i, hi, rfl⟩ := List.mem_iff_getElem.mp h
      simp

theorem and_mask_ne_zero_iff {word : BitVec 64} {minor : ℕ} (h : minor < 64) :
    word &&& (1#64 <<< minor) ≠ 0#64 ↔ word.getLsbD minor = true := by
  rw [← BitVec.twoPow_eq, BitVec.and_twoPow]
  by_cases hbit : word.getLsbD minor = true
  · refine iff_of_true (fun h0 => ?_) hbit
    have hself : (BitVec.twoPow 64 minor).getLsbD minor = true := by simp [h]
    rw [if_pos hbit] at h0
    simp [h0] at hself
  · simp [hbit]

theorem get_eq (b : Bitset) (pos : ℕ) :
    b.get pos = b[pos / 64]?.map fun word => word.getLsbD (pos % 64) := by
  have hbit (word : BitVec 64) :
      (word &&& (1#64 <<< (pos % 64)) != 0#64) = word.getLsbD (pos % 64) := by
    rw [Bool.eq_iff_iff, bne_iff_ne]
    exact and_mask_ne_zero_iff (Nat.mod_lt pos (by decide))
  simp only [get, bitsetIndex, hbit]

/-- Where `f` gives the bit of the mask the value `v`, the word is written at that bit only. -/
theorem modifyWord_spec {f : BitVec 64 → BitVec 64 → BitVec 64} {v : Bool}
    (hf : ∀ word minor k, k < 64 →
      (f word (BitVec.twoPow 64 minor)).getLsbD k = if k = minor then v else word.getLsbD k)
    {b : Bitset} {pos : ℕ} (hpos : pos / 64 < b.length) :
    ∃ b', b.modifyWord f pos = some b' ∧ b'.length = b.length ∧
      ∀ i, b'.get i = if i = pos then some v else b.get i := by
  refine ⟨List.set b (pos / 64) (f b[pos / 64] (1#64 <<< (pos % 64))), ?_, ?_, fun i => ?_⟩
  · simp [modifyWord, bitsetIndex, List.getElem?_eq_getElem hpos]
  · simp
  · rw [get_eq, get_eq]
    by_cases hi : i / 64 = pos / 64
    · have hsame : i % 64 = pos % 64 ↔ i = pos := by omega
      rw [hi, List.getElem?_set_self hpos, Option.map_some, List.getElem?_eq_getElem hpos,
        Option.map_some, ← BitVec.twoPow_eq, hf _ _ _ (Nat.mod_lt i (by decide)), ← apply_ite some]
      simp only [hsame]
    · have hne : i ≠ pos := fun heq => hi (heq ▸ rfl)
      rw [List.getElem?_set_ne (Ne.symm hi), if_neg hne]

end Bitset

/-- The words have the size for `n` ids and hold those in `D`. -/
structure Represents (n : ℕ) (b : Bitset) (D : Finset ℕ) : Prop where
  length : b.length = (newBitset n).length
  get_iff : ∀ i, b.get i = some true ↔ i ∈ D

variable {n : ℕ} {b b' : Bitset} {D D' : Finset ℕ} {i : ℕ}

theorem div_lt_length_newBitset (hi : i < n) : i / 64 < (newBitset n).length := by
  simp only [newBitset, List.length_replicate]
  split <;> omega

theorem represents_newBitset (n : ℕ) : Represents n (newBitset n) ∅ where
  length := rfl
  get_iff i := by
    rw [Bitset.get_eq]
    simp [newBitset, List.getElem?_replicate]

namespace Represents

theorem div_lt_length (h : Represents n b D) (hi : i < n) : i / 64 < b.length := by
  rw [h.length]
  exact div_lt_length_newBitset hi

theorem set (h : Represents n b D) (hi : i < n) :
    ∃ b', b.set i = some b' ∧ Represents n b' (insert i D) := by
  obtain ⟨b', hb', hlen, hget⟩ := Bitset.modifyWord_spec
    (f := fun word mask => word ||| mask) (v := true)
    (fun word minor k hk => by
      by_cases hkm : k = minor
      · simp [hk, ← hkm]
      · simp [hk, hkm])
    (h.div_lt_length hi)
  refine ⟨b', hb', hlen.trans h.length, fun j => ?_⟩
  rw [hget, Finset.mem_insert, ← h.get_iff]
  by_cases hj : j = i <;> simp [hj]

theorem clear (h : Represents n b (insert i D)) (hi : i < n) (hnew : i ∉ D) :
    ∃ b', b.clear i = some b' ∧ Represents n b' D := by
  obtain ⟨b', hb', hlen, hget⟩ := Bitset.modifyWord_spec
    (f := fun word mask => word &&& ~~~mask) (v := false)
    (fun word minor k hk => by by_cases hkm : k = minor <;> simp [hk, hkm])
    (h.div_lt_length hi)
  refine ⟨b', hb', hlen.trans h.length, fun j => ?_⟩
  rw [hget]
  by_cases hj : j = i
  · simp [hj, hnew]
  · rw [if_neg hj, h.get_iff, Finset.mem_insert, or_iff_right hj]

/-- Two bitsets of one size are equal exactly if they hold the same ids. -/
theorem eq_iff (h : Represents n b D) (h' : Represents n b' D') : b = b' ↔ D = D' := by
  constructor
  · rintro rfl
    exact Finset.ext fun i => (h.get_iff i).symm.trans (h'.get_iff i)
  · rintro rfl
    refine List.ext_getElem (h.length.trans h'.length.symm) fun k hk hk' => ?_
    refine BitVec.eq_of_getLsbD_eq fun m hm => ?_
    have hdiv : (64 * k + m) / 64 = k := by omega
    have hmod : (64 * k + m) % 64 = m := by omega
    have hiff := (h.get_iff (64 * k + m)).trans (h'.get_iff (64 * k + m)).symm
    rw [Bitset.get_eq, Bitset.get_eq, hdiv, hmod, List.getElem?_eq_getElem hk,
      List.getElem?_eq_getElem hk'] at hiff
    simp only [Option.map_some, Option.some.injEq] at hiff
    exact Bool.eq_iff_iff.mpr hiff

end Represents

end MitDistributed.Porcupine
