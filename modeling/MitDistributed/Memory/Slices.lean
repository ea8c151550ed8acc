import Mathlib.Data.List.Basic

namespace MitDistributed.Memory

/-!
# Slices that share an array

A Go slice is a window on an array.  A variable that is only appended to and cut at its end keeps
its array as long as the array has a free slot; then `append` moves it to a larger one.  Windows
that were taken of the variable earlier stay on the array they were taken of, and see what is
written there later: after the variable is cut, `append` overwrites the slots that it cut off.

The value of the variable is a list `xs`, kept by whoever uses this module.  What the list does not
say is the `Backing`: the slots of the array behind the list, the arrays that the variable has left,
and how many free slots the arrays to come will have, which the language leaves to the runtime.

* `Backing.array`, `Backing.read`, `Backing.get` — what an array, a window on it, and a slot of the
  window hold now;
* `Backing.append`, `Backing.cut`, `Backing.move` — what an update of the variable does;
* `Backing.Within` — a window that no `append` can write to;
* `Backing.Spares` — an update that leaves the windows below a slot alone: `append` and `move` spare
  all of them, `cut` those that lie before it.
-/

variable {α : Type*}

/-- A window on the array with number `array`. -/
structure Slice where
  array : ℕ
  first : ℕ
  length : ℕ
  deriving DecidableEq, Repr

/-- What belongs to a slice variable besides its value.  The array that the variable is on has the
    number `retired.length`. -/
structure Backing (α : Type*) where
  /-- The slots of the array behind the value. -/
  spare : List α
  /-- The arrays that the variable has left; nobody writes to them any more. -/
  retired : List (List α)
  /-- The free slots of the arrays to come. -/
  room : ℕ → ℕ

namespace Backing

/-- The backing of a variable that was just made; the free slots hold `zero`. -/
def new (zero : α) (room : ℕ → ℕ) : Backing α :=
  { spare := List.replicate (room 0) zero
    retired := []
    room := fun g => room (g + 1) }

/-- What array number `g` holds, if the variable holds `xs`. -/
def array (b : Backing α) (xs : List α) (g : ℕ) : List α :=
  ((b.retired ++ [xs ++ b.spare])[g]?).getD []

/-- What a window shows, if the variable holds `xs`. -/
def read (b : Backing α) (xs : List α) (s : Slice) : List α :=
  ((b.array xs s.array).drop s.first).take s.length

/-- The window on the variable from slot `first` up to and without slot `last`. -/
def slice (b : Backing α) (first last : ℕ) : Slice :=
  { array := b.retired.length, first := first, length := last - first }

/-- The variable, which holds `xs`, goes to a new array, whose free slots hold `zero`. -/
def move (b : Backing α) (zero : α) (xs : List α) : Backing α :=
  { spare := List.replicate (b.room 0) zero
    retired := b.retired ++ [xs ++ b.spare]
    room := fun g => b.room (g + 1) }

/-- The variable, which holds `xs`, is appended to: in place if there is a free slot. -/
def append (b : Backing α) (zero : α) (xs : List α) : Backing α :=
  if b.spare = [] then b.move zero xs else { b with spare := b.spare.tail }

/-- The variable, which holds `xs`, is cut to `k` slots; the array keeps the others. -/
def cut (b : Backing α) (xs : List α) (k : ℕ) : Backing α :=
  { b with spare := xs.drop k ++ b.spare }

/-- What slot `i` of a window holds, if the variable holds `xs`. -/
def get (b : Backing α) (zero : α) (xs : List α) (s : Slice) (i : ℕ) : α :=
  (b.array xs s.array).getD (s.first + i) zero

/-- No `append` to the variable, if it holds `xs`, writes to a slot of the window: the window is on
    an array that the variable has left, or on slots of its value. -/
def Within (b : Backing α) (xs : List α) (s : Slice) : Prop :=
  (s.array < b.retired.length ∧ s.first + s.length ≤ (b.array xs s.array).length) ∨
    (s.array = b.retired.length ∧ s.first + s.length ≤ xs.length)

variable {b : Backing α} {zero x : α} {xs ys : List α} {s : Slice} {k first last : ℕ}

/-! ### Arrays -/

/-- The arrays that the variable has left. -/
theorem array_of_lt {g : ℕ} (h : g < b.retired.length) : b.array xs g = b.retired[g] := by
  rw [array, List.getElem?_append_left h, List.getElem?_eq_getElem h, Option.getD_some]

/-- The array that the variable is on. -/
theorem array_current : b.array xs b.retired.length = xs ++ b.spare := by
  simp [array]

/-- A move leaves the arrays as they are. -/
theorem array_move {g : ℕ} (h : g ≤ b.retired.length) :
    (b.move zero xs).array ys g = b.array xs g := by
  have hlt : g < (b.retired ++ [xs ++ b.spare]).length := by
    rw [List.length_append, List.length_singleton]
    omega
  simp only [array, move]
  rw [List.getElem?_append_left hlt]

/-- A cut leaves the arrays as they are. -/
theorem array_cut (g : ℕ) : (b.cut xs k).array (xs.take k) g = b.array xs g := by
  simp only [array, cut]
  rw [← List.append_assoc, List.take_append_drop]

/-! ### Windows -/

/-- A window that was just taken shows that part of the variable. -/
theorem read_slice (h : last ≤ xs.length) :
    b.read xs (b.slice first last) = (xs.take last).drop first := by
  simp only [read, slice, array_current]
  rw [← List.drop_take, List.take_append_of_le_length h]

/-- A window that was just taken is on slots of the value. -/
theorem within_slice (hle : first ≤ last) (h : last ≤ xs.length) :
    b.Within xs (b.slice first last) := by
  refine .inr ⟨rfl, ?_⟩
  simp only [slice]
  omega

/-- A window within an array shows as many slots as it has. -/
theorem length_read (h : s.first + s.length ≤ (b.array xs s.array).length) :
    (b.read xs s).length = s.length := by
  rw [read, List.length_take, List.length_drop]
  omega

/-- A window that no `append` writes to lies within its array. -/
theorem Within.le (h : b.Within xs s) : s.first + s.length ≤ (b.array xs s.array).length := by
  rcases h with ⟨-, hle⟩ | ⟨heq, hle⟩
  · exact hle
  · rw [heq, array_current, List.length_append]
    omega

/-- Such a window is on one of the arrays there are. -/
theorem Within.array_le (h : b.Within xs s) : s.array ≤ b.retired.length := by
  rcases h with ⟨hlt, -⟩ | ⟨heq, -⟩ <;> omega

/-- What a window shows, slot by slot. -/
theorem Within.getElem?_read (h : b.Within xs s) {i : ℕ} (hi : i < s.length) (zero : α) :
    (b.read xs s)[i]? = some (b.get zero xs s i) := by
  have hlt : s.first + i < (b.array xs s.array).length := by
    have := h.le
    omega
  rw [read, List.getElem?_take_of_lt hi, List.getElem?_drop, get, List.getD_eq_getElem?_getD,
    List.getElem?_eq_getElem hlt, Option.getD_some]

/-- What a window on slots of the value shows is a part of the value. -/
theorem read_of_current (ha : s.array = b.retired.length) (h : s.first + s.length ≤ xs.length) :
    b.read xs s = (xs.drop s.first).take s.length := by
  simp only [read, ha, array_current]
  rw [List.drop_append_of_le_length (by omega), List.take_append_of_le_length]
  rw [List.length_drop]
  omega

/-! ### Updates that leave windows alone -/

/-- The windows that lie below slot `m`, or on an array that the variable has left, stay out of
    reach of `append` and show what they showed.  The variable does not come back to an array that
    it has left. -/
def Spares (m : ℕ) (b : Backing α) (xs : List α) (b' : Backing α) (ys : List α) : Prop :=
  ∀ s, b.Within xs s → (s.array = b.retired.length → s.first + s.length ≤ m) →
    b'.Within ys s ∧ b'.read ys s = b.read xs s ∧
      (s.array = b'.retired.length → s.array = b.retired.length)

theorem Spares.refl (m : ℕ) (b : Backing α) (xs : List α) : Spares m b xs b xs :=
  fun _ hw _ => ⟨hw, rfl, id⟩

theorem Spares.trans {b' b'' : Backing α} {zs : List α} {m : ℕ} (h : Spares m b xs b' ys)
    (h' : Spares m b' ys b'' zs) : Spares m b xs b'' zs := by
  intro s hw hm
  obtain ⟨hw₁, hread₁, hback₁⟩ := h s hw hm
  obtain ⟨hw₂, hread₂, hback₂⟩ := h' s hw₁ fun heq => hm (hback₁ heq)
  exact ⟨hw₂, hread₂.trans hread₁, fun heq => hback₁ (hback₂ heq)⟩

/-- **Moving is harmless.**  Nobody writes to the array that is left. -/
theorem spares_move (m : ℕ) : Spares m b xs (b.move zero xs) ys := by
  intro s hw _
  have hle := hw.array_le
  have hlen : (b.move zero xs).retired.length = b.retired.length + 1 := by
    rw [move, List.length_append, List.length_singleton]
  refine ⟨.inl ⟨by omega, ?_⟩, ?_, fun heq => by omega⟩
  · rw [array_move hle]
    exact hw.le
  · simp only [read, array_move hle]

/-- **Appending is harmless.**  It writes to a slot behind the value, or moves. -/
theorem spares_append (m : ℕ) : Spares m b xs (b.append zero xs) (xs ++ [x]) := by
  unfold append
  split
  · exact spares_move m
  · rintro s (⟨hlt, hle⟩ | ⟨heq, hle⟩) hm
    · have harray : ({ b with spare := b.spare.tail } : Backing α).array (xs ++ [x]) s.array =
          b.array xs s.array := by
        rw [array_of_lt hlt, array_of_lt (b := { b with spare := b.spare.tail }) hlt]
      refine ⟨.inl ⟨hlt, harray ▸ hle⟩, ?_, id⟩
      rw [read, harray, read]
    · have hle' : s.first + s.length ≤ (xs ++ [x]).length := by
        rw [List.length_append]
        omega
      refine ⟨.inr ⟨heq, hle'⟩, ?_, id⟩
      rw [read_of_current heq hle,
        read_of_current (b := { b with spare := b.spare.tail }) heq hle',
        List.drop_append_of_le_length (by omega), List.take_append_of_le_length]
      rw [List.length_drop]
      omega

/-- **A cut is harmless for what lies before it.**  The slots behind it will be written to. -/
theorem spares_cut {m : ℕ} (hk : m ≤ k) : Spares m b xs (b.cut xs k) (xs.take k) := by
  intro s hw hm
  have hread : (b.cut xs k).read (xs.take k) s = b.read xs s := by
    simp only [read, array_cut]
  refine ⟨?_, hread, id⟩
  rcases hw with ⟨hlt, hle⟩ | ⟨heq, hle⟩
  · refine .inl ⟨hlt, ?_⟩
    rw [array_cut]
    exact hle
  · refine .inr ⟨heq, ?_⟩
    have := hm heq
    rw [List.length_take]
    omega

end Backing

/-- A cut that reaches into a window lets the next `append` overwrite what the window shows. -/
example :
    let b : Backing ℕ := (Backing.new 0 fun _ => 1).append 0 [7]
    let s := b.slice 1 2
    b.read [7, 8] s = [8] ∧ ((b.cut [7, 8] 1).append 0 [7]).read [7, 9] s = [9] := by
  decide

end MitDistributed.Memory
