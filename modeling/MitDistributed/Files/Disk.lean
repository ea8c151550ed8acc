import Mathlib.Data.List.Basic
import Mathlib.Logic.Function.Basic
import Mathlib.Tactic.Common

namespace MitDistributed.Files

open Function

/-!
# A disk with names and inodes

A name refers to an inode, an open file to the inode itself: after a name was removed or moved,
who had the file open still writes to it.  Every operation comes with the lemma that the other
names keep their files (`Same`).
-/

variable {N B : Type}

/-- Different names have different inodes, and inodes from `next` on are unused. -/
structure Disk (N B : Type) where
  entry : N → Option ℕ
  data : ℕ → List B
  next : ℕ
  injective : ∀ m n i, entry m = some i → entry n = some i → m = n
  bound : ∀ n i, entry n = some i → i < next

namespace Disk

def empty : Disk N B where
  entry _ := none
  data _ := []
  next := 0
  injective _ _ _ h := by cases h
  bound _ _ h := by cases h

/-- The contents of the file with a name. -/
def read (d : Disk N B) (n : N) : Option (List B) := (d.entry n).map d.data

/-- The name `n` has the same file with the same contents. -/
def Same (d d' : Disk N B) (n : N) : Prop :=
  d'.entry n = d.entry n ∧ ∀ i, d.entry n = some i → d'.data i = d.data i

theorem Same.read {d d' : Disk N B} {n : N} (h : Same d d' n) : d'.read n = d.read n := by
  unfold Disk.read
  rw [h.1]
  cases hn : d.entry n with
  | none => rfl
  | some i => rw [Option.map_some, Option.map_some, h.2 i hn]

theorem Same.refl (d : Disk N B) (n : N) : Same d d n := ⟨rfl, fun _ _ => rfl⟩

theorem Same.trans {d d' d'' : Disk N B} {n : N} (h : Same d d' n) (h' : Same d' d'' n) :
    Same d d'' n :=
  ⟨h'.1.trans h.1, fun i hi => (h'.2 i (h.1.trans hi)).trans (h.2 i hi)⟩

/-! ### Write -/

/-- Bytes at an offset; what lies before the offset and was not written reads as `zero`. -/
def splice (zero : B) (old : List B) (offset : ℕ) (bytes : List B) : List B :=
  old.take offset ++ List.replicate (offset - old.length) zero ++ bytes ++
    old.drop (offset + bytes.length)

theorem splice_length (zero : B) (old bytes : List B) :
    splice zero old old.length bytes = old ++ bytes := by
  simp [splice]

/-- Write to an open file. -/
def write (d : Disk N B) (zero : B) (i offset : ℕ) (bytes : List B) : Disk N B :=
  { d with data := update d.data i (splice zero (d.data i) offset bytes) }

@[simp] theorem data_write_self (d : Disk N B) (zero : B) (i offset : ℕ) (bytes : List B) :
    (d.write zero i offset bytes).data i = splice zero (d.data i) offset bytes :=
  update_self ..

theorem same_write (d : Disk N B) (zero : B) {i : ℕ} (offset : ℕ) (bytes : List B) {m n : N}
    (hn : d.entry n = some i) (h : m ≠ n) : Same d (d.write zero i offset bytes) m := by
  refine ⟨rfl, fun j hj => update_of_ne ?_ ..⟩
  rintro rfl
  exact h (d.injective m n j hj hn)

/-! ### Remove and create -/

/-- The inode that `create` gives to a name. -/
def inode (d : Disk N B) (n : N) : ℕ := (d.entry n).getD d.next

theorem inode_lt (d : Disk N B) (n : N) : d.inode n < d.next + 1 := by
  unfold inode
  cases hn : d.entry n with
  | none => exact Nat.lt_succ_self _
  | some i => exact Nat.lt_succ_of_lt (d.bound n i hn)

theorem eq_of_entry_eq_inode (d : Disk N B) {m n : N} (h : d.entry m = some (d.inode n)) :
    m = n := by
  unfold inode at h
  cases hn : d.entry n with
  | none =>
    rw [hn] at h
    exact absurd (d.bound m _ h) (Nat.lt_irrefl _)
  | some i =>
    rw [hn] at h
    exact d.injective m n i h hn

variable [DecidableEq N]

/-- What is left when a name was removed. -/
theorem of_update_none {entry : N → Option ℕ} {m n : N} {i : ℕ}
    (h : update entry n none m = some i) : m ≠ n ∧ entry m = some i := by
  rw [update_apply] at h
  split at h
  · cases h
  · exact ⟨‹_›, h⟩

/-- `os.Remove`; no error is reported. -/
def remove (d : Disk N B) (n : N) : Disk N B where
  entry := update d.entry n none
  data := d.data
  next := d.next
  injective m m' i hm hm' := d.injective m m' i (of_update_none hm).2 (of_update_none hm').2
  bound m i hm := d.bound m i (of_update_none hm).2

@[simp] theorem entry_remove_self (d : Disk N B) (n : N) : (d.remove n).entry n = none :=
  update_self ..

theorem same_remove (d : Disk N B) {m n : N} (h : m ≠ n) : Same d (d.remove n) m :=
  ⟨update_of_ne h .., fun _ _ => rfl⟩

/-- `os.Create`: the file of the name is truncated, or there is a new one. -/
def create (d : Disk N B) (n : N) : Disk N B where
  entry := update d.entry n (some (d.inode n))
  data := update d.data (d.inode n) []
  next := d.next + 1
  injective m m' i hm hm' := by
    rw [update_apply] at hm hm'
    split at hm <;> split at hm'
    · rename_i h h'
      exact h.trans h'.symm
    · rename_i h _
      cases hm
      exact h.trans (d.eq_of_entry_eq_inode hm').symm
    · rename_i h'
      cases hm'
      exact (d.eq_of_entry_eq_inode hm).trans h'.symm
    · exact d.injective m m' i hm hm'
  bound m i hm := by
    rw [update_apply] at hm
    split at hm
    · cases hm
      exact d.inode_lt n
    · exact Nat.lt_succ_of_lt (d.bound m i hm)

@[simp] theorem entry_create_self (d : Disk N B) (n : N) :
    (d.create n).entry n = some (d.inode n) :=
  update_self ..

@[simp] theorem data_create_self (d : Disk N B) (n : N) : (d.create n).data (d.inode n) = [] :=
  update_self ..

theorem same_create (d : Disk N B) {m n : N} (h : m ≠ n) : Same d (d.create n) m := by
  refine ⟨update_of_ne h .., fun i hi => update_of_ne ?_ ..⟩
  rintro rfl
  exact h (d.eq_of_entry_eq_inode hi)

/-! ### Rename -/

/-- Move the inode `i` of the name `old`. -/
def move (d : Disk N B) (old new : N) (i : ℕ) (h : d.entry old = some i) : Disk N B where
  entry := update (update d.entry old none) new (some i)
  data := d.data
  next := d.next
  injective m m' j hm hm' := by
    -- besides `new`, no name has the inode that was moved
    have hother (k : N) (hk : update d.entry old none k = some i) : False :=
      (of_update_none hk).1 (d.injective k old i (of_update_none hk).2 h)
    rw [update_apply] at hm hm'
    split at hm <;> split at hm'
    · rename_i hnew hnew'
      exact hnew.trans hnew'.symm
    · cases hm
      exact (hother m' hm').elim
    · cases hm'
      exact (hother m hm).elim
    · exact d.injective m m' j (of_update_none hm).2 (of_update_none hm').2
  bound m j hm := by
    rw [update_apply] at hm
    split at hm
    · cases hm
      exact d.bound old i h
    · exact d.bound m j (of_update_none hm).2

/-- `os.Rename`; `none` when there is no file with the old name. -/
def rename (d : Disk N B) (old new : N) : Option (Disk N B) :=
  match h : d.entry old with
  | none => none
  | some i => some (d.move old new i h)

/-- Rename one file after the other and stop at the first error; the flag says that there was
    none. -/
def renameAll (d : Disk N B) : List (N × N) → Disk N B × Bool
  | [] => (d, true)
  | (old, new) :: rest =>
    match d.rename old new with
    | none => (d, false)
    | some d' => d'.renameAll rest

/-- A file that is there can be moved; the other names keep theirs. -/
theorem rename_of_entry {d : Disk N B} {old : N} {i : ℕ} (hi : d.entry old = some i) (new : N) :
    ∃ d', d.rename old new = some d' ∧ d'.read new = d.read old ∧
      ∀ m, m ≠ old → m ≠ new → Same d d' m := by
  refine ⟨d.move old new i hi, ?_, ?_, fun m hold hnew => ⟨?_, fun _ _ => rfl⟩⟩
  · unfold rename
    split
    · rename_i hnone
      cases hi.symm.trans hnone
    · rename_i j hj
      cases hi.symm.trans hj
      rfl
  · have hentry : (d.move old new i hi).entry new = some i := update_self ..
    rw [read, read, hentry, hi]
    rfl
  · show update (update d.entry old none) new (some i) m = _
    rw [update_of_ne hnew, update_of_ne hold]

/-- Files that are all there are all moved, when no name is used twice. -/
theorem renameAll_of_entry {d : Disk N B} {moves : List (N × N)}
    (hthere : ∀ p ∈ moves, ∃ i, d.entry p.1 = some i)
    (hnames : (moves.flatMap fun p => [p.1, p.2]).Nodup) :
    ∃ d', d.renameAll moves = (d', true) ∧ (∀ p ∈ moves, d'.read p.2 = d.read p.1) ∧
      ∀ m, (∀ p ∈ moves, m ≠ p.1 ∧ m ≠ p.2) → Same d d' m := by
  induction moves generalizing d with
  | nil => exact ⟨d, rfl, fun p hp => absurd hp List.not_mem_nil, fun m _ => .refl d m⟩
  | cons move rest ih =>
    obtain ⟨old, new⟩ := move
    rw [List.flatMap_cons, List.cons_append, List.cons_append, List.nil_append, List.nodup_cons,
      List.nodup_cons, List.mem_cons, not_or] at hnames
    obtain ⟨⟨-, hold⟩, hnew, hrest⟩ := hnames
    -- the names of the other moves are neither of these two
    have hne {p : N × N} (hp : p ∈ rest) {m : N} (hm : m ∈ [p.1, p.2]) : m ≠ old ∧ m ≠ new := by
      have hmem : m ∈ rest.flatMap fun p => [p.1, p.2] := List.mem_flatMap.mpr ⟨p, hp, hm⟩
      exact ⟨fun heq => hold (heq ▸ hmem), fun heq => hnew (heq ▸ hmem)⟩
    have hfst {p : N × N} (hp : p ∈ rest) := hne hp List.mem_cons_self
    have hsnd {p : N × N} (hp : p ∈ rest) := hne hp (List.mem_cons_of_mem _ List.mem_cons_self)
    obtain ⟨i, hi⟩ := hthere (old, new) List.mem_cons_self
    obtain ⟨d₁, hd₁, hmoved, hsame₁⟩ := rename_of_entry hi new
    have hkept {p : N × N} (hp : p ∈ rest) : Same d d₁ p.1 := hsame₁ p.1 (hfst hp).1 (hfst hp).2
    obtain ⟨d', hd', hmoved', hsame'⟩ := ih (fun p hp => by
      rw [(hkept hp).1]
      exact hthere p (List.mem_cons_of_mem _ hp)) hrest
    refine ⟨d', by rw [renameAll, hd₁]; exact hd', fun p hp => ?_, fun m hm => ?_⟩
    · rcases List.mem_cons.mp hp with rfl | hp
      · -- the later renames leave the first file alone
        refine (hsame' new fun q hq => ?_).read.trans hmoved
        exact ⟨(hfst hq).2.symm, (hsnd hq).2.symm⟩
      · exact (hmoved' p hp).trans (hkept hp).read
    · obtain ⟨hm1, hm2⟩ := hm (old, new) List.mem_cons_self
      exact (hsame₁ m hm1 hm2).trans (hsame' m fun p hp => hm p (List.mem_cons_of_mem _ hp))

end Disk

end MitDistributed.Files
