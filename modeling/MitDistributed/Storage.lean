import Mathlib.Data.List.Nodup
import Mathlib.Tactic.Common

namespace MitDistributed

/-!
# Stored keys and values

The map from keys to values that a key/value server keeps.  Strings are sequences of bytes.
-/

/-- A string of the source. -/
abbrev Bytes := List UInt8

/-- A map from keys to values. -/
structure Storage where
  entries : List (Bytes × Bytes)
  nodup : (entries.map Prod.fst).Nodup
  deriving DecidableEq

namespace Storage

def empty : Storage := ⟨[], List.nodup_nil⟩

/-- The value of a key, if it has one. -/
def get? (st : Storage) (key : Bytes) : Option Bytes := st.entries.lookup key

def putEntry (key value : Bytes) : List (Bytes × Bytes) → List (Bytes × Bytes)
  | [] => [(key, value)]
  | e :: es => if e.1 = key then (key, value) :: es else e :: putEntry key value es

theorem mem_keys_putEntry {key value k : Bytes} {es : List (Bytes × Bytes)}
    (h : k ∈ (putEntry key value es).map Prod.fst) : k = key ∨ k ∈ es.map Prod.fst := by
  induction es with
  | nil => exact .inl (List.mem_singleton.mp h)
  | cons e es ih =>
    unfold putEntry at h
    split at h
    · rw [List.map_cons] at h ⊢
      exact (List.mem_cons.mp h).imp_right (List.mem_cons_of_mem _)
    · rw [List.map_cons] at h ⊢
      rcases List.mem_cons.mp h with rfl | hmem
      · exact .inr List.mem_cons_self
      · exact (ih hmem).imp_right (List.mem_cons_of_mem _)

theorem nodup_putEntry (key value : Bytes) {es : List (Bytes × Bytes)}
    (h : (es.map Prod.fst).Nodup) : ((putEntry key value es).map Prod.fst).Nodup := by
  induction es with
  | nil => exact List.nodup_singleton key
  | cons e es ih =>
    obtain ⟨he, hes⟩ := List.nodup_cons.mp h
    unfold putEntry
    split
    · rename_i heq
      rw [List.map_cons]
      exact List.nodup_cons.mpr ⟨heq ▸ he, hes⟩
    · rename_i hne
      rw [List.map_cons]
      refine List.nodup_cons.mpr ⟨fun hmem => ?_, ih hes⟩
      exact (mem_keys_putEntry hmem).elim hne he

/-- `storage[key] = value` -/
def put (st : Storage) (key value : Bytes) : Storage :=
  ⟨putEntry key value st.entries, nodup_putEntry key value st.nodup⟩

/-- Append to the value of a key; a key without a value gets one. -/
def append (st : Storage) (key value : Bytes) : Storage :=
  match st.get? key with
  | some old => st.put key (old ++ value)
  | none => st.put key value

@[simp] theorem get?_put_self (st : Storage) (key value : Bytes) :
    (st.put key value).get? key = some value := by
  obtain ⟨es, hes⟩ := st
  show (putEntry key value es).lookup key = some value
  clear hes
  induction es with
  | nil => simp [putEntry]
  | cons e es ih =>
    unfold putEntry
    split
    · simp
    · rename_i hne
      rw [List.lookup_cons, beq_false_of_ne (Ne.symm hne)]
      exact ih

theorem get?_put_of_ne (st : Storage) {key k : Bytes} (value : Bytes) (h : k ≠ key) :
    (st.put key value).get? k = st.get? k := by
  obtain ⟨es, hes⟩ := st
  show (putEntry key value es).lookup k = es.lookup k
  clear hes
  induction es with
  | nil => simp [putEntry, List.lookup_cons, beq_false_of_ne h]
  | cons e es ih =>
    unfold putEntry
    split
    · rename_i heq
      rw [List.lookup_cons, List.lookup_cons, beq_false_of_ne h, heq, beq_false_of_ne h]
    · rw [List.lookup_cons, List.lookup_cons, ih]

end Storage

end MitDistributed
