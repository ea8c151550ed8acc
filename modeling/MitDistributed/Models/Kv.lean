import Mathlib.Data.List.AList
import MitDistributed.Porcupine.Checker
import MitDistributed.Storage

namespace MitDistributed.Models

open Porcupine

/-!
# The model of the key/value store (`models/kv.go`)

The model has the value of a single key: `partition` splits a history by keys, so that the checker
only ever sees the operations of one key.  A key that was never put has the empty string.
-/

structure KvInput where
  /-- 0 is get, 1 is put, anything else append. -/
  op : UInt8
  key : Bytes
  value : Bytes
  deriving DecidableEq

structure KvOutput where
  value : Bytes
  deriving DecidableEq

abbrev KvOperation := Operation KvInput KvOutput

/-- The operations of each key, in the order of the history. -/
def groupByKey (history : List KvOperation) : AList fun _ : Bytes => List KvOperation :=
  history.foldl (fun m v => m.insert v.input.key ((m.lookup v.input.key).getD [] ++ [v])) ∅

def kvPartition (history : List KvOperation) : List (List KvOperation) :=
  let m := groupByKey history
  -- the map gives its keys in any order
  let keys := m.keys.insertionSort (· ≤ ·)
  keys.map fun k => (m.lookup k).getD []

def kvStep (st : Bytes) (inp : KvInput) (out : KvOutput) : Bool × Bytes :=
  if inp.op = 0 then (decide (out.value = st), st)
  else if inp.op = 1 then (true, inp.value)
  else (true, st ++ inp.value)

def kvModel : Model Bytes KvInput KvOutput :=
  { partition := some kvPartition
    partitionEvent := none
    init := []
    step := kvStep
    equal := none }

theorem equalOk_kvModel : EqualOk (fillDefault kvModel) :=
  equalOk_fillDefault rfl

section Partition

variable {history : List KvOperation} {sub : List KvOperation} {k : Bytes}

theorem lookup_groupByKey :
    ((groupByKey history).lookup k).getD [] = history.filter fun v => v.input.key = k := by
  induction history using List.reverseRecOn with
  | nil => rfl
  | append_singleton history v ih =>
    rw [groupByKey, List.foldl_append, List.foldl_cons, List.foldl_nil, ← groupByKey,
      List.filter_append]
    by_cases h : v.input.key = k
    · subst h
      simp [ih]
    · simp [AList.lookup_insert_ne (Ne.symm h), h, ih]

theorem mem_groupByKey : k ∈ groupByKey history ↔ ∃ v ∈ history, v.input.key = k := by
  induction history using List.reverseRecOn with
  | nil => simp [groupByKey]
  | append_singleton history v ih =>
    rw [groupByKey, List.foldl_append, List.foldl_cons, List.foldl_nil, ← groupByKey,
      AList.mem_insert, ih]
    simp only [List.mem_append, List.mem_singleton, or_and_right, exists_or, exists_eq_left]
    rw [or_comm, eq_comm]

/-- The parts are the operations of each key that occurs. -/
theorem mem_kvPartition :
    sub ∈ kvPartition history ↔
      ∃ k, (∃ v ∈ history, v.input.key = k) ∧ (history.filter fun v => v.input.key = k) = sub := by
  simp only [kvPartition, List.mem_map, List.mem_insertionSort, ← AList.mem_keys, mem_groupByKey,
    lookup_groupByKey]

end Partition

end MitDistributed.Models
