import MitDistributed.Porcupine.Operations

namespace MitDistributed.Models

open Linearizability Porcupine Transition

/-!
# The key/value model and the store as a whole

`kvModel` has one key.  That the checker looks at the keys one by one is right because a store is
made of independent keys: its history can be linearized exactly if the operations of every key can.

* `StoreLinearizable` — linearizability of a store that maps every key to a value;
* `storeLinearizable_iff` — the same, key by key;
* `checkOperations_kvModel` — what the checker says of a history is right for the whole store.
-/

/-- What an operation does to the store, if its output is right. -/
def storeStep (st : Bytes → Bytes) (v : KvOperation) : Option (Bytes → Bytes) :=
  if v.input.op = 0 then if v.output.value = st v.input.key then some st else none
  else if v.input.op = 1 then some (Function.update st v.input.key v.input.value)
  else some (Function.update st v.input.key (st v.input.key ++ v.input.value))

/-- Some order of the operations is right for a store that is empty at first, and agrees with real
    time. -/
def StoreLinearizable (history : List KvOperation) : Prop :=
  Linearizable (fun st i => history[i]?.bind (storeStep st)) (OpBefore history) (fun _ => [])
    (List.range history.length)

/-! ### One key -/

section Positions

variable {I O : Type} {history : List (Operation I O)} {p : Operation I O → Bool}

/-- Where the operations with `p` are. -/
def positions (p : Operation I O → Bool) (history : List (Operation I O)) : List ℕ :=
  (List.range history.length).filter fun i => history[i]?.any p

theorem map_positions :
    (positions p history).map (history[·]?) = (history.filter p).map some := by
  have hall : (List.range history.length).map (history[·]?) = history.map some := by
    refine List.ext_getElem (by simp) fun i hi _ => ?_
    simp [List.getElem?_eq_getElem (by simpa using hi : i < history.length)]
  have hfilter : (history.map some).filter (fun o => o.any p) = (history.filter p).map some := by
    rw [List.filter_map]
    rfl
  rw [← hfilter, ← hall, List.filter_map]
  rfl

theorem length_positions : (positions p history).length = (history.filter p).length := by
  have hlen : ((positions p history).map (history[·]?)).length = _ :=
    congrArg List.length map_positions
  simpa using hlen

/-- Operation `n` with `p` is the operation at position `n`. -/
theorem getElem?_positions (n : ℕ) :
    history[(positions p history)[n]?.getD history.length]? = (history.filter p)[n]? := by
  have hn : ((positions p history).map (history[·]?))[n]? = _ := congrArg (·[n]?) map_positions
  rw [List.getElem?_map, List.getElem?_map] at hn
  cases h : (history.filter p)[n]? with
  | none =>
    rw [h, Option.map_none, Option.map_eq_none_iff] at hn
    simp [hn]
  | some v =>
    rw [h, Option.map_some, Option.map_eq_some_iff] at hn
    obtain ⟨i, hi, hv⟩ := hn
    simp [hi, hv]

theorem positions_eq_map :
    positions p history = (List.range (history.filter p).length).map
      fun n => (positions p history)[n]?.getD history.length := by
  refine List.ext_getElem (by simp [length_positions]) fun n hn _ => ?_
  simp [List.getElem?_eq_getElem hn]

/-- Taking some operations out of a history does not change what they are or when they ran. -/
theorem linearizable_positions_iff {S : Type} {model : FilledModel S I O} :
    Linearizable (opStep model (valsOf history)) (OpBefore history) model.init
      (positions p history) ↔ OperationsLinearizable model (history.filter p) := by
  let position (n : ℕ) := (positions p history)[n]?.getD history.length
  have hget (n : ℕ) : history[position n]? = (history.filter p)[n]? := getElem?_positions n
  have hstep : (fun s n => opStep model (valsOf history) s (position n)) =
      opStep model (valsOf (history.filter p)) := by
    funext s n
    rw [opStep, opStep, List.getElem?_map, List.getElem?_map, hget]
  have hbefore : (fun m n => OpBefore history (position m) (position n)) =
      OpBefore (history.filter p) := by
    funext m n
    rw [OpBefore, OpBefore, hget, hget]
  rw [positions_eq_map, linearizable_map, hstep, hbefore, OperationsLinearizable]

end Positions

section Keys

variable {history : List KvOperation}

def keyAt (history : List KvOperation) (i : ℕ) : Bytes :=
  (history[i]?.map fun v => v.input.key).getD []

/-- The store is made of the keys. -/
theorem storeStep_eq_partsStep (history : List KvOperation) :
    (fun st i => history[i]?.bind (storeStep st)) =
      partsStep (keyAt history) (opStep (fillDefault kvModel) (valsOf history)) := by
  funext st i
  cases h : history[i]? with
  | none => simp [partsStep, opStep, h]
  | some v =>
    simp only [partsStep, opStep, keyAt, h, List.getElem?_map, Option.map_some, Option.getD_some,
      Option.bind_some, storeStep]
    change _ = Option.map _ (if (kvStep _ v.input v.output).1 then
      some (kvStep _ v.input v.output).2 else none)
    unfold kvStep
    by_cases hget : v.input.op = 0
    · by_cases hout : v.output.value = st v.input.key <;> simp [hget, hout]
    · by_cases hput : v.input.op = 1 <;> simp [hget, hput]

theorem filter_keyAt (k : Bytes) :
    (List.range history.length).filter (keyAt history · = k) =
      positions (fun v => v.input.key = k) history := by
  refine List.filter_congr fun i hi => ?_
  simp [keyAt, List.getElem?_eq_getElem (List.mem_range.mp hi)]

/-- **Locality.** A history of the store can be linearized exactly if the operations of every key
    can, each by itself. -/
theorem storeLinearizable_iff (hcall : ∀ v ∈ history, v.call ≤ v.ret) :
    StoreLinearizable history ↔ ∀ k, OperationsLinearizable (fillDefault kvModel)
      (history.filter fun v => v.input.key = k) := by
  let call (i : ℕ) := (history[i]?.map Operation.call).getD 0
  let ret (i : ℕ) := (history[i]?.map Operation.ret).getD 0
  have hbefore (ops : List ℕ) (hops : ∀ i ∈ ops, i < history.length) (i : ℕ) (hi : i ∈ ops)
      (j : ℕ) (hj : j ∈ ops) : OpBefore history i j ↔ ret i < call j := by
    simp [OpBefore, call, ret, List.getElem?_eq_getElem (hops i hi),
      List.getElem?_eq_getElem (hops j hj)]
  have htimes (i : ℕ) (hi : i ∈ List.range history.length) : call i ≤ ret i := by
    simp only [call, ret, List.getElem?_eq_getElem (List.mem_range.mp hi), Option.map_some,
      Option.getD_some]
    exact hcall _ (List.getElem_mem _)
  rw [StoreLinearizable, linearizable_congr (hbefore _ fun i hi => List.mem_range.mp hi),
    storeStep_eq_partsStep, linearizable_partsStep_iff htimes List.nodup_range]
  refine forall_congr' fun k => ?_
  rw [filter_keyAt, ← linearizable_congr (hbefore _ fun i hi => ?_)]
  · exact linearizable_positions_iff
  · exact List.mem_range.mp (List.mem_filter.mp hi).1

/-- The parts of the checker are all keys that matter. -/
theorem forall_kvPartition_iff :
    (∀ sub ∈ kvPartition history, OperationsLinearizable (fillDefault kvModel) sub) ↔
      ∀ k, OperationsLinearizable (fillDefault kvModel)
        (history.filter fun v => v.input.key = k) := by
  constructor
  · intro h k
    by_cases hk : ∃ v ∈ history, v.input.key = k
    · exact h _ (mem_kvPartition.mpr ⟨k, hk, rfl⟩)
    · have hnil : (history.filter fun v => decide (v.input.key = k)) = [] := by
        refine List.filter_eq_nil_iff.mpr fun v hv hvk => hk ⟨v, hv, of_decide_eq_true hvk⟩
      rw [hnil]
      exact linearizable_nil
  · intro h sub hsub
    obtain ⟨k, -, rfl⟩ := mem_kvPartition.mp hsub
    exact h k

theorem timesOk_kvModel (hcall : ∀ v ∈ history, v.call ≤ v.ret) : TimesOk kvModel history := by
  intro sub hsub v hv
  obtain ⟨k, -, rfl⟩ := mem_kvPartition.mp hsub
  exact hcall v (List.mem_filter.mp hv).1

/-- What a result of the checker means for the history as a whole. -/
theorem result_kvModel {sorter : Sorter (KvInput ⊕ KvOutput)} {verbose hasTimeout : Bool}
    {acts : List ParallelAction} {s : Parallel Bytes} {result : CheckResult}
    (hcall : ∀ v ∈ history, v.call ≤ v.ret)
    (hrun : checkOperations sorter kvModel history verbose hasTimeout acts = some s)
    (hreturned : s.main = .returned result) :
    result = .ok ∧ StoreLinearizable history ∨ result = .illegal ∧ ¬ StoreLinearizable history ∨
      result = .unknown ∧ hasTimeout = true := by
  have hwhole : (∀ p ∈ partsOf sorter kvModel history, p.Ok (fillDefault kvModel)) ↔
      StoreLinearizable history :=
    forall_partsOf_iff.trans (forall_kvPartition_iff.trans (storeLinearizable_iff hcall).symm)
  refine (result_of_run equalOk_kvModel (timesOk_kvModel hcall) hrun hreturned).imp
    (And.imp_right hwhole.mp) (Or.imp_left (And.imp_right fun ⟨p, hp, hnot⟩ hlin => ?_))
  exact hnot (hwhole.mpr hlin p hp)

end Keys

/-- **The checker is right for the store.** Whatever `checkOperations` returns for the key/value
    model, in any interleaving: `Ok` only if the history of the whole store can be linearized,
    `Illegal` only if it cannot, and `Unknown` only with a timer. -/
theorem checkOperations_kvModel (sorter : Sorter (KvInput ⊕ KvOutput)) (history : List KvOperation)
    (hcall : ∀ v ∈ history, v.call ≤ v.ret) (verbose hasTimeout : Bool) (acts : List ParallelAction)
    (s : Parallel Bytes)
    (hrun : checkOperations sorter kvModel history verbose hasTimeout acts = some s)
    (result : CheckResult) (hreturned : s.main = .returned result) :
    (result = .ok → StoreLinearizable history) ∧
      (result = .illegal → ¬ StoreLinearizable history) ∧
      (result = .unknown → hasTimeout = true) := by
  rcases result_kvModel hcall hrun hreturned with ⟨rfl, hlin⟩ | ⟨rfl, hnot⟩ | ⟨rfl, htimed⟩
  · exact ⟨fun _ => hlin, fun h => (by cases h), fun h => by cases h⟩
  · exact ⟨fun h => (by cases h), fun _ => hnot, fun h => by cases h⟩
  · exact ⟨fun h => (by cases h), fun h => (by cases h), fun _ => htimed⟩

/-- The overlapping operations on one key, and a put and a get of another. -/
def twoKeys (found : Bytes) : List KvOperation :=
  overlapping ++
    [{ clientId := 3, input := ⟨1, [121], [50]⟩, call := 2, output := ⟨[]⟩, ret := 12 },
     { clientId := 0, input := ⟨0, [121], []⟩, call := 13, output := ⟨found⟩, ret := 15 }]

/-- The get must find what was put.  The goroutines of the two keys take turns; when the second one
    finds that its operations cannot be ordered, the function does not wait for the first. -/
theorem twoKeys_kvModel : StoreLinearizable (twoKeys [50]) ∧ ¬ StoreLinearizable (twoKeys []) := by
  have hok : (checkOperations (Sorter.insertion _) kvModel (twoKeys [50]) false false
      ([.iterate 1, .iterate 0, .iterate 1, .iterate 1] ++ List.replicate 9 (.iterate 0) ++
        [.receive, .receive])).map (·.main) = some (.returned .ok) := by
    decide +kernel
  have hillegal : (checkOperations (Sorter.insertion _) kvModel (twoKeys []) false false
      [.iterate 1, .iterate 0, .iterate 1, .iterate 1, .iterate 1, .receive]).map (·.main) =
        some (.returned .illegal) := by
    decide +kernel
  obtain ⟨s, hrun, hmain⟩ := Option.map_eq_some_iff.mp hok
  obtain ⟨s', hrun', hmain'⟩ := Option.map_eq_some_iff.mp hillegal
  exact ⟨(checkOperations_kvModel _ _ (by decide) _ _ _ s hrun _ hmain).1 rfl,
    (checkOperations_kvModel _ _ (by decide) _ _ _ s' hrun' _ hmain').2.1 rfl⟩

end MitDistributed.Models
