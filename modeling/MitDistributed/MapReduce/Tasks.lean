import Mathlib.Data.List.Induction
import Mathlib.Data.String.Basic
import MitDistributed.Grouping.Runs

namespace MitDistributed.MapReduce

open Grouping

/-!
# MapReduce tasks

What a map task writes, what a reduce task writes, and the sequential program.

* `middleResult` splits the records of a map task by `ihash`; `reduceLoop` is the two-index loop
  that reduces a sorted list.  Worker and `mrsequential` have the same loop.
* `reduceLoop_eq` says that the loop reduces the groups of neighbours with the same key.
* `distributed_eq_sequential` compares the two programs.

encoding/json and sort.Sort are parameters (`Format`, `Sorter`).
-/

structure KeyValue where
  key : String
  value : String
  deriving DecidableEq, Repr

/-- hash/fnv, `New32a`. -/
def fnv32a (bytes : List UInt8) : UInt32 :=
  bytes.foldl (fun h b => (h ^^^ b.toUInt32) * 16777619) 2166136261

def ihash (key : String) : ℕ :=
  (fnv32a (key.toList.flatMap String.utf8EncodeChar) &&& 0x7fffffff).toNat

/-- The records of a map task, split by reduce task. -/
def middleResult (nReduce : ℕ) (keyValueList : List KeyValue) : List (List KeyValue) :=
  keyValueList.foldl (fun mid kv => mid.modify (ihash kv.key % nReduce) (· ++ [kv]))
    (List.replicate nReduce [])

/-- How records and lines stand in a file of bytes `B`.  `decode` is the loop that decodes until
    an error; what was encoded record by record is read back. -/
structure Format (B : Type) where
  encode : KeyValue → List B
  decode : List B → List KeyValue
  decode_encode : ∀ kvs, decode (kvs.flatMap encode) = kvs
  /-- `"%v %v\n"` -/
  line : String → String → List B
  /-- What a hole in a file reads as. -/
  zero : B

/-- `sort.Sort(ByKey(...))`: some sorted permutation. -/
structure Sorter where
  sort : List KeyValue → List KeyValue
  sorted : ∀ l, Sorted KeyValue.key (sort l)
  perm : ∀ l, (sort l).Perm l

/-! ### The two-index loop -/

/-- The inner loop: `j` moves on while the key is the same. -/
def nextKey (l : List KeyValue) (key : String) (j : ℕ) : ℕ :=
  if h : j < l.length then
    if (l.get ⟨j, h⟩).key = key then nextKey l key (j + 1) else j
  else j
termination_by l.length - j

theorem le_nextKey (l : List KeyValue) (key : String) (j : ℕ) : j ≤ nextKey l key j := by
  fun_induction nextKey l key j with
  | case1 j h heq ih => omega
  | case2 j h hne => exact le_rfl
  | case3 j h => exact le_rfl

/-- The outer loop from index `i`, with what it does for a key and its values. -/
def reduceLoop {τ : Type} (emit : String → List String → τ) (l : List KeyValue) (i : ℕ) :
    List τ :=
  if h : i < l.length then
    let key := (l.get ⟨i, h⟩).key
    let j := nextKey l key (i + 1)
    emit key (((l.drop i).take (j - i)).map KeyValue.value) :: reduceLoop emit l j
  else []
termination_by l.length - i
decreasing_by
  have := le_nextKey l (l.get ⟨i, h⟩).key (i + 1)
  omega

theorem nextKey_eq (l : List KeyValue) (key : String) (j : ℕ) :
    nextKey l key j = j + ((l.drop j).takeWhile fun kv => kv.key = key).length := by
  fun_induction nextKey l key j with
  | case1 j h heq ih =>
    rw [ih, List.drop_eq_getElem_cons h, List.takeWhile_cons_of_pos (by simpa using heq),
      List.length_cons]
    omega
  | case2 j h hne =>
    rw [List.drop_eq_getElem_cons h, List.takeWhile_cons_of_neg (by simpa using hne)]
    rfl
  | case3 j h =>
    rw [List.drop_eq_nil_of_le (not_lt.mp h)]
    rfl

/-- The loop reduces the groups of what is left of the list. -/
theorem reduceLoop_eq {τ : Type} (emit : String → List String → τ) (l : List KeyValue) (i : ℕ) :
    reduceLoop emit l i =
      (groups KeyValue.key KeyValue.value (l.drop i)).map fun g => emit g.1 g.2 := by
  fun_induction reduceLoop emit l i with
  | case1 i h key j ih =>
    -- `run` are the further records of the key, up to index `j`
    let run := (l.drop (i + 1)).takeWhile fun kv => kv.key = key
    let rest := (l.drop (i + 1)).dropWhile fun kv => kv.key = key
    have hsplit : l.drop (i + 1) = run ++ rest := (List.takeWhile_append_dropWhile ..).symm
    have hj : j = i + 1 + run.length := nextKey_eq l key (i + 1)
    have hcons : l.drop i = l.get ⟨i, h⟩ :: (run ++ rest) := by
      rw [← hsplit]
      exact List.drop_eq_getElem_cons h
    have hvalues : (l.drop i).take (j - i) = l.get ⟨i, h⟩ :: run := by
      rw [hcons, show j - i = run.length + 1 by omega, List.take_succ_cons, List.take_left]
    have hrest : l.drop j = rest := by
      rw [hj, ← List.drop_drop, hsplit, List.drop_left]
    rw [ih, hvalues, hrest, hcons, ← hsplit]
    show _ = (groupLoop _ _ key [(l.get ⟨i, h⟩).value] (l.drop (i + 1))).map _
    rw [groupLoop_eq]
    rfl
  | case2 i h =>
    rw [List.drop_eq_nil_of_le (not_lt.mp h)]
    rfl

/-! ### Splitting by reduce task -/

/-- Reduce task `i` gets the records whose key it is responsible for, in their order. -/
theorem middleResult_getElem? {nReduce i : ℕ} (hi : i < nReduce) (kvs : List KeyValue) :
    (middleResult nReduce kvs)[i]? = some (kvs.filter fun kv => ihash kv.key % nReduce = i) := by
  unfold middleResult
  induction kvs using List.reverseRecOn with
  | nil => simp [hi]
  | append_singleton kvs kv ih =>
    rw [List.foldl_append, List.foldl_cons, List.foldl_nil, List.getElem?_modify, ih,
      List.filter_append]
    by_cases hkv : ihash kv.key % nReduce = i <;> simp [hkv]

/-! ### Jobs -/

/-- The input files, the plugin and the number of reduce tasks.  A file without contents cannot
    be opened, which ends the program that tries. -/
structure Job (B : Type) where
  files : List String
  contents : String → Option String
  nReduce : ℕ
  mapf : String → String → List KeyValue
  reducef : String → List String → String
  format : Format B

namespace Job

variable {B : Type} (job : Job B)

def nMap : ℕ := job.files.length

/-- A worker's map task on the file `name`, up to its output files. -/
def mapTask (name : String) : Option (List (List KeyValue)) :=
  (job.contents name).map fun content => middleResult job.nReduce (job.mapf name content)

/-- What map task `m` writes to the file for reduce task `i`. -/
def mapFile (m i : ℕ) : Option (List B) := do
  let name ← (job.files)[m]?
  let mid ← job.mapTask name
  let kvs ← mid[i]?
  some (kvs.flatMap job.format.encode)

/-- The records a reduce task reads, from the files of all map tasks; a file that is not there
    has none. -/
def reduceResult (file : ℕ → Option (List B)) : List KeyValue :=
  (List.range job.nMap).flatMap fun i => (file i).elim [] job.format.decode

/-- The calls of `reducef`, in order. -/
def reduceCalls (sorter : Sorter) (kvs : List KeyValue) : List (String × List String) :=
  reduceLoop Prod.mk (sorter.sort kvs) 0

/-- The lines of an output file. -/
def reduceLines (sorter : Sorter) (kvs : List KeyValue) : List (List B) :=
  reduceLoop (fun key values => job.format.line key (job.reducef key values)) (sorter.sort kvs) 0

/-- `mrsequential`: the records of one more file. -/
def appendFile (acc : List KeyValue) (name : String) : Option (List KeyValue) :=
  (job.contents name).map fun content => acc ++ job.mapf name content

/-- `mrsequential`: the records of all files. -/
def intermediate : Option (List KeyValue) := job.files.foldlM job.appendFile []

/-- `mrsequential`: the lines of its `mr-out-0`. -/
def sequential (sorter : Sorter) : Option (List (List B)) :=
  job.intermediate.map (job.reduceLines sorter)

/-- All records that the map tasks emit. -/
def emitted : List KeyValue :=
  job.files.flatMap fun name => ((job.contents name).map (job.mapf name)).getD []

/-- All values emitted for a key, over all files. -/
def emittedValues (key : String) : List String :=
  values KeyValue.key KeyValue.value key job.emitted

variable {job}

theorem foldlM_appendFile {names : List String} (acc : List KeyValue)
    (h : ∀ name ∈ names, (job.contents name).isSome) :
    names.foldlM job.appendFile acc =
      some (acc ++
        names.flatMap fun name => ((job.contents name).map (job.mapf name)).getD []) := by
  induction names generalizing acc with
  | nil => simp
  | cons name names ih =>
    obtain ⟨hname, hrest⟩ := List.forall_mem_cons.mp h
    obtain ⟨content, hcontent⟩ := Option.isSome_iff_exists.mp hname
    have hstep : job.appendFile acc name = some (acc ++ job.mapf name content) := by
      rw [appendFile, hcontent, Option.map_some]
    rw [List.foldlM_cons, hstep, Option.bind_eq_bind, Option.bind_some, ih _ hrest]
    simp [hcontent]

theorem intermediate_eq (h : ∀ name ∈ job.files, (job.contents name).isSome) :
    job.intermediate = some job.emitted :=
  foldlM_appendFile [] h

/-- A written file holds what its task's input sends there. -/
theorem exists_of_mapFile {m i : ℕ} {bytes : List B} (hi : i < job.nReduce)
    (h : job.mapFile m i = some bytes) :
    ∃ name content, (job.files)[m]? = some name ∧ job.contents name = some content ∧
      bytes = ((job.mapf name content).filter
        fun kv => ihash kv.key % job.nReduce = i).flatMap job.format.encode := by
  simp only [mapFile, mapTask, Option.bind_eq_bind, Option.bind_eq_some_iff,
    Option.map_eq_some_iff, Option.some.injEq] at h
  obtain ⟨name, hname, _, ⟨content, hcontent, rfl⟩, kvs, hkvs, rfl⟩ := h
  rw [middleResult_getElem? hi, Option.some.injEq] at hkvs
  exact ⟨name, content, hname, hcontent, by rw [hkvs]⟩

/-! ### The distributed job against the sequential one -/

/-- The intermediate files `inter m i` were all written completely by attempts of their tasks. -/
def Written (job : Job B) (inter : ℕ → ℕ → Option (List B)) : Prop :=
  ∀ m < job.nMap, ∀ i < job.nReduce, (job.mapFile m i).isSome ∧ inter m i = job.mapFile m i

variable {inter : ℕ → ℕ → Option (List B)}

theorem Written.exists_content (hw : job.Written inter) {m i : ℕ} (hm : m < job.files.length)
    (hi : i < job.nReduce) :
    ∃ content, job.contents (job.files.get ⟨m, hm⟩) = some content ∧
      inter m i = some (((job.mapf (job.files.get ⟨m, hm⟩) content).filter
        fun kv => ihash kv.key % job.nReduce = i).flatMap job.format.encode) := by
  obtain ⟨hsome, heq⟩ := hw m hm i hi
  obtain ⟨bytes, hbytes⟩ := Option.isSome_iff_exists.mp hsome
  obtain ⟨name, content, hname, hcontent, rfl⟩ := exists_of_mapFile hi hbytes
  obtain ⟨_, rfl⟩ := List.getElem?_eq_some_iff.mp hname
  exact ⟨content, hcontent, heq.trans hbytes⟩

theorem Written.readable (hw : job.Written inter) (hN : 1 ≤ job.nReduce) :
    ∀ name ∈ job.files, (job.contents name).isSome := by
  intro name hname
  obtain ⟨m, hm, rfl⟩ := List.getElem_of_mem hname
  obtain ⟨content, hcontent, -⟩ := hw.exists_content hm hN
  exact Option.isSome_iff_exists.mpr ⟨content, hcontent⟩

/-- A reduce task reads the records of its keys, of all files and in their order. -/
theorem Written.reduceResult_eq (hw : job.Written inter) {r : ℕ} (hr : r < job.nReduce) :
    job.reduceResult (fun m => inter m r) =
      job.emitted.filter fun kv => ihash kv.key % job.nReduce = r := by
  unfold reduceResult emitted nMap
  rw [List.filter_flatMap, List.flatMap_def, List.flatMap_def]
  congr 1
  refine List.ext_getElem (by simp) fun m hm _ => ?_
  have hm : m < job.files.length := by simpa using hm
  obtain ⟨content, hcontent, hinter⟩ := hw.exists_content hm hr
  have hcontent : job.contents ((job.files)[m]) = some content := hcontent
  simp [hinter, hcontent, job.format.decode_encode]

/-- What the reduce tasks sort is what the sequential program sorts, split by `ihash`. -/
theorem Written.split (hw : job.Written inter) (hN : 1 ≤ job.nReduce) (sorter : ℕ → Sorter)
    (seq : Sorter) :
    Split KeyValue.key (fun key => ihash key % job.nReduce) job.nReduce (seq.sort job.emitted)
      fun r => (sorter r).sort (job.reduceResult fun m => inter m r) where
  bound _ _ := Nat.mod_lt _ hN
  perm r hr := by
    have hread := hw.reduceResult_eq hr
    exact ((sorter r).perm _).trans (hread ▸ ((seq.perm job.emitted).filter _).symm)

theorem reduceCalls_eq (sorter : Sorter) (kvs : List KeyValue) :
    reduceCalls sorter kvs = groups KeyValue.key KeyValue.value (sorter.sort kvs) := by
  rw [reduceCalls, reduceLoop_eq, List.drop_zero]
  exact List.map_id _

theorem reduceLines_eq (job : Job B) (sorter : Sorter) (kvs : List KeyValue) :
    job.reduceLines sorter kvs =
      (reduceCalls sorter kvs).map fun g => job.format.line g.1 (job.reducef g.1 g.2) := by
  rw [reduceCalls_eq, reduceLines, reduceLoop_eq, List.drop_zero]

/-- The calls of a task are the groups of what it sorted. -/
theorem groupsOf_reduceCalls (sorter : Sorter) (kvs : List KeyValue) :
    GroupsOf KeyValue.key KeyValue.value (sorter.sort kvs) (reduceCalls sorter kvs) :=
  reduceCalls_eq sorter kvs ▸ groups_spec (sorter.sorted kvs)

/-- **Distributed MapReduce equals the sequential one.**  When every intermediate file was
    written completely, each emitted key is reduced by one reduce task, once, with all its values,
    and the output files have together the lines of `mrsequential`. -/
theorem distributed_eq_sequential (job : Job B) (hN : 1 ≤ job.nReduce)
    (hreducef : ∀ key vs vs', vs.Perm vs' → job.reducef key vs = job.reducef key vs')
    (sorter : ℕ → Sorter) (seq : Sorter) (inter : ℕ → ℕ → Option (List B))
    (hw : job.Written inter) :
    (∀ key ∈ job.emitted.map KeyValue.key, ∃ r < job.nReduce,
      (∃ vs, (reduceCalls (sorter r) (job.reduceResult fun m => inter m r)).filter
          (fun call => call.1 = key) = [(key, vs)] ∧ vs.Perm (job.emittedValues key)) ∧
      ∀ r' < job.nReduce, r' ≠ r →
        ∀ call ∈ reduceCalls (sorter r') (job.reduceResult fun m => inter m r'),
          call.1 ≠ key) ∧
    ∃ lines, job.sequential seq = some lines ∧
      ((List.range job.nReduce).flatMap fun r =>
        job.reduceLines (sorter r) (job.reduceResult fun m => inter m r)).Perm lines := by
  have hsplit := hw.split hN sorter seq
  have hpart : ∀ r < job.nReduce, GroupsOf KeyValue.key KeyValue.value
      ((sorter r).sort (job.reduceResult fun m => inter m r))
      (reduceCalls (sorter r) (job.reduceResult fun m => inter m r)) :=
    fun r _ => groupsOf_reduceCalls _ _
  have hsorted := seq.perm job.emitted
  refine ⟨fun key hkey => ?_, ?_⟩
  · -- the reduce task of a key is the one `ihash` gives
    have hkey : key ∈ (seq.sort job.emitted).map KeyValue.key :=
      ((hsorted.map KeyValue.key).mem_iff).mpr hkey
    have hr := hsplit.bucket_lt hkey
    refine ⟨_, hr, ⟨_, (hpart _ hr).filter_eq ((hsplit.mem_keys hr).mpr ⟨hkey, rfl⟩), ?_⟩, ?_⟩
    · exact (hsplit.values_perm KeyValue.value hr).trans (values_perm hsorted)
    · rintro r' hr' hne call hcall rfl
      have hmem := ((hpart r' hr').mem_keys call.1).mp (List.mem_map_of_mem hcall)
      exact hne ((hsplit.mem_keys hr').mp hmem).2.symm
  · refine ⟨_, by rw [sequential, intermediate_eq (hw.readable hN), Option.map_some], ?_⟩
    simp only [reduceLines_eq]
    refine hsplit.perm_results (f := fun key vs => job.format.line key (job.reducef key vs)) hpart
      (groupsOf_reduceCalls seq job.emitted) fun key vs vs' hperm => ?_
    rw [hreducef key vs vs' hperm]

end Job

/-! ### A word count -/

/-- Files as sequences of what was written to them. -/
def chunks : Format (KeyValue ⊕ String) where
  encode kv := [.inl kv]
  decode := List.filterMap Sum.getLeft?
  decode_encode kvs := by
    induction kvs with
    | nil => rfl
    | cons kv kvs ih => exact congrArg (kv :: ·) ih
  line key output := [.inr (key ++ " " ++ output ++ "\n")]
  zero := .inr ""

def byKey : Sorter where
  sort l := l.mergeSort fun a b => a.key ≤ b.key
  sorted l := by
    refine (List.pairwise_mergeSort (fun a b c hab hbc => ?_) (fun a b => ?_) l).imp
      fun h => of_decide_eq_true h
    · exact decide_eq_true (le_trans (of_decide_eq_true hab) (of_decide_eq_true hbc))
    · simpa using le_total a.key b.key
  perm l := List.mergeSort_perm l _

/-- Two files, whose characters are counted by three reduce tasks. -/
def charCount : Job (KeyValue ⊕ String) where
  files := ["pg-one", "pg-two"]
  contents name :=
    if name = "pg-one" then some "ab" else if name = "pg-two" then some "cab" else none
  nReduce := 3
  mapf _ content := content.toList.map fun c => ⟨c.toString, "1"⟩
  reducef _ vs := toString vs.length
  format := chunks

/-- The hypotheses hold of the files that the map tasks of `charCount` write, and there are keys. -/
theorem distributed_eq_sequential_charCount :
    "a" ∈ charCount.emitted.map KeyValue.key ∧
    ∃ lines, charCount.sequential byKey = some lines ∧
      ((List.range 3).flatMap fun r => charCount.reduceLines byKey
        (charCount.reduceResult fun m => charCount.mapFile m r)).Perm lines :=
  ⟨by decide +kernel,
    (Job.distributed_eq_sequential charCount (by decide)
      (fun _ _ _ hperm => congrArg (fun n : ℕ => toString n) hperm.length_eq)
      (fun _ => byKey) byKey charCount.mapFile
      (fun m hm i hi => ⟨by revert m i; decide +kernel, rfl⟩)).2⟩

end MitDistributed.MapReduce
