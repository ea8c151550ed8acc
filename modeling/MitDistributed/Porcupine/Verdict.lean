import MitDistributed.Linearizability.Longest
import MitDistributed.Models.Kv
import MitDistributed.Porcupine.Simulation

namespace MitDistributed.Porcupine

open Linearizability LinkedList Transition

/-!
# What the checker finds

`checkSingle` ends without a panic, returns `true` exactly if the operations can be linearized, and
leaves for each operation a longest partial linearization with it.

* `OperationsLinearizable` — the specification, in terms of the operations and their times;
* `LoopInvariant` — the loop follows a search whose given-up states are dead ends, and has written
  down the longest sequences;
* `LoopInvariant.iterations_eq` — so the loop ends, with the right verdict;
* `checkSingle_decides`, `checkSingle_longest` — the results for the operations of a history.
-/

variable {S I O : Type}

/-! ### The specification -/

/-- Operation `i` of the history had returned when operation `j` was called. -/
def OpBefore (history : List (Operation I O)) (i j : ℕ) : Prop :=
  ∃ a b, history[i]? = some a ∧ history[j]? = some b ∧ a.ret < b.call

/-- The inputs and outputs of the operations. -/
abbrev valsOf (history : List (Operation I O)) : List (I × O) :=
  history.map fun op => (op.input, op.output)

/-- Some order of the operations is allowed by the model and agrees with real time. -/
def OperationsLinearizable (model : FilledModel S I O) (history : List (Operation I O)) : Prop :=
  Linearizable (opStep model (valsOf history)) (OpBefore history) model.init
    (List.range history.length)

/-- Some of the operations in an order that is allowed by the model and agrees with real time, and
    with them everything that had returned when one of them was called. -/
structure PartialOrderOf (model : FilledModel S I O) (history : List (Operation I O))
    (order : List ℕ) : Prop where
  nodup : order.Nodup
  lt : ∀ i ∈ order, i < history.length
  realTime : order.Pairwise fun i j => ¬ OpBefore history j i
  closed : ∀ i ∈ order, ∀ j, j ∉ order → ¬ OpBefore history j i
  legal : (exec (opStep model (valsOf history)) model.init order).isSome = true

variable {model : FilledModel S I O} {vals : List (I × O)} {history : List (Operation I O)}
  {sorter : Sorter (I ⊕ O)} {entries : List (Entry (I ⊕ O))} {x : Loop S} {y : Search ℕ S}
  {longest : List (Option (List ℕ))} {seq order : List ℕ} {i : ℕ} {s : S} {computePartial : Bool}

theorem EqualOk.simulates (h : EqualOk model) : Simulates (opStep model vals) model.equal := by
  intro s t hst i s' hs'
  obtain ⟨v, hv, hstep⟩ := Option.bind_eq_some_iff.mp hs'
  split at hstep
  next hok =>
    cases hstep
    obtain ⟨hok', hequal⟩ := h s t hst v.1 v.2 hok
    exact ⟨_, by simp [opStep, hv, hok'], hequal⟩
  next => cases hstep

/-! ### The longest sequences -/

/-- The length of the sequence of operation `i`, 0 if it has none. -/
def bestOf (longest : List (Option (List ℕ))) (i : ℕ) : ℕ :=
  ((longest[i]?.bind id).map List.length).getD 0

theorem getElem?_record :
    (record seq longest)[i]? = longest[i]?.map fun old =>
      if i ∈ seq ∧ (old.all fun l => seq.length > l.length) = true then some seq else old := by
  rw [record, recordWhere, List.getElem?_mapIdx]

theorem bestOf_le_record : bestOf longest i ≤ bestOf (record seq longest) i := by
  rw [bestOf, bestOf, getElem?_record]
  cases longest[i]? with
  | none => simp
  | some old =>
    cases old with
    | none => simp
    | some l =>
      by_cases hlonger : i ∈ seq ∧ l.length < seq.length
      · simp [hlonger]
        omega
      · simp [hlonger]

theorem length_le_bestOf_record (hi : i ∈ seq) (hlt : i < longest.length) :
    seq.length ≤ bestOf (record seq longest) i := by
  rw [bestOf, getElem?_record, List.getElem?_eq_getElem hlt]
  cases longest[i] with
  | none => simp [hi]
  | some l =>
    by_cases hlonger : l.length < seq.length
    · simp [hi, hlonger]
    · simp [hlonger]
      omega

theorem longestAfter_cases (computePartial : Bool) (y : Search ℕ S)
    (longest : List (Option (List ℕ))) :
    (longestAfter computePartial y longest = longest ∧
      (computePartial = true → ∀ r post, y.post ≠ .ret r :: post)) ∨
    (computePartial = true ∧
      longestAfter computePartial y longest = record (y.stack.map Frame.op).reverse longest) := by
  unfold longestAfter
  split
  next r post hpost =>
    cases computePartial with
    | false => exact .inl ⟨rfl, fun h => by cases h⟩
    | true => exact .inr ⟨rfl, rfl⟩
  next hnot => exact .inl ⟨rfl, fun _ r post hpost => hnot r post hpost⟩

/-- What is recorded for an operation is a partial linearization with it. -/
def LongestSound (model : FilledModel S I O) (vals : List (I × O)) (hist : List (Tick ℕ))
    (longest : List (Option (List ℕ))) : Prop :=
  ∀ i seq, longest[i]? = some (some seq) → i ∈ seq ∧
    ∃ s, PartialLinearization (opStep model vals) hist (List.range vals.length) model.init seq s

theorem LongestSound.record {hist : List (Tick ℕ)} (h : LongestSound model vals hist longest)
    (hseq : PartialLinearization (opStep model vals) hist (List.range vals.length) model.init seq
      s) :
    LongestSound model vals hist (record seq longest) := by
  intro i seq' hi
  rw [getElem?_record] at hi
  obtain ⟨old, hold, hi⟩ := Option.map_eq_some_iff.mp hi
  split at hi
  next hmem =>
    cases hi
    exact ⟨hmem.1, s, hseq⟩
  next =>
    subst hi
    exact h i seq' hold

/-! ### The loop -/

/-- The loop follows a search, whose given-up states are dead ends, and has written down the longest
    sequences. -/
structure LoopInvariant (model : FilledModel S I O) (vals : List (I × O))
    (entries : List (Entry (I ⊕ O))) (computePartial : Bool) (x : Loop S) (y : Search ℕ S) :
    Prop where
  corresponds : Corresponds vals (histOf entries) (makeLinkedEntries entries).nodes x y
  refuted : Refuted (opStep model vals) (histOf entries) (List.range vals.length) model.init y
  sound : LongestSound model vals (histOf entries) x.longest
  charted : computePartial = true → Charted (opStep model vals) (histOf entries)
    (List.range vals.length) (bestOf x.longest) model.init y

/-- What the function returns: the verdict, and the longest sequences. -/
structure ResultOk (model : FilledModel S I O) (vals : List (I × O)) (hist : List (Tick ℕ))
    (computePartial : Bool) (result : Result) : Prop where
  verdict : result.1 = true ↔
    Linearizable (opStep model vals) (Before hist) model.init (List.range vals.length)
  sound : LongestSound model vals hist result.2
  longest : computePartial = true → ∀ order s,
    PartialLinearization (opStep model vals) hist (List.range vals.length) model.init order s →
    ∀ i ∈ order, ∃ seq, result.2[i]? = some (some seq) ∧ order.length ≤ seq.length

namespace LoopInvariant

theorem start (h : EntriesOf vals entries) :
    LoopInvariant model vals entries computePartial (startLoop model entries)
      (Search.start (histOf entries) model.init) where
  corresponds := h.corresponds_start
  refuted := Invariant.start
  sound i seq hi := by
    have hmem := List.mem_of_getElem? hi
    rw [startLoop, List.mem_replicate] at hmem
    cases hmem.2
  charted _ := Invariant.start

variable (hl : Layout vals (histOf entries) (makeLinkedEntries entries).nodes)

include hl

/-- An iteration that goes on keeps the invariant. -/
theorem go (hequal : EqualOk model) (h : LoopInvariant model vals entries computePartial x y)
    {z : Search ℕ S} (hz : y.next (opStep model vals) model.equal = .inl z) :
    ∃ x', iteration model (makeLinkedEntries entries).nodes entries.length computePartial false x =
        some (.inl x') ∧ LoopInvariant model vals entries computePartial x' z := by
  obtain ⟨x', hiteration, hcorresponds, hlongest⟩ :=
    h.corresponds.go hl h.refuted computePartial hz
  rw [List.length_map] at hiteration
  have hfirst := h.refuted.explored.partialLinearization hl.paired
  refine ⟨x', hiteration, hcorresponds, h.refuted.next hl.paired hequal.simulates hz, ?_,
    fun hc => ?_⟩
  · rw [hlongest]
    rcases longestAfter_cases computePartial y x.longest with ⟨hsame, -⟩ | ⟨-, hrecord⟩
    · rw [hsame]
      exact h.sound
    · rw [hrecord]
      exact h.sound.record hfirst
  · rw [hlongest]
    rcases longestAfter_cases computePartial y x.longest with ⟨hsame, hnot⟩ | ⟨-, hrecord⟩
    · rw [hsame]
      exact (h.charted hc).next hl.paired hequal.simulates hz (fun _ => le_rfl)
        fun r post hpost => absurd hpost (hnot hc r post)
    · rw [hrecord]
      refine (h.charted hc).next hl.paired hequal.simulates hz (fun _ => bestOf_le_record)
        fun r post _ i hi => ?_
      have hmem : i ∈ (y.stack.map Frame.op).reverse := by simpa [done] using hi
      have hlt : i < x.longest.length := by
        rw [h.corresponds.longest]
        exact List.mem_range.mp (hfirst.subset hmem)
      have hle := length_le_bestOf_record hmem hlt
      rw [h.refuted.explored.card_done hl.paired.nodup]
      simpa using hle

/-- An iteration that ends the loop returns the verdict and the longest sequences. -/
theorem stop (h : LoopInvariant model vals entries computePartial x y) {b : Bool}
    (hb : y.next (opStep model vals) model.equal = .inr b) :
    ∃ result, iteration model (makeLinkedEntries entries).nodes entries.length computePartial false
        x = some (.inr result) ∧ ResultOk model vals (histOf entries) computePartial result := by
  have hiteration := h.corresponds.stop hl h.refuted computePartial hb
  rw [List.length_map] at hiteration
  have hverdict := h.refuted.verdict hl.paired hb
  refine ⟨_, hiteration, ?_⟩
  cases b with
  | false =>
    refine ⟨hverdict, h.sound, fun hc order s horder i hi => ?_⟩
    have hle := (h.charted hc).length_le hl.paired hb horder hi
    have hpos : 0 < order.length := List.length_pos_of_mem hi
    rw [bestOf] at hle
    cases hold : x.longest[i]? with
    | none => rw [hold] at hle; exact absurd hle (Nat.not_le.mpr hpos)
    | some old =>
      cases old with
      | none => rw [hold] at hle; exact absurd hle (Nat.not_le.mpr hpos)
      | some seq => exact ⟨seq, hold, by simpa [hold] using hle⟩
  | true =>
    have hfirst := h.refuted.explored.partialLinearization hl.paired
    have hlen := h.corresponds.longest
    have hall {i : ℕ} (hi : i < vals.length) : i ∈ (y.stack.map Frame.op).reverse := by
      have hmove := Search.move_next (opStep model vals) model.equal y
      rw [hb] at hmove
      cases hmove with
      | accept hpost =>
        simpa [done] using h.refuted.done_of_nil hl.paired hpost (List.mem_range.mpr hi)
    have hget {i : ℕ} (hi : i < vals.length) :
        (x.longest.map fun _ => some (y.stack.map Frame.op).reverse)[i]? =
          some (some (y.stack.map Frame.op).reverse) := by
      rw [List.getElem?_map, List.getElem?_eq_getElem (hlen ▸ hi), Option.map_some]
    refine ⟨hverdict, fun i seq hi => ?_, fun _ order s horder i hi => ?_⟩
    · have hlt : i < vals.length := by
        simpa [hlen] using (List.getElem?_eq_some_iff.mp hi).1
      simp only [if_true, hget hlt, Option.some.injEq] at hi
      subst hi
      exact ⟨hall hlt, _, hfirst⟩
    · refine ⟨_, hget (List.mem_range.mp (horder.subset hi)), ?_⟩
      refine (horder.nodup.subperm fun j hj => ?_).length_le
      exact hall (List.mem_range.mp (horder.subset hj))

/-- **The loop ends**, with the verdict and the longest sequences. -/
theorem iterations_eq (hequal : EqualOk model) {fuel : ℕ}
    (h : LoopInvariant model vals entries computePartial x y)
    (hfuel : y.weight ((histOf entries).length + 1) (List.range vals.length).length < fuel) :
    ∃ result, iterations model entries computePartial fuel x = some (.inr result) ∧
      ResultOk model vals (histOf entries) computePartial result := by
  induction fuel generalizing x y with
  | zero => omega
  | succ fuel ih =>
    cases hy : y.next (opStep model vals) model.equal with
    | inl z =>
      obtain ⟨x', hx', hinv⟩ := h.go hl hequal hy
      have hlt := h.refuted.weight_lt hl.paired hy
      obtain ⟨result, hresult, hok⟩ := ih hinv (by omega)
      exact ⟨result, by simp [iterations, hx', hresult], hok⟩
    | inr b =>
      obtain ⟨result, hresult, hok⟩ := h.stop hl hy
      exact ⟨result, by simp [iterations, hresult], hok⟩

end LoopInvariant

/-- For well-formed entries the function ends. -/
theorem EntriesOf.checkSingle_eq (h : EntriesOf vals entries) (hequal : EqualOk model)
    (computePartial : Bool) {fuel : ℕ}
    (hfuel : 2 * vals.length * (2 * vals.length + 1) ^ vals.length < fuel) :
    ∃ result, checkSingle model entries computePartial fuel = some (.inr result) ∧
      ResultOk model vals (histOf entries) computePartial result := by
  refine (LoopInvariant.start h).iterations_eq h.layout hequal ?_
  rwa [weight_start, List.length_map, List.length_range, h.length_eq]

/-! ### In terms of the operations -/

theorem before_iff_opBefore {j : ℕ} (hi : i < history.length) (hj : j < history.length) :
    Before (histOf (makeEntries sorter history)) i j ↔ OpBefore history i j := by
  have hi' := List.getElem?_eq_getElem hi
  have hj' := List.getElem?_eq_getElem hj
  rw [before_makeEntries_iff hi' hj', OpBefore]
  constructor
  · intro h
    exact ⟨_, _, hi', hj', h⟩
  · rintro ⟨a, b, ha, hb, h⟩
    obtain rfl := Option.some.inj (hi'.symm.trans ha)
    obtain rfl := Option.some.inj (hj'.symm.trans hb)
    exact h

theorem operationsLinearizable_iff :
    Linearizable (opStep model (valsOf history)) (Before (histOf (makeEntries sorter history)))
      model.init (List.range (valsOf history).length) ↔ OperationsLinearizable model history := by
  rw [OperationsLinearizable, List.length_map]
  refine linearizable_congr fun i hi j hj => ?_
  exact before_iff_opBefore (List.mem_range.mp hi) (List.mem_range.mp hj)

/-- The two ways to state that operations may come first agree. -/
theorem exists_partialLinearization_iff (sorter : Sorter (I ⊕ O)) :
    (∃ s, PartialLinearization (opStep model (valsOf history))
      (histOf (makeEntries sorter history)) (List.range (valsOf history).length) model.init order
      s) ↔ PartialOrderOf model history order := by
  constructor
  · rintro ⟨s, h⟩
    have hlt (i : ℕ) (hi : i ∈ order) : i < history.length := by
      simpa using List.mem_range.mp (h.subset hi)
    refine ⟨h.nodup, hlt, ?_, fun i hi j hj hbefore => ?_, by simp [h.legal]⟩
    · refine h.realTime.imp_of_mem fun {i j} hi hj hij => ?_
      rwa [← before_iff_opBefore (hlt j hj) (hlt i hi)]
    · have hj' : j < history.length := by
        obtain ⟨a, b, ha, -, -⟩ := hbefore
        exact (List.getElem?_eq_some_iff.mp ha).1
      refine h.closed i hi j (by simpa using hj') hj ?_
      exact (before_iff_opBefore hj' (hlt i hi)).mpr hbefore
  · intro h
    obtain ⟨s, hs⟩ := Option.isSome_iff_exists.mp h.legal
    refine ⟨s, h.nodup, fun i hi => ?_, ?_, fun i hi j hj hjo hbefore => ?_, hs⟩
    · simpa using h.lt i hi
    · refine h.realTime.imp_of_mem fun {i j} hi hj hij => ?_
      rwa [before_iff_opBefore (h.lt j hj) (h.lt i hi)]
    · have hj' : j < history.length := by simpa using hj
      exact h.closed i hi j hjo ((before_iff_opBefore hj' (h.lt i hi)).mp hbefore)

/-- **The checker decides.** On the entries of operations that do not return before they are called,
    `checkSingle` ends without a panic, and returns `true` exactly if the operations can be
    linearized. -/
theorem checkSingle_decides (model : FilledModel S I O) (hequal : EqualOk model)
    (sorter : Sorter (I ⊕ O)) (history : List (Operation I O))
    (hcall : ∀ op ∈ history, op.call ≤ op.ret) (computePartial : Bool) (fuel : ℕ)
    (hfuel : 2 * history.length * (2 * history.length + 1) ^ history.length < fuel) :
    ∃ result, checkSingle model (makeEntries sorter history) computePartial fuel =
        some (.inr result) ∧ (result.1 = true ↔ OperationsLinearizable model history) := by
  have hentries : EntriesOf (valsOf history) (makeEntries sorter history) :=
    entriesOf_makeEntries hcall
  obtain ⟨result, hresult, hok⟩ :=
    hentries.checkSingle_eq hequal computePartial (by simpa using hfuel)
  exact ⟨result, hresult, hok.verdict.trans operationsLinearizable_iff⟩

/-- A put, and two gets that run while it does: one finds the old value, the other the new one. -/
def overlapping : List Models.KvOperation :=
  [{ clientId := 0, input := ⟨1, [120], [49]⟩, call := 0, output := ⟨[]⟩, ret := 10 },
   { clientId := 1, input := ⟨0, [120], []⟩, call := 1, output := ⟨[]⟩, ret := 9 },
   { clientId := 2, input := ⟨0, [120], []⟩, call := 5, output := ⟨[49]⟩, ret := 20 }]

theorem overlapping_decides :
    ∃ result, checkSingle (fillDefault Models.kvModel)
        (makeEntries (Sorter.insertion _) overlapping) false 2059 = some (.inr result) ∧
      (result.1 = true ↔ OperationsLinearizable (fillDefault Models.kvModel) overlapping) :=
  checkSingle_decides _ Models.equalOk_kvModel _ overlapping (by decide) false 2059 (by decide)

/-- **The longest sequences.** With `computePartial`, what `checkSingle` returns for an operation is
    a longest partial linearization with it, and nil exactly if there is none. -/
theorem checkSingle_longest (model : FilledModel S I O) (hequal : EqualOk model)
    (sorter : Sorter (I ⊕ O)) (history : List (Operation I O))
    (hcall : ∀ op ∈ history, op.call ≤ op.ret) (fuel : ℕ)
    (hfuel : 2 * history.length * (2 * history.length + 1) ^ history.length < fuel) :
    ∃ ok longest, checkSingle model (makeEntries sorter history) true fuel =
        some (.inr (ok, longest)) ∧
      (∀ i seq, longest[i]? = some (some seq) → i ∈ seq ∧ PartialOrderOf model history seq) ∧
      ∀ order, PartialOrderOf model history order → ∀ i ∈ order,
        ∃ seq, longest[i]? = some (some seq) ∧ order.length ≤ seq.length := by
  have hentries : EntriesOf (valsOf history) (makeEntries sorter history) :=
    entriesOf_makeEntries hcall
  obtain ⟨⟨ok, longest⟩, hresult, hok⟩ := hentries.checkSingle_eq hequal true (by simpa using hfuel)
  refine ⟨ok, longest, hresult, fun i seq hi => ?_, fun order horder i hi => ?_⟩
  · obtain ⟨hmem, hfirst⟩ := hok.sound i seq hi
    exact ⟨hmem, (exists_partialLinearization_iff sorter).mp hfirst⟩
  · obtain ⟨s, hfirst⟩ := (exists_partialLinearization_iff sorter).mpr horder
    exact hok.longest rfl order s hfirst i hi

theorem overlapping_longest :
    ∃ ok longest, checkSingle (fillDefault Models.kvModel)
        (makeEntries (Sorter.insertion _) overlapping) true 2059 = some (.inr (ok, longest)) ∧
      (∀ i seq, longest[i]? = some (some seq) →
        i ∈ seq ∧ PartialOrderOf (fillDefault Models.kvModel) overlapping seq) ∧
      ∀ order, PartialOrderOf (fillDefault Models.kvModel) overlapping order → ∀ i ∈ order,
        ∃ seq, longest[i]? = some (some seq) ∧ order.length ≤ seq.length :=
  checkSingle_longest _ Models.equalOk_kvModel _ overlapping (by decide) 2059 (by decide)

end MitDistributed.Porcupine
