import MitDistributed.Porcupine.Bitset
import MitDistributed.Porcupine.Entries

namespace MitDistributed.Porcupine

open LinkedList

/-!
# The search of the checker (`porcupine/checker.go`)

`checkSingle` goes through the linked entries of one history.  It takes a call and its return out of
the list when the model allows the operation in the current state, and puts them back when it
meets a return that it cannot get past.  What would panic in the source (a nil pointer, an index out
of range, a value of the wrong type) is `none` here.

`iteration` is one iteration of the loop, for a value of `kill` read in it; `checkSingle` iterates.
-/

/-- A model, as its author gives it: nil functions have defaults. -/
structure Model (S I O : Type*) where
  partition : Option (List (Operation I O) → List (List (Operation I O)))
  partitionEvent : Option (List (Event (I ⊕ O)) → List (List (Event (I ⊕ O))))
  init : S
  step : S → I → O → Bool × S
  equal : Option (S → S → Bool)

/-- A model whose functions are all there. -/
structure FilledModel (S I O : Type*) where
  partition : List (Operation I O) → List (List (Operation I O))
  partitionEvent : List (Event (I ⊕ O)) → List (List (Event (I ⊕ O)))
  init : S
  step : S → I → O → Bool × S
  equal : S → S → Bool

variable {S I O V : Type}

def noPartition (history : List (Operation I O)) : List (List (Operation I O)) :=
  [history]

def noPartitionEvent (history : List (Event V)) : List (List (Event V)) :=
  [history]

def shallowEqual [DecidableEq S] (state1 state2 : S) : Bool :=
  decide (state1 = state2)

def fillDefault [DecidableEq S] (model : Model S I O) : FilledModel S I O :=
  { partition := model.partition.getD noPartition
    partitionEvent := model.partitionEvent.getD noPartitionEvent
    init := model.init
    step := model.step
    equal := model.equal.getD shallowEqual }

/-- Equal states allow the same operations, and lead to equal states. -/
def EqualOk (model : FilledModel S I O) : Prop :=
  ∀ s t, model.equal s t = true → ∀ i o, (model.step s i o).1 = true →
    (model.step t i o).1 = true ∧ model.equal (model.step s i o).2 (model.step t i o).2 = true

theorem equalOk_of_eq {model : FilledModel S I O} (h : ∀ s t, model.equal s t = true → s = t)
    (hrefl : ∀ s, model.equal s s = true) :
    EqualOk model := by
  intro s t hst i o hok
  obtain rfl := h s t hst
  exact ⟨hok, hrefl _⟩

theorem equalOk_fillDefault [DecidableEq S] {model : Model S I O} (h : model.equal = none) :
    EqualOk (fillDefault model) :=
  equalOk_of_eq (by simp [fillDefault, h, shallowEqual]) (by simp [fillDefault, h, shallowEqual])

structure CacheEntry (S : Type*) where
  linearized : Bitset
  state : S

def cacheContains (model : FilledModel S I O) (cache : BitVec 64 → List (CacheEntry S))
    (entry : CacheEntry S) : Bool :=
  (cache entry.linearized.hash).any fun elem =>
    entry.linearized.equals elem.linearized && model.equal entry.state elem.state

/-- An operation on the stack of the search, with the state before it. -/
structure CallsEntry (S : Type*) where
  entry : ℕ
  state : S

/-! ### Links -/

section Lift

variable (nodes : List (Node V)) (links : ℕ → Links ℕ) (entry : ℕ)

/-- Take the node of a call and that of its return out of the list. -/
def lift : Option (ℕ → Links ℕ) := do
  -- `entry.next.prev` panics at the end of the list
  let _ ← (links entry).next
  let links ← unlink links entry
  let node ← nodes[entry]?
  let matching ← node.matching
  unlink links matching

/-- Put the node of a return and that of its call back. -/
def unlift : Option (ℕ → Links ℕ) := do
  let node ← nodes[entry]?
  let matching ← node.matching
  let links ← relink links matching
  let _ ← (links entry).next
  relink links entry

end Lift

/-! ### The loop -/

/-- The local variables of the loop. -/
structure Loop (S : Type*) where
  links : ℕ → Links ℕ
  entry : Option ℕ
  linearized : Bitset
  cache : BitVec 64 → List (CacheEntry S)
  calls : List (CallsEntry S)
  longest : List (Option (List ℕ))
  state : S

/-- What `checkSingle` returns: the verdict, and for each operation the longest sequence found. -/
abbrev Result := Bool × List (Option (List ℕ))

section Iteration

variable (model : FilledModel S I O) (nodes : List (Node (I ⊕ O))) (headEntry : ℕ)
  (computePartial : Bool)

/-- The ids of the operations on the stack. -/
def seqOf (calls : List (CallsEntry S)) : Option (List ℕ) :=
  calls.mapM fun v => nodes[v.entry]?.map Node.id

/-- Record the sequence of the stack for one of its operations, unless it has one as long. -/
def recordFor (callsLen : ℕ) (seq : List ℕ) (longest : List (Option (List ℕ)))
    (v : CallsEntry S) : Option (List (Option (List ℕ))) := do
  let node ← nodes[v.entry]?
  let old ← longest[node.id]?
  if old.all fun l => callsLen > l.length then some (longest.set node.id (some seq))
  else some longest

def recordLongest (calls : List (CallsEntry S)) (longest : List (Option (List ℕ))) :
    Option (List (Option (List ℕ))) := do
  let seq ← seqOf nodes calls
  calls.foldlM (recordFor nodes calls.length seq) longest

/-- `model.Step` on the values of a call and a return; its type assertions panic. -/
def stepValues (state : S) : I ⊕ O → I ⊕ O → Option (Bool × S)
  | .inl input, .inr output => some (model.step state input output)
  | _, _ => none

/-- The iteration at the node of a call. -/
def tryCall (x : Loop S) (entry : ℕ) (node : Node (I ⊕ O)) (matching : ℕ) : Option (Loop S) := do
  let returned ← nodes[matching]?
  let (ok, newState) ← stepValues model x.state node.value returned.value
  if ok then
    let newLinearized ← x.linearized.set node.id
    let newCacheEntry : CacheEntry S := { linearized := newLinearized, state := newState }
    if !cacheContains model x.cache newCacheEntry then
      let hash := newLinearized.hash
      let linearized ← x.linearized.set node.id
      let links ← lift nodes x.links entry
      some { x with
        cache := Function.update x.cache hash (x.cache hash ++ [newCacheEntry])
        calls := x.calls ++ [{ entry, state := x.state }]
        state := newState
        linearized
        links
        entry := (links headEntry).next }
    else some { x with entry := (x.links entry).next }
  else some { x with entry := (x.links entry).next }

/-- The sequences after the iteration at the node of a return. -/
def updateLongest (x : Loop S) : Option (List (Option (List ℕ))) :=
  if computePartial then recordLongest nodes x.calls x.longest else some x.longest

/-- The iteration at the node of a return, with an operation on the stack. -/
def takeBack (x : Loop S) (callsTop : CallsEntry S) : Option (Loop S) := do
  let longest ← updateLongest nodes computePartial x
  let node ← nodes[callsTop.entry]?
  let linearized ← x.linearized.clear node.id
  let links ← unlift nodes x.links callsTop.entry
  some { x with
    longest
    state := callsTop.state
    linearized
    calls := x.calls.dropLast
    links
    entry := (links callsTop.entry).next }

/-- One iteration: the loop goes on, or the function returns. -/
def iteration (kill : Bool) (x : Loop S) : Option (Loop S ⊕ Result) :=
  match (x.links headEntry).next with
  | none => do
    -- the complete linearization is the longest one of every operation
    let seq ← seqOf nodes x.calls
    some (.inr (true, x.longest.map fun _ => some seq))
  | some _ =>
    if kill then some (.inr (false, x.longest))
    else do
      let entry ← x.entry
      let node ← nodes[entry]?
      match node.matching with
      | some matching => (tryCall model nodes headEntry x entry node matching).map .inl
      | none =>
        match x.calls.getLast? with
        | none => some (.inr (false, x.longest))
        | some callsTop => (takeBack nodes computePartial x callsTop).map .inl

end Iteration

/-! ### The function -/

/-- The variables before the loop; the head of the list has the address after the entries. -/
def startLoop (model : FilledModel S I O) (history : List (Entry (I ⊕ O))) : Loop S :=
  let linked := makeLinkedEntries history
  let n := length linked.links history.length linked.root / 2
  { links := insertBefore linked.links history.length linked.root
    entry := linked.root
    linearized := newBitset n
    cache := fun _ => []
    calls := []
    longest := List.replicate n none
    state := model.init }

/-- `fuel` iterations from `x` on, as long as the function does not return, with `kill` not set. -/
def iterations (model : FilledModel S I O) (history : List (Entry (I ⊕ O)))
    (computePartial : Bool) : ℕ → Loop S → Option (Loop S ⊕ Result)
  | 0, x => some (.inl x)
  | fuel + 1, x => do
    match ← iteration model (makeLinkedEntries history).nodes history.length computePartial false x
    with
    | .inl x => iterations model history computePartial fuel x
    | .inr result => some (.inr result)

/-- `checkSingle`, `kill` not being set, for `fuel` iterations. -/
def checkSingle (model : FilledModel S I O) (history : List (Entry (I ⊕ O))) (computePartial : Bool)
    (fuel : ℕ) : Option (Loop S ⊕ Result) :=
  iterations model history computePartial fuel (startLoop model history)

end MitDistributed.Porcupine
