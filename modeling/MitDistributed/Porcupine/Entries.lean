import Mathlib.Data.List.Range
import Mathlib.Data.List.Sort
import MitDistributed.Linearizability.Search
import MitDistributed.LinkedList.Links

namespace MitDistributed.Porcupine

open Linearizability LinkedList

/-!
# Histories of the checker (`porcupine/model.go`, first half of `porcupine/checker.go`)

An operation has an input, an output and the times of its call and its return.  The checker works
on entries, one for the call and one for the return, sorted by time and then linked to a list.  The
values of calls are inputs and those of returns are outputs; the `interface{}` that holds both in
the source is the sum of the two here.

* `makeEntries`, `makeLinkedEntries` — as in the source, for any sort that `sort.Sort` may be: it is
  not stable;
* `EntriesOf` — the entries are those of operations with given inputs and outputs, each called
  before it returns;
* `entriesOf_makeEntries`, `before_makeEntries_iff` — so they are when no operation returns before
  it is called, and the order of the entries is then that of the times;
* `linked_makeLinkedEntries` — the nodes are linked in the order of the entries.
-/

structure Operation (I O : Type*) where
  clientId : ℤ
  input : I
  call : ℤ
  output : O
  ret : ℤ

inductive EventKind
  | callEvent
  | returnEvent
  deriving DecidableEq

structure Event (V : Type*) where
  clientId : ℤ
  kind : EventKind
  value : V
  id : ℤ

inductive EntryKind
  | callEntry
  | returnEntry
  deriving DecidableEq

structure Entry (V : Type*) where
  kind : EntryKind
  value : V
  id : ℕ
  time : ℤ
  clientId : ℤ

variable {I O V : Type*}

/-- `byTime.Less` -/
def Entry.less (a b : Entry V) : Bool :=
  if a.time ≠ b.time then decide (a.time < b.time)
  else
    -- calls before returns at the same time
    decide (a.kind = .callEntry ∧ b.kind = .returnEntry)

theorem Entry.less_self (e : Entry V) : e.less e = false := by
  cases hkind : e.kind <;> simp [less, hkind]

/-- `sort.Sort(byTime(entries))`: some sorted permutation. -/
structure Sorter (V : Type*) where
  sort : List (Entry V) → List (Entry V)
  sorted : ∀ l, (sort l).Pairwise fun a b => b.less a = false
  perm : ∀ l, (sort l).Perm l

theorem Entry.less_eq_false_iff {a b : Entry V} :
    b.less a = false ↔
      a.time < b.time ∨ a.time = b.time ∧ (a.kind = .callEntry ∨ b.kind = .returnEntry) := by
  unfold less
  cases ha : a.kind <;> cases hb : b.kind <;> by_cases h : b.time = a.time <;>
    simp [h, eq_comm] <;> omega

/-- An insertion sort. -/
def Sorter.insertion (V : Type*) : Sorter V where
  sort l := l.insertionSort fun a b => b.less a = false
  sorted l := by
    have : Std.Total fun a b : Entry V => b.less a = false := ⟨fun a b => by
      rw [Entry.less_eq_false_iff, Entry.less_eq_false_iff]
      rcases lt_trichotomy a.time b.time with h | h | h
      · exact .inl (.inl h)
      · cases hk : a.kind with
        | callEntry => exact .inl (.inr ⟨h, .inl rfl⟩)
        | returnEntry => exact .inr (.inr ⟨h.symm, .inr rfl⟩)
      · exact .inr (.inl h)⟩
    have : IsTrans (Entry V) fun a b => b.less a = false := ⟨fun a b c => by
      simp only [Entry.less_eq_false_iff]
      rintro (hab | ⟨hab, hk⟩) (hbc | ⟨hbc, hk'⟩)
      · exact .inl (hab.trans hbc)
      · exact .inl (hbc ▸ hab)
      · exact .inl (hab ▸ hbc)
      · refine .inr ⟨hab.trans hbc, ?_⟩
        rcases hk with hk | hk
        · exact .inl hk
        · exact .inr (hk'.resolve_left (by simp [hk]))⟩
    exact List.pairwise_insertionSort _ l
  perm l := List.perm_insertionSort _ l

/-- The entry of the call of the operation with this id. -/
def Operation.callEntry (elem : Operation I O) (id : ℕ) : Entry (I ⊕ O) :=
  { kind := .callEntry, value := .inl elem.input, id, time := elem.call, clientId := elem.clientId }

/-- The entry of its return. -/
def Operation.returnEntry (elem : Operation I O) (id : ℕ) : Entry (I ⊕ O) :=
  { kind := .returnEntry, value := .inr elem.output, id, time := elem.ret,
    clientId := elem.clientId }

/-- The entries of the operations from id `id` on. -/
def entriesFrom : ℕ → List (Operation I O) → List (Entry (I ⊕ O))
  | _, [] => []
  | id, elem :: history => elem.callEntry id :: elem.returnEntry id :: entriesFrom (id + 1) history

def makeEntries (sorter : Sorter (I ⊕ O)) (history : List (Operation I O)) :
    List (Entry (I ⊕ O)) :=
  sorter.sort (entriesFrom 0 history)

/-- The event an entry stands for. -/
def Entry.tick (e : Entry V) : Tick ℕ :=
  match e.kind with
  | .callEntry => .call e.id
  | .returnEntry => .ret e.id

/-- The value of an entry of an operation with this input and output. -/
def EntryKind.value (v : I × O) : EntryKind → I ⊕ O
  | .callEntry => .inl v.1
  | .returnEntry => .inr v.2

/-- Entries of operations with the given inputs and outputs, the id being the index. -/
structure EntriesOf (vals : List (I × O)) (entries : List (Entry (I ⊕ O))) : Prop where
  paired : Paired (List.range vals.length) (entries.map Entry.tick)
  value : ∀ e ∈ entries, ∃ v, vals[e.id]? = some v ∧ e.value = e.kind.value v

/-! ### Nodes -/

/-- A node, without the links.  `matching` is the node of the return for a call, and nil for a
    return. -/
structure Node (V : Type*) where
  value : V
  matching : Option ℕ
  id : ℕ

/-- The linked entries: the node of the `i`-th entry has address `i`. -/
structure Linked (V : Type*) where
  nodes : List (Node V)
  links : ℕ → Links ℕ
  root : Option ℕ
  /-- The map from ids to the nodes of returns. -/
  matching : ℕ → Option ℕ

/-- The loop of `makeLinkedEntries` for the entries from index `i` on: it goes from the last entry
    to the first. -/
def linkEntries (i : ℕ) : List (Entry V) → Linked V
  | [] => { nodes := [], links := fun _ => Links.nil, root := none, matching := fun _ => none }
  | elem :: entries =>
    let linked := linkEntries (i + 1) entries
    match elem.kind with
    | .returnEntry =>
      { nodes := { value := elem.value, matching := none, id := elem.id } :: linked.nodes
        links := insertBefore linked.links i linked.root
        root := some i
        matching := Function.update linked.matching elem.id (some i) }
    | .callEntry =>
      { nodes := { value := elem.value, matching := linked.matching elem.id, id := elem.id } ::
          linked.nodes
        links := insertBefore linked.links i linked.root
        root := some i
        matching := linked.matching }

def makeLinkedEntries (entries : List (Entry V)) : Linked V :=
  linkEntries 0 entries

section Cons

variable (i : ℕ) (e : Entry V) (entries : List (Entry V))

theorem nodes_linkEntries_cons :
    (linkEntries i (e :: entries)).nodes =
      { value := e.value
        matching :=
          if e.kind = .callEntry then (linkEntries (i + 1) entries).matching e.id else none
        id := e.id } :: (linkEntries (i + 1) entries).nodes := by
  rw [linkEntries]
  cases e.kind <;> rfl

theorem links_linkEntries_cons :
    (linkEntries i (e :: entries)).links =
      insertBefore (linkEntries (i + 1) entries).links i (linkEntries (i + 1) entries).root := by
  rw [linkEntries]
  cases e.kind <;> rfl

theorem root_linkEntries_cons : (linkEntries i (e :: entries)).root = some i := by
  rw [linkEntries]
  cases e.kind <;> rfl

theorem matching_linkEntries_cons :
    (linkEntries i (e :: entries)).matching =
      if e.kind = .callEntry then (linkEntries (i + 1) entries).matching
      else Function.update (linkEntries (i + 1) entries).matching e.id (some i) := by
  rw [linkEntries]
  cases e.kind <;> rfl

end Cons

/-- The nodes are linked in the order of the entries. -/
theorem chain_linkEntries (i : ℕ) (entries : List (Entry V)) :
    (linkEntries i entries).root = (List.range' i entries.length).head? ∧
      Chain (linkEntries i entries).links none (List.range' i entries.length) ∧
      ∀ k ∉ List.range' i entries.length, (linkEntries i entries).links k = Links.nil := by
  induction entries generalizing i with
  | nil => exact ⟨rfl, trivial, fun _ _ => rfl⟩
  | cons e entries ih =>
    obtain ⟨hroot, hchain, hnil⟩ := ih (i + 1)
    have hnew : i ∉ List.range' (i + 1) entries.length := by simp
    rw [root_linkEntries_cons, links_linkEntries_cons, List.length_cons, List.range'_succ, hroot]
    refine ⟨rfl, ?_, fun k hk => ?_⟩
    · exact hchain.insertBefore List.nodup_range' hnew (hnil i hnew)
    · rw [List.mem_cons, not_or] at hk
      rw [insertBefore_of_ne hchain hk.1 hk.2]
      exact hnil k hk.2

/-- The map of the loop has the first return of an id. -/
theorem matching_linkEntries {i id : ℕ} {entries : List (Entry V)}
    (h : Tick.ret id ∈ entries.map Entry.tick) :
    (linkEntries i entries).matching id = some (i + (entries.map Entry.tick).idxOf (.ret id)) := by
  induction entries generalizing i with
  | nil => cases h
  | cons e entries ih =>
    rw [matching_linkEntries_cons, List.map_cons]
    cases hkind : e.kind with
    | callEntry =>
      have hne : e.tick ≠ .ret id := by simp [Entry.tick, hkind]
      have hmem : Tick.ret id ∈ entries.map Entry.tick :=
        (List.mem_cons.mp h).resolve_left (Ne.symm hne)
      simp only [if_true]
      rw [ih hmem, List.idxOf_cons_ne _ hne]
      congr 1
      omega
    | returnEntry =>
      have htick : e.tick = .ret e.id := by simp [Entry.tick, hkind]
      by_cases hid : e.id = id
      · subst hid
        simp [htick]
      · have hne : e.tick ≠ .ret id := by simp [htick, hid]
        have hmem : Tick.ret id ∈ entries.map Entry.tick :=
          (List.mem_cons.mp h).resolve_left (Ne.symm hne)
        simp only [reduceCtorEq, if_false]
        rw [Function.update_of_ne (Ne.symm hid), ih hmem, List.idxOf_cons_ne _ hne]
        congr 1
        omega

/-- The node of a call has the node of its return, which follows it. -/
theorem nodes_linkEntries {i a : ℕ} {entries : List (Entry V)} {e : Entry V}
    (hnodup : (entries.map Entry.tick).Nodup) (he : entries[a]? = some e)
    (hpair : e.kind = .callEntry →
      [Tick.call e.id, Tick.ret e.id].Sublist (entries.map Entry.tick)) :
    (linkEntries i entries).nodes[a]? = some
      { value := e.value
        matching := if e.kind = .callEntry
          then some (i + (entries.map Entry.tick).idxOf (.ret e.id)) else none
        id := e.id } := by
  induction entries generalizing i a with
  | nil => simp at he
  | cons e₀ entries ih =>
    rw [List.map_cons] at hnodup hpair ⊢
    obtain ⟨hnew, hnodup⟩ := List.nodup_cons.mp hnodup
    rw [nodes_linkEntries_cons]
    cases a with
    | zero =>
      obtain rfl : e₀ = e := by simpa using he
      rw [List.getElem?_cons_zero]
      by_cases hkind : e₀.kind = .callEntry
      · have htick : e₀.tick = .call e₀.id := by simp [Entry.tick, hkind]
        have hret : Tick.ret e₀.id ∈ entries.map Entry.tick := by
          have := (hpair hkind).subset (show Tick.ret e₀.id ∈ _ by simp)
          simpa [htick] using this
        rw [if_pos hkind, if_pos hkind, matching_linkEntries hret,
          List.idxOf_cons_ne _ (by simp [htick])]
        congr 3
        omega
      · rw [if_neg hkind, if_neg hkind]
    | succ a =>
      rw [List.getElem?_cons_succ] at he ⊢
      have hmem : e.tick ∈ entries.map Entry.tick :=
        List.mem_map_of_mem (List.mem_of_getElem? he)
      have hpair' (hkind : e.kind = .callEntry) :
          [Tick.call e.id, Tick.ret e.id].Sublist (entries.map Entry.tick) := by
        have htick : e.tick = .call e.id := by simp [Entry.tick, hkind]
        rcases List.sublist_cons_iff.mp (hpair hkind) with h | ⟨l, hl, -⟩
        · exact h
        · exact absurd ((List.cons_eq_cons.mp hl).1 ▸ htick ▸ hmem) hnew
      rw [ih hnodup he hpair']
      by_cases hkind : e.kind = .callEntry
      · -- the first entry is not the return, which comes later
        have hret : Tick.ret e.id ∈ entries.map Entry.tick := (hpair' hkind).subset (by simp)
        have hne : e₀.tick ≠ .ret e.id := fun heq => hnew (heq ▸ hret)
        rw [if_pos hkind, if_pos hkind, List.idxOf_cons_ne _ hne]
        congr 3
        omega
      · rw [if_neg hkind, if_neg hkind]

/-! ### Entries by time -/

section MakeEntries

variable {history : List (Operation I O)} {sorter : Sorter (I ⊕ O)}

theorem mem_entriesFrom {id : ℕ} {e : Entry (I ⊕ O)} :
    e ∈ entriesFrom id history ↔
      ∃ (k : ℕ) (op : Operation I O), history[k]? = some op ∧
        (e = op.callEntry (id + k) ∨ e = op.returnEntry (id + k)) := by
  induction history generalizing id with
  | nil => simp [entriesFrom]
  | cons op history ih =>
    rw [entriesFrom, List.mem_cons, List.mem_cons, ih, ← or_assoc]
    constructor
    · rintro (h | ⟨k, op', hk, h⟩)
      · exact ⟨0, op, rfl, h⟩
      · refine ⟨k + 1, op', by simpa using hk, ?_⟩
        rwa [show id + (k + 1) = id + 1 + k by omega]
    · rintro ⟨k, op', hk, h⟩
      cases k with
      | zero =>
        obtain rfl : op = op' := by simpa using hk
        exact .inl h
      | succ k =>
        refine .inr ⟨k, op', by simpa using hk, ?_⟩
        rwa [show id + 1 + k = id + (k + 1) by omega]

theorem nodup_entriesFrom {id : ℕ} : ((entriesFrom id history).map Entry.tick).Nodup := by
  induction history generalizing id with
  | nil => exact .nil
  | cons op history ih =>
    have hlater {e : Entry (I ⊕ O)} (he : e ∈ entriesFrom (id + 1) history) : e.id ≠ id := by
      obtain ⟨k, op', -, rfl | rfl⟩ := mem_entriesFrom.mp he
      · simp only [Operation.callEntry]; omega
      · simp only [Operation.returnEntry]; omega
    have hop {e : Entry (I ⊕ O)} : e.tick.op = e.id := by
      simp only [Entry.tick]
      cases e.kind <;> rfl
    rw [entriesFrom, List.map_cons, List.map_cons]
    refine List.nodup_cons.mpr ⟨fun h => ?_, List.nodup_cons.mpr ⟨fun h => ?_, ih⟩⟩
    · rcases List.mem_cons.mp h with h | h
      · simp [Entry.tick, Operation.callEntry, Operation.returnEntry] at h
      · obtain ⟨e, he, heq⟩ := List.mem_map.mp h
        exact hlater he (hop ▸ congrArg Tick.op heq)
    · obtain ⟨e, he, heq⟩ := List.mem_map.mp h
      exact hlater he (hop ▸ congrArg Tick.op heq)

theorem mem_makeEntries {e : Entry (I ⊕ O)} :
    e ∈ makeEntries sorter history ↔
      ∃ (k : ℕ) (op : Operation I O), history[k]? = some op ∧
        (e = op.callEntry k ∨ e = op.returnEntry k) := by
  rw [makeEntries, (sorter.perm _).mem_iff, mem_entriesFrom]
  simp only [Nat.zero_add]

theorem nodup_makeEntries : ((makeEntries sorter history).map Entry.tick).Nodup :=
  ((sorter.perm _).map _).nodup_iff.mpr nodup_entriesFrom

/-- What is less comes first. -/
theorem sublist_of_less {e e' : Entry (I ⊕ O)} (he : e ∈ makeEntries sorter history)
    (he' : e' ∈ makeEntries sorter history) (h : e.less e' = true) :
    [e.tick, e'.tick].Sublist ((makeEntries sorter history).map Entry.tick) := by
  have hne : e ≠ e' := fun heq => by
    rw [heq, Entry.less_self] at h
    cases h
  rcases pair_sublist_or he he' hne with hpair | hpair
  · exact hpair.map Entry.tick
  · have := List.pairwise_iff_forall_sublist.mp (sorter.sorted _) hpair
    rw [h] at this
    cases this

/-- What comes first is not more. -/
theorem less_of_sublist {e e' : Entry (I ⊕ O)} (he : e ∈ makeEntries sorter history)
    (he' : e' ∈ makeEntries sorter history)
    (h : [e.tick, e'.tick].Sublist ((makeEntries sorter history).map Entry.tick)) :
    e'.less e = false := by
  by_contra hless
  have hback := sublist_of_less he' he (Bool.eq_true_of_not_eq_false hless)
  exact not_pair_sublist_of_nodup nodup_makeEntries h hback

/-- The order of the entries is that of the times: an operation comes before another exactly if it
    returned before the other was called. -/
theorem before_makeEntries_iff {i j : ℕ} {a b : Operation I O} (ha : history[i]? = some a)
    (hb : history[j]? = some b) :
    Before ((makeEntries sorter history).map Entry.tick) i j ↔ a.ret < b.call := by
  have ha' : a.returnEntry i ∈ makeEntries sorter history :=
    mem_makeEntries.mpr ⟨i, a, ha, .inr rfl⟩
  have hb' : b.callEntry j ∈ makeEntries sorter history :=
    mem_makeEntries.mpr ⟨j, b, hb, .inl rfl⟩
  constructor
  · intro h
    have hless := less_of_sublist ha' hb' h
    by_contra hle
    simp only [Entry.less, Operation.callEntry, Operation.returnEntry] at hless
    split at hless
    next hne => exact hle (by have := of_decide_eq_false hless; omega)
    next => simp at hless
  · intro h
    refine sublist_of_less ha' hb' ?_
    have hne : a.ret ≠ b.call := by omega
    simp [Entry.less, Operation.callEntry, Operation.returnEntry, hne, h]

/-- **Well-formed entries.** Where no operation returns before it is called, the entries pair the
    calls with the returns. -/
theorem entriesOf_makeEntries (hcall : ∀ op ∈ history, op.call ≤ op.ret) :
    EntriesOf (history.map fun op => (op.input, op.output)) (makeEntries sorter history) where
  paired := by
    refine ⟨List.nodup_range, nodup_makeEntries, fun t => ?_, fun i hi => ?_⟩
    · rw [List.mem_range, List.length_map]
      constructor
      · intro ht
        obtain ⟨e, he, rfl⟩ := List.mem_map.mp ht
        obtain ⟨k, op, hk, rfl | rfl⟩ := mem_makeEntries.mp he <;>
          exact (List.getElem?_eq_some_iff.mp hk).1
      · intro hi
        have hop := List.getElem?_eq_getElem hi
        cases t with
        | call i => exact List.mem_map.mpr ⟨_, mem_makeEntries.mpr ⟨i, _, hop, .inl rfl⟩, rfl⟩
        | ret i => exact List.mem_map.mpr ⟨_, mem_makeEntries.mpr ⟨i, _, hop, .inr rfl⟩, rfl⟩
    · rw [List.mem_range, List.length_map] at hi
      have hop := List.getElem?_eq_getElem hi
      refine sublist_of_less (mem_makeEntries.mpr ⟨i, _, hop, .inl rfl⟩)
        (mem_makeEntries.mpr ⟨i, _, hop, .inr rfl⟩) ?_
      have hle := hcall _ (List.getElem_mem hi)
      simp only [Entry.less, Operation.callEntry, Operation.returnEntry]
      split
      next hne => exact decide_eq_true (by omega)
      next => rfl
  value e he := by
    obtain ⟨k, op, hk, rfl | rfl⟩ := mem_makeEntries.mp he
    · exact ⟨(op.input, op.output), by simp [Operation.callEntry, hk], rfl⟩
    · exact ⟨(op.input, op.output), by simp [Operation.returnEntry, hk], rfl⟩

end MakeEntries

end MitDistributed.Porcupine
