import Mathlib.Data.List.Nodup

namespace MitDistributed.LinkedList

/-!
# Doubly linked lists

The links of the nodes of a doubly linked list, in a store from nodes to links.  Taking a node out
of the list leaves its own links alone, so that it can be put back where it was.

* `Chain` — the store links the nodes of a list one to the next;
* `Chain.unlink` — without a node other than the first the rest is linked, and `relink` undoes it
  exactly;
* `Chain.insertBefore` — a new node in front of the first one;
* `Chain.length_eq` — following the links visits every node.
-/

variable {K : Type*}

structure Links (K : Type*) where
  next : Option K
  prev : Option K

/-- The links of a node that is in no list. -/
def Links.nil : Links K :=
  { next := none, prev := none }

variable [DecidableEq K]

def setNext (st : K → Links K) (x : K) (y : Option K) : K → Links K :=
  fun k => if k = x then { st k with next := y } else st k

def setPrev (st : K → Links K) (x : K) (y : Option K) : K → Links K :=
  fun k => if k = x then { st k with prev := y } else st k

/-- Set the previous link of a node that there may be. -/
def setPrevOf (st : K → Links K) (x y : Option K) : K → Links K :=
  match x with
  | none => st
  | some x => setPrev st x y

/-- Link the neighbours of `x` to each other; `none` where `x` is first. -/
def unlink (st : K → Links K) (x : K) : Option (K → Links K) :=
  (st x).prev.map fun y => setPrevOf (setNext st y (st x).next) (st x).next (some y)

/-- Link the neighbours of `x` to `x`; `none` where `x` is first. -/
def relink (st : K → Links K) (x : K) : Option (K → Links K) :=
  (st x).prev.map fun y => setPrevOf (setNext st y (some x)) (st x).next (some x)

/-- Put `n` in front of `mark`. -/
def insertBefore (st : K → Links K) (n : K) (mark : Option K) : K → Links K :=
  match mark with
  | none => st
  | some m =>
    let beforeMark := (st m).prev
    let st := setNext (setPrev st m (some n)) n (some m)
    match beforeMark with
    | none => st
    | some b => setNext (setPrev st n (some b)) b (some n)

/-- The number of nodes from `n` on, following the links at most `fuel` times. -/
def length (st : K → Links K) : ℕ → Option K → ℕ
  | _, none => 0
  | 0, some _ => 0
  | fuel + 1, some n => length st fuel (st n).next + 1

/-- The nodes of the list are linked one to the next, the first to `p`. -/
def Chain (st : K → Links K) : Option K → List K → Prop
  | _, [] => True
  | p, x :: l => (st x).prev = p ∧ (st x).next = l.head? ∧ Chain st (some x) l

variable {st st' : K → Links K} {p : Option K} {x y : K} {a b l : List K}

omit [DecidableEq K] in
theorem Chain.congr (h : Chain st p l) (heq : ∀ k ∈ l, st' k = st k) : Chain st' p l := by
  induction l generalizing p with
  | nil => trivial
  | cons x l ih =>
    obtain ⟨hprev, hnext, hrest⟩ := h
    have hx := heq x List.mem_cons_self
    exact ⟨hx ▸ hprev, hx ▸ hnext, ih hrest fun k hk => heq k (List.mem_cons_of_mem x hk)⟩

omit [DecidableEq K] in
/-- From any node on, the rest is linked. -/
theorem Chain.of_append (h : Chain st p (a ++ x :: l)) :
    ∃ q, (st x).prev = q ∧ (st x).next = l.head? ∧ Chain st (some x) l := by
  induction a generalizing p with
  | nil => exact ⟨p, h⟩
  | cons _ a ih => exact ih h.2.2

theorem setPrevOf_setNext_apply (n v w : Option K) (k : K) :
    setPrevOf (setNext st y v) n w k =
      { next := if k = y then v else (st k).next
        prev := if n = some k then w else (st k).prev } := by
  cases n with
  | none => by_cases hky : k = y <;> simp [setPrevOf, setNext, hky]
  | some z =>
    by_cases hkz : k = z
    · subst hkz
      by_cases hky : k = y <;> simp [setPrevOf, setPrev, setNext, hky]
    · have hzk : z ≠ k := fun heq => hkz heq.symm
      rw [setPrevOf, setPrev, if_neg hkz]
      by_cases hky : k = y
      · subst hky
        simp [setNext, hzk]
      · simp [setNext, hky, hzk]

theorem setPrevOf_setNext_of_ne {n v w : Option K} {k : K} (hy : k ≠ y) (hn : n ≠ some k) :
    setPrevOf (setNext st y v) n w k = st k := by
  rw [setPrevOf_setNext_apply, if_neg hy, if_neg hn]

omit [DecidableEq K] in
theorem head?_ne_some (h : x ∉ l) : l.head? ≠ some x :=
  fun hx => h (List.mem_of_mem_head? hx)

/-- The nodes behind `y`, of which the first was linked to another one. -/
theorem Chain.setPrevOf_head? (hy : y ∉ l) (hnodup : l.Nodup) (h : Chain st p l) :
    Chain (setPrevOf (setNext st y l.head?) l.head? (some y)) (some y) l := by
  cases l with
  | nil => trivial
  | cons z l =>
    obtain ⟨hz, -⟩ := List.nodup_cons.mp hnodup
    rw [List.mem_cons, not_or] at hy
    obtain ⟨_, hnext, hrest⟩ := h
    refine ⟨?_, ?_, hrest.congr fun k hk => ?_⟩
    · simp [setPrevOf_setNext_apply]
    · simpa [setPrevOf_setNext_apply, Ne.symm hy.1] using hnext
    · have hky : k ≠ y := fun heq => hy.2 (heq ▸ hk)
      have hkz : (z :: l).head? ≠ some k := fun heq => hz (Option.some.inj heq ▸ hk)
      exact setPrevOf_setNext_of_ne hky hkz

/-- Without `x`, the node before it is linked to the node after it. -/
theorem Chain.without (hnodup : (a ++ y :: x :: b).Nodup) (h : Chain st p (a ++ y :: x :: b)) :
    Chain (setPrevOf (setNext st y b.head?) b.head? (some y)) p (a ++ y :: b) := by
  induction a generalizing p with
  | nil =>
    obtain ⟨hy, hrest⟩ := List.nodup_cons.mp hnodup
    obtain ⟨hprev, _, _, _, hchain⟩ := h
    have hyb : y ∉ b := fun hmem => hy (List.mem_cons_of_mem x hmem)
    refine ⟨?_, ?_, hchain.setPrevOf_head? hyb (List.nodup_cons.mp hrest).2⟩
    · simpa [setPrevOf_setNext_apply, head?_ne_some hyb] using hprev
    · simp [setPrevOf_setNext_apply]
  | cons w a ih =>
    rw [List.cons_append] at hnodup h
    obtain ⟨hw, hrest⟩ := List.nodup_cons.mp hnodup
    obtain ⟨hprev, hnext, hchain⟩ := h
    simp only [List.mem_append, List.mem_cons, not_or] at hw
    have hsame : setPrevOf (setNext st y b.head?) b.head? (some y) w = st w :=
      setPrevOf_setNext_of_ne hw.2.1 (head?_ne_some hw.2.2.2)
    refine ⟨hsame ▸ hprev, hsame ▸ hnext.trans ?_, ih hrest hchain⟩
    cases a <;> rfl

/-- A node that has been unlinked can be put back where its own links say. -/
theorem relink_setPrevOf_setNext (hxy : x ≠ y) (hx : (st x).next ≠ some x)
    (hprev : (st x).prev = some y) (hy : (st y).next = some x)
    (hnext : ∀ z, (st x).next = some z → (st z).prev = some x) :
    relink (setPrevOf (setNext st y (st x).next) (st x).next (some y)) x = some st := by
  rw [relink, setPrevOf_setNext_of_ne hxy hx, hprev, Option.map_some]
  refine congrArg some (funext fun k => ?_)
  rw [setPrevOf_setNext_apply, setPrevOf_setNext_apply]
  have hn : (if k = y then some x else if k = y then (st x).next else (st k).next) =
      (st k).next := by
    by_cases hk : k = y
    · rw [if_pos hk, hk, hy]
    · rw [if_neg hk, if_neg hk]
  have hp : (if (st x).next = some k then some x
      else if (st x).next = some k then some y else (st k).prev) = (st k).prev := by
    by_cases hk : (st x).next = some k
    · rw [if_pos hk, hnext k hk]
    · rw [if_neg hk, if_neg hk]
  rw [hn, hp]

/-- **Taking a node out.** Every node but the first can be unlinked; the others are linked then,
    and relinking the node gives back the store there was. -/
theorem Chain.unlink (hnodup : (y :: l).Nodup) (h : Chain st p (y :: l)) (hx : x ∈ l) :
    ∃ st', unlink st x = some st' ∧ Chain st' p (y :: l.erase x) ∧ relink st' x = some st ∧
      st' x = st x := by
  obtain ⟨l₁, b, rfl⟩ := List.append_of_mem hx
  -- `w` is the node before `x`
  obtain ⟨a, w, haw⟩ : ∃ a w, y :: l₁ = a ++ [w] :=
    ⟨_, _, (List.dropLast_append_getLast (List.cons_ne_nil y l₁)).symm⟩
  have hlist : y :: (l₁ ++ x :: b) = a ++ w :: x :: b := by
    rw [← List.cons_append, haw, List.append_assoc, List.singleton_append]
  have herase : y :: (l₁ ++ x :: b).erase x = a ++ w :: b := by
    have hxl : x ∉ l₁ := by
      have := (List.nodup_cons.mp hnodup).2
      exact fun hmem => (List.disjoint_of_nodup_append this) hmem List.mem_cons_self
    rw [List.erase_append_right _ hxl, List.erase_cons_head, ← List.cons_append, haw,
      List.append_assoc, List.singleton_append]
  rw [hlist] at hnodup h
  obtain ⟨-, -, hw, hprev, hnext, hb⟩ := h.of_append
  have hwx : (w :: x :: b).Nodup := hnodup.of_append_right
  simp only [List.nodup_cons, List.mem_cons, not_or] at hwx
  have hne : (st x).next ≠ some x := hnext ▸ head?_ne_some hwx.2.1
  refine ⟨_, by rw [LinkedList.unlink, hprev, Option.map_some], ?_, ?_,
    setPrevOf_setNext_of_ne (Ne.symm hwx.1.1) hne⟩
  · rw [herase, hnext]
    exact h.without hnodup
  · refine relink_setPrevOf_setNext (Ne.symm hwx.1.1) hne hprev hw fun z hz => ?_
    cases b with
    | nil => rw [hnext] at hz; cases hz
    | cons z' b =>
      obtain rfl : z' = z := by rw [hnext] at hz; exact Option.some.inj hz
      exact hb.1

/-- A node with no links of its own in front of the first one. -/
theorem Chain.insertBefore (h : Chain st none l) (hnodup : l.Nodup) (hx : x ∉ l)
    (hnil : st x = Links.nil) : Chain (insertBefore st x l.head?) none (x :: l) := by
  cases l with
  | nil => exact ⟨by simp [LinkedList.insertBefore, hnil, Links.nil],
      by simp [LinkedList.insertBefore, hnil, Links.nil], trivial⟩
  | cons m l =>
    obtain ⟨hprev, hnext, hrest⟩ := h
    rw [List.mem_cons, not_or] at hx
    have hm := (List.nodup_cons.mp hnodup).1
    have heq : LinkedList.insertBefore st x (some m) =
        setNext (setPrev st m (some x)) x (some m) := by
      simp [LinkedList.insertBefore, hprev]
    rw [List.head?_cons, heq]
    refine ⟨?_, ?_, ?_, ?_, hrest.congr fun k hk => ?_⟩
    · simp [setNext, setPrev, hx.1, hnil, Links.nil]
    · simp [setNext]
    · simp [setNext, setPrev, Ne.symm hx.1]
    · simpa [setNext, setPrev, Ne.symm hx.1] using hnext
    · have hkx : k ≠ x := fun heq => hx.2 (heq ▸ hk)
      have hkm : k ≠ m := fun heq => hm (heq ▸ hk)
      simp [setNext, setPrev, hkx, hkm]

/-- What is neither the new node nor the first one keeps its links. -/
theorem insertBefore_of_ne (h : Chain st none l) {k : K} (hkx : k ≠ x) (hkl : k ∉ l) :
    LinkedList.insertBefore st x l.head? k = st k := by
  cases l with
  | nil => rfl
  | cons m l =>
    have hkm : k ≠ m := fun heq => hkl (heq ▸ List.mem_cons_self)
    simp [LinkedList.insertBefore, h.1, setNext, setPrev, hkx, hkm]

omit [DecidableEq K] in
theorem Chain.length_eq (h : Chain st p l) {fuel : ℕ} (hfuel : l.length ≤ fuel) :
    length st fuel l.head? = l.length := by
  induction l generalizing p fuel with
  | nil => cases fuel <;> rfl
  | cons x l ih =>
    cases fuel with
    | zero => simp at hfuel
    | succ fuel =>
      rw [List.head?_cons, LinkedList.length, h.2.1, ih h.2.2 (by simpa using hfuel),
        List.length_cons]

end MitDistributed.LinkedList
