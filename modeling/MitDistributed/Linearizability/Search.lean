import Mathlib.Algebra.Ring.Nat
import Mathlib.Data.Finset.Card
import Mathlib.Data.Finset.Insert
import Mathlib.Data.List.Sublists
import MitDistributed.Linearizability.History

namespace MitDistributed.Linearizability

open Transition

/-!
# Searching for a linearization

A history is the list of the calls and returns in the order in which they happened.  The search
keeps the events of the operations that it has not linearized yet and a place in that list.  It
tries the calls up to the first return, one after the other; where none is left it takes back the
operation it linearized last and goes on behind its call.  What it has reached once, a set of
linearized operations with the state after them, it does not enter again.

* `next` — one iteration; `Move` lists what it can do, and later proofs go through that list;
* `Invariant` — what the iterations keep, over any predicate `P` that holds of what has been
  given up: for the verdict `P` says that there is no way to go on, for the longest sequences
  found that every way to go on has been recorded;
* `weight` — decreases in every iteration;
* `verdict` — a search that ends does so with `true` exactly if the history is linearizable.
-/

variable {ι σ : Type*}

/-- An event of a history. -/
inductive Tick (ι : Type*)
  | call (i : ι)
  | ret (i : ι)
  deriving DecidableEq

/-- The operation an event belongs to. -/
def Tick.op : Tick ι → ι
  | .call i => i
  | .ret i => i

@[simp] theorem Tick.op_call (i : ι) : (Tick.call i).op = i := rfl

@[simp] theorem Tick.op_ret (i : ι) : (Tick.ret i).op = i := rfl

/-- A history of the operations `ops`: each is called once and returns once, after its call. -/
structure Paired (ops : List ι) (hist : List (Tick ι)) : Prop where
  nodup_ops : ops.Nodup
  nodup : hist.Nodup
  mem_iff : ∀ t, t ∈ hist ↔ t.op ∈ ops
  pair : ∀ i ∈ ops, [Tick.call i, Tick.ret i].Sublist hist

/-- Operation `i` has returned when `j` is called. -/
def Before (hist : List (Tick ι)) (i j : ι) : Prop :=
  [Tick.ret i, Tick.call j].Sublist hist

/-- An operation that has been linearized: the state before it, and the events before and after its
    call among those that were left. -/
structure Frame (ι σ : Type*) where
  op : ι
  state : σ
  pre : List (Tick ι)
  post : List (Tick ι)

/-- The search: what has been linearized (the last first), the events that are left before and
    from the current place on, the state, and what has been reached. -/
structure Search (ι σ : Type*) where
  stack : List (Frame ι σ)
  pre : List (Tick ι)
  post : List (Tick ι)
  state : σ
  cache : List (Finset ι × σ)

def Search.start (hist : List (Tick ι)) (init : σ) : Search ι σ :=
  { stack := [], pre := [], post := hist, state := init, cache := [] }

variable [DecidableEq ι]

/-- The linearized operations. -/
def done (stack : List (Frame ι σ)) : Finset ι :=
  (stack.map Frame.op).toFinset

@[simp] theorem done_nil : done ([] : List (Frame ι σ)) = ∅ := rfl

@[simp] theorem done_cons (f : Frame ι σ) (stack : List (Frame ι σ)) :
    done (f :: stack) = insert f.op (done stack) := by
  simp [done]

namespace Search

/-- Go on behind the current call. -/
def skip (x : Search ι σ) (i : ι) (post : List (Tick ι)) : Search ι σ :=
  { x with pre := x.pre ++ [.call i], post := post }

/-- Linearize the operation of the current call and start over with the events that are left. -/
def push (x : Search ι σ) (i : ι) (s : σ) (post : List (Tick ι)) : Search ι σ :=
  { stack := ⟨i, x.state, x.pre, post⟩ :: x.stack
    pre := []
    post := (x.pre ++ post).erase (.ret i)
    state := s
    cache := x.cache ++ [(insert i (done x.stack), s)] }

/-- Take the last operation back and go on behind its call. -/
def pop (x : Search ι σ) (f : Frame ι σ) (stack : List (Frame ι σ)) : Search ι σ :=
  { x with stack := stack, pre := f.pre ++ [.call f.op], post := f.post, state := f.state }

def reached (equal : σ → σ → Bool) (x : Search ι σ) (D : Finset ι) (s : σ) : Bool :=
  x.cache.any fun c => decide (D = c.1) && equal s c.2

/-- One iteration: the search goes on, or ends with a verdict. -/
def next (step : σ → ι → Option σ) (equal : σ → σ → Bool) (x : Search ι σ) :
    Search ι σ ⊕ Bool :=
  match x.post with
  | [] => .inr true
  | .call i :: post =>
    match step x.state i with
    | none => .inl (x.skip i post)
    | some s =>
      if x.reached equal (insert i (done x.stack)) s then .inl (x.skip i post)
      else .inl (x.push i s post)
  | .ret _ :: _ =>
    match x.stack with
    | [] => .inr false
    | f :: stack => .inl (x.pop f stack)

/-- What an iteration can do. -/
inductive Move (step : σ → ι → Option σ) (equal : σ → σ → Bool) (x : Search ι σ) :
    Search ι σ ⊕ Bool → Prop
  | accept : x.post = [] → Move step equal x (.inr true)
  | illegal {i : ι} {post : List (Tick ι)} : x.post = .call i :: post → step x.state i = none →
      Move step equal x (.inl (x.skip i post))
  | known {i : ι} {post : List (Tick ι)} {s : σ} : x.post = .call i :: post →
      step x.state i = some s → x.reached equal (insert i (done x.stack)) s = true →
      Move step equal x (.inl (x.skip i post))
  | linearize {i : ι} {post : List (Tick ι)} {s : σ} : x.post = .call i :: post →
      step x.state i = some s → x.reached equal (insert i (done x.stack)) s = false →
      Move step equal x (.inl (x.push i s post))
  | reject {r : ι} {post : List (Tick ι)} : x.post = .ret r :: post → x.stack = [] →
      Move step equal x (.inr false)
  | back {r : ι} {post : List (Tick ι)} {f : Frame ι σ} {stack : List (Frame ι σ)} :
      x.post = .ret r :: post → x.stack = f :: stack → Move step equal x (.inl (x.pop f stack))

theorem move_next (step : σ → ι → Option σ) (equal : σ → σ → Bool) (x : Search ι σ) :
    Move step equal x (next step equal x) := by
  unfold next
  split
  next h => exact .accept h
  next i post h =>
    split
    next hstep => exact .illegal h hstep
    next s hstep =>
      split
      next hreached => exact .known h hstep hreached
      next hreached => exact .linearize h hstep (by simpa using hreached)
  next r post h =>
    split
    next hstack => exact .reject h hstack
    next f stack hstack => exact .back h hstack

end Search

/-! ### Which of two members of a list comes first -/

section Pairs

variable {α : Type*} {l pre post : List α} {a b : α}

/-- In a list without repetitions, what comes before `b` stands before its place. -/
theorem mem_of_pair_sublist (hnodup : (pre ++ b :: post).Nodup)
    (h : [a, b].Sublist (pre ++ b :: post)) : a ∈ pre := by
  obtain ⟨hnew, _⟩ := List.nodup_cons.mp (List.perm_middle.nodup_iff.mp hnodup)
  rw [List.mem_append, not_or] at hnew
  obtain ⟨l₁, l₂, hsplit, hpre, hpost⟩ := List.sublist_append_iff.mp h
  cases l₁ with
  | nil =>
    obtain rfl : [a, b] = l₂ := hsplit
    have hb : b ∈ post := by
      rcases List.sublist_cons_iff.mp hpost with hpost | ⟨l, hl, hpost⟩
      · exact hpost.subset (by simp)
      · obtain ⟨-, rfl⟩ := List.cons_eq_cons.mp hl
        exact hpost.subset List.mem_cons_self
    exact absurd hb hnew.2
  | cons c l₁ =>
    obtain ⟨rfl, -⟩ := List.cons_eq_cons.mp hsplit
    exact hpre.subset List.mem_cons_self

theorem not_pair_sublist_of_nodup (hnodup : l.Nodup) (h : [a, b].Sublist l) :
    ¬ [b, a].Sublist l := by
  intro hback
  obtain ⟨pre, post, rfl⟩ := List.append_of_mem (h.subset (show b ∈ [a, b] by simp))
  obtain ⟨pre₁, pre₂, rfl⟩ := List.append_of_mem (mem_of_pair_sublist hnodup h)
  rw [List.append_assoc, List.cons_append] at hnodup hback
  have hb := mem_of_pair_sublist hnodup hback
  exact List.disjoint_of_nodup_append hnodup hb (by simp)

theorem pair_sublist_or (ha : a ∈ l) (hb : b ∈ l) (hab : a ≠ b) :
    [a, b].Sublist l ∨ [b, a].Sublist l := by
  obtain ⟨l₁, l₂, rfl⟩ := List.append_of_mem ha
  rcases List.mem_append.mp hb with hb | hb
  · exact .inr (List.Sublist.append (List.singleton_sublist.mpr hb)
      (List.singleton_sublist.mpr List.mem_cons_self))
  · have hb : b ∈ l₂ := (List.mem_cons.mp hb).resolve_left (Ne.symm hab)
    exact .inl (((List.singleton_sublist.mpr hb).cons_cons a).trans (List.sublist_append_right _ _))

end Pairs

/-! ### The events that are left -/

section Left

variable {ops : List ι} {hist pre post : List (Tick ι)} {D : Finset ι} {i r : ι}

/-- The events of the operations outside of `D`. -/
def left (hist : List (Tick ι)) (D : Finset ι) : List (Tick ι) :=
  hist.filter fun t => decide (t.op ∉ D)

theorem mem_left {t : Tick ι} : t ∈ left hist D ↔ t ∈ hist ∧ t.op ∉ D := by
  simp [left]

theorem left_empty : left hist ∅ = hist := by
  simp [left]

/-- Without operation `i`, whose call is at the current place, the events of the others are left. -/
theorem left_insert (hhist : hist.Nodup) (h : left hist D = pre ++ .call i :: post) :
    left hist (insert i D) = (pre ++ post).erase (.ret i) := by
  have hnodup : (pre ++ .call i :: post).Nodup := h ▸ hhist.filter _
  obtain ⟨hnew, hrest⟩ := List.nodup_cons.mp (List.perm_middle.nodup_iff.mp hnodup)
  have hsplit : left hist (insert i D) = (left hist D).filter fun t => decide (t.op ≠ i) := by
    rw [left, left, List.filter_filter]
    refine List.filter_congr fun t _ => ?_
    simp [not_or]
  rw [hsplit, h, hrest.erase_eq_filter, List.filter_append, List.filter_append,
    List.filter_cons_of_neg (by simp), ← List.filter_append, ← List.filter_append]
  refine List.filter_congr fun t ht => ?_
  have hcall : t ≠ .call i := fun heq => hnew (heq ▸ ht)
  cases t with
  | call j =>
    have hji : j ≠ i := fun heq => hcall (congrArg Tick.call heq)
    simp [hji]
  | ret j => by_cases hji : j = i <;> simp [hji]

/-- What has returned before the call at the current place stands before that place. -/
theorem ret_mem_pre_of_before (hhist : hist.Nodup) (h : left hist D = pre ++ .call i :: post)
    (hr : r ∉ D) (hbefore : Before hist r i) : Tick.ret r ∈ pre := by
  have hi : i ∉ D :=
    (mem_left.mp (h ▸ List.mem_append_right pre List.mem_cons_self : Tick.call i ∈ left hist D)).2
  have hpair : [Tick.ret r, Tick.call i].Sublist (left hist D) := by
    simpa [left, List.filter_cons, hr, hi] using hbefore.filter fun t => decide (t.op ∉ D)
  have hnodup : (left hist D).Nodup := hhist.filter _
  rw [h] at hpair hnodup
  exact mem_of_pair_sublist hnodup hpair

/-- Operation `i` is left, and none of the others that are left has returned when it is called. -/
def Enabled (hist : List (Tick ι)) (ops : List ι) (D : Finset ι) (i : ι) : Prop :=
  i ∈ ops ∧ i ∉ D ∧ ∀ j ∈ ops, j ∉ D → j ≠ i → ¬ Before hist j i

/-- The calls of the enabled operations stand before the first return. -/
theorem Enabled.call_mem_pre (hp : Paired ops hist) (h : left hist D = pre ++ .ret r :: post)
    (hi : Enabled hist ops D i) : Tick.call i ∈ pre := by
  obtain ⟨hops, hD, hfirst⟩ := hi
  have hnodup : (pre ++ .ret r :: post).Nodup := h ▸ (hp.nodup.filter _ : (left hist D).Nodup)
  have hr : Tick.ret r ∈ left hist D := h ▸ List.mem_append_right pre List.mem_cons_self
  have hcall : Tick.call i ∈ pre ++ .ret r :: post :=
    h ▸ mem_left.mpr ⟨(hp.mem_iff _).mpr hops, hD⟩
  rcases List.mem_append.mp hcall with hpre | hpost
  · exact hpre
  by_cases hri : r = i
  · subst hri
    have hpair : [Tick.call r, Tick.ret r].Sublist (left hist D) := by
      simpa [left, List.filter_cons, hD] using (hp.pair r hops).filter fun t => decide (t.op ∉ D)
    exact mem_of_pair_sublist hnodup (h ▸ hpair)
  · -- a call behind the return of `r` would be preceded by it
    have hpost : Tick.call i ∈ post := by simpa using hpost
    have hbefore : Before hist r i := by
      have hpair : [Tick.ret r, Tick.call i].Sublist (pre ++ .ret r :: post) :=
        ((List.singleton_sublist.mpr hpost).cons_cons _).trans (List.sublist_append_right _ _)
      exact (h ▸ hpair).trans List.filter_sublist
    obtain ⟨hmem, hrD⟩ := mem_left.mp hr
    exact absurd hbefore (hfirst r ((hp.mem_iff _).mp hmem) hrD hri)

/-- What is left can be linearized from state `s`. -/
def Completable (step : σ → ι → Option σ) (hist : List (Tick ι)) (ops : List ι) (D : Finset ι)
    (s : σ) : Prop :=
  Linearizable step (Before hist) s (ops.filter fun i => decide (i ∉ D))

theorem filter_erase (hnodup : ops.Nodup) :
    (ops.filter fun j => decide (j ∉ D)).erase i = ops.filter fun j => decide (j ∉ insert i D) := by
  rw [(hnodup.filter _).erase_eq_filter, List.filter_filter]
  refine List.filter_congr fun j _ => ?_
  by_cases hji : j = i <;> simp [hji]

theorem completable_iff {step : σ → ι → Option σ} {s : σ} (hnodup : ops.Nodup)
    (hleft : ∃ i ∈ ops, i ∉ D) :
    Completable step hist ops D s ↔
      ∃ i, Enabled hist ops D i ∧ ∃ s', step s i = some s' ∧
        Completable step hist ops (insert i D) s' := by
  have hne : ops.filter (fun i => decide (i ∉ D)) ≠ [] := by
    obtain ⟨i, hi, hD⟩ := hleft
    exact List.ne_nil_of_mem (List.mem_filter.mpr ⟨hi, decide_eq_true hD⟩)
  rw [Completable, linearizable_iff_exists_first hne]
  refine exists_congr fun i => ?_
  rw [filter_erase hnodup]
  simp only [Enabled, Completable, List.mem_filter, decide_eq_true_eq, Finset.mem_insert, not_or,
    and_imp, and_assoc]
  refine and_congr_right fun _ => and_congr_right fun _ => and_congr_left fun _ => ?_
  exact ⟨fun h j hj hD hji => h j hj hji hD, fun h j hj hji hD => h j hj hD hji⟩

end Left

/-! ### What has been explored -/

/-- Operations that may come first: a linearization of some of them that leaves nothing out that
    has returned before one of them was called. -/
structure PartialLinearization (step : σ → ι → Option σ) (hist : List (Tick ι)) (ops : List ι)
    (s : σ) (order : List ι) (s' : σ) : Prop where
  nodup : order.Nodup
  subset : order ⊆ ops
  realTime : order.Pairwise fun i j => ¬ Before hist j i
  closed : ∀ i ∈ order, ∀ j ∈ ops, j ∉ order → ¬ Before hist j i
  legal : exec step s order = some s'

section Explored

variable (P : Finset ι → σ → Prop) (step : σ → ι → Option σ) (hist : List (Tick ι)) (init : σ)

/-- All events in `pre` are calls, and what linearizing one of them leads to has property `P`. -/
def Scanned (D : Finset ι) (s : σ) (pre : List (Tick ι)) : Prop :=
  ∀ t ∈ pre, ∃ i, t = .call i ∧ ∀ s', step s i = some s' → P (insert i D) s'

/-- The frames of the stack, with the events and the state that the last one leads to. -/
inductive Explored : List (Frame ι σ) → List (Tick ι) → σ → Prop
  | root : Explored [] hist init
  | push {stack : List (Frame ι σ)} {i : ι} {s s' : σ} {pre post : List (Tick ι)} :
      Explored stack (pre ++ .call i :: post) s → Scanned P step (done stack) s pre →
      step s i = some s' → Explored (⟨i, s, pre, post⟩ :: stack) ((pre ++ post).erase (.ret i)) s'

/-- `c` is what the search has reached at one of the frames of the stack. -/
def OnPath : List (Frame ι σ) → σ → Finset ι × σ → Prop
  | [], s, c => c = (∅, s)
  | f :: stack, s, c => c = (done (f :: stack), s) ∨ OnPath stack f.state c

/-- What every iteration keeps, `P` holding of everything the search has given up. -/
structure Invariant (x : Search ι σ) : Prop where
  explored : Explored P step hist init x.stack (x.pre ++ x.post) x.state
  scanned : Scanned P step (done x.stack) x.state x.pre
  cached : ∀ c ∈ x.cache, P c.1 c.2 ∨ OnPath x.stack x.state c

end Explored

section Keeps

variable {P Q : Finset ι → σ → Prop} {step : σ → ι → Option σ} {equal : σ → σ → Bool}
  {hist L pre post : List (Tick ι)} {ops : List ι} {init s s' : σ} {stack : List (Frame ι σ)}
  {f : Frame ι σ} {D : Finset ι} {i r : ι} {x : Search ι σ} {c : Finset ι × σ}

theorem Scanned.mono (hPQ : ∀ D s, P D s → Q D s) (h : Scanned P step D s pre) :
    Scanned Q step D s pre := by
  intro t ht
  obtain ⟨i, rfl, hi⟩ := h t ht
  exact ⟨i, rfl, fun s' hs' => hPQ _ _ (hi s' hs')⟩

theorem Scanned.snoc (h : Scanned P step D s pre)
    (hi : ∀ s', step s i = some s' → P (insert i D) s') :
    Scanned P step D s (pre ++ [.call i]) := by
  intro t ht
  rcases List.mem_append.mp ht with ht | ht
  · exact h t ht
  · exact ⟨i, List.mem_singleton.mp ht, hi⟩

theorem Scanned.not_ret (h : Scanned P step D s pre) : Tick.ret r ∉ pre := by
  intro hr
  obtain ⟨i, hi, _⟩ := h _ hr
  cases hi

namespace Explored

theorem mono (hPQ : ∀ D s, P D s → Q D s) (h : Explored P step hist init stack L s) :
    Explored Q step hist init stack L s := by
  induction h with
  | root => exact .root
  | push _ hscanned hstep ih => exact .push ih (hscanned.mono hPQ) hstep

/-- The events that are left are those of the operations that have not been linearized. -/
theorem left_eq (hhist : hist.Nodup) (h : Explored P step hist init stack L s) :
    left hist (done stack) = L := by
  induction h with
  | root => exact left_empty
  | push _ _ _ ih => rw [done_cons, left_insert hhist ih]

/-- The operation whose call is among the events that are left is new. -/
theorem not_mem_done (hhist : hist.Nodup) (h : Explored P step hist init stack L s)
    (hi : Tick.call i ∈ L) : i ∉ done stack := by
  rw [← h.left_eq hhist] at hi
  exact (mem_left.mp hi).2

theorem card_done (hhist : hist.Nodup) (h : Explored P step hist init stack L s) :
    (done stack).card = stack.length := by
  induction h with
  | root => rfl
  | push h _ _ ih =>
    rw [done_cons, Finset.card_insert_of_notMem (h.not_mem_done hhist (by simp)), ih,
      List.length_cons]

/-- The stack is a linearization of the operations on it. -/
theorem partialLinearization (hp : Paired ops hist) (h : Explored P step hist init stack L s) :
    PartialLinearization step hist ops init (stack.map Frame.op).reverse s := by
  induction h with
  | root => exact ⟨.nil, by simp, .nil, by simp, rfl⟩
  | @push stack i s s' pre post h hscanned hstep ih =>
    have hcall : Tick.call i ∈ pre ++ .call i :: post := by simp
    have hleft := h.left_eq hp.nodup
    have hnew : i ∉ (stack.map Frame.op).reverse := by
      simpa [done] using h.not_mem_done hp.nodup hcall
    have hops : i ∈ ops :=
      (hp.mem_iff (.call i)).mp (mem_left.mp (hleft ▸ hcall)).1
    rw [List.map_cons, List.reverse_cons]
    refine ⟨?_, ?_, ?_, ?_, ?_⟩
    · exact List.nodup_append'.mpr ⟨ih.nodup, List.nodup_singleton i, by simpa using hnew⟩
    · exact List.append_subset.mpr ⟨ih.subset, by simpa using hops⟩
    · refine List.pairwise_append.mpr ⟨ih.realTime, List.pairwise_singleton _ _, ?_⟩
      intro j hj k hk
      obtain rfl := List.mem_singleton.mp hk
      exact ih.closed j hj _ hops hnew
    · intro j hj k hk hkj
      rw [List.mem_append, not_or] at hkj
      rcases List.mem_append.mp hj with hj | hj
      · exact ih.closed j hj k hk hkj.1
      · obtain rfl := List.mem_singleton.mp hj
        intro hbefore
        have hkD : k ∉ done stack := by simpa [done] using hkj.1
        exact hscanned.not_ret (ret_mem_pre_of_before hp.nodup hleft hkD hbefore)
    · rw [exec_append, ih.legal]
      simp [exec, hstep]

end Explored

/-- What has been reached on the way has no more operations than the stack. -/
theorem OnPath.card_le (h : OnPath stack s c) : c.1.card ≤ stack.length := by
  induction stack generalizing s with
  | nil => simp [show c = (∅, s) from h]
  | cons f stack ih =>
    rcases h with rfl | h
    · exact (List.toFinset_card_le _).trans (by simp)
    · exact (ih h).trans (by simp)

namespace Invariant

theorem mono (hPQ : ∀ D s, P D s → Q D s) (h : Invariant P step hist init x) :
    Invariant Q step hist init x where
  explored := h.explored.mono hPQ
  scanned := h.scanned.mono hPQ
  cached c hc := (h.cached c hc).imp_left (hPQ c.1 c.2)

theorem start : Invariant P step hist init (Search.start hist init) where
  explored := .root
  scanned _ ht := absurd ht List.not_mem_nil
  cached _ hc := absurd hc List.not_mem_nil

theorem skip (h : Invariant P step hist init x) (hpost : x.post = .call i :: post)
    (hi : ∀ s', step x.state i = some s' → P (insert i (done x.stack)) s') :
    Invariant P step hist init (x.skip i post) where
  explored := by simpa [Search.skip, ← hpost] using h.explored
  scanned := h.scanned.snoc hi
  cached := h.cached

theorem push (h : Invariant P step hist init x) (hpost : x.post = .call i :: post)
    (hstep : step x.state i = some s') : Invariant P step hist init (x.push i s' post) where
  explored := .push (hpost ▸ h.explored) h.scanned hstep
  scanned _ ht := absurd ht List.not_mem_nil
  cached c hc := by
    rcases List.mem_append.mp hc with hc | hc
    · exact (h.cached c hc).imp_right .inr
    · exact .inr (.inl ((List.mem_singleton.mp hc).trans (by simp [Search.push])))

/-- An operation is taken back when `P` holds of what it led to. -/
theorem pop (h : Invariant P step hist init x) (hstack : x.stack = f :: stack)
    (hP : P (done x.stack) x.state) : Invariant P step hist init (x.pop f stack) := by
  obtain ⟨hexplored, -, hcached⟩ := h
  rw [hstack] at hexplored hcached hP
  generalize x.pre ++ x.post = L at hexplored
  generalize hs : x.state = s at hexplored hcached hP
  cases hexplored with
  | @push _ i s _ pre post hbelow hscanned hstep =>
    refine ⟨by simpa [Search.pop] using hbelow, hscanned.snoc fun s' hs' => ?_, fun c hc => ?_⟩
    · obtain rfl := Option.some.inj (hstep.symm.trans hs')
      simpa using hP
    · rcases hcached c hc with hc | rfl | hc
      · exact .inl hc
      · exact .inl hP
      · exact .inr hc

/-- What the search has reached before, and does not enter again, has been given up. -/
theorem of_reached (hhist : hist.Nodup) (h : Invariant P step hist init x)
    (hequal : ∀ D s t, equal s t = true → P D t → P D s) (hpost : x.post = .call i :: post)
    (hreached : x.reached equal (insert i (done x.stack)) s = true) :
    P (insert i (done x.stack)) s := by
  obtain ⟨c, hc, hmatch⟩ := List.any_eq_true.mp hreached
  rw [Bool.and_eq_true, decide_eq_true_eq] at hmatch
  obtain ⟨hD, hs⟩ := hmatch
  rw [hD]
  refine hequal _ _ _ hs ((h.cached c hc).resolve_right fun hpath => ?_)
  -- the frames on the way have fewer operations
  have hnew : i ∉ done x.stack := h.explored.not_mem_done hhist (by simp [hpost])
  have hcard := hpath.card_le
  rw [← hD, Finset.card_insert_of_notMem hnew, h.explored.card_done hhist] at hcard
  omega

/-- At a return, everything that could have been linearized instead has been given up. -/
theorem of_enabled (hp : Paired ops hist) (h : Invariant P step hist init x)
    (hpost : x.post = .ret r :: post) (hi : Enabled hist ops (done x.stack) i)
    (hstep : step x.state i = some s') : P (insert i (done x.stack)) s' := by
  have hleft := h.explored.left_eq hp.nodup
  rw [hpost] at hleft
  obtain ⟨j, hj, htried⟩ := h.scanned _ (hi.call_mem_pre hp hleft)
  obtain rfl := Tick.call.inj hj
  exact htried s' hstep

/-- At the end of the events no operation is left. -/
theorem done_of_nil (hp : Paired ops hist) (h : Invariant P step hist init x) (hpost : x.post = [])
    (hi : i ∈ ops) : i ∈ done x.stack := by
  have hleft := h.explored.left_eq hp.nodup
  rw [hpost, List.append_nil] at hleft
  by_contra hD
  have hret : Tick.ret i ∈ x.pre := hleft ▸ mem_left.mpr ⟨(hp.mem_iff (.ret i)).mpr hi, hD⟩
  exact h.scanned.not_ret hret

end Invariant

/-! ### The verdict -/

/-- States that are equal allow the same operations, and lead to equal states. -/
def Simulates (step : σ → ι → Option σ) (equal : σ → σ → Bool) : Prop :=
  ∀ s t, equal s t = true → ∀ i s', step s i = some s' →
    ∃ t', step t i = some t' ∧ equal s' t' = true

omit [DecidableEq ι] in
theorem Simulates.isSome_exec (h : Simulates step equal) {t : σ} (hst : equal s t = true)
    {order : List ι} (hs : (exec step s order).isSome = true) :
    (exec step t order).isSome = true := by
  induction order generalizing s t with
  | nil => rfl
  | cons i order ih =>
    obtain ⟨s', hs', hrest⟩ := isSome_exec_cons.mp hs
    obtain ⟨t', ht', hst'⟩ := h s t hst i s' hs'
    exact isSome_exec_cons.mpr ⟨t', ht', ih hst' hrest⟩

theorem Simulates.completable (h : Simulates step equal) {t : σ} (hst : equal s t = true)
    (hs : Completable step hist ops D s) : Completable step hist ops D t := by
  obtain ⟨order, horder⟩ := hs
  exact ⟨order, horder.perm, horder.realTime, h.isSome_exec hst horder.legal⟩

/-- The invariant for the verdict: there is no way to go on from what has been given up. -/
abbrev Refuted (step : σ → ι → Option σ) (hist : List (Tick ι)) (ops : List ι) (init : σ)
    (x : Search ι σ) : Prop :=
  Invariant (fun D s => ¬ Completable step hist ops D s) step hist init x

namespace Refuted

theorem not_completable (hp : Paired ops hist) (h : Refuted step hist ops init x)
    (hpost : x.post = .ret r :: post) : ¬ Completable step hist ops (done x.stack) x.state := by
  have hr : Tick.ret r ∈ left hist (done x.stack) := by
    rw [h.explored.left_eq hp.nodup, hpost]
    simp
  obtain ⟨hmem, hD⟩ := mem_left.mp hr
  rw [completable_iff hp.nodup_ops ⟨r, (hp.mem_iff _).mp hmem, hD⟩]
  rintro ⟨i, hi, s', hs', hcompletable⟩
  exact h.of_enabled hp hpost hi hs' hcompletable

theorem next (hp : Paired ops hist) (hequal : Simulates step equal)
    (h : Refuted step hist ops init x) {y : Search ι σ} (hy : x.next step equal = .inl y) :
    Refuted step hist ops init y := by
  have hmove := Search.move_next step equal x
  rw [hy] at hmove
  cases hmove with
  | illegal hpost hstep =>
    refine h.skip hpost fun s' hs' => ?_
    rw [hstep] at hs'
    cases hs'
  | known hpost hstep hreached =>
    refine h.skip hpost fun s' hs' => ?_
    obtain rfl := Option.some.inj (hstep.symm.trans hs')
    exact h.of_reached hp.nodup (fun D s t hst ht hs => ht (hequal.completable hst hs)) hpost
      hreached
  | linearize hpost hstep => exact h.push hpost hstep
  | back hpost hstack => exact h.pop hstack (h.not_completable hp hpost)

theorem verdict (hp : Paired ops hist) (h : Refuted step hist ops init x) {b : Bool}
    (hb : x.next step equal = .inr b) :
    b = true ↔ Linearizable step (Before hist) init ops := by
  have hmove := Search.move_next step equal x
  rw [hb] at hmove
  cases hmove with
  | accept hpost =>
    have hfirst := h.explored.partialLinearization hp
    refine iff_of_true rfl ⟨(x.stack.map Frame.op).reverse, ?_, hfirst.realTime, ?_⟩
    · refine (List.perm_ext_iff_of_nodup hfirst.nodup hp.nodup_ops).mpr fun i => ?_
      refine ⟨fun hi => hfirst.subset hi, fun hi => ?_⟩
      simpa [done] using h.done_of_nil hp hpost hi
    · simp [hfirst.legal]
  | reject hpost hstack =>
    refine iff_of_false Bool.false_ne_true fun hlin => ?_
    have hdead := h.not_completable hp hpost
    have hlegal := (h.explored.partialLinearization hp).legal
    rw [hstack] at hdead hlegal
    obtain rfl : init = x.state := by simpa [exec] using hlegal
    exact hdead (by simpa [Completable] using hlin)

end Refuted

/-! ### Termination -/

/-- The events behind the calls on the stack, those of the frames at the bottom counting most. -/
def stackWeight (B N : ℕ) : List (Frame ι σ) → ℕ
  | [] => 0
  | f :: stack => f.post.length * B ^ (N - stack.length) + stackWeight B N stack

def Search.weight (B N : ℕ) (x : Search ι σ) : ℕ :=
  x.post.length * B ^ (N - x.stack.length) + stackWeight B N x.stack

omit [DecidableEq ι] in
theorem weight_start (B N : ℕ) : (Search.start hist init).weight B N = hist.length * B ^ N := by
  simp [Search.weight, Search.start, stackWeight]

namespace Invariant

theorem length_le (hhist : hist.Nodup) (h : Invariant P step hist init x) :
    x.post.length ≤ hist.length := by
  have hlen : (x.pre ++ x.post).length ≤ hist.length := by
    rw [← h.explored.left_eq hhist]
    exact List.length_filter_le _ _
  rw [List.length_append] at hlen
  omega

theorem stack_length_le (hp : Paired ops hist) (h : Invariant P step hist init x) :
    x.stack.length ≤ ops.length := by
  have hfirst := h.explored.partialLinearization hp
  have hlen := (hfirst.nodup.subperm hfirst.subset).length_le
  simpa using hlen

/-- Every iteration that goes on decreases the weight. -/
theorem weight_lt (hp : Paired ops hist) (h : Invariant P step hist init x) {y : Search ι σ}
    (hy : x.next step equal = .inl y) :
    y.weight (hist.length + 1) ops.length < x.weight (hist.length + 1) ops.length := by
  have hpos (k : ℕ) : 0 < (hist.length + 1) ^ k := Nat.pow_pos (Nat.succ_pos _)
  have hmove := Search.move_next step equal x
  rw [hy] at hmove
  have hskip {i : ι} {post : List (Tick ι)} (hpost : x.post = .call i :: post) :
      (x.skip i post).weight (hist.length + 1) ops.length <
        x.weight (hist.length + 1) ops.length := by
    simp only [Search.weight, Search.skip, hpost, List.length_cons, Nat.succ_mul]
    have := hpos (ops.length - x.stack.length)
    omega
  cases hmove with
  | illegal hpost => exact hskip hpost
  | known hpost => exact hskip hpost
  | @linearize i post s hpost hstep =>
    have hpush := h.push hpost hstep
    -- the events that are left weigh less than one event of the level below
    have hlen : (x.push i s post).post.length ≤ hist.length := hpush.length_le hp.nodup
    have hdepth : x.stack.length + 1 ≤ ops.length := hpush.stack_length_le hp
    have hexp : ops.length - x.stack.length = ops.length - (x.stack.length + 1) + 1 := by omega
    have hlevel :=
      Nat.mul_le_mul_right ((hist.length + 1) ^ (ops.length - (x.stack.length + 1))) hlen
    have := hpos (ops.length - (x.stack.length + 1))
    simp only [Search.weight, Search.push, stackWeight, hpost, List.length_cons, hexp,
      Nat.pow_succ, Nat.succ_mul, Nat.mul_succ, Nat.mul_comm hist.length] at hlevel ⊢
    omega
  | @back r post f stack hpost hstack =>
    simp only [Search.weight, Search.pop, hstack, stackWeight, hpost, List.length_cons,
      Nat.succ_mul]
    have := hpos (ops.length - (stack.length + 1))
    omega

end Invariant

end Keeps

end MitDistributed.Linearizability
