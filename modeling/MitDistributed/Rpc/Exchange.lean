import Mathlib.Data.List.Basic
import MitDistributed.Transition.Run

namespace MitDistributed.Rpc

open Transition

/-!
# Remote calls that are performed at most once

What a client may rely on when it calls a server over a network that loses requests and replies: a
call that returns a reply has been performed, once, with that reply.  A call that fails may have
been performed or not, and may still be performed later.

* `Exchange.step`, `exchangesStep` — one call, and the calls made so far, as transition systems;
* `Exchange.Follows` — one call after another moment of its life: nothing, or one step;
* `Exchanges.answered` — a reply is that of the performance.
-/

variable {ρ : Type*}

/-- A call: what it was performed with, and what it returned, `some none` for a failure. -/
structure Exchange (ρ : Type*) where
  performed : Option ρ
  returned : Option (Option ρ)
  deriving DecidableEq

inductive ExchangeAct (ρ : Type*)
  | perform (r : ρ)
  | fail
  | answer

namespace Exchange

/-- A call that has just been made. -/
def new : Exchange ρ :=
  { performed := none, returned := none }

def step (x : Exchange ρ) : ExchangeAct ρ → Option (Exchange ρ)
  | .perform r => if x.performed.isNone then some { x with performed := some r } else none
  | .fail => if x.returned.isNone then some { x with returned := some none } else none
  | .answer =>
    match x.performed, x.returned with
    | some r, none => some { x with returned := some (some r) }
    | _, _ => none

/-- The reply of the call is that of its performance. -/
def Answered (x : Exchange ρ) : Prop :=
  ∀ r, x.returned = some (some r) → x.performed = some r

variable {x x' : Exchange ρ} {a : ExchangeAct ρ} {r : ρ}

theorem Answered.step (h : x.Answered) (hstep : x.step a = some x') : x'.Answered := by
  cases a with
  | perform r =>
    rw [Exchange.step] at hstep
    split at hstep
    next hnone =>
      cases hstep
      intro r' hr'
      -- nothing is returned before it is performed
      simp [h r' hr'] at hnone
    next => cases hstep
  | fail =>
    rw [Exchange.step] at hstep
    split at hstep
    next =>
      cases hstep
      intro r' hr'
      cases hr'
    next => cases hstep
  | answer =>
    rw [Exchange.step] at hstep
    split at hstep
    next r hperformed hreturned =>
      cases hstep
      intro r' hr'
      obtain rfl : r = r' := Option.some.inj (Option.some.inj hr')
      exact hperformed
    next => cases hstep

/-- The call has not changed, or by one step. -/
def Follows (x x' : Exchange ρ) : Prop :=
  x' = x ∨ ∃ a, x.step a = some x'

theorem follows_perform (h : x.performed = none) : x.Follows { x with performed := some r } :=
  .inr ⟨.perform r, by simp [step, h]⟩

theorem follows_fail (h : x.returned = none) : x.Follows { x with returned := some none } :=
  .inr ⟨.fail, by simp [step, h]⟩

theorem follows_answer (hperformed : x.performed = some r) (hreturned : x.returned = none) :
    x.Follows { x with returned := some (some r) } :=
  .inr ⟨.answer, by simp [step, hperformed, hreturned]⟩

end Exchange

/-! ### All calls -/

/-- A step of the calls made so far: a new one, or a step of the `i`-th. -/
def exchangesStep (xs : List (Exchange ρ)) : Option (ℕ × ExchangeAct ρ) → Option (List (Exchange ρ))
  | none => some (xs ++ [.new])
  | some (i, a) => (xs[i]?.bind fun x => x.step a).map (xs.set i)

variable {xs xs' : List (Exchange ρ)} {i : ℕ} {x x' : Exchange ρ}

/-- The calls can be as in `xs'` after they have been as in `xs`. -/
def Exchanges (xs xs' : List (Exchange ρ)) : Prop :=
  Run exchangesStep (fun _ _ => True) xs xs'

theorem Exchanges.refl (xs : List (Exchange ρ)) : Exchanges xs xs :=
  Run.refl xs

theorem Exchanges.new (h : Exchanges xs xs') : Exchanges xs (xs' ++ [.new]) :=
  Run.tail none h trivial rfl

/-- A step of one call is a step of all calls. -/
theorem Exchanges.set (h : Exchanges xs xs') (hx : xs'[i]? = some x) (hstep : x.Follows x') :
    Exchanges xs (xs'.set i x') := by
  rcases hstep with rfl | ⟨a, ha⟩
  · obtain ⟨hi, rfl⟩ := List.getElem?_eq_some_iff.mp hx
    rwa [List.set_getElem_self]
  · exact Run.tail (some (i, a)) h trivial (by simp [exchangesStep, hx, ha])

/-- **Replies.** In calls that were made from the start, a reply is that of the performance. -/
theorem Exchanges.answered (h : Exchanges [] xs) : ∀ x ∈ xs, x.Answered := by
  refine Run.invariant (I := fun xs => ∀ x ∈ xs, x.Answered) ?_ h (by simp)
  intro xs a xs' hxs _ hstep
  cases a with
  | none =>
    cases hstep
    intro x hx
    rcases List.mem_append.mp hx with hold | hnew
    · exact hxs x hold
    · obtain rfl := List.mem_singleton.mp hnew
      intro r hr
      cases hr
  | some ia =>
    obtain ⟨y, hy, rfl⟩ := Option.map_eq_some_iff.mp hstep
    obtain ⟨x, hx, hxy⟩ := Option.bind_eq_some_iff.mp hy
    intro z hz
    rcases List.mem_or_eq_of_mem_set hz with hold | rfl
    · exact hxs z hold
    · exact (hxs x (List.mem_of_getElem? hx)).step hxy

end MitDistributed.Rpc
