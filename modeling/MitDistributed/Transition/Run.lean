import Mathlib.Data.List.Basic

namespace MitDistributed.Transition

/-!
# Runs of a partial step function

A system is a partial step function `step : σ → α → Option σ`: action `a` is enabled in
state `s` when `step s a` is `some`.  A run is a finite sequence of enabled actions, and
`Run step ok` keeps only the runs whose every action satisfies a guard `ok` in the state
it is taken in.

* `Run.invariant` — the induction rule: what holds initially and is kept by every guarded
  action holds in every state a guarded run reaches.
* `Run.monotone` — the same for a reflexive and transitive relation between the two ends.
* `exec` / `execOk` — run a list of actions, the second checking the guard on the way;
  `Run.of_execOk` turns a successful execution into a run, and `exists_run_of_execOk` into
  a run to a state with a given decidable property.
-/

variable {σ α : Type*} {step : σ → α → Option σ} {ok ok' : σ → α → Prop} {s t u : σ}

/-- `Run step ok s t`: some sequence of actions leads from `s` to `t`, each one enabled
    and satisfying `ok` in the state it is taken in. -/
inductive Run (step : σ → α → Option σ) (ok : σ → α → Prop) : σ → σ → Prop
  | refl (s : σ) : Run step ok s s
  | tail {s t u : σ} (a : α) : Run step ok s t → ok t a → step t a = some u → Run step ok s u

namespace Run

theorem trans (h₁ : Run step ok s t) (h₂ : Run step ok t u) : Run step ok s u := by
  induction h₂ with
  | refl => exact h₁
  | tail a _ hok hstep ih => exact .tail a ih hok hstep

/-- Weakening the guard keeps every run. -/
theorem mono (h : ∀ s a, ok s a → ok' s a) (hr : Run step ok s t) : Run step ok' s t := by
  induction hr with
  | refl => exact .refl _
  | tail a _ hok hstep ih => exact .tail a ih (h _ a hok) hstep

/-- **Invariant rule.** A predicate kept by every guarded action is kept by every guarded
    run. -/
theorem invariant {I : σ → Prop} (hstep : ∀ s a s', I s → ok s a → step s a = some s' → I s')
    (hr : Run step ok s t) (h0 : I s) : I t := by
  induction hr with
  | refl => exact h0
  | tail a _ hok ha ih => exact hstep _ a _ ih hok ha

/-- **Monotonicity rule.** A reflexive and transitive relation that every guarded action
    satisfies between its two states, in states where `I` holds, relates the two ends of
    every guarded run. -/
theorem monotone {I : σ → Prop} {R : σ → σ → Prop} (hrefl : ∀ s, R s s)
    (htrans : ∀ s t u, R s t → R t u → R s u)
    (hI : ∀ s a s', I s → ok s a → step s a = some s' → I s')
    (hR : ∀ s a s', I s → ok s a → step s a = some s' → R s s') (hr : Run step ok s t)
    (h0 : I s) : R s t := by
  have key : I t ∧ R s t := by
    induction hr with
    | refl => exact ⟨h0, hrefl _⟩
    | tail a _ hok ha ih =>
      obtain ⟨hIt, hRt⟩ := ih
      exact ⟨hI _ a _ hIt hok ha, htrans _ _ _ hRt (hR _ a _ hIt hok ha)⟩
  exact key.2

end Run

/-- Run a list of actions; `none` as soon as one is not enabled. -/
def exec (step : σ → α → Option σ) (s : σ) : List α → Option σ
  | [] => some s
  | a :: as => (step s a).bind fun s' => exec step s' as

theorem exec_append (as bs : List α) :
    exec step s (as ++ bs) = (exec step s as).bind fun s' => exec step s' bs := by
  induction as generalizing s with
  | nil => rfl
  | cons a as ih =>
    rw [List.cons_append, exec, exec]
    cases step s a with
    | none => rfl
    | some s' => exact ih

/-- Running actions that are given by others. -/
theorem exec_map {β : Type*} (f : β → α) (bs : List β) :
    exec step s (bs.map f) = exec (fun s b => step s (f b)) s bs := by
  induction bs generalizing s with
  | nil => rfl
  | cons b bs ih =>
    rw [List.map_cons, exec, exec]
    cases step s (f b) with
    | none => rfl
    | some s' => exact ih

/-- Run a list of actions, checking the guard before each one. -/
def execOk (step : σ → α → Option σ) (ok : σ → α → Prop) [∀ s a, Decidable (ok s a)] (s : σ) :
    List α → Option σ
  | [] => some s
  | a :: as => if ok s a then (step s a).bind fun s' => execOk step ok s' as else none

/-- A successful checked execution is a guarded run. -/
theorem Run.of_execOk [∀ s a, Decidable (ok s a)] {as : List α}
    (h : execOk step ok s as = some t) : Run step ok s t := by
  induction as generalizing s with
  | nil => rw [execOk, Option.some.injEq] at h; subst h; exact .refl _
  | cons a as ih =>
    rw [execOk] at h
    split at h
    · rename_i hok
      obtain ⟨s', hs', hrest⟩ := Option.bind_eq_some_iff.mp h
      exact (Run.tail a (.refl s) hok hs').trans (ih hrest)
    · exact absurd h (by simp)

/-- The guard does not change what an execution does. -/
theorem exec_of_execOk [∀ s a, Decidable (ok s a)] {as : List α}
    (h : execOk step ok s as = some t) : exec step s as = some t := by
  induction as generalizing s with
  | nil => exact h
  | cons a as ih =>
    rw [execOk] at h
    split at h
    · obtain ⟨s', hs', hrest⟩ := Option.bind_eq_some_iff.mp h
      rw [exec, hs', Option.bind_some]
      exact ih hrest
    · exact absurd h (by simp)

/-- A guarded run to where an execution ends. -/
theorem Run.exec_getD [∀ s a, Decidable (ok s a)] {as : List α}
    (h : (execOk step ok s as).isSome = true) : Run step ok s ((exec step s as).getD s) := by
  obtain ⟨t, ht⟩ := Option.isSome_iff_exists.mp h
  rw [exec_of_execOk ht]
  exact .of_execOk ht

/-- A successful execution is a run, with no guard on its actions. -/
theorem Run.of_exec {as : List α} (h : exec step s as = some t) :
    Run step (fun _ _ => True) s t := by
  induction as generalizing s with
  | nil => rw [exec, Option.some.injEq] at h; subst h; exact .refl _
  | cons a as ih =>
    rw [exec] at h
    obtain ⟨s', hs', hrest⟩ := Option.bind_eq_some_iff.mp h
    exact (Run.tail a (.refl s) trivial hs').trans (ih hrest)

/-- An execution that ends in a state with property `P`. -/
theorem exists_run_of_exec (step : σ → α → Option σ) (s : σ) (as : List α) (P : σ → Prop)
    [DecidablePred P] (h : ((exec step s as).any fun t => P t) = true) :
    ∃ t, Run step (fun _ _ => True) s t ∧ P t := by
  obtain ⟨t, ht, hP⟩ := (Option.any_eq_true _ _).mp h
  exact ⟨t, Run.of_exec ht, of_decide_eq_true hP⟩

/-- A checked execution that ends in a state with property `P`. -/
theorem exists_run_of_execOk (step : σ → α → Option σ) (ok : σ → α → Prop)
    [∀ s a, Decidable (ok s a)] (s : σ) (as : List α) (P : σ → Prop) [DecidablePred P]
    (h : ((execOk step ok s as).any fun t => P t) = true) :
    ∃ t, Run step ok s t ∧ P t := by
  obtain ⟨t, ht, hP⟩ := (Option.any_eq_true _ _).mp h
  exact ⟨t, Run.of_execOk ht, of_decide_eq_true hP⟩

end MitDistributed.Transition
