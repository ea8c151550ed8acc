import Mathlib.Data.List.Induction
import MitDistributed.Transition.Run

namespace MitDistributed.Transition

/-!
# What holds since an action

A property of a state may be due to an action that was taken earlier on the way to it.
`Since step P Q s acts t` says so of one execution: among `acts`, which lead from `s` to `t`, is
an action that meets `P`, and `Q` has held in every state from then on.  It speaks of the actions
that were taken, not of the state alone, which other actions may reach too.

* `Since.of_exec` — the induction rule: if `R` comes up only with `P`, and otherwise held before,
  with `Q` in both cases, then wherever `R` holds, `Q` holds since `P`.
-/

variable {σ α : Type*} {step : σ → α → Option σ} {s t : σ}

theorem exec_concat {acts : List α} {a : α} (h : exec step s (acts ++ [a]) = some t) :
    ∃ u, exec step s acts = some u ∧ step u a = some t := by
  rw [exec_append] at h
  obtain ⟨u, hu, ha⟩ := Option.bind_eq_some_iff.mp h
  rw [exec] at ha
  obtain ⟨v, hv, hnil⟩ := Option.bind_eq_some_iff.mp ha
  rw [exec, Option.some.injEq] at hnil
  exact ⟨u, hu, hnil ▸ hv⟩

/-- One of the actions that lead from `s` met `P`, with the states before and after it, and `Q`
    has held since. -/
inductive Since (step : σ → α → Option σ) (P : σ → α → σ → Prop) (Q : σ → Prop) (s : σ) :
    List α → σ → Prop
  | now {acts : List α} {u v : σ} {a : α} (hrun : exec step s acts = some u)
      (hstep : step u a = some v) (hP : P u a v) (hQ : Q v) : Since step P Q s (acts ++ [a]) v
  | later {acts : List α} {u v : σ} {a : α} (h : Since step P Q s acts u)
      (hstep : step u a = some v) (hQ : Q v) : Since step P Q s (acts ++ [a]) v

/-- **Since rule.** -/
theorem Since.of_exec {P : σ → α → σ → Prop} {Q R : σ → Prop} (h0 : ¬ R s)
    (hstep : ∀ u a v, Run step (fun _ _ => True) s u → step u a = some v → R v →
      Q v ∧ (P u a v ∨ R u))
    {acts : List α} (hrun : exec step s acts = some t) (ht : R t) : Since step P Q s acts t := by
  induction acts using List.reverseRecOn generalizing t with
  | nil =>
    rw [exec, Option.some.injEq] at hrun
    exact absurd (hrun ▸ ht) h0
  | append_singleton acts a ih =>
    obtain ⟨u, hu, ha⟩ := exec_concat hrun
    obtain ⟨hQ, hP | hR⟩ := hstep u a t (.of_exec hu) ha ht
    · exact .now hu ha hP hQ
    · exact .later (ih hu hR) ha hQ

end MitDistributed.Transition
