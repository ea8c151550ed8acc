import Mathlib.Data.List.Induction
import MitDistributed.Transition.Run

namespace MitDistributed.Rsm

open Transition

/-!
# Replicated state machines — replaying a log

A machine applies the entries of a log one after the other and gives a response to each; `apply`
is `none` where it cannot go on.  The states it passes through are those of the prefixes of the
log, and a fact about a prefix is kept when the log grows at its end.

* `Machine.Visits`, `Machine.Performs` — the log leads through a state, or through a step;
* `Machine.replay_induction`, `Machine.visits_induction` — what every step along the log keeps
  holds at its end, and on the way;
* `Machine.replay_monotone` — a reflexive and transitive relation that every step satisfies
  relates the states at a prefix and at the end, and orders the states on the way.
-/

/-- A deterministic machine with states `σ`, entries `α` and responses `ρ`. -/
structure Machine (σ α ρ : Type*) where
  init : σ
  apply : σ → α → Option (σ × ρ)

variable {σ α ρ : Type*} {m : Machine σ α ρ} {log pre : List α} {a b : α} {s s' t t' : σ} {r r' : ρ}

namespace Machine

/-- The state after an entry. -/
def step (m : Machine σ α ρ) (s : σ) (a : α) : Option σ := (m.apply s a).map Prod.fst

/-- The state after a log. -/
def replay (m : Machine σ α ρ) (log : List α) : Option σ := exec m.step m.init log

/-- The response to the entry at a position of the log. -/
def responseAt (m : Machine σ α ρ) (log : List α) (pos : ℕ) : Option ρ :=
  (m.replay (log.take pos)).bind fun s => log[pos]?.bind fun a => (m.apply s a).map Prod.snd

@[simp] theorem replay_nil : m.replay [] = some m.init := rfl

theorem step_of_apply (h : m.apply s a = some (s', r)) : m.step s a = some s' := by
  rw [step, h, Option.map_some]

theorem replay_concat (hs : m.replay log = some s) (h : m.apply s a = some (s', r)) :
    m.replay (log ++ [a]) = some s' := by
  have hexec : exec m.step m.init log = some s := hs
  rw [replay, exec_append, hexec, Option.bind_some, exec, step_of_apply h, Option.bind_some, exec]

/-- The last step of a replay. -/
theorem apply_of_replay_concat (h : m.replay (log ++ [a]) = some t) :
    ∃ s r, m.replay log = some s ∧ m.apply s a = some (t, r) := by
  rw [replay, exec_append] at h
  obtain ⟨s, hs, hrest⟩ := Option.bind_eq_some_iff.mp h
  obtain ⟨t', ht', hnil⟩ := Option.bind_eq_some_iff.mp hrest
  rw [exec, Option.some.injEq] at hnil
  subst hnil
  obtain ⟨⟨t'', r⟩, happly, heq⟩ := Option.map_eq_some_iff.mp ht'
  exact ⟨s, r, hs, by rw [happly, ← heq]⟩

/-- A log that can be replayed can be replayed up to any prefix. -/
theorem replay_of_isPrefix (hpre : pre <+: log) (h : m.replay log = some t) :
    ∃ s, m.replay pre = some s := by
  obtain ⟨rest, rfl⟩ := hpre
  rw [replay, exec_append] at h
  obtain ⟨s, hs, -⟩ := Option.bind_eq_some_iff.mp h
  exact ⟨s, hs⟩

/-! ### Invariants along a log -/

/-- **Induction along a log.** -/
theorem replay_induction {P : List α → σ → Prop} (h0 : P [] m.init)
    (hstep : ∀ pre a s s' r, pre ++ [a] <+: log → m.replay pre = some s → P pre s →
      m.apply s a = some (s', r) → P (pre ++ [a]) s')
    (h : m.replay log = some t) : P log t := by
  induction log using List.reverseRecOn generalizing t with
  | nil => rw [replay_nil, Option.some.injEq] at h; exact h ▸ h0
  | append_singleton log a ih =>
    obtain ⟨s, r, hs, happly⟩ := apply_of_replay_concat h
    have hP : P log s := ih (fun pre b s s' r hpre => hstep pre b s s' r
      (hpre.trans (List.prefix_append log [a]))) hs
    exact hstep log a s t r (List.prefix_refl _) hs hP happly

/-- **Monotonicity rule.** -/
theorem replay_monotone {R : σ → σ → Prop} (hrefl : ∀ s, R s s)
    (htrans : ∀ s t u, R s t → R t u → R s u)
    (hstep : ∀ s a s' r, m.apply s a = some (s', r) → R s s') (hpre : pre <+: log)
    (hs : m.replay pre = some s) (ht : m.replay log = some t) : R s t := by
  obtain ⟨rest, rfl⟩ := hpre
  induction rest using List.reverseRecOn generalizing t with
  | nil =>
    rw [List.append_nil, hs, Option.some.injEq] at ht
    exact ht ▸ hrefl s
  | append_singleton rest a ih =>
    rw [← List.append_assoc] at ht
    obtain ⟨u, r, hu, happly⟩ := apply_of_replay_concat ht
    exact htrans s u t (ih hu) (hstep u a t r happly)

/-! ### Two machines -/

/-- **Simulation rule.** Machines whose steps keep a relation end in related states, or both cannot
    go on. -/
theorem replay_rel {τ β ρ₂ : Type*} {m₂ : Machine τ β ρ₂} {R : σ → τ → Prop} (f : α → β)
    (h0 : R m.init m₂.init)
    (hstep : ∀ s t a, R s t →
      Option.Rel (fun x y => R x.1 y.1) (m.apply s a) (m₂.apply t (f a)))
    (log : List α) : Option.Rel R (m.replay log) (m₂.replay (log.map f)) := by
  unfold replay
  generalize m.init = s at h0
  generalize m₂.init = t at h0
  induction log generalizing s t with
  | nil => exact .some h0
  | cons a log ih =>
    have hrel := hstep s t a h0
    rw [List.map_cons, exec, exec, step, step]
    generalize m.apply s a = x at hrel
    generalize m₂.apply t (f a) = y at hrel
    cases hrel with
    | none => exact .none
    | some h => exact ih _ _ h

/-! ### Passing through states and steps -/

/-- The log leads through the state. -/
def Visits (m : Machine σ α ρ) (log : List α) (s : σ) : Prop :=
  ∃ pre, pre <+: log ∧ m.replay pre = some s

/-- The log leads through the step. -/
def Performs (m : Machine σ α ρ) (log : List α) (s : σ) (a : α) (s' : σ) (r : ρ) : Prop :=
  ∃ pre, pre ++ [a] <+: log ∧ m.replay pre = some s ∧ m.apply s a = some (s', r)

theorem Visits.mono (h : m.Visits pre s) (hpre : pre <+: log) : m.Visits log s := by
  obtain ⟨p, hp, hs⟩ := h
  exact ⟨p, hp.trans hpre, hs⟩

theorem visits_self (h : m.replay log = some s) : m.Visits log s := ⟨log, List.prefix_refl _, h⟩

theorem Performs.mem (h : m.Performs log s a s' r) : a ∈ log := by
  obtain ⟨p, hp, -⟩ := h
  exact hp.subset (by simp)

theorem Performs.apply_eq (h : m.Performs log s a s' r) : m.apply s a = some (s', r) := by
  obtain ⟨p, -, -, happly⟩ := h
  exact happly

theorem Performs.visits (h : m.Performs log s a s' r) : m.Visits log s := by
  obtain ⟨p, hp, hs, -⟩ := h
  exact ⟨p, (List.prefix_append _ _).trans hp, hs⟩

theorem Performs.visits_after (h : m.Performs log s a s' r) : m.Visits log s' := by
  obtain ⟨p, hp, hs, happly⟩ := h
  exact ⟨p ++ [a], hp, replay_concat hs happly⟩

/-- The last step that a log leads through. -/
def last? (m : Machine σ α ρ) (log : List α) : Option (σ × α × σ × ρ) :=
  log.getLast?.bind fun a => (m.replay log.dropLast).bind fun s =>
    (m.apply s a).map fun x => (s, a, x.1, x.2)

theorem performs_of_last? (h : m.last? log = some (s, a, s', r)) : m.Performs log s a s' r := by
  obtain ⟨b, hb, hrest⟩ := Option.bind_eq_some_iff.mp h
  obtain ⟨t, ht, hlast⟩ := Option.bind_eq_some_iff.mp hrest
  obtain ⟨x, hx, heq⟩ := Option.map_eq_some_iff.mp hlast
  cases heq
  refine ⟨log.dropLast, ⟨[], ?_⟩, ht, hx⟩
  rw [List.append_nil]
  exact List.dropLast_append_getLast? _ hb

/-- **Invariant rule.** What holds at first and is kept by every step the log leads through holds
    in every state it leads through. -/
theorem visits_induction {I : σ → Prop} (h0 : I m.init)
    (hstep : ∀ s a s' r, m.Performs log s a s' r → I s → I s') (h : m.Visits log t) : I t := by
  obtain ⟨pre, hpre, ht⟩ := h
  refine replay_induction (P := fun _ s => I s) h0 ?_ ht
  intro p a s s' r hp hs hI happly
  exact hstep s a s' r ⟨p, hp.trans hpre, hs, happly⟩ hI

section Order

variable {R : σ → σ → Prop} (hrefl : ∀ s, R s s) (htrans : ∀ s t u, R s t → R t u → R s u)
  (hstep : ∀ s a s' r, m.apply s a = some (s', r) → R s s')

include hrefl htrans hstep

/-- Of two states that a log leads through, one is before the other. -/
theorem Visits.total (hs : m.Visits log s) (ht : m.Visits log t) : R s t ∨ R t s := by
  obtain ⟨p, hp, hs⟩ := hs
  obtain ⟨q, hq, ht⟩ := ht
  rcases List.prefix_or_prefix_of_prefix hp hq with hpq | hqp
  · exact .inl (replay_monotone hrefl htrans hstep hpq hs ht)
  · exact .inr (replay_monotone hrefl htrans hstep hqp ht hs)

/-- A state that a log leads through is before a step of it or after it. -/
theorem Performs.total (h : m.Performs log s a s' r) (ht : m.Visits log t) :
    R t s ∨ R s' t := by
  obtain ⟨p, hp, hs, happly⟩ := h
  obtain ⟨q, hq, ht⟩ := ht
  rcases Nat.lt_or_ge p.length q.length with hlt | hge
  · have hpq : p ++ [a] <+: q := List.prefix_of_prefix_length_le hp hq
      (by rw [List.length_append]; exact hlt)
    exact .inr (replay_monotone hrefl htrans hstep hpq (replay_concat hs happly) ht)
  · have hqp : q <+: p := List.prefix_of_prefix_length_le hq
      ((List.prefix_append _ _).trans hp) hge
    exact .inl (replay_monotone hrefl htrans hstep hqp ht hs)

end Order

end Machine

end MitDistributed.Rsm
