import MitDistributed.Raft.Inversion
import Mathlib.Data.List.Basic

namespace MitDistributed.Raft

open Transition

/-!
# Raft — what a step does to the goroutines and to the calls

The lemmas that the invariants of the later modules share: which goroutines a peer runs
after an update, which calls there are after a step, and one inversion lemma for each kind
of action.
-/

variable {n : ℕ} {C D : Type}

namespace Node

/-! ### Goroutines after an update -/

@[simp] theorem mem_go (nd : Node n C D) (th th' : Thread n C D) :
    th' ∈ (nd.go th).threads ↔ th' ∈ nd.threads ∨ th' = th := by
  simp [go]

variable {nd : Node n C D} {th : Thread n C D} {P : Thread n C D → Prop}

theorem mem_setThread {k : ℕ} {th' : Thread n C D} (h : th' ∈ (nd.setThread k th).threads) :
    th' ∈ nd.threads ∨ th' = th :=
  List.mem_or_eq_of_mem_set h

theorem mem_endThread {k : ℕ} (h : th ∈ (nd.endThread k).threads) : th ∈ nd.threads :=
  List.mem_of_mem_eraseIdx h

/-- What holds of all goroutines and of a new one holds of all goroutines afterwards. -/
theorem forall_mem_setThread (h : ∀ th ∈ nd.threads, P th) (hth : P th) (k : ℕ) :
    ∀ th' ∈ (nd.setThread k th).threads, P th' := by
  intro th' hmem
  rcases mem_setThread hmem with hmem | rfl
  · exact h th' hmem
  · exact hth

theorem forall_mem_go (h : ∀ th ∈ nd.threads, P th) (hth : P th) :
    ∀ th' ∈ (nd.go th).threads, P th' := by
  intro th' hmem
  rcases (mem_go nd th th').mp hmem with hmem | rfl
  · exact h th' hmem
  · exact hth

/-! ### Steps that make no call -/

section

variable {me : Fin n} {nd : Node n C D} {eff : Effect n C D}

theorem mainStep_send (h : nd.mainStep me = some eff) : eff.send = none := by
  cases mainStep_cases h <;> rfl

theorem applyStep_send (h : nd.applyStep me = some eff) : eff.send = none := by
  cases applyStep_cases h <;> rfl

theorem handle_send {call : ℕ} {request : Request n C D}
    (h : nd.handle call request = some eff) : eff.send = none := by
  cases handle_cases h <;> rfl

theorem resume_send (h : nd.resume me = some eff) : eff.send = none := by
  cases resume_cases h <;> rfl

theorem tryStart_send {command : Option C} (h : nd.tryStart me command = some eff) :
    eff.send = none := by
  cases tryStart_cases h <;> rfl

theorem trySnapshot_send {index : ℕ} {snapshot : Option D}
    (h : nd.trySnapshot me index snapshot = some eff) : eff.send = none := by
  cases trySnapshot_cases h <;> rfl

end

end Node

namespace World

/-! ### Calls after a step -/

@[simp] theorem callAfter_dst (a : Action n C D) (eff : Effect n C D) (i : ℕ) (c : Call n C D) :
    (callAfter a eff i c).dst = c.dst := rfl

@[simp] theorem callAfter_request (a : Action n C D) (eff : Effect n C D) (i : ℕ)
    (c : Call n C D) : (callAfter a eff i c).request = c.request := rfl

variable {a : Action n C D} {i : ℕ} {c : Call n C D} {calls : List (Call n C D)}

/-- A reply is the old one, or the answer of this step. -/
theorem callAfter_reply {eff : Effect n C D} {r : Reply} (h : (callAfter a eff i c).reply = some r)
    :
    c.reply = some r ∨ eff.answer = some (i, r) := by
  simp only [callAfter] at h
  split at h
  · rename_i call reply heq
    split at h
    · rename_i hi
      rw [heq, hi, ← h]; exact .inr (by rw [Option.some.inj h])
    · exact .inl h
  · exact .inl h

/-- A call after a step is an old call or the new one. -/
theorem callsAfter_cases {eff : Effect n C D} {c' : Call n C D}
    (h : (callsAfter calls a eff)[i]? = some c') :
    (∃ c, calls[i]? = some c ∧ c' = callAfter a eff i c) ∨
      (i = calls.length ∧ eff.send = some c') := by
  rw [callsAfter, List.getElem?_append] at h
  split at h
  · rw [List.getElem?_mapIdx, Option.map_eq_some_iff] at h
    obtain ⟨c, hc, rfl⟩ := h
    exact .inl ⟨c, hc, rfl⟩
  · rename_i hi
    rw [List.length_mapIdx] at hi h
    cases hs : eff.send with
    | none => simp [hs] at h
    | some c =>
      rw [hs, Option.toList_some, List.getElem?_singleton] at h
      split at h
      · exact .inr ⟨by omega, h⟩
      · exact absurd h (by simp)

/-- A call stays a call. -/
theorem callsAfter_of_getElem? (a : Action n C D) (eff : Effect n C D) (h : calls[i]? = some c) :
    (callsAfter calls a eff)[i]? = some (callAfter a eff i c) := by
  have hi : i < calls.length := (List.getElem?_eq_some_iff.mp h).1
  rw [callsAfter, List.getElem?_append_left (by simpa using hi), List.getElem?_mapIdx, h]
  rfl

/-- The new call is the last one. -/
theorem callsAfter_new {eff : Effect n C D} (h : eff.send = some c) :
    (callsAfter calls a eff)[calls.length]? = some c := by
  rw [callsAfter, List.getElem?_append_right (by simp), h]
  simp

/-! ### Inversion -/

/-- A step is the effect of one peer. -/
theorem step_eq_some {w w' : World n C D} (h : step w a = some w') :
    ∃ p eff, w.effect a = some (p, eff) ∧ w' = w.after a p eff := by
  simp only [step, Option.map_eq_some_iff, Prod.exists] at h
  obtain ⟨p, eff, heff, rfl⟩ := h
  exact ⟨p, eff, heff, rfl⟩

@[simp] theorem after_nodes_self (w : World n C D) (a : Action n C D) (p : Fin n)
    (eff : Effect n C D) : (w.after a p eff).nodes p = eff.node := by
  simp [after]

theorem after_nodes_of_ne (w : World n C D) (a : Action n C D) {p q : Fin n} (eff : Effect n C D)
    (h : q ≠ p) : (w.after a p eff).nodes q = w.nodes q := by
  simp [after, h]

/-- What holds of the peer that moves and of the others holds of all peers. -/
theorem forall_nodes_after {w : World n C D} {p : Fin n} {eff : Effect n C D}
    {Q : Fin n → Node n C D → Prop} (hself : Q p eff.node) (hother : ∀ q, q ≠ p → Q q (w.nodes q))
    (q : Fin n) : Q q ((w.after a p eff).nodes q) := by
  rcases eq_or_ne q p with rfl | hne
  · rw [after_nodes_self]
    exact hself
  · rw [after_nodes_of_ne _ _ _ hne]
    exact hother q hne

/-- What a step of peer `p` can be: one case for each kind of action. -/
inductive Local (w : World n C D) (p : Fin n) (eff : Effect n C D) : Action n C D → Prop
  | main (h : (w.nodes p).mainStep p = some eff) : Local w p eff (.main p)
  | thread (k : ℕ) (h : (w.nodes p).threadStep p w.calls.length k = some eff) :
      Local w p eff (.thread p k)
  | reply (k call : ℕ) (ok : Bool) (request : Call n C D) (hc : w.calls[call]? = some request)
      (h : (w.nodes p).threadReply p w.calls.length k call request ok = some eff) :
      Local w p eff (.reply p k call ok)
  | apply (h : (w.nodes p).applyStep p = some eff) : Local w p eff (.apply p)
  | deliver (call : ℕ) (request : Call n C D) (hc : w.calls[call]? = some request)
      (hp : request.dst = p) (h : (w.nodes p).handle call request.request = some eff) :
      Local w p eff (.deliver call)
  | resume (h : (w.nodes p).resume p = some eff) : Local w p eff (.resume p)
  | start (command : Option C) (h : (w.nodes p).tryStart p command = some eff) :
      Local w p eff (.start p command)
  | snapshot (index : ℕ) (snapshot : Option D)
      (h : (w.nodes p).trySnapshot p index snapshot = some eff) :
      Local w p eff (.snapshot p index snapshot)
  | restart (h : eff = (w.nodes p).restart p) : Local w p eff (.restart p)

/-- Only a process that has not ended takes a step. -/
theorem effect_of_live {p q : Fin n} {eff : Effect n C D} {exited : Bool}
    {x : Option (Effect n C D)} (h : (if exited then none else x.map (q, ·)) = some (p, eff)) :
    exited = false ∧ x = some eff ∧ q = p := by
  simpa [Option.map_eq_some_iff] using h

/-- **Inversion.** Every effect is one of the cases of `Local`. -/
theorem effect_local {w : World n C D} {p : Fin n} {eff : Effect n C D}
    (h : w.effect a = some (p, eff)) : Local w p eff a := by
  cases a with
  | main q =>
    obtain ⟨-, heff, rfl⟩ := effect_of_live h
    exact .main heff
  | thread q k =>
    obtain ⟨-, heff, rfl⟩ := effect_of_live h
    exact .thread k heff
  | reply q k call ok =>
    simp only [effect, Option.ite_none_left_eq_some, Option.bind_eq_some_iff,
      Option.map_eq_some_iff, Prod.mk.injEq] at h
    obtain ⟨_, request, hc, eff', h, rfl, rfl⟩ := h
    exact .reply k call ok request hc h
  | apply q =>
    obtain ⟨-, heff, rfl⟩ := effect_of_live h
    exact .apply heff
  | deliver call =>
    simp only [effect, Option.ite_none_left_eq_some, Option.bind_eq_some_iff,
      Option.map_eq_some_iff, Prod.mk.injEq] at h
    obtain ⟨request, hc, _, eff', h, rfl, rfl⟩ := h
    exact .deliver call request hc rfl h
  | resume q =>
    obtain ⟨-, heff, rfl⟩ := effect_of_live h
    exact .resume heff
  | start q command =>
    obtain ⟨-, heff, rfl⟩ := effect_of_live h
    exact .start command heff
  | snapshot q index snapshot =>
    obtain ⟨-, heff, rfl⟩ := effect_of_live h
    exact .snapshot index snapshot heff
  | restart q =>
    simp only [effect, Option.some.injEq, Prod.mk.injEq] at h
    obtain ⟨rfl, rfl⟩ := h
    exact .restart rfl

end World

end MitDistributed.Raft
