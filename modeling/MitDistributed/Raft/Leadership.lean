import MitDistributed.Raft.Election

namespace MitDistributed.Raft

open Transition Consensus

/-!
# Raft — leaders and the terms they lead

`mainLoop` reads the role in one critical section and enters `doElection` in another.  A
peer that wins an election in between increments its term as a leader, and then leads a term
in which nobody voted for it but itself (`two_leaders_in_one_term`).

As long as that does not happen (`World.ElectsAsCandidate`), a leader has won an election of
its term (`World.Led`); if besides no peer restarts from erased state (`World.KeepsState`), a
term has at most one leader (`election_safety`).
-/

variable {n : ℕ} {C D : Type}

namespace World

/-- The critical section of `doElection` is not entered by a leader. -/
def ElectsAsCandidate (w : World n C D) : Action n C D → Prop
  | .main p => (w.nodes p).main = .doElection → (w.nodes p).state ≠ .leaderState
  | _ => True

instance (w : World n C D) : (a : Action n C D) → Decidable (w.ElectsAsCandidate a)
  | .main _ => inferInstanceAs (Decidable (_ → _))
  | .thread .. | .reply .. | .apply _ | .deliver _ | .resume _ | .start .. | .snapshot .. |
    .restart _ => isTrue trivial

/-- Both conditions on the actions of a run. -/
def ElectsSafely (w : World n C D) (a : Action n C D) : Prop :=
  w.KeepsState a ∧ w.ElectsAsCandidate a

instance (w : World n C D) (a : Action n C D) : Decidable (w.ElectsSafely a) :=
  inferInstanceAs (Decidable (_ ∧ _))

/-- Every leader has won an election of the term it is in. -/
def Led (w : World n C D) : Prop :=
  ∀ p, (w.nodes p).state = .leaderState →
    .won p (w.nodes p).currentTerm (w.nodes p).currentTerm ∈ w.trace

variable {w w' : World n C D} {p : Fin n} {eff : Effect n C D} {a : Action n C D}

/-- A step that leaves its peer a leader found it a leader of the same term, or shows that
    it has won the election of that term. -/
theorem leader_of_ballot (hb : Ballot w p eff a) (he : w.Tallied) (hg : w.ElectsAsCandidate a)
    (hl : eff.node.state = .leaderState) :
    ((w.nodes p).state = .leaderState ∧ eff.node.currentTerm = (w.nodes p).currentTerm) ∨
      .won p eff.node.currentTerm eff.node.currentTerm ∈ eff.events := by
  cases hb with
  | quiet hq => exact .inl (hq.calm.role hl)
  | elect hm => exact absurd hl (hg hm)
  | won hv =>
    have heq := le_antisymm (he.threads p _ (List.mem_of_getElem? hv.thread)).1 hv.term
    exact .inr (List.mem_singleton.mpr (by rw [heq]; rfl))
  | grant => exact .inl ⟨hl, rfl⟩
  | restart =>
    have hs : ((w.nodes p).restart p).node.state = .followerState := Node.make_state _ _
    rw [hs] at hl
    cases hl

theorem Led.step (hled : w.Led) (he : w.Tallied) (hg : w.ElectsAsCandidate a)
    (h : w.step a = some w') : w'.Led := by
  obtain ⟨p, eff, heff, rfl⟩ := step_eq_some h
  have hb := local_ballot (effect_local heff)
  intro q hq
  rcases eq_or_ne q p with rfl | hne
  · rw [after_nodes_self] at hq ⊢
    rcases leader_of_ballot hb he hg hq with ⟨hl, ht⟩ | hwon
    · rw [ht]; exact List.mem_append_right _ (hled q hl)
    · exact List.mem_append_left _ hwon
  · rw [after_nodes_of_ne _ _ _ hne] at hq ⊢
    exact List.mem_append_right _ (hled q hq)

theorem init_led (room : Fin n → ℕ → ℕ) :
    (init room : World n C D).Led := by
  intro p hp
  exact absurd hp (by simp [init, Node.make_state])

theorem Reachable.led {ok : World n C D → Action n C D → Prop}
    (hok : ∀ w a, ok w a → w.ElectsAsCandidate a) (h : Reachable ok w) : w.Led := by
  induction h using Reachable.induct with
  | refl room => exact init_led room
  | tail a hr hoka hstep ih => exact ih.step (Reachable.tallied hr) (hok _ a hoka) hstep

end World

/-! ### Election safety -/

/-- **Election safety.** In every run that keeps to `ElectsSafely`, two peers that lead the
    same term are one. -/
theorem election_safety {w : World n C D} (h : World.Reachable World.ElectsSafely w) {p q : Fin n}
    (hp : (w.nodes p).state = .leaderState) (hq : (w.nodes q).state = .leaderState)
    (ht : (w.nodes p).currentTerm = (w.nodes q).currentTerm) : p = q := by
  have hvotes := h.votesOnce fun _ _ _ h => h.1
  have hled := h.led fun _ _ h => h.2
  have hwq := hled q hq
  rw [← ht] at hwq
  exact World.winner_unique hvotes h.tallied (hled p hp) hwq

/-- Peer 0 of three stands in an election, gets the vote of peer 1, and becomes leader. -/
def electPeer0 : List (Action 3 ℕ ℕ) :=
  [.main 0, .main 0, .main 0, .main 0, .thread 0 0, .thread 0 0, .deliver 0, .resume 1,
    .reply 0 0 0 true]

/-- A run that keeps to `ElectsSafely` and has a leader, which is then the only one. -/
theorem election_safety_electPeer0 :
    ∃ w : World 3 ℕ ℕ, World.Reachable World.ElectsSafely w ∧
      (w.nodes 0).state = .leaderState ∧
      ∀ q, (w.nodes q).state = .leaderState →
        (w.nodes q).currentTerm = (w.nodes 0).currentTerm → q = 0 := by
  obtain ⟨w, hr, h0⟩ := World.Reachable.exists_of_execOk World.ElectsSafely
    electPeer0 (fun w => (w.nodes 0).state = .leaderState)
    (by decide +kernel)
  exact ⟨w, hr, h0, fun q hq ht => election_safety hr hq h0 ht⟩

/-- Peer 0 starts the election of term 1, reads its role once more and goes on to
    `doElection`, but becomes leader of term 1 before it gets there; so it enters term 2 as
    leader.  Peer 1 then wins term 2 with the vote of peer 2. -/
def electAsLeader : List (Action 3 ℕ ℕ) :=
  [.main 0, .main 0, .main 0, .main 0, .main 0, .thread 0 0, .thread 0 0, .deliver 0, .resume 1,
    .main 0, .reply 0 0 0 true, .main 0, .main 1, .main 1, .main 1, .main 1, .thread 1 0,
    .thread 1 0, .deliver 3, .resume 2, .reply 1 0 3 true]

/-- Without the condition a term can have two leaders, with no crash at all. -/
theorem two_leaders_in_one_term :
    ∃ w : World 3 ℕ ℕ, World.Reachable (fun _ a => ∀ p, a ≠ .restart p) w ∧
      (w.nodes 0).state = .leaderState ∧ (w.nodes 1).state = .leaderState ∧
      (w.nodes 0).currentTerm = (w.nodes 1).currentTerm := by
  exact World.Reachable.exists_of_execOk (fun _ a => ∀ p, a ≠ .restart p)
    electAsLeader _ (by decide +kernel)

end MitDistributed.Raft
