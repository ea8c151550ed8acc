import MitDistributed.Raft.Leadership
import MitDistributed.Raft.Spawn

namespace MitDistributed.Raft

open Transition Consensus

/-!
# Raft — who sends `AppendEntries` and `InstallSnapshot`

The term of such a request comes from the goroutine that sends it, which has it from the
goroutine that started it, and so on up to a critical section in which the peer was leader of
that term (`Node.Orders`).  The one exception is `leaderMain`: it reads the term for the next
heartbeat in a critical section that does not look at the role, so that a peer that has just
stepped down sends a heartbeat of a term it never led (`heartbeat_without_leadership`).

As long as that does not happen either (`World.HeartbeatsAsLeader`), every such request is
sent by a peer that has won the election of its term (`leader_only_traffic`).
-/

variable {n : ℕ} {C D : Type}

/-- The term in which a goroutine acts as leader. -/
def Thread.leadTerm : Thread n C D → Option ℕ
  | .sendHeartbeatToAll thisTerm _ => some thisTerm
  | .sendAppendEntriesToAll thisTerm _ => some thisTerm
  | .sendAppendEntries _ args _ => some args.term
  | .sendInstallSnapshot _ args _ => some args.term
  | _ => none

/-- The term in which the sender of a request acts as leader. -/
def Request.leadTerm : Request n C D → Option ℕ
  | .requestVote _ => none
  | .appendEntries args => some args.term
  | .installSnapshot args => some args.term

namespace Node

/-- The peer leads `t`, or has a goroutine that acts as leader in `t`. -/
def Orders (nd : Node n C D) (t : ℕ) : Prop :=
  nd.leads t ∨ ∃ th ∈ nd.threads, th.leadTerm = some t

variable {nd : Node n C D} {t : ℕ}

theorem orders_of_getElem? {k : ℕ} {th : Thread n C D} (hk : nd.threads[k]? = some th)
    (ht : th.leadTerm = some t) : nd.Orders t :=
  .inr ⟨th, List.mem_of_getElem? hk, ht⟩

/-- A peer that builds a request of a term acts as leader in it. -/
theorem Serves.orders (h : nd.Serves t) : nd.Orders t := by
  rcases h with ⟨k, todo, hk⟩ | ⟨hl, -⟩
  · exact orders_of_getElem? hk rfl
  · exact .inl hl

end Node

namespace World

/-- `leaderMain` starts a heartbeat only while its peer is leader. -/
def HeartbeatsAsLeader (w : World n C D) : Action n C D → Prop
  | .main p => (w.nodes p).main = .leaderHeartbeat → (w.nodes p).state = .leaderState
  | _ => True

instance (w : World n C D) : (a : Action n C D) → Decidable (w.HeartbeatsAsLeader a)
  | .main _ => inferInstanceAs (Decidable (_ → _))
  | .thread .. | .reply .. | .apply _ | .deliver _ | .resume _ | .start .. | .snapshot .. |
    .restart _ => isTrue trivial

/-- Both conditions on the actions of a run. -/
def ActsAsLeader (w : World n C D) (a : Action n C D) : Prop :=
  w.ElectsAsCandidate a ∧ w.HeartbeatsAsLeader a

instance (w : World n C D) (a : Action n C D) : Decidable (w.ActsAsLeader a) :=
  inferInstanceAs (Decidable (_ ∧ _))

variable {w w' : World n C D} {p : Fin n} {eff : Effect n C D} {a : Action n C D}

/-- Whatever a step starts as leader, the peer was already ordered to. -/
theorem orders_of_spawns {th : Thread n C D} (h : (w.nodes p).Spawns p w.calls eff a th)
    (hg : w.HeartbeatsAsLeader a) {t : ℕ} (ht : th.leadTerm = some t) :
    (w.nodes p).Orders t := by
  cases h with
  | elect | vote | revote | count | scanStart | scan | write => cases ht
  | heartbeat hm => exact .inl ⟨Option.some.inj ht, hg hm⟩
  | start hs => exact .inl ⟨Option.some.inj ht, hs⟩
  | beat hk | broadcast hk | check hk | encode hk | call hk | resend hk | resendSnapshot hk =>
    exact Node.orders_of_getElem? hk ht
  | append hserves hargs =>
    cases ht
    exact (Node.appendArgs_fields hargs).1 ▸ hserves.orders
  | retry hk _ _ hargs =>
    cases ht
    exact Node.orders_of_getElem? hk (congrArg some (Node.appendArgs_fields hargs).1.symm)
  | snapshot hserves =>
    cases ht
    exact hserves.orders

/-- Goroutines and requests act as leader only in terms that their peer has won. -/
structure Mandated (w : World n C D) : Prop where
  threads : ∀ p, ∀ th ∈ (w.nodes p).threads, ∀ t, th.leadTerm = some t → .won p t t ∈ w.trace
  calls : ∀ c ∈ w.calls, ∀ t, c.request.leadTerm = some t → .won c.src t t ∈ w.trace

/-- What a peer may order, it has won. -/
theorem Mandated.orders (hm : w.Mandated) (hled : w.Led) {t : ℕ} (ho : (w.nodes p).Orders t) :
    .won p t t ∈ w.trace := by
  rcases ho with ⟨rfl, hs⟩ | ⟨th, hmem, ht⟩
  · exact hled p hs
  · exact hm.threads p th hmem t ht

/-- **Step.** Whatever a step sends or starts as leader is in a term that its peer has won. -/
theorem Mandated.step (hm : w.Mandated) (hw : w.Plumbed) (hled : w.Led)
    (hg : w.HeartbeatsAsLeader a) (h : w.step a = some w') : w'.Mandated := by
  obtain ⟨p, eff, heff, rfl⟩ := step_eq_some h
  have hl := effect_local heff
  refine ⟨fun q th hth t ht => List.mem_append_right _ ?_,
    fun c hmem t ht => List.mem_append_right _ ?_⟩
  · rcases eq_or_ne q p with rfl | hne
    · rw [after_nodes_self] at hth
      rcases local_moves hl th hth with hold | hnew
      · exact hm.threads q th hold t ht
      · exact hm.orders hled (orders_of_spawns hnew hg ht)
    · rw [after_nodes_of_ne _ _ _ hne] at hth
      exact hm.threads q th hth t ht
  · obtain ⟨i, hi⟩ := List.mem_iff_getElem?.mp hmem
    rcases callsAfter_cases hi with ⟨c₀, hc₀, rfl⟩ | ⟨-, hs⟩
    · exact hm.calls c₀ (List.mem_of_getElem? hc₀) t ht
    · cases local_sends hw hl hs with
      | vote => cases ht
      | @revote request _ _ hc hsrc =>
        -- the same request was made before
        exact hsrc ▸ hm.calls request (List.mem_of_getElem? hc) t ht
      | heartbeat hk | append hk | snapshot hk =>
        exact hm.orders hled (Node.orders_of_getElem? hk ht)

theorem init_mandated (room : Fin n → ℕ → ℕ) :
    (init room : World n C D).Mandated where
  threads p th hth := by simp [init, Node.make_threads] at hth
  calls c hc := by simp [init] at hc

theorem Reachable.mandated {ok : World n C D → Action n C D → Prop}
    (hok : ∀ w a, ok w a → w.ActsAsLeader a) (h : Reachable ok w) : w.Mandated := by
  induction h using Reachable.induct with
  | refl room => exact init_mandated room
  | tail a hr hoka hstep ih =>
    have hled := Reachable.led (fun w a h => (hok w a h).1) hr
    exact ih.step (Reachable.plumbed hr) hled (hok _ a hoka).2 hstep

end World

/-! ### Leader-only traffic -/

/-- **Leader-only traffic.** In every run that keeps to `ActsAsLeader`, whoever has sent an
    `AppendEntries` or `InstallSnapshot` request of term `t` has become leader in term `t`,
    with the votes that a majority cast for it in term `t`. -/
theorem leader_only_traffic {w : World n C D} (h : World.Reachable World.ActsAsLeader w)
    {c : Call n C D} (hc : c ∈ w.calls) {t : ℕ} (ht : c.request.leadTerm = some t) :
    .won c.src t t ∈ w.trace ∧ Elected (Voted w.trace t) c.src := by
  have hwon := (h.mandated fun _ _ h => h).calls c hc t ht
  exact ⟨hwon, (h.tallied.won c.src t t hwon).2⟩

/-- Peer 0, elected in term 1, sends its first heartbeat. -/
theorem leader_only_traffic_heartbeat :
    ∃ w : World 3 ℕ ℕ, World.Reachable World.ActsAsLeader w ∧
      (∃ c ∈ w.calls, c.src = 0 ∧ c.request.leadTerm = some 1) ∧
      Elected (Voted w.trace 1) 0 := by
  obtain ⟨w, hr, c, hc, hsrc, ht⟩ := World.Reachable.exists_of_execOk
    World.ActsAsLeader (electPeer0 ++ ([.main 0, .main 0, .main 0, .main 0, .main 0, .thread 0 2,
      .thread 0 2] : List (Action 3 ℕ ℕ)))
    (fun w => ∃ c ∈ w.calls, c.src = 0 ∧ c.request.leadTerm = some 1) (by decide +kernel)
  exact ⟨w, hr, ⟨c, hc, hsrc, ht⟩, hsrc ▸ (leader_only_traffic hr hc ht).2⟩

/-- Peer 0 leads term 1 and is about to start a heartbeat when it hears of term 2, in which
    peer 1 stands.  It steps down, and still sends a heartbeat, of term 2. -/
def heartbeatAfterStepDown : List (Action 3 ℕ ℕ) :=
  electPeer0 ++ ([.main 0, .main 0, .main 0, .main 0, .main 1, .main 1, .main 1, .main 1, .main 1,
    .thread 1 0, .deliver 2, .resume 0, .main 0, .thread 0 2, .thread 0 2] : List (Action 3 ℕ ℕ))

/-- Without the condition a peer sends heartbeats of a term in which it was never elected. -/
theorem heartbeat_without_leadership :
    ∃ w : World 3 ℕ ℕ, World.Reachable World.ElectsSafely w ∧
      ∃ c ∈ w.calls, c.request.leadTerm = some 2 ∧ .won c.src 2 2 ∉ w.trace := by
  exact World.Reachable.exists_of_execOk World.ElectsSafely heartbeatAfterStepDown _
    (by decide +kernel)

end MitDistributed.Raft
