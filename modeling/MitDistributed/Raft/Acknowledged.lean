import MitDistributed.Raft.Recovery
import MitDistributed.Raft.Replication
import MitDistributed.Raft.Uncompacted

namespace MitDistributed.Raft

open Transition Consensus

/-!
# Raft — what `matchIndex` says

`matchIndex` of a leader is what it commits on.  In a run of a service that never calls
`Snapshot`, and as long as a leader takes only answers of its own term into account and no log is
cut while its entries are encoded, an index that a leader has in `matchIndex` of another peer was
acknowledged by that peer in the term of the leader, and the peer then held the entries that the
leader still has (`matchIndex_acknowledged`).
-/

variable {n : ℕ} {C D : Type}

/-- Whether an event is a `Success` answer to a request of `term`. -/
def Event.isAccepted (term : ℕ) : Event n C D → Bool
  | .accepted _ args _ _ => args.term == term
  | _ => false

namespace World

/-- No service calls `Snapshot`, no leader enters `doElection`, a leader counts the answer to
    a heartbeat only in the term of the heartbeat, and no log is cut while a goroutine encodes
    entries of it. -/
def CountsInTerm (w : World n C D) (act : Action n C D) : Prop :=
  w.NoSnapshot act ∧ w.ElectsAsCandidate act ∧ w.LearnsInTerm act ∧ w.SparesEncoders act

instance (w : World n C D) (act : Action n C D) : Decidable (w.CountsInTerm act) :=
  inferInstanceAs (Decidable (_ ∧ _ ∧ _ ∧ _))

variable {w : World n C D}

/-- Where no log is compacted, nobody takes a snapshot over. -/
theorem Uncompacted.installsOwn (hu : w.Uncompacted) (hw : w.Plumbed) (act : Action n C D) :
    w.InstallsOwn act := by
  cases act with
  | resume p =>
    intro call args hh
    exact (hu.not_installs hw hh (by simp [Held.call, Request.isInstall])).elim
  | _ => trivial

theorem Reachable.replicates {act : Action n C D} (h : Reachable CountsInTerm w)
    (hact : w.CountsInTerm act) : w.Replicates act := by
  have hu := h.uncompacted fun _ _ hok => hok.1
  obtain ⟨-, hcand, hlearn, hencode⟩ := hact
  exact ⟨hu.keepsState act, hcand, hu.installsOwn h.plumbed act, hlearn, hencode⟩

/-- A log that is shown without a snapshot starts at index 0. -/
theorem Reachable.accepted_lastIncludedIndex {ok : World n C D → Action n C D → Prop}
    (hok : ∀ w act, ok w act → w.NoSnapshot act) (h : Reachable ok w) {p : Fin n}
    {args : AppendEntriesArgs n C} {lii : ℕ} {log : List (LogEntry C)}
    (he : .accepted p args lii log ∈ w.trace) : lii = 0 := by
  induction h using Reachable.induct with
  | refl => cases he
  | tail act hr hact hstep ih =>
    obtain ⟨q, eff, heff, rfl⟩ := step_eq_some hstep
    rcases List.mem_append.mp he with hnew | hold
    · obtain ⟨-, rfl, -⟩ := local_accepted (effect_local heff) hnew
      exact ((Reachable.uncompacted hok hr).nodes q).lastIncludedIndex
    · exact ih hold

/-- What a leader still counts on was answered to it: the answer shows a part of its log. -/
theorem Refines.prefix_of_answered {a : AbstractCluster n C} (h : w.Refines a) {l j : Fin n}
    (hs : (w.nodes l).state = .leaderState) {args : AppendEntriesArgs n C} {lii : ℕ}
    {log : List (LogEntry C)} (he : .accepted j args lii log ∈ w.trace)
    (ht : args.term = (w.nodes l).currentTerm) (hl : args.leaderId = l) :
    ∃ c c', c.length = args.prevLogIndex + args.entries.length ∧ c <+: a.log l ∧ c <+: c' ∧
      log ≠ [] ∧ log.tail = c'.drop lii := by
  obtain ⟨-, -, hlog⟩ := h.log_of_leads (p := l) ⟨rfl, hs⟩
  obtain ⟨c, c', hc, hcount, hp, hne, htail⟩ := h.answered j args lii log he
  refine ⟨c, c', hc.length, ?_, hp, hne, htail⟩
  rw [hlog]
  exact (h.issued_of_counted hs ht hl hcount).1.2

end World

/-- **Soundness of `matchIndex`.** In every run that keeps to `CountsInTerm`: if `l` is leader and
    its leadership is initialised, then for every other peer `j` and every index `i` up to
    `matchIndex` of `j`, peer `j` has answered `Success`, in the term of `l`, to a request of `l`
    that covers `i`, and its log then held the entry that `l` has at `i`. -/
theorem matchIndex_acknowledged {w : World n C D} (h : World.Reachable World.CountsInTerm w)
    {l j : Fin n} (hs : (w.nodes l).state = .leaderState) (hi : (w.nodes l).leaderInitDone = true)
    (hj : j ≠ l) {i : ℕ} (h1 : 1 ≤ i) (hm : i ≤ (w.nodes l).matchIndex j) :
    ∃ args log e, .accepted j args 0 log ∈ w.trace ∧ args.term = (w.nodes l).currentTerm ∧
      args.leaderId = l ∧ i ≤ args.prevLogIndex + args.entries.length ∧
      log[i]? = some e ∧ (w.nodes l).getLog i = some e := by
  obtain ⟨a, ha⟩ := h.refines fun _ _ hr => hr.replicates
  have hzero := ((h.uncompacted fun _ _ hok => hok.1).nodes l).lastIncludedIndex
  rcases ha.matched l hs (.inl hi) j with hle | ⟨hself, -⟩ | ⟨args, lii, log, he, ht, hl, hle⟩
  · -- nothing is compacted
    rw [hzero] at hle
    omega
  · exact absurd hself hj
  · obtain rfl := h.accepted_lastIncludedIndex (fun _ _ hok => hok.1) he
    obtain ⟨c, c', hlen, hcl, hcc, hne, htail⟩ := ha.prefix_of_answered hs he ht hl
    obtain ⟨k, rfl⟩ : ∃ k, i = k + 1 := ⟨i - 1, by omega⟩
    have hk : k < c.length := by omega
    refine ⟨args, log, c.get ⟨k, hk⟩, he, ht, hl, by omega, ?_, ?_⟩
    · obtain ⟨e, rest, rfl⟩ := List.exists_cons_of_ne_nil hne
      rw [List.tail_cons, List.drop_zero] at htail
      rw [List.getElem?_cons_succ, htail]
      exact List.prefix_iff_getElem?.mp hcc k hk
    · rw [(ha.log l).getLog_eq (by omega), Nat.add_sub_cancel]
      exact List.prefix_iff_getElem?.mp hcl k hk

/-- Peer 0 leads term 1, replicates a command to peer 1, and sends it a heartbeat. -/
def heartbeatToPeer1 : List (Action 3 ℕ ℕ) :=
  electPeer0 ++
    -- peer 0 initialises its leadership and replicates the command
    ([.main 0, .main 0, .main 0, .main 0, .start 0 (some 7), .thread 0 2, .thread 0 2, .thread 0 2,
      .thread 0 2, .thread 0 2, .thread 0 2, .thread 0 2, .deliver 2, .resume 1, .resume 1,
      .reply 0 2 2 true,
    -- a round of heartbeats; peer 1 answers, and the round is waiting for answers
      .main 0, .thread 0 3, .thread 0 3, .thread 0 3, .thread 0 3, .thread 0 3, .deliver 3,
      .resume 1, .resume 1] : List (Action 3 ℕ ℕ))

/-- The leader of term 1 counts on peer 1, which has acknowledged the command. -/
theorem matchIndex_acknowledged_heartbeatToPeer1 :
    ∃ w : World 3 ℕ ℕ, World.Reachable World.CountsInTerm w ∧
      (w.nodes 0).state = .leaderState ∧ (w.nodes 0).leaderInitDone = true ∧
      1 ≤ (w.nodes 0).matchIndex 1 ∧
      ∃ args log e, .accepted 1 args 0 log ∈ w.trace ∧ args.term = (w.nodes 0).currentTerm ∧
        args.leaderId = 0 ∧ 1 ≤ args.prevLogIndex + args.entries.length ∧
        log[1]? = some e ∧ (w.nodes 0).getLog 1 = some e := by
  obtain ⟨w, hr, hs, hi, hm⟩ := World.Reachable.exists_of_execOk World.CountsInTerm
    heartbeatToPeer1
    (fun w => (w.nodes 0).state = .leaderState ∧ (w.nodes 0).leaderInitDone = true ∧
      1 ≤ (w.nodes 0).matchIndex 1) (by decide +kernel)
  exact ⟨w, hr, hs, hi, hm, matchIndex_acknowledged hr hs hi (by decide) le_rfl hm⟩

/-- The answer is processed only after peer 0 was deposed by term 2 and elected again in
    term 3. -/
def heartbeatOfEarlierTerm : List (Action 3 ℕ ℕ) :=
  heartbeatToPeer1 ++
    -- peer 2 stands for term 2, and peer 0 steps down
    ([.main 2, .main 2, .main 2, .main 2, .main 2, .main 2, .main 2, .thread 2 1, .deliver 5,
      .resume 0,
    -- peer 0 wins term 3 with the vote of peer 1 and initialises its leadership
      .main 0, .main 0, .main 0, .main 0, .main 0, .thread 0 4, .thread 0 4, .deliver 6,
      .resume 1, .reply 0 4 6 true, .main 0, .main 0, .main 0, .main 0,
    -- the heartbeat of term 1 is answered
      .reply 0 3 3 true] : List (Action 3 ℕ ℕ))

/-- Without the condition on heartbeats the leader of term 3 counts on peer 1, which has answered
    nothing in term 3; no crash and no snapshot is involved. -/
theorem matchIndex_of_earlier_term :
    ∃ w : World 3 ℕ ℕ, World.Reachable
        (fun w act => (∀ p, act ≠ .restart p) ∧ w.NoSnapshot act ∧ w.ElectsAsCandidate act) w ∧
      (w.nodes 0).state = .leaderState ∧ (w.nodes 0).leaderInitDone = true ∧
      (w.nodes 0).currentTerm = 3 ∧ 1 ≤ (w.nodes 0).matchIndex 1 ∧
      ∀ e ∈ w.trace, ∀ args lii log, e = .accepted 1 args lii log → args.term ≠ 3 := by
  obtain ⟨w, hr, hs, hi, ht, hm, htrace⟩ := World.Reachable.exists_of_execOk
    (fun w act => (∀ p, act ≠ .restart p) ∧ w.NoSnapshot act ∧ w.ElectsAsCandidate act)
    heartbeatOfEarlierTerm
    (fun w => (w.nodes 0).state = .leaderState ∧ (w.nodes 0).leaderInitDone = true ∧
      (w.nodes 0).currentTerm = 3 ∧ 1 ≤ (w.nodes 0).matchIndex 1 ∧
      ∀ e ∈ w.trace, e.isAccepted 3 = false) (by decide +kernel)
  refine ⟨w, hr, hs, hi, ht, hm, ?_⟩
  rintro e he args lii log rfl hterm
  have hfalse := htrace _ he
  simp [Event.isAccepted, hterm] at hfalse

end MitDistributed.Raft
