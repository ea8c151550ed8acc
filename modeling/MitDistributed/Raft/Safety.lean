import MitDistributed.Raft.Commitment

namespace MitDistributed.Raft

open Transition Consensus

/-!
# Raft — state machine safety

Peers that deliver a command at the same index deliver the same command, in every run that keeps
to `World.CommitsSafely` (`state_machine_safety`).  The conditions are those of the replication
(`World.Replicates`, among them that no log is cut under a goroutine that is encoding a part of
it), and that a pass of `tryIncrementCommitIndex` counts, and a round of heartbeats sends, only in
its own term.

A peer that enters `doElection` as leader is enough to break it, with no crash at all: two leaders
of one term commit different commands at index 1 (`two_commands_at_one_index`).  Why the encoders
have to be spared is seen at `request_with_newer_entry`: a request of an old term carries an entry
of a new one.
-/

variable {n : ℕ} {C D : Type}

namespace World

instance (w : World n C D) (act : Action n C D) : Decidable (w.CommitsInTerm act) :=
  match act with
  | .thread p k =>
    match hk : (w.nodes p).threads[k]? with
    | some (.tryIncrementCommitIndex (.count thisTerm _ _)) =>
      decidable_of_iff ((w.nodes p).leads thisTerm) (by simp only [CommitsInTerm, hk])
    | none | some (.sendRequestVoteToAll ..) | some (.sendHeartbeatToAll ..) |
      some (.sendAppendEntriesToAll ..) | some (.sendAppendEntries ..) |
      some (.sendInstallSnapshot ..) | some (.tryIncrementCommitIndex .top) |
      some (.tryIncrementCommitIndex (.scan ..)) | some (.tryIncrementCommitIndex (.commit ..)) |
      some (.tryIncrementCommitIndex (.write ..)) => isTrue (by simp only [CommitsInTerm, hk])
  | .main _ | .restart _ | .reply .. | .apply _ | .deliver _ | .resume _ | .start .. |
    .snapshot .. => isTrue trivial

instance (w : World n C D) (act : Action n C D) : Decidable (w.BeatsInTerm act) :=
  match act with
  | .thread p k =>
    match hk : (w.nodes p).threads[k]? with
    | some (.sendHeartbeatToAll thisTerm (.send (_ :: _) _)) =>
      decidable_of_iff ((w.nodes p).currentTerm = thisTerm) (by simp only [BeatsInTerm, hk])
    | none | some (.sendRequestVoteToAll ..) | some (.sendHeartbeatToAll _ .start) |
      some (.sendHeartbeatToAll _ (.send [] _)) | some (.sendHeartbeatToAll _ (.check ..)) |
      some (.sendHeartbeatToAll _ (.receive ..)) | some (.sendAppendEntriesToAll ..) |
      some (.sendAppendEntries ..) | some (.sendInstallSnapshot ..) |
      some (.tryIncrementCommitIndex _) => isTrue (by simp only [BeatsInTerm, hk])
  | .main _ | .restart _ | .reply .. | .apply _ | .deliver _ | .resume _ | .start .. |
    .snapshot .. => isTrue trivial

/-- The conditions on a step. -/
def CommitsSafely (w : World n C D) (act : Action n C D) : Prop :=
  w.Replicates act ∧ w.CommitsInTerm act ∧ w.BeatsInTerm act

instance (w : World n C D) (act : Action n C D) : Decidable (w.CommitsSafely act) :=
  inferInstanceAs (Decidable (_ ∧ _ ∧ _))

/-- **Run.** A run that keeps to the conditions refines a run of the abstract cluster, in which
    whatever a peer takes for committed is committed. -/
theorem Reachable.commits {w : World n C D} (h : Reachable CommitsSafely w) :
    ∃ a, w.Refines a ∧ w.Commits a := by
  induction h using Reachable.induct with
  | refl room => exact ⟨_, init_refines room, init_commits room⟩
  | tail act hr hact hstep ih =>
    obtain ⟨a, ha, hc⟩ := ih
    obtain ⟨hrep, hcommit, hbeat⟩ := hact
    obtain ⟨p, eff, heff, rfl⟩ := step_eq_some hstep
    have hw := Reachable.plumbed hr
    obtain ⟨a', hsim, ha'⟩ := ha.step hw (Reachable.tallied hr) (Reachable.onDuty hr) hrep heff
    refine ⟨a', ha', hc.after ha hsim hw hrep.keepsState hrep.electsAsCandidate hcommit hbeat ?_⟩
    exact effect_local heff

end World

/-- **State machine safety.** In every run that keeps to `CommitsSafely`: two commands that are
    delivered at the same index, at whatever peers, are equal. -/
theorem state_machine_safety {w : World n C D} (h : World.Reachable World.CommitsSafely w)
    {p q : Fin n} {command command' : Option C} {index : ℕ}
    (hp : .applied p (.command command index) ∈ w.trace)
    (hq : .applied q (.command command' index) ∈ w.trace) : command = command' := by
  obtain ⟨a, ha, hc⟩ := h.commits
  obtain ⟨e, hd, rfl⟩ := hc.applied p command index hp
  obtain ⟨e', hd', rfl⟩ := hc.applied q command' index hq
  rw [hd.unique hd' ha.sound ha.complete]

/-- Leader 0 and peer 2 deliver the command that they have committed. -/
theorem state_machine_safety_commitAtPeer2 :
    ∃ w : World 3 ℕ ℕ, World.Reachable World.CommitsSafely w ∧
      .applied 0 (.command (some 7) 1) ∈ w.trace ∧
      .applied 2 (.command (some 7) 1) ∈ w.trace ∧
      ∀ p command, .applied p (.command command 1) ∈ w.trace → command = some 7 := by
  obtain ⟨w, hr, h0, h2⟩ := World.Reachable.exists_of_execOk World.CommitsSafely
    (commitAtPeer2 ++ ([.apply 0, .apply 0, .apply 0, .apply 0, .apply 2, .apply 2, .apply 2,
      .apply 2] : List (Action 3 ℕ ℕ)))
    (fun w => .applied 0 (.command (some 7) 1) ∈ w.trace ∧
      .applied 2 (.command (some 7) 1) ∈ w.trace) (by decide +kernel)
  exact ⟨w, hr, h0, h2, fun p command hp => state_machine_safety hr hp h0⟩

/-- Peers 0 and 1 both lead term 2. -/
def commitTwice : List (Action 3 ℕ ℕ) :=
  electAsLeader ++
    -- peer 0 replicates a command to peer 2, commits it and delivers it
    ([.main 0, .main 0, .main 0, .main 0, .start 0 (some 7), .thread 0 3, .thread 0 3,
      .thread 0 3, .thread 0 3, .thread 0 4, .thread 0 4, .thread 0 4, .deliver 4, .resume 2,
      .resume 2, .reply 0 4 4 true, .thread 0 2, .thread 0 2, .thread 0 2, .thread 0 2,
      .thread 0 2, .apply 0, .apply 0, .apply 0, .apply 0,
    -- peer 1 does the same with another command; peer 2 keeps the one it has, and answers
    -- `Success`
      .main 1, .main 1, .main 1, .main 1, .start 1 (some 8), .thread 1 2, .thread 1 2,
      .thread 1 2, .thread 1 2, .thread 1 3, .thread 1 3, .thread 1 3, .deliver 5, .resume 2,
      .resume 2, .reply 1 3 5 true, .thread 1 1, .thread 1 1, .thread 1 1, .thread 1 1,
      .thread 1 1, .apply 1, .apply 1, .apply 1, .apply 1] : List (Action 3 ℕ ℕ))

/-- Without the conditions two peers deliver different commands at index 1, with no crash at
    all. -/
theorem two_commands_at_one_index :
    ∃ w : World 3 ℕ ℕ, World.Reachable (fun _ a => ∀ p, a ≠ .restart p) w ∧
      .applied 0 (.command (some 7) 1) ∈ w.trace ∧
      .applied 1 (.command (some 8) 1) ∈ w.trace := by
  exact World.Reachable.exists_of_execOk (fun _ a => ∀ p, a ≠ .restart p) commitTwice
    _ (by decide +kernel)

/-- Peer 0, the leader of term 1, has made sure that it still leads, and is about to encode a
    request with its command.  Peer 1 becomes leader of term 2 and replicates another command to
    peer 0, which cuts its log; then peer 0 goes on. -/
def cutWhileEncoding : List (Action 3 ℕ ℕ) :=
  electPeer0 ++
    ([.main 0, .main 0, .main 0, .main 0, .start 0 (some 7), .thread 0 2, .thread 0 2, .thread 0 2,
      .thread 0 2, .thread 0 2,
      .main 1, .main 1, .main 1, .main 1, .thread 1 0, .thread 1 0, .deliver 3, .resume 2,
      .reply 1 0 3 true, .main 1, .main 1, .main 1, .main 1, .start 1 (some 9), .thread 1 2,
      .thread 1 2, .thread 1 2, .thread 1 2, .thread 1 2, .thread 1 2, .thread 1 2, .deliver 4,
      .resume 0, .resume 0,
      .thread 0 2, .thread 0 2] : List (Action 3 ℕ ℕ))

/-- Its request of term 1 then carries the entry of term 2, as one that follows on index 0. -/
theorem request_with_newer_entry :
    ∃ w : World 3 ℕ ℕ, World.Reachable (fun _ a => ∀ p, a ≠ .restart p) w ∧
      (w.calls[5]?).map Call.request = some (.appendEntries
        { term := 1, leaderId := 0, entries := [⟨2, some 9⟩], prevLogIndex := 0, prevLogTerm := 0
          leaderCommit := 0 }) := by
  exact World.Reachable.exists_of_execOk (fun _ a => ∀ p, a ≠ .restart p)
    cutWhileEncoding _ (by decide +kernel)

end MitDistributed.Raft
