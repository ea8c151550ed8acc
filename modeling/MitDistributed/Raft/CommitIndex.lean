import MitDistributed.Raft.Durable

namespace MitDistributed.Raft

/-!
# Raft — what moves the commit index

`commitIndex` is written by the answer of `AppendEntries`, by `InstallSnapshot`, by
`tryIncrementCommitIndex` and by `Make`; `World.Advances` lists these steps, and every other step
leaves it alone (`World.local_advances`).
-/

variable {n : ℕ} {C D : Type}

namespace Node

variable {me : Fin n} {nd : Node n C D} {eff : Effect n C D}

@[simp] theorem commitIndex_observe (nd : Node n C D) (term : ℕ) :
    (nd.observe term).commitIndex = nd.commitIndex := by
  unfold observe
  split <;> rfl

@[simp] theorem commitIndex_advanceMatch (nd : Node n C D) (peer : Fin n) (index : ℕ) :
    (nd.advanceMatch peer index).commitIndex = nd.commitIndex := by
  unfold advanceMatch
  split <;> rfl

/-- `Make` starts from the snapshot. -/
theorem make_commitIndex (ps : Persister n C D) (room : ℕ → ℕ) :
    (make ps room).commitIndex = (make ps room).lastIncludedIndex := by
  unfold make readPersist
  split
  · rfl
  · simp only [startFromSnapshot, blank]
    split <;> omega

end Node

namespace World

section

variable (w : World n C D) (p : Fin n)

/-- What a step of peer `p` means for its commit index. -/
inductive Advances : Effect n C D → Action n C D → Prop
  /-- nothing -/
  | keep (h : eff.node.commitIndex = (w.nodes p).commitIndex) : Advances eff a
  /-- `AppendEntries` follows the leader -/
  | follow (hh : (w.nodes p).held = some (.appendCommit call args)) :
      Advances ((w.nodes p).appendCommit p call args) (.resume p)
  /-- `InstallSnapshot` has found the snapshot ahead, and writes -/
  | install (hh : (w.nodes p).held = some (.installIndex call args .setCommit)) :
      Advances
        { node :=
          { w.nodes p with
            commitIndex := args.lastIncludedIndex
            held := some (.installIndex call args .testApplied) } } (.resume p)
  /-- `tryIncrementCommitIndex` has counted a majority ahead, and writes -/
  | write {k : ℕ} (hk : (w.nodes p).threads[k]? =
        some (.tryIncrementCommitIndex (.write thisTerm thisLogLength i))) :
      Advances
        { node := ((w.nodes p).commit i).setThread k
            (.tryIncrementCommitIndex (.scan thisTerm thisLogLength (i + 1))) } (.thread p k)
  /-- a restart -/
  | restart : Advances ((w.nodes p).restart p) (.restart p)

end

variable {w : World n C D} {p : Fin n} {eff : Effect n C D} {a : Action n C D}

/-- **Classification.** Every step leaves the commit index alone, or is one of the steps that
    write it. -/
theorem local_advances (h : Local w p eff a) : Advances w p eff a := by
  cases h with
  | main h => cases Node.mainStep_cases h <;> exact .keep rfl
  | thread k h =>
    cases Node.threadStep_cases h with
    | write hk => exact .write hk
    | _ => exact .keep rfl
  | reply k call ok request _ h =>
    cases Node.threadReply_cases h with
    | voteCounted | beatRefused | appendDeposed =>
      exact .keep (Node.commitIndex_observe _ _)
    | beatMatched | appendMatched =>
      exact .keep ((Node.commitIndex_advanceMatch _ _ _).trans (Node.commitIndex_observe _ _))
    | _ => exact .keep rfl
  | apply h => cases Node.applyStep_cases h <;> exact .keep rfl
  | deliver call request _ _ h =>
    generalize request.request = r at h
    cases Node.handle_cases h with
    | requestVote args => exact .keep (Node.commitIndex_observe _ args.term)
    | appendEntries args =>
      refine .keep (Eq.trans ?_ (Node.commitIndex_observe _ args.term))
      simp only [Node.appendEntries, Node.stepDown]
      split <;> rfl
    | installSnapshot args => exact .keep (Node.commitIndex_observe _ args.term)
  | resume h =>
    cases Node.resume_cases h with
    | @copyLog _ args =>
      refine .keep ?_
      show ((w.nodes p).copyLog args).commitIndex = _
      rcases Node.copyLog_eq (w.nodes p) args with h | ⟨log, backing, h⟩ <;> rw [h]
      rfl
    | appendCommit hh => exact .follow hh
    | setCommit hh => exact .install hh
    | _ => exact .keep rfl
  | start command h => cases Node.tryStart_cases h <;> exact .keep rfl
  | snapshot index snapshot h => cases Node.trySnapshot_cases h <;> exact .keep rfl
  | restart h => subst h; exact .restart

/-- What `InstallSnapshot` or `tryIncrementCommitIndex` is about to write to `commitIndex` is not
    below it: nobody has raised it since the test. -/
def RaisesCommit (w : World n C D) : Action n C D → Prop
  | .resume p =>
    match (w.nodes p).held with
    | some (.installIndex _ args .setCommit) => (w.nodes p).commitIndex ≤ args.lastIncludedIndex
    | _ => True
  | .thread p k =>
    match (w.nodes p).threads[k]? with
    | some (.tryIncrementCommitIndex (.write _ _ i)) => (w.nodes p).commitIndex ≤ i
    | _ => True
  | _ => True

instance (w : World n C D) (a : Action n C D) : Decidable (w.RaisesCommit a) := by
  unfold RaisesCommit
  split
  · split <;> infer_instance
  · split <;> infer_instance
  · infer_instance

/-- As long as it does not lie beyond the log, and no test is outdated, the commit index only
    grows, restarts apart. -/
theorem Advances.le (h : Advances w p eff a) (ha : a ≠ .restart p) (hraise : w.RaisesCommit a)
    (hcap : (w.nodes p).commitIndex ≤ (w.nodes p).getLogLength - 1) :
    (w.nodes p).commitIndex ≤ eff.node.commitIndex := by
  cases h with
  | keep h => exact h.ge
  | follow hh =>
    simp only [Node.appendCommit, Node.followCommit]
    split
    · rename_i hlt
      split
      · exact hlt.le
      · exact hcap
    · exact le_rfl
  | install hh =>
    simp only [RaisesCommit, hh] at hraise
    exact hraise
  | write hk =>
    simp only [RaisesCommit, hk] at hraise
    exact hraise
  | restart => exact absurd rfl ha

end World

end MitDistributed.Raft
