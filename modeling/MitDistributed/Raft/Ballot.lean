import MitDistributed.Raft.Plumbing

namespace MitDistributed.Raft

/-!
# Raft — which steps matter for an election

Term, vote and role are written in many places, but only four kinds of step do more than
adopt a higher term: the start of an election, the one that wins it, the one that grants a
vote, and a restart.  `Ballot` lists them; every other step is `Quiet`.

* `Node.Calm nd nd'` — from `nd` to `nd'` the peer cast no vote and did not become leader;
* `Node.Quiet nd eff` — a calm step that also shows no vote to anyone;
* `World.local_ballot` — every step of the cluster is quiet or one of the four.
-/

variable {n : ℕ} {C D : Type}

/-- Whether an event belongs to an election. -/
def Event.isBallot : Event n C D → Bool
  | .voted .. => true
  | .won .. => true
  | _ => false

namespace Node

/-- Term and vote are kept or a higher term is adopted, without a vote; the role of leader
    is kept at most. -/
structure Calm (nd nd' : Node n C D) : Prop where
  ballot : (nd'.currentTerm = nd.currentTerm ∧ nd'.votedFor = nd.votedFor) ∨
    (nd.currentTerm < nd'.currentTerm ∧ nd'.votedFor = none)
  role : nd'.state = .leaderState → nd.state = .leaderState ∧ nd'.currentTerm = nd.currentTerm

/-- A calm step without votes on the wire or in the trace. -/
structure Quiet (nd : Node n C D) (eff : Effect n C D) : Prop where
  calm : nd.Calm eff.node
  events : ∀ e ∈ eff.events, e.isBallot = false
  answer : ∀ i reply, eff.answer = some (i, .requestVote reply) → reply.voteGranted = false

namespace Calm

variable {nd nd' nd'' : Node n C D}

theorem refl (nd : Node n C D) : nd.Calm nd := ⟨.inl ⟨rfl, rfl⟩, fun h => ⟨h, rfl⟩⟩

/-- Fields other than these do not matter. -/
theorem congr (h : nd.Calm nd') (ht : nd''.currentTerm = nd'.currentTerm)
    (hv : nd''.votedFor = nd'.votedFor)
    (hs : nd''.state = .leaderState → nd'.state = .leaderState) : nd.Calm nd'' := by
  refine ⟨?_, fun hl => ?_⟩
  · rw [ht, hv]; exact h.ballot
  · rw [ht]; exact h.role (hs hl)

theorem updateTerm (nd : Node n C D) {t : ℕ} (ht : nd.currentTerm < t) :
    nd.Calm (nd.updateTerm t) :=
  ⟨.inr ⟨ht, rfl⟩, nofun⟩

theorem observe (nd : Node n C D) (t : ℕ) : nd.Calm (nd.observe t) := by
  unfold Node.observe
  split
  · rename_i ht; exact updateTerm nd ht
  · exact .refl nd

theorem advanceMatch (h : nd.Calm nd') (peer : Fin n) (index : ℕ) :
    nd.Calm (nd'.advanceMatch peer index) := by
  unfold Node.advanceMatch
  split
  · exact h.congr rfl rfl id
  · exact h

theorem stepDown (h : nd.Calm nd') (t : ℕ) : nd.Calm (nd'.stepDown t) := by
  unfold Node.stepDown
  split
  · exact h.congr rfl rfl nofun
  · exact h

end Calm

/-- A handler that returns without granting a vote. -/
theorem quiet_answer (nd : Node n C D) (call : ℕ) {reply : Reply}
    (hr : ∀ r, reply = .requestVote r → r.voteGranted = false) :
    nd.Quiet (nd.answer call reply) := by
  refine ⟨(Calm.refl nd).congr rfl rfl id, nofun, fun i r h => hr r ?_⟩
  simp only [answer, Option.some.injEq, Prod.mk.injEq] at h
  exact h.2

end Node

/-! ### The steps of an election -/

section

variable (w : World n C D) (p : Fin n)

/-- What a step of peer `p` means for the elections. -/
inductive Ballot : Effect n C D → Action n C D → Prop
  /-- nothing, or a higher term is adopted -/
  | quiet (hq : (w.nodes p).Quiet eff) : Ballot eff a
  /-- `doElection` -/
  | elect (hm : (w.nodes p).main = .doElection) : Ballot ((w.nodes p).doElection p) (.main p)
  /-- the last vote that a majority needs -/
  | won (hv : (w.nodes p).Polled k call thisTerm sum waiting) (hc : w.calls[call]? = some request)
      (hmaj : sum + 1 > n / 2) :
      Ballot
        { node := Node.setThread
            { w.nodes p with state := .leaderState, leaderInitDone := false } k
            (.sendRequestVoteToAll thisTerm [] (sum + 1) (waiting.erase call))
          events := [.won p thisTerm (w.nodes p).currentTerm] } (.reply p k call ok)
  /-- a vote is granted -/
  | grant (hh : (w.nodes p).held = some (.requestVote call args))
      (ht : args.term ≥ (w.nodes p).currentTerm)
      (hv : (w.nodes p).votedFor = none ∨ (w.nodes p).votedFor = some args.candidateId)
      (hn : (w.nodes p).isNewerThanMe args = some true) :
      Ballot
        { node := { w.nodes p with votedFor := some args.candidateId }.persist.release
          answer := some (call, .requestVote
            { term := (w.nodes p).currentTerm, voteGranted := true })
          events := [.voted p args.candidateId args.term] } (.resume p)
  /-- a restart -/
  | restart : Ballot ((w.nodes p).restart p) (.restart p)

end

variable {w : World n C D} {p : Fin n} {eff : Effect n C D} {a : Action n C D}

/-- A calm step that shows nothing. -/
theorem Ballot.calm (h : (w.nodes p).Calm eff.node) (he : eff.events = [])
    (ha : eff.answer = none) : Ballot w p eff a :=
  .quiet ⟨h, by simp [he], by simp [ha]⟩

namespace World

theorem threadReply_ballot {k call : ℕ} {request : Call n C D} {ok : Bool}
    (hc : w.calls[call]? = some request)
    (h : (w.nodes p).threadReply p w.calls.length k call request ok = some eff) :
    Ballot w p eff (.reply p k call ok) := by
  have hobs (t : ℕ) := Node.Calm.observe (w.nodes p) t
  cases Node.threadReply_cases h with
  | voteWon hv _ _ _ hmaj => exact .won hv hc hmaj
  | voteCounted | beatRefused | appendDeposed => exact .calm ((hobs _).congr rfl rfl id) rfl rfl
  | beatMatched | appendMatched =>
    exact .calm (((hobs _).advanceMatch _ _).congr rfl rfl id) rfl rfl
  | snapshotDeposed _ _ ht =>
    exact .calm ((Node.Calm.updateTerm _ ht).congr rfl rfl id) rfl rfl
  | _ => exact .calm ((Node.Calm.refl _).congr rfl rfl id) rfl rfl

theorem resume_ballot (h : (w.nodes p).resume p = some eff) : Ballot w p eff (.resume p) := by
  have hr := Node.Calm.refl (w.nodes p)
  cases Node.resume_cases h with
  | grantVote hh ht hv hn => exact .grant hh ht hv hn
  | refuseVote => exact .quiet (Node.quiet_answer _ _ fun r hr => by cases hr; rfl)
  | refuseAppend | ignoreSnapshot => exact .quiet (Node.quiet_answer _ _ nofun)
  | @copyLog _ args =>
    refine .calm ?_ rfl rfl
    rcases Node.copyLog_eq (w.nodes p) args with h | ⟨log, backing, h⟩ <;> rw [h] <;>
      exact hr.congr rfl rfl id
  | appendCommit =>
    refine .quiet ⟨?_, ?_, ?_⟩
    · unfold Node.appendCommit Node.followCommit
      split <;> exact hr.congr rfl rfl id
    all_goals simp [Node.appendCommit, Event.isBallot]
  | voteExit | appendExit | installTest | setCommit | setApplied =>
    exact .calm (hr.congr rfl rfl id) rfl rfl
  | install | installSave | installSend | snapshotSave =>
    refine .quiet ⟨hr.congr rfl rfl id, ?_, ?_⟩ <;>
      simp [Node.installSave, Node.installSend, Node.snapshotSave, Event.isBallot]

/-- **Classification.** Every step is quiet, or one of the four steps of an election. -/
theorem local_ballot (h : Local w p eff a) : Ballot w p eff a := by
  have hr := Node.Calm.refl (w.nodes p)
  cases h with
  | main h =>
    cases Node.mainStep_cases h with
    | elect hm => exact .elect hm
    | timeout => exact .calm (hr.congr rfl rfl nofun) rfl rfl
    | _ => exact .calm (hr.congr rfl rfl id) rfl rfl
  | thread k h => cases Node.threadStep_cases h <;> exact .calm (hr.congr rfl rfl id) rfl rfl
  | reply k call ok request hc h => exact threadReply_ballot hc h
  | apply h =>
    cases Node.applyStep_cases h <;>
      exact .quiet ⟨hr.congr rfl rfl id, by simp [Event.isBallot], nofun⟩
  | deliver call request _ _ h =>
    have hobs (t : ℕ) := Node.Calm.observe (w.nodes p) t
    generalize request.request = r at h
    cases Node.handle_cases h with
    | requestVote args | installSnapshot args =>
      exact .calm ((hobs args.term).congr rfl rfl id) rfl rfl
    | appendEntries args =>
      exact .calm (((hobs args.term).stepDown args.term).congr rfl rfl id) rfl rfl
  | resume h => exact resume_ballot h
  | start command h =>
    cases Node.tryStart_cases h <;>
      exact .quiet ⟨hr.congr rfl rfl id, by simp [Event.isBallot], nofun⟩
  | snapshot index snapshot h =>
    cases Node.trySnapshot_cases h <;>
      exact .quiet ⟨hr.congr rfl rfl id, by simp [Event.isBallot], nofun⟩
  | restart h => subst h; exact .restart

end World

end MitDistributed.Raft
