import MitDistributed.Raft.Leadership
import MitDistributed.Raft.Spawn

namespace MitDistributed.Raft

open Transition

/-!
# Raft — the tenure of a leader

What a leader keeps for the time it leads: `leaderInitDone` and `matchIndex`, next to the place
of `mainLoop`.  Most steps leave them alone (`Node.Steady`); `World.Learns` lists the steps that
raise `matchIndex`.

`mainLoop` lags behind the role: inside `leaderMain` the peer is leader, or a follower that does
not stand in its term; inside `followerMain` it is a follower (`Node.Duty`).  This holds in
every run.
-/

variable {n : ℕ} {C D : Type}

/-- Whether `mainLoop` is inside `leaderMain`. -/
def MainPc.inLeaderMain : MainPc → Bool
  | .leaderInit => true
  | .leaderInitDone => true
  | .leaderHeartbeat => true
  | .leaderCheck => true
  | _ => false

namespace Node

/-- Nobody becomes leader or candidate; a leader stays leader as long as it stays in its term,
    and its bookkeeping is untouched. -/
structure Steady (nd nd' : Node n C D) : Prop where
  role : nd'.state = .leaderState → nd.state = .leaderState ∧ nd'.currentTerm = nd.currentTerm
  keeps : nd.state = .leaderState → nd'.state = .leaderState ∨ nd.currentTerm < nd'.currentTerm
  candidate : nd'.state = .candidateState → nd.state = .candidateState
  initDone : nd'.leaderInitDone = nd.leaderInitDone
  main : nd'.main = nd.main
  matchIndex : nd'.matchIndex = nd.matchIndex

namespace Steady

variable {nd nd' nd'' : Node n C D}

theorem refl (nd : Node n C D) : nd.Steady nd :=
  ⟨fun h => ⟨h, rfl⟩, .inl, id, rfl, rfl, rfl⟩

/-- Only these fields matter. -/
theorem congr (h : nd.Steady nd') (hs : nd''.state = nd'.state)
    (ht : nd''.currentTerm = nd'.currentTerm) (hi : nd''.leaderInitDone = nd'.leaderInitDone)
    (hm : nd''.main = nd'.main) (hx : nd''.matchIndex = nd'.matchIndex) : nd.Steady nd'' where
  role hl := by rw [ht]; exact h.role (hs ▸ hl)
  keeps hl := by rw [hs, ht]; exact h.keeps hl
  candidate hc := h.candidate (hs ▸ hc)
  initDone := hi.trans h.initDone
  main := hm.trans h.main
  matchIndex := hx.trans h.matchIndex

theorem updateTerm (nd : Node n C D) {t : ℕ} (ht : nd.currentTerm < t) :
    nd.Steady (nd.updateTerm t) :=
  ⟨nofun, fun _ => .inr ht, nofun, rfl, rfl, rfl⟩

theorem observe (nd : Node n C D) (t : ℕ) : nd.Steady (nd.observe t) := by
  unfold Node.observe
  split
  · rename_i ht; exact updateTerm nd ht
  · exact .refl nd

theorem stepDown (h : nd.Steady nd') (t : ℕ) : nd.Steady (nd'.stepDown t) := by
  unfold Node.stepDown
  split
  · rename_i hc
    refine ⟨nofun, fun hl => ?_, nofun, h.initDone, h.main, h.matchIndex⟩
    -- a candidate was not leader before
    rcases h.keeps hl with hl' | ht
    · cases hl'.symm.trans hc.1
    · exact .inr ht
  · exact h

end Steady

variable {nd : Node n C D}

/-! ### The place of `mainLoop` -/

/-- Inside `leaderMain` a peer is leader, or a follower that does not stand in its term; inside
    `followerMain` it is a follower. -/
structure Duty (p : Fin n) (nd : Node n C D) : Prop where
  leader : nd.main.inLeaderMain = true →
    nd.state = .leaderState ∨ nd.state = .followerState ∧ nd.votedFor ≠ some p
  follower : nd.main = .followerWait → nd.state = .followerState

namespace Duty

variable {p : Fin n} {nd' : Node n C D}

/-- Outside of both there is nothing to show. -/
theorem of_main (hl : nd.main.inLeaderMain = false) (hf : nd.main ≠ .followerWait) : nd.Duty p :=
  ⟨fun h => absurd (hl.symm.trans h) (by simp), fun h => absurd h hf⟩

/-- A candidate is outside of both. -/
theorem main_of_candidate (h : nd.Duty p) (hc : nd.state = .candidateState) :
    nd.main.inLeaderMain = false ∧ nd.main ≠ .followerWait := by
  constructor
  · cases hm : nd.main.inLeaderMain with
    | false => rfl
    | true => rcases h.leader hm with hl | ⟨hf, -⟩ <;> simp_all
  · intro hm
    cases hc.symm.trans (h.follower hm)

/-- A steady step without a vote for oneself. -/
theorem steady (h : nd.Duty p) (hs : nd.Steady nd')
    (hv : nd'.votedFor = nd.votedFor ∨ nd'.votedFor ≠ some p)
    (ht : nd.currentTerm < nd'.currentTerm → nd'.votedFor ≠ some p) : nd'.Duty p := by
  constructor
  · intro hm
    rw [hs.main] at hm
    cases hst : nd'.state with
    | leaderState => exact .inl rfl
    | candidateState =>
      have hout := (h.main_of_candidate (hs.candidate hst)).1
      cases hout.symm.trans hm
    | followerState =>
      refine .inr ⟨rfl, ?_⟩
      rcases h.leader hm with hl | ⟨-, hvote⟩
      · rcases hs.keeps hl with hl' | hlt
        · cases hst.symm.trans hl'
        · exact ht hlt
      · rcases hv with hv | hv
        · rwa [hv]
        · exact hv
  · intro hm
    rw [hs.main] at hm
    have hf := h.follower hm
    cases hst : nd'.state with
    | leaderState => exact absurd ((hs.role hst).1.symm.trans hf) (by simp)
    | candidateState => exact absurd ((hs.candidate hst).symm.trans hf) (by simp)
    | followerState => rfl

end Duty

end Node

/-! ### What a leader learns -/

namespace World

section

variable (w : World n C D) (p : Fin n)

/-- The steps that set `matchIndex` of peer `j` to `m`. -/
inductive Learns : Action n C D → Fin n → ℕ → Prop
  /-- an answer to a heartbeat, whatever the peer is by now -/
  | heartbeat
      (hk : (w.nodes p).threads[k]? = some (.sendHeartbeatToAll thisTerm (.receive replyCount
        waiting))) (hw : call ∈ waiting) (hc : w.calls[call]? = some request)
      (hr : request.request = .appendEntries args)
      (ho : request.reply = some (.appendEntries reply)) (hs : reply.success = true) :
      Learns (.reply p k call true) request.dst args.prevLogIndex
  /-- an answer to a request with entries, by the leader of its term -/
  | append (hk : (w.nodes p).threads[k]? = some (.sendAppendEntries peer args (.wait call)))
      (hc : w.calls[call]? = some request) (ho : request.reply = some (.appendEntries reply))
      (hs : reply.success = true) (hl : (w.nodes p).leads args.term) :
      Learns (.reply p k call true) peer (args.prevLogIndex + args.entries.length)
  /-- an answer to a snapshot, by the leader of its term -/
  | snapshot (hk : (w.nodes p).threads[k]? = some (.sendInstallSnapshot peer args (.wait call)))
      (hl : (w.nodes p).leads args.term) : Learns (.reply p k call true) peer args.lastIncludedIndex
  /-- `Start` -/
  | start (command : Option C) : Learns (.start p command) p (w.nodes p).getLogLength

end

/-- What a step of `p` means for the bookkeeping of a leader. -/
inductive Tends (w : World n C D) (p : Fin n) (eff : Effect n C D) : Action n C D → Prop
  | steady {a : Action n C D} (hs : (w.nodes p).Steady eff.node) : Tends w p eff a
  | learn {a : Action n C D} {j : Fin n} {m : ℕ}
      (hs : (w.nodes p).Steady { eff.node with matchIndex := (w.nodes p).matchIndex })
      (hx : eff.node.matchIndex = Function.update (w.nodes p).matchIndex j m)
      (hl : Learns w p a j m) : Tends w p eff a
  | main (h : (w.nodes p).mainStep p = some eff) : Tends w p eff (.main p)
  /-- a candidate wins its election -/
  | won {a : Action n C D} (hc : (w.nodes p).state = .candidateState)
      (hm : eff.node.main = (w.nodes p).main) (hi : eff.node.leaderInitDone = false) :
      Tends w p eff a
  | restart : Tends w p eff (.restart p)

variable {w : World n C D} {p : Fin n} {eff : Effect n C D} {a : Action n C D}

/-- Setting both indices of a peer, after a step that leaves the bookkeeping alone. -/
theorem tends_setMatch {nd : Node n C D} {j : Fin n} {m : ℕ} {threads : List (Thread n C D)}
    (hs : (w.nodes p).Steady nd) (hnd : eff.node = { nd.setMatch j m with threads := threads })
    (hl : Learns w p a j m) : Tends w p eff a := by
  refine .learn ?_ ?_ hl
  · rw [hnd]
    exact hs.congr rfl rfl rfl rfl hs.matchIndex.symm
  · rw [hnd, ← hs.matchIndex]
    rfl

/-- `advanceMatch` after a term has been observed. -/
theorem tends_advanceMatch {t m k call : ℕ} {j : Fin n} {threads : List (Thread n C D)}
    (hnd : eff.node = { ((w.nodes p).observe t).advanceMatch j m with threads := threads })
    (hl : Learns w p (.reply p k call true) j m) : Tends w p eff (.reply p k call true) := by
  have hobs := Node.Steady.observe (w.nodes p) t
  unfold Node.advanceMatch at hnd
  split at hnd
  · exact tends_setMatch hobs hnd hl
  · refine .steady ?_
    rw [hnd]
    exact hobs.congr rfl rfl rfl rfl rfl

theorem threadReply_tends {k call : ℕ} {request : Call n C D} {ok : Bool}
    (hc : w.calls[call]? = some request)
    (h : (w.nodes p).threadReply p w.calls.length k call request ok = some eff) :
    Tends w p eff (.reply p k call ok) := by
  have hr := Node.Steady.refl (w.nodes p)
  have hobs (t : ℕ) := Node.Steady.observe (w.nodes p) t
  cases Node.threadReply_cases h with
  | voteWon hv => exact .won hv.candidate rfl rfl
  | @beatMatched _ _ _ _ reply hb hok ho hs =>
    subst hok
    have hl := Learns.heartbeat hb.thread hb.waits hc hb.request ho hs
    exact tends_advanceMatch (t := reply.term) rfl hl
  | @appendMatched _ _ reply hrep hlead hs =>
    obtain ⟨hk, -, -, rfl, ho⟩ := hrep
    have hl := Learns.append hk hc ho hs hlead
    exact tends_advanceMatch (t := reply.term) rfl hl
  | followSnapshot hrep | followEntries hrep =>
    obtain ⟨⟨hk, -, -, rfl, -⟩, hlead, -⟩ := hrep
    exact tends_setMatch hr rfl (.snapshot hk hlead)
  | @voteCounted _ _ _ reply | @beatRefused _ _ _ _ reply | @appendDeposed _ _ reply =>
    exact .steady ((hobs reply.term).congr rfl rfl rfl rfl rfl)
  | snapshotDeposed _ _ ht =>
    exact .steady ((Node.Steady.updateTerm _ ht).congr rfl rfl rfl rfl rfl)
  | _ => exact .steady (hr.congr rfl rfl rfl rfl rfl)

/-- **Classification.** Every step leaves the bookkeeping alone, learns, is one of `mainLoop`,
    wins an election or is a restart. -/
theorem local_tends (h : Local w p eff a) : Tends w p eff a := by
  have hr := Node.Steady.refl (w.nodes p)
  cases h with
  | main h => exact .main h
  | thread k h =>
    cases Node.threadStep_cases h <;> exact .steady (hr.congr rfl rfl rfl rfl rfl)
  | reply k call ok request hc h => exact threadReply_tends hc h
  | apply h => cases Node.applyStep_cases h <;> exact .steady (hr.congr rfl rfl rfl rfl rfl)
  | deliver call request _ _ h =>
    have hobs (t : ℕ) := Node.Steady.observe (w.nodes p) t
    generalize request.request = r at h
    cases Node.handle_cases h with
    | requestVote args | installSnapshot args =>
      exact .steady ((hobs args.term).congr rfl rfl rfl rfl rfl)
    | appendEntries args =>
      exact .steady (((hobs args.term).stepDown args.term).congr rfl rfl rfl rfl rfl)
  | resume h =>
    cases Node.resume_cases h with
    | @copyLog _ args =>
      refine .steady ?_
      rcases Node.copyLog_eq (w.nodes p) args with h | ⟨log, backing, h⟩ <;> rw [h] <;>
        exact hr.congr rfl rfl rfl rfl rfl
    | appendCommit =>
      refine .steady ?_
      unfold Node.appendCommit Node.followCommit
      split <;> exact hr.congr rfl rfl rfl rfl rfl
    | _ => exact .steady (hr.congr rfl rfl rfl rfl rfl)
  | start command h =>
    cases Node.tryStart_cases h with
    | append => exact .learn (hr.congr rfl rfl rfl rfl rfl) rfl (.start command)
    | ignore => exact .steady hr
  | snapshot index snapshot h =>
    cases Node.trySnapshot_cases h <;> exact .steady (hr.congr rfl rfl rfl rfl rfl)
  | restart h => exact .restart

/-- A peer that has just been made again is not leader. -/
theorem not_leader_of_restart (hl : Local w p eff (.restart p)) :
    eff.node.state ≠ .leaderState := by
  cases hl with
  | restart h =>
    intro hs
    rw [h] at hs
    cases (Node.make_state _ _).symm.trans hs

/-! ### Duty in every run -/

/-- Every peer is on duty. -/
def OnDuty (w : World n C D) : Prop := ∀ p, (w.nodes p).Duty p

theorem mainStep_duty {nd : Node n C D} (hd : nd.Duty p) (h : nd.mainStep p = some eff) :
    eff.node.Duty p := by
  cases Node.mainStep_cases h with
  | lead _ hs => exact ⟨fun _ => .inl hs, nofun⟩
  | follow _ hs => exact ⟨nofun, fun _ => hs⟩
  | leaderInit hm | leaderInitDone hm | heartbeat hm | stay hm =>
    have hlead := hd.leader (by rw [hm]; rfl)
    exact ⟨fun _ => hlead, nofun⟩
  | elect | stand | leave | counted | timeout => exact .of_main rfl nofun

/-- Outside of `mainLoop`, a steady step keeps a peer on duty: it casts no vote for itself. -/
theorem steady_duty (hw : w.Plumbed) (hd : (w.nodes p).Duty p) (hb : Ballot w p eff a)
    {nd' : Node n C D} (hs : (w.nodes p).Steady nd') (hv : nd'.votedFor = eff.node.votedFor)
    (ht : nd'.currentTerm = eff.node.currentTerm) (ha : a ≠ .main p) (ha' : a ≠ .restart p) :
    nd'.Duty p := by
  cases hb with
  | quiet hq =>
    refine hd.steady hs ?_ fun hlt => ?_
    · rw [hv]
      exact hq.calm.ballot.imp (·.2) fun h => by simp [h.2]
    · rw [ht] at hlt
      rw [hv]
      rcases hq.calm.ballot with ⟨heq, -⟩ | ⟨-, hnone⟩
      · exact absurd heq hlt.ne'
      · simp [hnone]
  | elect hm => exact absurd rfl ha
  | won hpoll =>
    -- a candidate is neither in `leaderMain` nor in `followerMain`
    obtain ⟨hml, hmf⟩ := hd.main_of_candidate hpoll.candidate
    exact .of_main (by rw [hs.main, hml]) (by rw [hs.main]; exact hmf)
  | grant hh hle hvote hn =>
    rename_i call args
    refine hd.steady hs (.inr ?_) fun hlt => absurd ht hlt.ne'
    -- who asks for a vote is another peer
    obtain ⟨⟨c, hc, hdst, hreq⟩, -⟩ := hw.held p _ hh call (.requestVote args) rfl
    have hok := hw.calls call c hc
    have hsender := hok.sender
    rw [hreq] at hsender
    rw [hv]
    intro heq
    exact hok.ne ((hsender.symm.trans (Option.some.inj heq)).trans hdst.symm)
  | restart => exact absurd rfl ha'

theorem OnDuty.local (hd : w.OnDuty) (hw : w.Plumbed) (hl : Local w p eff a) :
    eff.node.Duty p := by
  by_cases hm : a = .main p
  · subst hm
    cases hl with
    | main h => exact mainStep_duty (hd p) h
  by_cases hr : a = .restart p
  · subst hr
    cases hl with
    | restart h =>
      have hmain : eff.node.main = .read := by rw [h]; exact Node.make_main _ _
      exact .of_main (by rw [hmain]; rfl) (by simp [hmain])
  have hb := local_ballot hl
  cases local_tends hl with
  | steady hs => exact steady_duty hw (hd p) hb hs rfl rfl hm hr
  | learn hs hx hlearn =>
    have h := steady_duty hw (hd p) hb hs rfl rfl hm hr
    exact ⟨h.leader, h.follower⟩
  | main h => exact absurd rfl hm
  | won hc hmain hi =>
    obtain ⟨hml, hmf⟩ := (hd p).main_of_candidate hc
    exact .of_main (by rw [hmain, hml]) (by rw [hmain]; exact hmf)
  | restart => exact absurd rfl hr

theorem OnDuty.step (hd : w.OnDuty) (hw : w.Plumbed) {w' : World n C D}
    (h : w.step a = some w') : w'.OnDuty := by
  obtain ⟨p, eff, heff, rfl⟩ := step_eq_some h
  intro q
  rcases eq_or_ne q p with rfl | hne
  · rw [after_nodes_self]
    exact hd.local hw (effect_local heff)
  · rw [after_nodes_of_ne _ _ _ hne]
    exact hd q

theorem init_onDuty (room : Fin n → ℕ → ℕ) :
    (init room : World n C D).OnDuty := fun _ => .of_main rfl nofun

/-! ### Between two steps of one tenure -/

/-- A leader stays leader as long as it stays in its term, except over a restart. -/
theorem keeps_leader (hd : (w.nodes p).Duty p) (hl : Local w p eff a) (ha : a ≠ .restart p)
    (hs : (w.nodes p).state = .leaderState) :
    eff.node.state = .leaderState ∨ (w.nodes p).currentTerm < eff.node.currentTerm := by
  cases local_tends hl with
  | steady hst => exact hst.keeps hs
  | learn hst hx hlearn => exact hst.keeps hs
  | main h =>
    cases Node.mainStep_cases h with
    | timeout hm => cases hs.symm.trans (hd.follower hm)
    | _ => exact .inl hs
  | won hc hm hi => cases hs.symm.trans hc
  | restart => exact absurd rfl ha

/-- **Tenure.** What an initialised leader has in `matchIndex` it has just reset, or had before
    as the initialised leader of the same term, up to what this step has learned. -/
theorem local_tenure (hd : (w.nodes p).Duty p) (hg : w.ElectsAsCandidate a) (hl : Local w p eff a)
    (hs : eff.node.state = .leaderState)
    (hi : eff.node.leaderInitDone = true ∨ eff.node.main = .leaderInitDone) :
    (eff.node.matchIndex = fun _ => 0) ∨
    ((w.nodes p).state = .leaderState ∧
      ((w.nodes p).leaderInitDone = true ∨ (w.nodes p).main = .leaderInitDone) ∧
      eff.node.currentTerm = (w.nodes p).currentTerm ∧
      (eff.node.matchIndex = (w.nodes p).matchIndex ∨
        ∃ j m, eff.node.matchIndex = Function.update (w.nodes p).matchIndex j m ∧
          Learns w p a j m)) := by
  cases local_tends hl with
  | steady hst =>
    rw [hst.initDone, hst.main] at hi
    exact .inr ⟨(hst.role hs).1, hi, (hst.role hs).2, .inl hst.matchIndex⟩
  | learn hst hx hlearn =>
    obtain ⟨hs', ht⟩ := hst.role hs
    have hinit := hst.initDone
    have hmain := hst.main
    simp only at hinit hmain
    rw [hinit, hmain] at hi
    exact .inr ⟨hs', hi, ht, .inr ⟨_, _, hx, hlearn⟩⟩
  | main h =>
    cases Node.mainStep_cases h with
    | leaderInit => exact .inl rfl
    | leaderInitDone hm => exact .inr ⟨hs, .inr hm, rfl, .inl rfl⟩
    | elect hm => exact absurd hs (hg hm)
    | timeout => cases hs
    | _ => exact .inr ⟨hs, hi.imp_right nofun, rfl, .inl rfl⟩
  | won hc hm hinit =>
    -- `mainLoop` of the new leader is not in `leaderMain` yet
    have hout := (hd.main_of_candidate hc).1
    rw [hinit, hm] at hi
    rcases hi with hi | hi
    · cases hi
    · rw [hi] at hout; cases hout
  | restart => exact absurd hs (not_leader_of_restart hl)

end World

end MitDistributed.Raft
