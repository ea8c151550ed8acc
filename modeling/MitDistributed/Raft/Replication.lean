import MitDistributed.Raft.Simulation
import MitDistributed.Raft.Tenure

namespace MitDistributed.Raft

open Transition Consensus

/-!
# Raft — replication

`World.Refines` is kept by every step that the abstract cluster simulates
(`World.Refines.after`), and so holds in every run under five conditions on its steps
(`World.Replicates`): the three of the simulation; that a peer which leads a later term does
not take an answer to a heartbeat of an earlier one into account (`World.LearnsInTerm`); and that
`AppendEntries` does not cut a log that a goroutine is encoding entries of
(`World.SparesEncoders`).
-/

variable {n : ℕ} {C D : Type}

namespace World

/-! ### The conditions -/

/-- `call` was answered `Success`. -/
def succeeded (w : World n C D) (call : ℕ) : Bool :=
  match (w.calls[call]?).bind Call.reply with
  | some (.appendEntries reply) => reply.success
  | _ => false

/-- A leader that processes the `Success` of a heartbeat leads the term of the heartbeat. -/
def LearnsInTerm (w : World n C D) : Action n C D → Prop
  | .reply p k call true =>
    match (w.nodes p).threads[k]? with
    | some (.sendHeartbeatToAll thisTerm _) =>
      w.succeeded call = true → (w.nodes p).state = .leaderState →
        (w.nodes p).currentTerm = thisTerm
    | _ => True
  | _ => True

instance (w : World n C D) (act : Action n C D) : Decidable (w.LearnsInTerm act) :=
  match act with
  | .reply p k call true =>
    match hk : (w.nodes p).threads[k]? with
    | some (.sendHeartbeatToAll thisTerm _) =>
      decidable_of_iff (w.succeeded call = true → (w.nodes p).state = .leaderState →
        (w.nodes p).currentTerm = thisTerm) (by simp only [LearnsInTerm, hk])
    | none | some (.sendRequestVoteToAll ..) | some (.sendAppendEntriesToAll ..) |
      some (.sendAppendEntries ..) | some (.sendInstallSnapshot ..) |
      some (.tryIncrementCommitIndex _) => isTrue (by simp only [LearnsInTerm, hk])
  | .reply _ _ _ false | .main _ | .restart _ | .thread .. | .apply _ | .deliver _ | .resume _ |
    .start .. | .snapshot .. => isTrue trivial

instance (nd : Node n C D) (args : AppendEntriesArgs n C) : Decidable (nd.Accepts args) :=
  decidable_of_iff' _ (Node.accepts_iff nd args)

/-- `AppendEntries` does not cut the log of a peer while one of its goroutines, between the check
    of its leadership and the call, is encoding the entries of a request. -/
def SparesEncoders (w : World n C D) : Action n C D → Prop
  | .resume p => ∀ call args, (w.nodes p).held = some (.appendLog call args) →
      (w.nodes p).Accepts args → (w.nodes p).encoding = true → ¬ (w.nodes p).Cuts args
  | _ => True

instance (w : World n C D) (act : Action n C D) : Decidable (w.SparesEncoders act) :=
  match act with
  | .resume p =>
    match hh : (w.nodes p).held with
    | some (.appendLog call args) =>
      decidable_of_iff ((w.nodes p).Accepts args → (w.nodes p).encoding = true →
        ¬ (w.nodes p).Cuts args) (by simp [SparesEncoders, hh])
    | none | some (.requestVote ..) | some (.appendCommit ..) | some (.installLog ..) |
      some (.installIndex ..) | some (.installSave ..) | some (.installSend ..) |
      some (.snapshotSave _) => isTrue (by simp [SparesEncoders, hh])
  | .main _ | .restart _ | .thread .. | .reply .. | .apply _ | .deliver _ | .start .. |
    .snapshot .. => isTrue trivial

variable {w w' : World n C D} {a a' : AbstractCluster n C} {p : Fin n} {eff : Effect n C D}
  {act : Action n C D}

/-! ### Answers -/

/-- Only the last step of `AppendEntries` answers `Success`. -/
theorem resume_success (h : (w.nodes p).resume p = some eff) {i : ℕ} {reply : AppendEntriesReply}
    (ha : eff.answer = some (i, .appendEntries reply)) (hs : reply.success = true) :
    ∃ args, (w.nodes p).held = some (.appendCommit i args) ∧
      eff = (w.nodes p).appendCommit p i args := by
  cases Node.resume_cases h with
  | @appendCommit call args hh =>
    simp only [Node.appendCommit, Option.some.injEq, Prod.mk.injEq] at ha
    obtain ⟨rfl, -⟩ := ha
    exact ⟨args, hh, rfl⟩
  | refuseAppend =>
    cases ha
    cases hs
  | _ => cases ha

theorem local_success (h : Local w p eff act) {i : ℕ} {reply : AppendEntriesReply}
    (ha : eff.answer = some (i, .appendEntries reply)) (hs : reply.success = true) :
    ∃ args, (w.nodes p).held = some (.appendCommit i args) ∧
      eff = (w.nodes p).appendCommit p i args := by
  have hnone (h : eff.answer = none) : ∃ args, (w.nodes p).held = some (.appendCommit i args) ∧
      eff = (w.nodes p).appendCommit p i args := by
    rw [h] at ha
    cases ha
  cases h with
  | main h => exact hnone (by cases Node.mainStep_cases h <;> rfl)
  | thread k h => exact hnone (by cases Node.threadStep_cases h <;> rfl)
  | reply k call ok request hc h => exact hnone (by cases Node.threadReply_cases h <;> rfl)
  | apply h => exact hnone (by cases Node.applyStep_cases h <;> rfl)
  | deliver call request hc hp h =>
    generalize request.request = r at h
    exact hnone (by cases Node.handle_cases h <;> rfl)
  | resume h => exact resume_success h ha hs
  | start command h => exact hnone (by cases Node.tryStart_cases h <;> rfl)
  | snapshot index snapshot h => exact hnone (by cases Node.trySnapshot_cases h <;> rfl)
  | restart h => exact hnone (by rw [h]; rfl)

/-- A positive answer is recorded by the step that sends it. -/
theorem local_accepted (h : Local w p eff act) {q : Fin n} {args : AppendEntriesArgs n C} {lii : ℕ}
    {log : List (LogEntry C)} (he : .accepted q args lii log ∈ eff.events) :
    q = p ∧ lii = (w.nodes p).lastIncludedIndex ∧ log = (w.nodes p).log ∧
      ∃ call, (w.nodes p).held = some (.appendCommit call args) := by
  cases local_stored h with
  | leave hl => exact absurd (hl.events _ he) (by simp [Event.isStored])
  | @accept call args' hh =>
    simp only [Node.appendCommit, List.mem_singleton, Event.accepted.injEq] at he
    obtain ⟨rfl, rfl, rfl, rfl⟩ := he
    exact ⟨rfl, rfl, rfl, call, hh⟩
  | copy => simp at he
  | install => simp at he
  | installSave => simp [Node.installSave] at he
  | compact => simp at he
  | snapshotSave => simp [Node.snapshotSave] at he
  | start => simp at he
  | restart => simp [Node.restart] at he

/-- The snapshot of a peer only grows, except over a restart. -/
theorem lastIncludedIndex_mono (h : Stored w p eff act) (ha : act ≠ .restart p) :
    (w.nodes p).lastIncludedIndex ≤ eff.node.lastIncludedIndex := by
  cases h with
  | leave hl => exact hl.same.lastIncludedIndex.ge
  | @copy call args hh hacc =>
    rcases Node.copyLog_eq (w.nodes p) args with h | ⟨log, backing, h⟩ <;> rw [h]
    exact le_rfl
  | @accept call args hh => exact (Node.appendCommit_fields p (w.nodes p) call args).2.1.ge
  | install hh hi => exact hi.2.1.le
  | installSave => exact le_rfl
  | compact hfree hlt => exact hlt.le
  | snapshotSave => exact le_rfl
  | start => exact le_rfl
  | restart => exact absurd rfl ha

/-! ### Requests and goroutines -/

/-- A request built from the log carries the log. -/
theorem carries_of_appendArgs {nd : Node n C D} {l : List (LogEntry C)} (hl : nd.Shows l)
    {term prev commit : ℕ} {args : SenderArgs n}
    (h : nd.appendArgs p term prev commit = some args) :
    (args.request (nd.readSlice args.entries)).Carries l := by
  obtain ⟨-, -, rfl, -, hterm, hlogs⟩ := Node.appendArgs_fields h
  obtain ⟨-, hle, ht⟩ := hl.of_getTermOfLog hterm
  obtain ⟨-, -, -, hentries⟩ := hl.getLogs_eq hlogs
  have hlen := hl.getLogLength_eq
  refine ⟨hle, ht.symm, ?_⟩
  show nd.readSlice args.entries = l.drop args.prevLogIndex
  rw [hentries, hlen, Nat.add_sub_cancel, Nat.add_sub_cancel, List.take_length]

namespace Refines

variable (h : w.Refines a)

include h

/-- The last entry, as a peer reads it. -/
theorem lastTerm_eq {t : ℕ}
    (ht : (w.nodes p).getTermOfLog ((w.nodes p).getLogLength - 1) = some t) :
    (w.nodes p).getLogLength - 1 = (a.log p).length ∧ t = lastTerm LogEntry.term (a.log p) := by
  have hlen := (h.log p).getLogLength_eq
  obtain ⟨-, -, hterm⟩ := (h.log p).of_getTermOfLog ht
  refine ⟨by omega, ?_⟩
  rw [← hterm, hlen]
  rfl

/-- A peer that leads a term has the log of its leader. -/
theorem log_of_leads {t : ℕ} (hl : (w.nodes p).leads t) :
    a.leader t = some p ∧ a.term p = t ∧ a.log p = a.leaderLog t := by
  obtain ⟨rfl, hs⟩ := hl
  have hlead := h.leader p hs
  exact ⟨hlead, h.term p, h.sound.leader_log _ p hlead (h.term p)⟩

/-- Whoever builds a request of a term led that term. -/
theorem leader_of_serves {t : ℕ} (hs : (w.nodes p).Serves t) :
    a.leader t = some p := by
  rcases hs with ⟨k, todo, hk⟩ | ⟨hl, -⟩
  · exact h.threads p _ (List.mem_of_getElem? hk)
  · exact (h.log_of_leads hl).1

/-- It has left the term, or still has the log of its leader. -/
theorem log_of_leader {t : ℕ} (hl : a.leader t = some p) :
    t < a.term p ∨ a.term p = t ∧ a.log p = a.leaderLog t := by
  rcases (h.sound.leader_term hl).lt_or_eq with hlt | heq
  · exact .inl hlt
  · exact .inr ⟨heq.symm, h.sound.leader_log t p hl heq.symm⟩

/-- A leader counts on the answers to requests of its own term. -/
theorem issued_of_counted {j : Fin n} {args : AppendEntriesArgs n C} {l : List (LogEntry C)}
    (hs : (w.nodes p).state = .leaderState) (ht : args.term = (w.nodes p).currentTerm)
    (hid : args.leaderId = p) (hc : args.Counted a j l) :
    a.Issued p (w.nodes p).currentTerm l ∧ l.length ≤ a.acked j (w.nodes p).currentTerm := by
  obtain ⟨hlead, hterm, -⟩ := h.log_of_leads (p := p) ⟨rfl, hs⟩
  unfold AppendEntriesArgs.Counted at hc
  rw [ht, hid] at hc
  rcases hc with hc | hpast
  · exact hc
  · -- the leader has not left its term, and stands for it
    rcases hpast.2 with hlt | hv
    · exact absurd hterm hlt.ne'
    · exact absurd (h.sound.self _ _ hlead) hv

/-- **Requests.** The call that a step makes is backed. -/
theorem backed_of_sends {c : Call n C D}
    (hs : (w.nodes p).Sends p w.calls act c) : c.request.Backed a c.src := by
  cases hs with
  | vote hk hlast =>
    obtain ⟨hlen, hterm⟩ := h.lastTerm_eq hlast
    have hv := (h.threads p _ (List.mem_of_getElem? hk)).1
    exact ⟨a.log p, hlen, hterm, (h.sound.vote_term _ _ _ hv).1, fun _ _ => List.prefix_refl _⟩
  | revote hc hsrc =>
    have hback := h.calls _ _ hc
    rw [hsrc] at hback
    exact hback
  | @heartbeat k prevLogTerm peer thisTerm todo waiting hk hlast =>
    obtain ⟨hlen, hterm⟩ := h.lastTerm_eq hlast
    refine ⟨a.log p, ⟨hlen.le, ?_, ?_⟩, h.sound.log_rooted p, ?_⟩
    · rw [hterm, hlen]
      rfl
    · rw [hlen, List.drop_length]
    · -- the round was started by the leader of the term, or by a follower
      have hround : a.leader thisTerm = some p ∨ a.Past p thisTerm :=
        h.threads p _ (List.mem_of_getElem? hk)
      rcases hround with hl | hp
      · rcases h.log_of_leader hl with hlt | ⟨-, hlog⟩
        · exact .inr ⟨rfl, hlt.le, .inl hlt⟩
        · exact .inl ⟨hl, hlog ▸ List.prefix_refl _⟩
      · exact .inr ⟨rfl, hp⟩
  | append hk hlt =>
    obtain ⟨hlead, hsend⟩ := h.threads p _ (List.mem_of_getElem? hk)
    obtain ⟨l, hc, hp⟩ := hsend.sends hlt
    exact ⟨l, hc, (h.sound.leaderLog_rooted _).of_isPrefix hp, .inl ⟨hlead, hp⟩⟩
  | snapshot hk hl =>
    obtain ⟨hlead, ht, -⟩ := h.log_of_leads hl
    obtain ⟨-, -, hlt | ⟨l, hi, hterm, hp⟩⟩ := h.threads p _ (List.mem_of_getElem? hk)
    · exact absurd ht hlt.ne'
    · exact ⟨l, hi, hterm, hlead, hp⟩

/-- A request with entries that the peer is about to send. -/
theorem backed_append {term prev commit : ℕ} {args : SenderArgs n} {peer : Fin n}
    (ht : (w.nodes p).Serves term) (ha : (w.nodes p).appendArgs p term prev commit = some args) :
    (Thread.sendAppendEntries peer args .check : Thread n C D).Backed a p (w.nodes p) := by
  have hlead := h.leader_of_serves ht
  obtain ⟨hterm, -, -, -, -, hlogs⟩ := Node.appendArgs_fields ha
  rw [← hterm] at hlead
  refine ⟨hlead, (h.log_of_leader hlead).imp_right fun hlog => ?_⟩
  refine ⟨Node.within_getLogs hlogs, a.log p, carries_of_appendArgs (h.log p) ha, ?_⟩
  exact hlog.2 ▸ List.prefix_refl _

/-- A request with the snapshot that the peer is about to send. -/
theorem backed_snapshot {term : ℕ} {peer : Fin n} (ht : (w.nodes p).Serves term) :
    (Thread.sendInstallSnapshot peer ((w.nodes p).snapshotArgs p term) .check :
      Thread n C D).Backed a p (w.nodes p) := by
  have hlead := h.leader_of_serves ht
  have hle := (h.log p).le
  refine ⟨hlead, le_rfl, (h.log_of_leader hlead).imp_right fun hlog => ?_⟩
  refine ⟨(a.log p).take (w.nodes p).lastIncludedIndex, ?_, ?_, ?_⟩
  · exact (List.length_take_of_le hle).symm
  · show (w.nodes p).lastIncludedTerm = _
    rw [(h.log p).term, lastTerm, List.length_take_of_le hle, termAt_take le_rfl]
  · rw [hlog.2]
    exact List.take_prefix _ _

/-- **Goroutines.** A goroutine that a step starts or moves on is backed, other than the one
    that `doElection` starts. -/
theorem backed_of_spawns (hd : (w.nodes p).Duty p) {th : Thread n C D}
    (hs : (w.nodes p).Spawns p w.calls eff act th) :
    th.Backed a p (w.nodes p) ∨ eff = (w.nodes p).doElection p ∧
      th = .sendRequestVoteToAll ((w.nodes p).currentTerm + 1) (others p) 1 [] := by
  have hold {k : ℕ} {th : Thread n C D} (hk : (w.nodes p).threads[k]? = some th) :=
    h.threads p th (List.mem_of_getElem? hk)
  cases hs with
  | elect he => exact .inr ⟨he, rfl⟩
  | vote hk => have hback := hold hk; exact .inl hback
  | revote hv | count hv => have hback := hold hv.thread; exact .inl hback
  | heartbeat hm =>
    left
    rcases hd.leader (by rw [hm]; rfl) with hl | ⟨-, hv⟩
    · exact .inl (h.leader p hl)
    · refine .inr ⟨(h.term p).ge, .inr ?_⟩
      rwa [← h.votedFor p]
  | beat hk => have hback := hold hk; exact .inl hback
  | start hs => exact .inl (h.leader p hs)
  | broadcast hk => have hback := hold hk; exact .inl hback
  | append ht ha => exact .inl (h.backed_append ht ha)
  | retry hk ht hfree ha => exact .inl (h.backed_append (.inr ⟨ht, hfree⟩) ha)
  | check hk hl =>
    obtain ⟨hlead, hsend⟩ := hold hk
    have hterm := (h.log_of_leads hl).2.1
    exact .inl ⟨hlead, hsend.presents hterm.le, List.nil_prefix⟩
  | encode hk hlt =>
    obtain ⟨hlead, hsend⟩ := hold hk
    exact .inl ⟨hlead, hsend.encode hlt⟩
  | call hk =>
    obtain ⟨hlead, hpres, -⟩ := hold hk
    exact .inl ⟨hlead, .inr hpres⟩
  | resend hk => have hback := hold hk; exact .inl hback
  | snapshot ht => exact .inl (h.backed_snapshot ht)
  | resendSnapshot hk => have hback := hold hk; exact .inl hback
  | scanStart | scan | write => exact .inl trivial

end Refines

/-! ### `matchIndex` -/

theorem Backs.after {q j : Fin n} {m : ℕ} (h : w.Backs a q j m)
    (hlii : (w.nodes q).lastIncludedIndex ≤ ((w.after act p eff).nodes q).lastIncludedIndex)
    (ht : ((w.after act p eff).nodes q).currentTerm = (w.nodes q).currentTerm)
    (hlog : (a.leaderLog (w.nodes q).currentTerm).length ≤
      (a'.leaderLog (w.nodes q).currentTerm).length) : (w.after act p eff).Backs a' q j m := by
  rcases h with hle | ⟨hj, hle⟩ | ⟨args, lii, log, hmem, hterm, hl, hle⟩
  · exact .inl (hle.trans hlii)
  · exact .inr (.inl ⟨hj, hle.trans (ht ▸ hlog)⟩)
  · exact .inr (.inr ⟨args, lii, log, List.mem_append_right _ hmem, hterm.trans ht.symm, hl, hle⟩)

/-- What a leader learns from an answer is backed, if the answer is one to its own term. -/
theorem Refines.backs_of_learns (h : w.Refines a) (hw : w.Plumbed) (hg : w.LearnsInTerm act)
    (hs : (w.nodes p).state = .leaderState) {j : Fin n} {m : ℕ} (hl : Learns w p act j m) :
    w.Backs a p j m ∨ ∃ command, act = .start p command ∧ j = p ∧
      m = (w.nodes p).getLogLength := by
  cases hl with
  | @heartbeat k waiting call request thisTerm replyCount args reply hk hmem hc hr ho hsucc =>
    left; right; right
    have hterm : (w.nodes p).currentTerm = thisTerm := by
      simp only [LearnsInTerm, hk] at hg
      exact hg (by simp [succeeded, hc, ho, hsucc]) hs
    obtain ⟨-, -, hcalls⟩ := (hw.threads p).get hk
    obtain ⟨request', hc', hsrc, hbeat⟩ := hcalls call hmem
    obtain rfl : request = request' := Option.some.inj (hc.symm.trans hc')
    rw [hr] at hbeat
    have hsender := (hw.calls call request hc).sender
    rw [hr] at hsender
    obtain ⟨lii, log, hacc⟩ := h.replies call request args reply hc hr ho hsucc
    exact ⟨args, lii, log, hacc, hbeat.1.trans hterm.symm, hsender.trans hsrc, Nat.le_add_right _ _⟩
  | @append k call request peer args reply hk hc ho hsucc hlead =>
    left; right; right
    obtain ⟨-, -, hid, hcall⟩ := (hw.threads p).get hk
    obtain ⟨request', hc', -, hdst, entries, hlen, hr⟩ := hcall
    obtain rfl : request = request' := Option.some.inj (hc.symm.trans hc')
    obtain ⟨lii, log, hacc⟩ := h.replies call request _ reply hc hr ho hsucc
    exact ⟨_, lii, log, hdst ▸ hacc, hlead.1.symm, hid, Nat.add_le_add_left hlen.ge _⟩
  | snapshot hk hlead => exact .inl (.inl (h.threads p _ (List.mem_of_getElem? hk)).2.1)
  | start command => exact .inr ⟨command, rfl, rfl, rfl⟩

/-- `Start` at a leader adds one entry. -/
theorem getLogLength_start {command : Option C} (h : (w.nodes p).tryStart p command = some eff)
    (hs : (w.nodes p).state = .leaderState) :
    eff.node.getLogLength = (w.nodes p).getLogLength + 1 := by
  cases Node.tryStart_cases h with
  | append => exact Node.getLogLength_appendCommand p (w.nodes p) command
  | ignore hne => exact absurd hs hne

/-! ### The step -/

section Step

variable (h : w.Refines a) (hsim : Simulates w p eff a a')

include h hsim

theorem Simulates.grows : a.Grows a' := by
  rcases hsim.step with rfl | hstep
  · exact .refl _
  · exact hstep.grows h.sound

theorem Simulates.sound : a'.Sound LogEntry.term := by
  rcases hsim.step with rfl | hstep
  · exact h.sound
  · exact h.sound.step hstep

theorem Simulates.complete : a'.Complete LogEntry.term := by
  rcases hsim.step with rfl | hstep
  · exact h.complete
  · exact h.complete.step h.sound hstep

theorem Simulates.calls (hw : w.Plumbed) (hl : Local w p eff act) {i : ℕ} {c : Call n C D}
    (hc : (w.after act p eff).calls[i]? = some c) : c.request.Backed a' c.src := by
  have hg := hsim.grows h
  rcases callsAfter_cases hc with ⟨c₀, hc₀, rfl⟩ | ⟨-, hs⟩
  · exact (h.calls i c₀ hc₀).grows h.sound hg
  · exact (h.backed_of_sends (local_sends hw hl hs)).grows h.sound hg

/-- The goroutine that `doElection` starts. -/
theorem Simulates.elects (he : eff = (w.nodes p).doElection p) {todo : List (Fin n)} {sum : ℕ}
    {waiting : List ℕ} :
    (Thread.sendRequestVoteToAll ((w.nodes p).currentTerm + 1) todo sum waiting :
      Thread n C D).Backed a' p eff.node := by
  subst he
  refine ⟨hsim.votedFor.symm, fun _ hlead => ?_⟩
  rcases hsim.elected _ _ hlead with hold | ⟨-, hs⟩
  · -- nobody leads a term that it has not reached
    have hle := h.sound.leader_term hold
    rw [h.term p] at hle
    omega
  · exact hs

/-- The entries that `AppendEntries` copies spare what the peer keeps. -/
theorem Simulates.copy_spares {call m k : ℕ} {args : AppendEntriesArgs n C}
    (hcopy : w.Copies p eff call args) (hp : (a.log p).take k <+: a'.log p)
    (hm : m ≤ (w.nodes p).log.length) (hk : (w.nodes p).lastIncludedIndex + m ≤ k + 1) :
    Node.SparesBelow m (w.nodes p) ((w.nodes p).copyLog args) := by
  obtain ⟨-, hacc, rfl⟩ := hcopy
  refine Node.copyLog_sparesBelow (h.log p).ne hacc hm fun i e hi he => ?_
  have hshows : ((w.nodes p).copyLog args).Shows (a'.log p) := hsim.log.congr rfl rfl rfl
  have hsame : ((w.nodes p).copyLog args).lastIncludedIndex = (w.nodes p).lastIncludedIndex := by
    rcases Node.copyLog_eq (w.nodes p) args with heq | ⟨log, backing, heq⟩ <;> rw [heq]
    rfl
  have hlow := (Node.getLog_lt he).1
  rw [(h.log p).getLog_eq hlow] at he
  rw [hshows.getLog_eq (hsame ▸ hlow)]
  obtain ⟨rest, hrest⟩ := hp
  have hslot : ((a.log p).take k)[i - 1]? = some e := by
    rw [List.getElem?_take_of_lt (by omega), he]
  rw [← hrest, List.getElem?_append_left (List.getElem?_eq_some_iff.mp hslot).1, hslot]

/-- A peer in a term that it leads keeps its log. -/
theorem Simulates.log_isPrefix {t : ℕ} (hlead : a.leader t = some p) (ht : a.term p = t)
    (hterm : eff.node.currentTerm = (w.nodes p).currentTerm) : a.log p <+: a'.log p := by
  have hg := hsim.grows h
  have hterm' : a'.term p = t := by rw [hsim.term, hterm, ← h.term p, ht]
  rw [h.sound.leader_log t p hlead ht,
    (hsim.sound h).leader_log t p (hg.leader _ _ hlead) hterm']
  exact hg.leaderLog t (by simp [hlead])

/-- What a goroutine may still encode is spared: a leader does not cut its log, and others do not
    cut theirs while they encode. -/
theorem Simulates.spares (hencode : w.SparesEncoders act) (hl : Local w p eff act)
    (hr : act ≠ .restart p) {peer : Fin n} {args : SenderArgs n} {pc : AppendPc C}
    (hth : .sendAppendEntries peer args pc ∈ eff.node.threads) (hlead : a.leader args.term = some p)
    (hlive : a.term p ≤ args.term ∨ pc.encoding = true) :
    Node.SparesBelow (w.nodes p).log.length (w.nodes p) eff.node := by
  refine (local_stored hl).sparesBelow hr fun call received hresume hcopy => ?_
  subst hresume
  rcases hlive with hle | henc
  · have hterm := le_antisymm hle (h.sound.leader_term hlead)
    have hlen := (h.log p).getLogLength_eq
    have hsame : eff.node.currentTerm = (w.nodes p).currentTerm := by
      obtain ⟨-, -, rfl⟩ := hcopy
      rcases Node.copyLog_eq (w.nodes p) received with heq | ⟨log, backing, heq⟩ <;> rw [heq]
      rfl
    refine hsim.copy_spares h hcopy (k := (a.log p).length) ?_ le_rfl ?_
    · rw [List.take_length]
      exact hsim.log_isPrefix h hlead hterm hsame
    · unfold Node.getLogLength at hlen
      omega
  · obtain ⟨hh, hacc, -⟩ := hcopy
    -- a handler starts no goroutine, so that this one was encoding before
    cases hl with
    | resume hstep =>
      rw [Node.resume_threads hstep] at hth
      have hkeep := hencode call received hh hacc (Node.encoding_of_mem hth henc)
      exact Node.copyLog_spares (h.log p).ne hacc hkeep

theorem Simulates.threads (hd : w.OnDuty) (hencode : w.SparesEncoders act) (hl : Local w p eff act)
    (q : Fin n) {th : Thread n C D} (hth : th ∈ ((w.after act p eff).nodes q).threads) :
    th.Backed a' q ((w.after act p eff).nodes q) := by
  have hg := hsim.grows h
  rcases eq_or_ne q p with rfl | hne
  · rw [after_nodes_self] at hth ⊢
    by_cases hr : act = .restart q
    · subst hr
      cases hl with
      | restart heq =>
        rw [heq] at hth
        exact absurd hth (by simp [Node.restart, Node.make_threads])
    have hgrows (hb : th.Backed a q (w.nodes q)) : th.Backed a' q eff.node := by
      refine hb.grows h.sound hg (lastIncludedIndex_mono (local_stored hl) hr) ?_ ?_ ?_
      · intro ht hs
        rw [hsim.term, h.term q] at ht
        exact (keeps_leader (hd q) hl hr hs).resolve_right (by omega)
      · exact fun t hlead => (hsim.elected t q hlead).imp_right (·.2)
      · rintro peer args pc rfl hlead hlive
        exact hsim.spares h hencode hl hr hth hlead hlive
    rcases local_moves hl th hth with hold | hnew
    · exact hgrows (h.threads q th hold)
    · rcases h.backed_of_spawns (hd q) hnew with hb | ⟨he, rfl⟩
      · exact hgrows hb
      · exact hsim.elects h he
  · rw [after_nodes_of_ne _ _ _ hne] at hth ⊢
    refine (h.threads q th hth).grows h.sound hg le_rfl (fun _ hs => hs) (fun t hlead => ?_) ?_
    · exact .inl ((hsim.elected t q hlead).resolve_right fun hq => hne hq.1)
    · exact fun _ _ _ _ _ _ => .of_eq rfl rfl _

theorem Simulates.answered (hl : Local w p eff act) {q : Fin n} {args : AppendEntriesArgs n C}
    {lii : ℕ} {log : List (LogEntry C)} (he : .accepted q args lii log ∈ eff.events ++ w.trace) :
    args.Answered a' q lii log := by
  rcases List.mem_append.mp he with hnew | hold
  · obtain ⟨rfl, rfl, rfl, call, hh⟩ := local_accepted hl hnew
    obtain ⟨l, hc, hp, hcount⟩ := h.ready q call args hh
    exact ⟨l, a.log q, hc, hcount.grows (hsim.grows h), hp, (h.log q).ne, (h.log q).tail⟩
  · exact (h.answered q args lii log hold).grows (hsim.grows h)

omit hsim in
theorem Refines.replies_after (hw : w.Plumbed) (hl : Local w p eff act) {i : ℕ} {c : Call n C D}
    {args : AppendEntriesArgs n C} {reply : AppendEntriesReply}
    (hc : (w.after act p eff).calls[i]? = some c) (hreq : c.request = .appendEntries args)
    (hrep : c.reply = some (.appendEntries reply)) (hs : reply.success = true) :
    ∃ lii log, .accepted c.dst args lii log ∈ eff.events ++ w.trace := by
  rcases callsAfter_cases hc with ⟨c₀, hc₀, rfl⟩ | ⟨-, hsend⟩
  · rcases callAfter_reply hrep with hold | hnew
    · obtain ⟨lii, log, hmem⟩ := h.replies i c₀ args reply hc₀ hreq hold hs
      exact ⟨lii, log, List.mem_append_right _ hmem⟩
    · obtain ⟨args', hh, heff⟩ := local_success hl hnew hs
      obtain ⟨⟨c₁, hc₁, hdst, hreq₁⟩, -⟩ := hw.held p _ hh i (.appendEntries args') rfl
      obtain rfl : c₀ = c₁ := Option.some.inj (hc₀.symm.trans hc₁)
      obtain rfl : args = args' := Request.appendEntries.inj (hreq.symm.trans hreq₁)
      refine ⟨(w.nodes p).lastIncludedIndex, (w.nodes p).log, List.mem_append_left _ ?_⟩
      rw [heff, callAfter_dst, hdst]
      exact List.mem_singleton_self _
  · -- a new call has no answer
    have hnew : c.reply = none := by cases local_sends hw hl hsend <;> rfl
    rw [hnew] at hrep
    cases hrep

theorem Simulates.matched (hw : w.Plumbed) (hd : w.OnDuty) (hcand : w.ElectsAsCandidate act)
    (hlearn : w.LearnsInTerm act) (hl : Local w p eff act) (q : Fin n)
    (hs : ((w.after act p eff).nodes q).state = .leaderState)
    (hi : ((w.after act p eff).nodes q).leaderInitDone = true ∨
      ((w.after act p eff).nodes q).main = .leaderInitDone) (j : Fin n) :
    (w.after act p eff).Backs a' q j (((w.after act p eff).nodes q).matchIndex j) := by
  have hg := hsim.grows h
  have hgrow {q : Fin n} (hs : (w.nodes q).state = .leaderState) :
      (a.leaderLog (w.nodes q).currentTerm).length ≤
        (a'.leaderLog (w.nodes q).currentTerm).length :=
    (hg.leaderLog _ (by rw [h.leader q hs]; simp)).length_le
  rcases eq_or_ne q p with rfl | hne
  · rw [after_nodes_self] at hs hi ⊢
    rcases local_tenure (hd q) hcand hl hs hi with hzero | ⟨hs₀, hi₀, hterm, hmatch⟩
    · rw [hzero]
      exact .inl (Nat.zero_le _)
    have hr : act ≠ .restart q := by
      rintro rfl
      exact not_leader_of_restart hl hs
    have hafter {j : Fin n} {m : ℕ} (hb : w.Backs a q j m) :
        (w.after act q eff).Backs a' q j m := by
      refine hb.after ?_ ?_ (hgrow hs₀) <;> rw [after_nodes_self]
      · exact lastIncludedIndex_mono (local_stored hl) hr
      · exact hterm
    have hold (j : Fin n) := hafter (h.matched q hs₀ hi₀ j)
    rcases hmatch with heq | ⟨j', m, heq, hlearns⟩
    · rw [heq]
      exact hold j
    rw [heq]
    rcases eq_or_ne j j' with rfl | hj
    · rw [Function.update_self]
      rcases h.backs_of_learns hw hlearn hs₀ hlearns with hb | ⟨command, rfl, rfl, rfl⟩
      · exact hafter hb
      · -- the leader counts its own entry
        refine .inr (.inl ⟨rfl, ?_⟩)
        cases hl with
        | start _ hstart =>
          have hlen := getLogLength_start hstart hs₀
          have hshow := hsim.log.getLogLength_eq
          rw [after_nodes_self,
            ← (hsim.sound h).leader_log _ j (hsim.leader hs) hsim.term]
          omega
    · rw [Function.update_of_ne hj]
      exact hold j
  · have hq : (w.after act p eff).nodes q = w.nodes q := after_nodes_of_ne w act eff hne
    rw [hq] at hs hi ⊢
    refine (h.matched q hs hi j).after ?_ ?_ (hgrow hs) <;> rw [hq]

/-- **Step.** The abstract cluster goes along with every step. -/
theorem Refines.after (hw : w.Plumbed) (hd : w.OnDuty) (hcand : w.ElectsAsCandidate act)
    (hlearn : w.LearnsInTerm act) (hencode : w.SparesEncoders act) (hl : Local w p eff act) :
    (w.after act p eff).Refines a' := by
  have hg := hsim.grows h
  refine
    { sound := hsim.sound h
      complete := hsim.complete h
      term := forall_nodes_after (Q := fun q nd => a'.term q = nd.currentTerm) hsim.term
        fun q hne => ?_
      votedFor := forall_nodes_after (Q := fun q nd => nd.votedFor = a'.vote nd.currentTerm q)
        hsim.votedFor fun q hne => ?_
      log := forall_nodes_after (Q := fun q nd => nd.Shows (a'.log q)) hsim.log fun q hne => ?_
      voted := fun t v c hv => ?_
      leader := forall_nodes_after (Q := fun q nd => nd.state = .leaderState →
        a'.leader nd.currentTerm = some q) hsim.leader fun q hne hs => hg.leader _ _ (h.leader q hs)
      ready := forall_nodes_after (Q := fun q nd => ∀ call args,
        nd.held = some (.appendCommit call args) → args.Ready a' q) hsim.ready
        fun q hne call args hh => ?_
      calls := fun i c => hsim.calls h hw hl
      threads := fun q th => hsim.threads h hd hencode hl q
      answered := fun q args lii log => hsim.answered h hl
      replies := fun i c args reply => h.replies_after hw hl
      matched := hsim.matched h hw hd hcand hlearn hl }
  · rw [(hsim.others q hne).1, h.term q]
  · rw [(hsim.others q hne).2.2, h.votedFor q]
  · rw [(hsim.others q hne).2.1]; exact h.log q
  · rcases List.mem_append.mp hv with hnew | hold
    · exact hsim.voted t v c hnew
    · exact hg.vote t v c (h.voted t v c hold)
  · exact (h.ready q call args hh).grows hg (hsim.others q hne).2.1

end Step

/-! ### Runs -/

/-- The five conditions on a step. -/
@[mk_iff]
structure Replicates (w : World n C D) (act : Action n C D) : Prop where
  keepsState : w.KeepsState act
  electsAsCandidate : w.ElectsAsCandidate act
  installsOwn : w.InstallsOwn act
  learnsInTerm : w.LearnsInTerm act
  sparesEncoders : w.SparesEncoders act

instance (w : World n C D) (act : Action n C D) : Decidable (w.Replicates act) :=
  decidable_of_iff' _ (replicates_iff w act)

/-- **Step.** Under the five conditions the step of one peer is simulated, and what is under way
    stays backed. -/
theorem Refines.step (h : w.Refines a) (hw : w.Plumbed) (he : w.Tallied) (hd : w.OnDuty)
    (hg : w.Replicates act) (heff : w.effect act = some (p, eff)) :
    ∃ a', Simulates w p eff a a' ∧ (w.after act p eff).Refines a' := by
  have hstep : w.step act = some (w.after act p eff) := by
    unfold World.step
    rw [heff]
    rfl
  have hl := effect_local heff
  obtain ⟨a', hsim⟩ := h.simulates hw he (he.step hw hstep) hg.keepsState hg.electsAsCandidate
    hg.installsOwn hl
  exact ⟨a', hsim, h.after hsim hw hd hg.electsAsCandidate hg.learnsInTerm hg.sparesEncoders hl⟩

theorem init_refines (room : Fin n → ℕ → ℕ) :
    (init room : World n C D).Refines Cluster.init where
  sound := Cluster.init_sound
  complete := Cluster.init_complete
  term _ := rfl
  votedFor _ := rfl
  log _ := ⟨le_rfl, List.cons_ne_nil _ _, rfl, rfl⟩
  voted t v c hv := absurd hv List.not_mem_nil
  leader p hs := by cases hs
  ready p call args hh := by cases hh
  calls i c hc := by simp [init] at hc
  threads p th hth := absurd hth List.not_mem_nil
  answered p args lii log he := absurd he List.not_mem_nil
  replies i c args reply hc := by simp [init] at hc
  matched p hs := by cases hs

theorem Reachable.onDuty {ok : World n C D → Action n C D → Prop} (h : Reachable ok w) :
    w.OnDuty := by
  induction h using Reachable.induct with
  | refl room => exact init_onDuty room
  | tail act hr _ hstep ih => exact ih.step (Reachable.plumbed hr) hstep

/-- **Run.** A run whose steps meet the five conditions refines a run of the abstract cluster. -/
theorem Reachable.refines {ok : World n C D → Action n C D → Prop}
    (hok : ∀ w act, Reachable ok w → ok w act → w.Replicates act) (h : Reachable ok w) :
    ∃ a, w.Refines a := by
  induction h using Reachable.induct with
  | refl room => exact ⟨_, init_refines room⟩
  | tail act hr hact hstep ih =>
    obtain ⟨a, ha⟩ := ih
    obtain ⟨p, eff, heff, rfl⟩ := step_eq_some hstep
    obtain ⟨a', -, ha'⟩ := ha.step (Reachable.plumbed hr) (Reachable.tallied hr)
      (Reachable.onDuty hr) (hok _ act hr hact) heff
    exact ⟨a', ha'⟩

end World

end MitDistributed.Raft
