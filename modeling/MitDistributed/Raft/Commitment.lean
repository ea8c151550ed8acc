import MitDistributed.Consensus.Commitment
import MitDistributed.Raft.ApplyStream
import MitDistributed.Raft.CommitIndex
import MitDistributed.Raft.Replication

namespace MitDistributed.Raft

open Transition Consensus Memory

/-!
# Raft — what a peer takes for committed

`World.Commits w a` ties the commit indices of a cluster that refines `a` to what is committed
in `a`.  A peer knows its log up to `commitIndex` (`Cluster.Known`); whatever may raise the commit
index of a peer carries a certificate:

* the `LeaderCommit` of a request covers a part of the log that the request carries, committed by
  the term of the request; a snapshot covers a committed log;
* a pass of `tryIncrementCommitIndex` counts at an entry of its term, and what it is about to
  commit is known to the peer.

The batch that `applyLoop` has taken is a window on entries that the peer knows, which
`AppendEntries` therefore does not overwrite (`Node.Batch`); what it shows, and every command that
was delivered, is decided at its index (`Cluster.Decided`).
-/

variable {n : ℕ} {C D : Type}

/-! ### Certificates -/

/-- `LeaderCommit` covers entries of the log that the request carries, committed by its term. -/
def AppendEntriesArgs.Certified (a : AbstractCluster n C) (args : AppendEntriesArgs n C) : Prop :=
  ∃ l, args.Carries l ∧ a.Rooted LogEntry.term l ∧ args.leaderCommit ≤ l.length ∧
    a.Sure LogEntry.term args.term (l.take args.leaderCommit)

/-- `LeaderCommit` does not go beyond the entries that are to be sent, and covers a log committed by
    the term of the request. -/
def SenderArgs.Certified (a : AbstractCluster n C) (args : SenderArgs n) : Prop :=
  args.leaderCommit ≤ args.prevLogIndex + args.entries.length ∧
    ∃ l, l.length = args.leaderCommit ∧ a.Sure LogEntry.term args.term l

/-- The snapshot covers a log committed by the term of the request. -/
def InstallSnapshotArgs.Certified (a : AbstractCluster n C) (args : InstallSnapshotArgs n D) :
    Prop :=
  ∃ l, l.length = args.lastIncludedIndex ∧ a.Sure LogEntry.term args.term l

def Request.Certified (a : AbstractCluster n C) : Request n C D → Prop
  | .requestVote _ => True
  | .appendEntries args => args.Certified a
  | .installSnapshot args => args.Certified a

/-- A request that `p` has ready is certified, unless `p` has left its term and will find so before
    it encodes the request; a pass of `tryIncrementCommitIndex` counts at an entry of its term, and
    commits what `p` knows. -/
def Thread.Certified (a : AbstractCluster n C) (p : Fin n) : Thread n C D → Prop
  | .sendAppendEntries _ args pc =>
    (pc.encoding = false ∧ args.term < a.term p) ∨ args.Certified a
  | .sendInstallSnapshot _ args _ => args.term < a.term p ∨ args.Certified a
  | .tryIncrementCommitIndex (.count thisTerm _ i) => i = 0 ∨ a.Own LogEntry.term thisTerm i
  | .tryIncrementCommitIndex (.commit _ _ i count) => count ≤ n / 2 ∨ a.Known LogEntry.term p i
  | .tryIncrementCommitIndex (.write _ _ i) => a.Known LogEntry.term p i
  | _ => True

section Certificates

variable {a a' : AbstractCluster n C} {p : Fin n}

/-- A request carries one log. -/
theorem AppendEntriesArgs.Carries.unique {args : AppendEntriesArgs n C} {l l' : List (LogEntry C)}
    (h : args.Carries l) (h' : args.Carries l') (hm : Matching LogEntry.term l l') : l = l' := by
  have htake := hm args.prevLogIndex h.le h'.le (h.term.symm.trans h'.term)
  have hdrop : l.drop args.prevLogIndex = l'.drop args.prevLogIndex :=
    h.entries.symm.trans h'.entries
  rw [← List.take_append_drop args.prevLogIndex l, htake, hdrop, List.take_append_drop]

theorem AppendEntriesArgs.Certified.grows {args : AppendEntriesArgs n C} (h : args.Certified a)
    (hs : a.Sound LogEntry.term) (hg : a.Grows a') : args.Certified a' := by
  obtain ⟨l, hc, hr, hle, hsure⟩ := h
  exact ⟨l, hc, hr.grows hs hg, hle, hsure.grows hs hg⟩

theorem SenderArgs.Certified.grows {args : SenderArgs n} (h : args.Certified a)
    (hs : a.Sound LogEntry.term) (hg : a.Grows a') : args.Certified a' := by
  obtain ⟨hle, l, hlen, hsure⟩ := h
  exact ⟨hle, l, hlen, hsure.grows hs hg⟩

theorem InstallSnapshotArgs.Certified.grows {args : InstallSnapshotArgs n D} (h : args.Certified a)
    (hs : a.Sound LogEntry.term) (hg : a.Grows a') : args.Certified a' := by
  obtain ⟨l, hlen, hsure⟩ := h
  exact ⟨l, hlen, hsure.grows hs hg⟩

theorem Request.Certified.grows {r : Request n C D} (h : r.Certified a) (hs : a.Sound LogEntry.term)
    (hg : a.Grows a') : r.Certified a' := by
  cases r with
  | requestVote args => trivial
  | appendEntries args => exact AppendEntriesArgs.Certified.grows h hs hg
  | installSnapshot args => exact InstallSnapshotArgs.Certified.grows h hs hg

theorem Thread.Certified.grows {th : Thread n C D} (h : th.Certified a p)
    (hs : a.Sound LogEntry.term) (hg : a.Grows a')
    (hk : ∀ i, a.Known LogEntry.term p i → a'.Known LogEntry.term p i) : th.Certified a' p := by
  match th with
  | .sendAppendEntries _ args _ =>
    exact Or.imp (And.imp_right fun hlt => hlt.trans_le (hg.term p)) (fun hc => hc.grows hs hg) h
  | .sendInstallSnapshot _ args _ =>
    exact Or.imp (fun hlt => hlt.trans_le (hg.term p)) (fun hc => hc.grows hs hg) h
  | .tryIncrementCommitIndex (.count thisTerm _ i) =>
    exact Or.imp_right (fun hown => hown.grows hs hg) h
  | .tryIncrementCommitIndex (.commit _ _ i count) => exact Or.imp_right (hk i) h
  | .tryIncrementCommitIndex (.write _ _ i) => exact hk i h
  | .tryIncrementCommitIndex .top | .tryIncrementCommitIndex (.scan ..) |
    .sendRequestVoteToAll .. | .sendHeartbeatToAll .. | .sendAppendEntriesToAll .. => trivial

end Certificates

/-! ### The invariant -/

/-- The window `s` of `applyLoop` is on entries that `p` knows, from index `nextApplied` on, and
    what it shows is decided. -/
structure Node.Batch (nd : Node n C D) (a : AbstractCluster n C) (p : Fin n) (nextApplied : ℕ)
    (s : Slice) : Prop where
  frames : nd.Frames s
  place : s.array = nd.backing.retired.length → nd.lastIncludedIndex + s.first = nextApplied
  known : a.Known LogEntry.term p (nextApplied + s.length - 1)
  decided : ∀ j e, (nd.readSlice s)[j]? = some e → a.Decided LogEntry.term (j + nextApplied) e

/-- A batch at a peer that the step does not concern. -/
theorem Node.Batch.grows {nd : Node n C D} {a a' : AbstractCluster n C} {p : Fin n}
    {nextApplied : ℕ} {s : Slice} (h : nd.Batch a p nextApplied s) (hs : a.Sound LogEntry.term)
    (hg : a.Grows a') (hk : ∀ i, a.Known LogEntry.term p i → a'.Known LogEntry.term p i) :
    nd.Batch a' p nextApplied s :=
  ⟨h.frames, h.place, hk _ h.known, fun j e he => (h.decided j e he).grows hs hg⟩

/-- What the peers take for committed is committed in `a`. -/
structure World.Commits (w : World n C D) (a : AbstractCluster n C) : Prop where
  acks : a.Acks
  known : ∀ p, a.Known LogEntry.term p (w.nodes p).commitIndex
  included : ∀ p, a.Known LogEntry.term p (w.nodes p).lastIncludedIndex
  installing : ∀ p call args pc, (w.nodes p).held = some (.installIndex call args pc) →
    a.Known LogEntry.term p args.lastIncludedIndex
  initialised : ∀ p, (w.nodes p).state = .leaderState →
    (∃ i, a.Own LogEntry.term (w.nodes p).currentTerm i) →
    (w.nodes p).leaderInitDone = true ∨ (w.nodes p).main = .leaderInitDone
  calls : ∀ (i : ℕ) (c : Call n C D), w.calls[i]? = some c → c.request.Certified a
  threads : ∀ p, ∀ th ∈ (w.nodes p).threads, th.Certified a p
  applying : ∀ p nextApplied toBeApplied i,
    (w.nodes p).applying = .send nextApplied toBeApplied i →
    (w.nodes p).Batch a p nextApplied toBeApplied
  applied : ∀ p command index, .applied p (.command command index) ∈ w.trace →
    ∃ e, a.Decided LogEntry.term index e ∧ e.command = command

/-! ### Counting -/

/-- More than half of the peers count at index `i` if those that hold it are a majority. -/
theorem Node.majority_iff_countMatch {nd : Node n C D} {i : ℕ} :
    Majority (Finset.univ.filter fun j => i ≤ nd.matchIndex j) ↔ n / 2 < nd.countMatch i := by
  have hcard : (Finset.univ.filter fun j => i ≤ nd.matchIndex j).card = nd.countMatch i := by
    rw [Finset.card_def, Finset.filter_val, ← Multiset.countP_eq_card_filter]
    rfl
  unfold Majority
  rw [hcard, Fintype.card_fin]
  omega

namespace World

/-- A pass of `tryIncrementCommitIndex` counts only while its peer leads the term of the pass. -/
def CommitsInTerm (w : World n C D) : Action n C D → Prop
  | .thread p k =>
    match (w.nodes p).threads[k]? with
    | some (.tryIncrementCommitIndex (.count thisTerm _ _)) => (w.nodes p).leads thisTerm
    | _ => True
  | _ => True

/-- A round of heartbeats sends only while its peer is in the term of the round. -/
def BeatsInTerm (w : World n C D) : Action n C D → Prop
  | .thread p k =>
    match (w.nodes p).threads[k]? with
    | some (.sendHeartbeatToAll thisTerm (.send (_ :: _) _)) => (w.nodes p).currentTerm = thisTerm
    | _ => True
  | _ => True

variable {w : World n C D} {a a' : AbstractCluster n C} {p : Fin n} {eff : Effect n C D}
  {act : Action n C D}

namespace Commits

variable (hc : w.Commits a) (h : w.Refines a)

include hc h

/-- **Counting.** What more than half of the peers count for is known to the leader. -/
theorem known_of_count {thisTerm i : ℕ} (hl : (w.nodes p).leads thisTerm)
    (hown : a.Own LogEntry.term thisTerm i) (hcount : n / 2 < (w.nodes p).countMatch i) :
    a.Known LogEntry.term p i := by
  by_cases hsnap : i ≤ (w.nodes p).lastIncludedIndex
  · exact (hc.included p).mono hsnap
  obtain ⟨hlead, hterm, hlog⟩ := h.log_of_leads hl
  obtain ⟨rfl, hs⟩ := hl
  have hmatch := h.matched p hs (hc.initialised p hs ⟨i, hown⟩)
  rw [← hterm] at hown hlog
  refine hown.known hlog (Node.majority_iff_countMatch.mpr hcount) fun j hj => ?_
  have hij : i ≤ (w.nodes p).matchIndex j := (Finset.mem_filter.mp hj).2
  rw [hterm]
  rcases hmatch j with hle | ⟨rfl, hle⟩ | ⟨args, lii, log, hacc, ht, hid, hle⟩
  · exact absurd (hij.trans hle) hsnap
  · -- the leader itself
    exact (hij.trans hle).trans (hc.acks _ _ hlead)
  · obtain ⟨l, -, hcar, hcounted, -⟩ := h.answered j args lii log hacc
    have hack := (h.issued_of_counted hs ht hid hcounted).2
    have hlen := hcar.length
    omega

/-- The log of a peer in the term of a request certifies the commit index of the peer. -/
theorem certified_log {args : AppendEntriesArgs n C} (hcar : args.Carries (a.log p))
    (ht : a.term p = args.term) (hcommit : args.leaderCommit = (w.nodes p).commitIndex) :
    args.Certified a := by
  obtain ⟨hle, hsure⟩ := hc.known p
  rw [ht, ← hcommit] at hsure
  exact ⟨a.log p, hcar, h.sound.log_rooted p, hcommit.le.trans hle, hsure⟩

/-! ### Requests -/

/-- A request with the log of the leader is certified, if what it covers is committed. -/
theorem certified_args {term prev commit : ℕ} {args : SenderArgs n} {l : List (LogEntry C)}
    (ha : (w.nodes p).appendArgs p term prev commit = some args) (hle : commit ≤ (a.log p).length)
    (hlen : l.length = commit) (hsure : a.Sure LogEntry.term term l) : args.Certified a := by
  obtain ⟨rfl, -, rfl, rfl, -, hlogs⟩ := Node.appendArgs_fields ha
  obtain ⟨-, hfirst, -, -⟩ := Node.getLogs_eq_some hlogs
  have hend := Node.length_getLogs hlogs
  have hlog := (h.log p).getLogLength_eq
  exact ⟨by omega, l, hlen, hsure⟩

/-- The call that a step makes is certified. -/
theorem certified_of_sends (hbeat : w.BeatsInTerm act) {c : Call n C D}
    (hs : (w.nodes p).Sends p w.calls act c) : c.request.Certified a := by
  have hhere {term : ℕ} (hl : (w.nodes p).leads term) : ¬ term < a.term p := by
    obtain ⟨-, ht, -⟩ := h.log_of_leads hl
    omega
  cases hs with
  | vote => trivial
  | revote hcall hsrc => have hcert := hc.calls _ _ hcall; exact hcert
  | @heartbeat k prevLogTerm peer thisTerm todo waiting hk hlast =>
    have hterm : (w.nodes p).currentTerm = thisTerm := by
      simp only [BeatsInTerm, hk] at hbeat
      exact hbeat
    obtain ⟨hlen, hprev⟩ := h.lastTerm_eq hlast
    refine hc.certified_log h ⟨hlen.le, ?_, ?_⟩ ((h.term p).trans hterm) rfl
    · rw [hprev, hlen]
      rfl
    · rw [hlen, List.drop_length]
  | @append peer args encoded k hk hlt =>
    obtain ⟨hlead, hsend⟩ := h.threads p _ (List.mem_of_getElem? hk)
    obtain ⟨hle, x, hxlen, hsure⟩ := (hc.threads p _ (List.mem_of_getElem? hk)).resolve_left nofun
    obtain ⟨l, hcar, hp⟩ := hsend.sends hlt
    have hlen : l.length = args.prevLogIndex + encoded.length := hcar.length
    -- what is committed by the term is a part of what the request carries
    have hx : x <+: l := List.prefix_of_prefix_length_le
      (hsure.led h.complete (by simp [hlead]) le_rfl) hp (by omega)
    refine ⟨l, hcar, (h.sound.leaderLog_rooted _).of_isPrefix hp, ?_, ?_⟩
    · show args.leaderCommit ≤ l.length
      omega
    · rw [List.prefix_iff_eq_take.mp hx, hxlen] at hsure
      exact hsure
  | snapshot hk hl => exact (hc.threads p _ (List.mem_of_getElem? hk)).resolve_left (hhere hl)

/-- A goroutine that a step starts or moves on is certified. -/
theorem certified_of_spawns (hcommit : w.CommitsInTerm act) {th : Thread n C D}
    (hs : (w.nodes p).Spawns p w.calls eff act th) : th.Certified a p := by
  have hold {k : ℕ} {th : Thread n C D} (hk : (w.nodes p).threads[k]? = some th) :=
    hc.threads p th (List.mem_of_getElem? hk)
  cases hs with
  | elect | vote | revote | count | heartbeat | beat | start | broadcast | scanStart
  | write => trivial
  | @append term prev args _ ht ha peer =>
    obtain ⟨hterm, -⟩ := Node.appendArgs_fields ha
    have hlead := h.log_of_leader (h.leader_of_serves ht)
    refine hlead.imp (fun hlt => ⟨rfl, hterm ▸ hlt⟩) fun hlog => ?_
    obtain ⟨hle, hsure⟩ := hc.known p
    rw [hlog.1] at hsure
    exact hc.certified_args h ha hle (List.length_take_of_le hle) hsure
  | @retry peer args pc prev args' _ k hk ht _ ha =>
    obtain ⟨hlead, hterm, hlog⟩ := h.log_of_leads ht
    obtain ⟨-, l, hlen, hsure⟩ := (hold hk).resolve_left fun hleft => hterm.not_gt hleft.2
    -- the leader holds what the request covered before
    have hp := hsure.led h.complete (by simp [hlead]) le_rfl
    rw [← hlog] at hp
    exact .inr (hc.certified_args h ha (hlen ▸ hp.length_le) hlen hsure)
  | check hk hl =>
    have hterm := (h.log_of_leads hl).2.1
    exact .inr ((hold hk).resolve_left fun hleft => hterm.not_gt hleft.2)
  | encode hk hlt => exact .inr ((hold hk).resolve_left nofun)
  | call hk => exact .inr ((hold hk).resolve_left nofun)
  | resend hk => have hcert := hold hk; exact hcert
  | @snapshot term _ ht _ peer =>
    refine (h.log_of_leader (h.leader_of_serves ht)).imp_right fun hlog => ?_
    obtain ⟨hle, hsure⟩ := hc.included p
    rw [hlog.1] at hsure
    exact ⟨_, List.length_take_of_le hle, hsure⟩
  | resendSnapshot hk => have hcert := hold hk; exact hcert
  | scan hk hscan =>
    cases hscan with
    | start | skip | next | again | pass => trivial
    | @found i thisLogLength thisTerm _ _ _ ht =>
      obtain ⟨-, hle, rfl⟩ := (h.log p).of_getTermOfLog ht
      rcases Nat.eq_zero_or_pos i with h0 | h0
      · exact .inl h0
      · exact .inr ((h.sound.log_rooted p).own h0 hle)
    | @count thisTerm thisLogLength i =>
      have hlead : (w.nodes p).leads thisTerm := by
        simp only [CommitsInTerm, hk] at hcommit
        exact hcommit
      rcases le_or_gt ((w.nodes p).countMatch i) (n / 2) with hfew | hmany
      · exact .inl hfew
      · rcases hold hk with rfl | hown
        · exact .inr ((hc.known p).mono (Nat.zero_le _))
        · exact .inr (hc.known_of_count h hlead hown hmany)
    | commit _ hcommits => exact (hold hk).resolve_left (Nat.not_le.mpr hcommits.1)

/-! ### The commit index -/

/-- A handler that follows the leader commits what its peer knows. -/
theorem known_of_held (hw : w.Plumbed) {call : ℕ} {args : AppendEntriesArgs n C}
    (hh : (w.nodes p).held = some (.appendCommit call args)) :
    a.Known LogEntry.term p args.leaderCommit := by
  obtain ⟨⟨c, hcall, -, hreq⟩, hle⟩ := hw.held p _ hh call (.appendEntries args) rfl
  have hcert := hc.calls call c hcall
  rw [hreq] at hcert
  obtain ⟨l, hcar, hroot, hcommit, hsure⟩ := hcert
  obtain ⟨l', hcar', hp, -⟩ := h.ready p call args hh
  obtain rfl : l' = l :=
    hcar'.unique hcar (((h.sound.log_rooted p).of_isPrefix hp).matching hroot)
  refine ⟨hcommit.trans hp.length_le, ?_⟩
  rw [← take_eq_take_of_isPrefix hp hcommit, h.term p]
  exact hsure.mono hle

end Commits

/-- A handler that raises the indices did so before, or has just replaced the log. -/
theorem held_installIndex (hl : Local w p eff act) {call : ℕ} {args : InstallSnapshotArgs n D}
    {pc : InstallPc} (hh : eff.node.held = some (.installIndex call args pc)) :
    (∃ pc', (w.nodes p).held = some (.installIndex call args pc')) ∨
      ((w.nodes p).held = some (.installLog call args) ∧
        eff.node.lastIncludedIndex = args.lastIncludedIndex ∧
        eff.node.lastIncludedTerm = args.lastIncludedTerm ∧
        eff.node.currentTerm = (w.nodes p).currentTerm) := by
  cases hl with
  | main h => exact .inl ⟨pc, Node.mainStep_held h ▸ hh⟩
  | thread k h => exact .inl ⟨pc, Node.threadStep_held h ▸ hh⟩
  | reply k call' ok request hc h => exact .inl ⟨pc, Node.threadReply_held h ▸ hh⟩
  | apply h => exact .inl ⟨pc, Node.applyStep_held h ▸ hh⟩
  | deliver call' request hc hp h =>
    generalize request.request = r at h
    cases Node.handle_cases h <;> cases hh
  | resume h =>
    cases Node.resume_cases h with
    | voteExit hheld | appendExit hheld =>
      exact absurd (Option.some.inj (hheld.symm.trans hh)) (by simp)
    | install hheld => cases hh; exact .inr ⟨hheld, rfl, rfl, rfl⟩
    | installTest hheld ht =>
      cases ht with
      | raiseCommit | keepCommit | raiseApplied => cases hh; exact .inl ⟨_, hheld⟩
      | keepApplied => cases hh
    | setCommit hheld => cases hh; exact .inl ⟨_, hheld⟩
    | _ => cases hh
  | start command h => exact .inl ⟨pc, Node.tryStart_held h ▸ hh⟩
  | snapshot index snapshot h =>
    rcases Node.trySnapshot_held h with hk | hk
    · exact .inl ⟨pc, hk ▸ hh⟩
    · rw [hk] at hh; cases hh
  | restart h =>
    subst h
    exact absurd hh (by simp [Node.restart, Node.make_held])

/-! ### Deliveries -/

/-- Outside of `applyLoop` no command is delivered, and no batch is taken. -/
theorem local_delivers (hl : Local w p eff act) (hact : act ≠ .apply p) :
    (eff.node.applying = (w.nodes p).applying ∨ eff.node.applying = .wait) ∧
      ∀ q command index, .applied q (.command command index) ∉ eff.events := by
  have hsame {eff : Effect n C D} (hst : (w.nodes p).SameApply eff) :
      (eff.node.applying = (w.nodes p).applying ∨ eff.node.applying = .wait) ∧
        ∀ q command index, .applied q (.command command index) ∉ eff.events :=
    ⟨.inl hst.still.applying,
      fun _ _ _ he => absurd (hst.events _ he) (by simp [Event.isApply])⟩
  cases hl with
  | main h => exact hsame (Node.mainStep_sameApply h)
  | thread k h => exact hsame (Node.threadStep_sameApply h)
  | reply k call ok request hcall h => exact hsame (Node.threadReply_sameApply h)
  | apply h => exact absurd rfl hact
  | deliver call request hcall hp h => exact hsame (Node.handle_sameApply h)
  | resume h =>
    cases Node.resume_sameApply h with
    | same hst => exact hsame hst
    | install | keepApplied | setApplied => exact ⟨.inl rfl, by simp⟩
    | announce => exact ⟨.inl rfl, by simp [Node.installSend]⟩
  | start command h => exact hsame (Node.tryStart_sameApply h)
  | snapshot index snapshot h => cases Node.trySnapshot_cases h <;> exact ⟨.inl rfl, by simp⟩
  | restart h =>
    subst h
    exact ⟨.inr (Node.make_applying _ _), by simp [Node.restart]⟩

/-- What `applyLoop` has in hand, and what it delivers, is decided. -/
theorem Commits.applyStep_decided (hc : w.Commits a) (h : w.Refines a)
    (hstep : (w.nodes p).applyStep p = some eff) :
    (∀ nextApplied toBeApplied i, eff.node.applying = .send nextApplied toBeApplied i →
      (w.nodes p).Batch a p nextApplied toBeApplied) ∧
    ∀ q command index, .applied q (.command command index) ∈ eff.events →
      ∃ e, a.Decided LogEntry.term index e ∧ e.command = command := by
  have hnone : ∀ q command index,
      .applied q (.command command index) ∈ ([] : List (Event n C D)) →
        ∃ e, a.Decided LogEntry.term index e ∧ e.command = command := by simp
  cases Node.applyStep_cases hstep with
  | wake | idle | next | skip | load | store => exact ⟨nofun, hnone⟩
  | exit happ₀ => exact ⟨fun _ _ _ happ => absurd (happ₀.symm.trans happ) (by simp), hnone⟩
  | @take nextApplied s happ₀ _ _ hlogs =>
    -- the batch is a part of the log up to the commit index
    obtain ⟨hfirst, -, hle, hread⟩ := (h.log p).getLogs_eq hlogs
    have hlen := Node.length_getLogs hlogs
    refine ⟨fun _ _ _ happ => ?_, hnone⟩
    cases happ
    refine ⟨Node.within_getLogs hlogs, fun _ => ?_, ?_, fun j e he => ?_⟩
    · rw [(Node.getLogs_eq_some hlogs).2.2.2]
      show (w.nodes p).lastIncludedIndex + (nextApplied - (w.nodes p).lastIncludedIndex) = _
      omega
    · exact (hc.known p).mono (by omega)
    · rw [hread, List.getElem?_drop, Nat.add_sub_cancel] at he
      refine (hc.known p).decided (by omega) ?_
      rwa [show j + nextApplied - 1 = nextApplied - 1 + j by omega]
  | @send nextApplied toBeApplied i happ₀ hlt =>
    have hbatch := hc.applying p _ _ _ happ₀
    refine ⟨fun _ _ _ happ => ?_, fun q command index he => ?_⟩
    · cases happ
      exact hbatch
    · rw [List.mem_singleton, Event.applied.injEq, ApplyMsg.command.injEq] at he
      obtain ⟨-, rfl, rfl⟩ := he
      exact ⟨_, hbatch.decided i _ (hbatch.frames.getElem?_readSlice hlt), rfl⟩

section Step

variable (hc : w.Commits a) (h : w.Refines a) (hsim : Simulates w p eff a a')

include h hsim

theorem Simulates.known {q : Fin n} {k : ℕ} (hk : a.Known LogEntry.term q k) :
    a'.Known LogEntry.term q k := by
  rcases hsim.step with rfl | hstep
  · exact hk
  · exact hk.step h.sound h.complete hstep

/-- A peer does not overwrite what it knows. -/
theorem Simulates.copy_spares_known {call k m : ℕ} {args : AppendEntriesArgs n C}
    (hk : a.Known LogEntry.term p k) (hcopy : w.Copies p eff call args)
    (hm : m ≤ (w.nodes p).log.length) (hle : (w.nodes p).lastIncludedIndex + m ≤ k + 1) :
    Node.SparesBelow m (w.nodes p) ((w.nodes p).copyLog args) := by
  refine hsim.copy_spares h hcopy ?_ hm hle
  rcases hsim.step with rfl | hstep
  · exact List.take_prefix _ _
  · exact hk.isPrefix_step h.complete hstep

include hc

/-- The batch in hand stays as it is. -/
theorem Commits.batch_after {nextApplied : ℕ} {s : Slice} (hl : Local w p eff act)
    (hr : act ≠ .restart p) (hb : (w.nodes p).Batch a p nextApplied s) :
    eff.node.Batch a' p nextApplied s := by
  have hst := local_stored hl
  obtain ⟨m, hspare, hm⟩ : ∃ m, Node.SparesBelow m (w.nodes p) eff.node ∧
      (s.array = (w.nodes p).backing.retired.length → s.first + s.length ≤ m) := by
    by_cases hcur : s.array = (w.nodes p).backing.retired.length
    · have hplace := hb.place hcur
      have hle : s.first + s.length ≤ (w.nodes p).log.length := by
        rcases hb.frames with ⟨hlt, -⟩ | ⟨-, hle⟩
        · omega
        · exact hle
      refine ⟨s.first + s.length, hst.sparesBelow hr fun call args _ hcopy => ?_, fun _ => le_rfl⟩
      exact hsim.copy_spares_known h hb.known hcopy hle (by omega)
    · -- nobody writes to an array that the log has left
      refine ⟨0, hst.sparesBelow hr fun call args _ hcopy => ?_, fun heq => absurd heq hcur⟩
      exact hsim.copy_spares_known h (hc.included p) hcopy (Nat.zero_le _) (by omega)
  obtain ⟨hframes, hread, hback⟩ := hspare s hb.frames hm
  refine ⟨hframes, fun hcur => ?_, hsim.known h hb.known, fun j e he => ?_⟩
  · rw [hst.lastIncludedIndex_eq hr hb.frames hcur]
    exact hb.place (hback hcur)
  · have hsame : eff.node.readSlice s = (w.nodes p).readSlice s := hread
    rw [hsame] at he
    exact (hb.decided j e he).grows h.sound (hsim.grows h)

/-- A handler that takes over a snapshot knows what the snapshot covers. -/
theorem Commits.known_install (hw : w.Plumbed) {call : ℕ} {args : InstallSnapshotArgs n D}
    (hh : (w.nodes p).held = some (.installLog call args))
    (hterm : eff.node.currentTerm = (w.nodes p).currentTerm)
    (hlii : eff.node.lastIncludedIndex = args.lastIncludedIndex)
    (hlit : eff.node.lastIncludedTerm = args.lastIncludedTerm) :
    a'.Known LogEntry.term p args.lastIncludedIndex := by
  obtain ⟨⟨c, hcall, -, hreq⟩, hle⟩ := hw.held p _ hh call (.installSnapshot args) rfl
  have hback := h.calls call c hcall
  have hcert := hc.calls call c hcall
  rw [hreq] at hback hcert
  obtain ⟨l, hlen, hlast, hiss⟩ := hback
  obtain ⟨x, hxlen, hsure⟩ := hcert
  -- what is certified is the log of the snapshot
  obtain rfl : x = l := by
    have hp := hsure.led h.complete (by simp [hiss.1]) le_rfl
    exact (List.prefix_of_prefix_length_le hp hiss.2 (by omega)).eq_of_length (by omega)
  have hg := hsim.grows h
  have hs := hsim.sound h
  have hshow := hsim.log
  have hm := (hs.log_rooted p).matching ((hs.leaderLog_rooted _).of_isPrefix (hiss.grows hg).2)
  have hle' : args.lastIncludedIndex ≤ (a'.log p).length := hlii ▸ hshow.le
  have htake : (a'.log p).take args.lastIncludedIndex = x.take args.lastIncludedIndex := by
    refine hm _ hle' hxlen.ge ?_
    rw [← hlii, ← hshow.term, hlit, hlast, hlii, hlen]
    rfl
  refine ⟨hle', ?_⟩
  rw [htake, List.take_of_length_le hxlen.le, hsim.term, hterm]
  exact (hsure.grows h.sound hg).mono hle

/-- Every commit index is backed by what its peer knows. -/
theorem Commits.known_local (hw : w.Plumbed) (hkeep : w.KeepsState act)
    (hl : Local w p eff act) : a'.Known LogEntry.term p eff.node.commitIndex := by
  have hkn {k : ℕ} (hk : a.Known LogEntry.term p k) : a'.Known LogEntry.term p k := hsim.known h hk
  cases local_advances hl with
  | keep heq =>
    rw [heq]
    exact hkn (hc.known p)
  | @follow call args hh =>
    show a'.Known _ p ((w.nodes p).followCommit args.leaderCommit).commitIndex
    unfold Node.followCommit
    split
    · refine hkn ((hc.known_of_held h hw hh).mono ?_)
      show (if _ then _ else _) ≤ _
      split <;> omega
    · exact hkn (hc.known p)
  | @install call args hh => exact hkn (hc.installing p call args _ hh)
  | write hk => exact hkn (hc.threads p _ (List.mem_of_getElem? hk))
  | restart =>
    have hb := Node.make_bytes_eq (hw.durable p) (hw.fresh p) hkeep
    have hlii : (Node.make (w.nodes p).persister (w.nodes p).backing.room).lastIncludedIndex =
      (w.nodes p).lastIncludedIndex := congrArg RaftBytes.lastIncludedIndex hb
    show a'.Known _ p (Node.make (w.nodes p).persister (w.nodes p).backing.room).commitIndex
    rw [Node.make_commitIndex, hlii]
    exact hkn (hc.included p)

/-- A snapshot covers only what is committed. -/
theorem Commits.included_local (hw : w.Plumbed) (hkeep : w.KeepsState act)
    (hl : Local w p eff act) : a'.Known LogEntry.term p eff.node.lastIncludedIndex := by
  have hsame (heq : eff.node.lastIncludedIndex = (w.nodes p).lastIncludedIndex) :
      a'.Known LogEntry.term p eff.node.lastIncludedIndex := by
    rw [heq]
    exact hsim.known h (hc.included p)
  cases local_stored hl with
  | leave hleave => exact hsame hleave.same.lastIncludedIndex
  | @copy call args hh hacc =>
    refine hsame ?_
    rcases Node.copyLog_eq (w.nodes p) args with heq | ⟨log, backing, heq⟩ <;> rw [heq]
    rfl
  | @accept call args hh => exact hsame (Node.appendCommit_fields p (w.nodes p) call args).2.1
  | install hh => exact hc.known_install h hsim hw hh rfl rfl rfl
  | installSave => exact hsame rfl
  | compact hfree hlt hle => exact hsim.known h ((hc.known p).mono hle)
  | snapshotSave => exact hsame rfl
  | start => exact hsame rfl
  | restart =>
    have hb := Node.make_bytes_eq (hw.durable p) (hw.fresh p) hkeep
    exact hsame (congrArg RaftBytes.lastIncludedIndex hb)

/-- A handler that is about to raise the commit index to a snapshot knows what the snapshot
    covers. -/
theorem Commits.installing_local (hw : w.Plumbed) (hl : Local w p eff act) {call : ℕ}
    {args : InstallSnapshotArgs n D} {pc : InstallPc}
    (hh : eff.node.held = some (.installIndex call args pc)) :
    a'.Known LogEntry.term p args.lastIncludedIndex := by
  rcases held_installIndex hl hh with ⟨pc', hold⟩ | ⟨hlog, hlii, hlit, hterm⟩
  · exact hsim.known h (hc.installing p call args pc' hold)
  · exact hc.known_install h hsim hw hlog hterm hlii hlit

/-! ### A leader with entries of its term -/

omit hc in
/-- A candidate wins a term that has no leader. -/
theorem Simulates.unled (hl : Local w p eff act) (hcand : (w.nodes p).state = .candidateState)
    (hs : eff.node.state = .leaderState) : a.leader eff.node.currentTerm = none := by
  have hg := hsim.grows h
  cases hlead : a.leader eff.node.currentTerm with
  | none => rfl
  | some d =>
    obtain rfl : d = p :=
      Option.some.inj ((hg.leader _ _ hlead).symm.trans (hsim.leader hs))
    have hterm : a.term d = eff.node.currentTerm :=
      le_antisymm (hsim.term ▸ hg.term d) (h.sound.leader_term hlead)
    have hsame (heq : eff.node.state = (w.nodes d).state) : some d = none := by
      rw [heq, hcand] at hs
      cases hs
    cases local_ballot hl with
    | quiet hq => exact absurd ((hq.calm.role hs).1.symm.trans hcand) (by simp)
    | elect => exact hsame rfl
    | won hpoll =>
      -- the goroutine that counts knows that its peer has not won before
      obtain ⟨hv, hst⟩ := h.threads d _ (List.mem_of_getElem? hpoll.thread)
      have hle := (h.sound.vote_term _ _ _ hv).1
      rw [h.term d] at hle hterm
      have hthis := le_antisymm hle hpoll.term
      rw [← hterm, ← hthis] at hlead
      exact absurd ((hst (by rw [h.term d, hthis]) hlead).symm.trans hcand) (by simp)
    | grant => exact hsame rfl
    | restart => exact absurd ((Node.make_state _ _).symm.trans hs) (by simp)

/-- An entry of the term that a peer led before the step was there before, or the peer is
    initialised. -/
theorem Commits.initialised_before (hs : (w.nodes p).state = .leaderState)
    (hterm : eff.node.currentTerm = (w.nodes p).currentTerm)
    (hown : ∃ i, a'.Own LogEntry.term eff.node.currentTerm i) :
    (w.nodes p).leaderInitDone = true ∨ (w.nodes p).main = .leaderInitDone := by
  obtain ⟨i, hi⟩ := hown
  rw [hterm] at hi
  rcases hsim.grown _ (by rw [h.leader p hs]; simp) with heq | ⟨hdone, -⟩
  · refine hc.initialised p hs ⟨i, ?_⟩
    unfold Cluster.Own at hi ⊢
    rwa [heq] at hi
  · exact .inl hdone

/-- A leader is initialised before it has an entry of its term. -/
theorem Commits.initialised_local (hcand : w.ElectsAsCandidate act) (hl : Local w p eff act)
    (hs : eff.node.state = .leaderState) (hown : ∃ i, a'.Own LogEntry.term eff.node.currentTerm i) :
    eff.node.leaderInitDone = true ∨ eff.node.main = .leaderInitDone := by
  have hbefore (hs₀ : (w.nodes p).state = .leaderState)
      (hterm : eff.node.currentTerm = (w.nodes p).currentTerm) :=
    hc.initialised_before h hsim hs₀ hterm hown
  cases local_tends hl with
  | steady hst =>
    rw [hst.initDone, hst.main]
    exact hbefore (hst.role hs).1 (hst.role hs).2
  | learn hst hx hlearn =>
    have hinit := hst.initDone
    have hmain := hst.main
    rw [hinit, hmain]
    exact hbefore (hst.role hs).1 (hst.role hs).2
  | main hstep =>
    -- `mainLoop` leaves this place only with `leaderInitDone` set
    have hdone (hs₀ : (w.nodes p).state = .leaderState)
        (hterm : eff.node.currentTerm = (w.nodes p).currentTerm)
        (hm : (w.nodes p).main ≠ .leaderInitDone) : (w.nodes p).leaderInitDone = true :=
      (hbefore hs₀ hterm).resolve_right hm
    cases Node.mainStep_cases hstep with
    | leaderInit => exact .inr rfl
    | leaderInitDone => exact .inl rfl
    | elect hm => exact absurd hs (hcand hm)
    | timeout => cases hs
    | lead hm | stand hm | follow hm | heartbeat hm | stay hm | leave hm | counted hm =>
      exact .inl (hdone hs rfl (by rw [hm]; simp))
  | won hcand' hm hi =>
    -- the term had no leader, so it has no entry yet
    obtain ⟨i, hi⟩ := hown
    have hunled := hsim.unled h hl hcand' hs
    rcases hsim.step with rfl | hstep
    · exact absurd hunled (hi.leader h.sound)
    · exact absurd hunled (hi.led_of_step h.sound hstep)
  | restart => exact absurd hs (not_leader_of_restart hl)

/-! ### The step -/

/-- **Step.** What the peers take for committed stays committed, and what they add to it is. -/
theorem Commits.after (hw : w.Plumbed) (hkeep : w.KeepsState act) (hcand : w.ElectsAsCandidate act)
    (hcommit : w.CommitsInTerm act) (hbeat : w.BeatsInTerm act)
    (hl : Local w p eff act) : (w.after act p eff).Commits a' := by
  have hg := hsim.grows h
  have hdecided {i : ℕ} {e : LogEntry C} (hd : a.Decided LogEntry.term i e) :
      a'.Decided LogEntry.term i e := hd.grows h.sound hg
  have hthread {q : Fin n} {th : Thread n C D} (hth : th.Certified a q) : th.Certified a' q :=
    hth.grows h.sound hg fun i => hsim.known h
  -- `applyLoop` and its deliveries
  obtain ⟨happlying, happlied⟩ :
      (∀ nextApplied toBeApplied i, eff.node.applying = .send nextApplied toBeApplied i →
        (w.nodes p).Batch a p nextApplied toBeApplied) ∧
      ∀ q command index, .applied q (.command command index) ∈ eff.events →
        ∃ e, a.Decided LogEntry.term index e ∧ e.command = command := by
    by_cases hact : act = .apply p
    · subst hact
      cases hl with
      | apply hstep => exact hc.applyStep_decided h hstep
    · obtain ⟨happ, hnone⟩ := local_delivers hl hact
      refine ⟨fun nextApplied toBeApplied i heq => ?_, fun q command index he => ?_⟩
      · rcases happ with hsame | hwait
        · exact hc.applying p _ _ _ (hsame.symm.trans heq)
        · rw [hwait] at heq
          cases heq
      · exact absurd he (hnone q command index)
  have hrestart (nextApplied : ℕ) (toBeApplied : Slice) (i : ℕ)
      (happ : eff.node.applying = .send nextApplied toBeApplied i) : act ≠ .restart p := by
    rintro rfl
    cases hl with
    | restart heq =>
      rw [heq] at happ
      cases (Node.make_applying _ _).symm.trans happ
  refine
    { acks := ?_
      known := forall_nodes_after (Q := fun q nd => a'.Known LogEntry.term q nd.commitIndex)
        (hc.known_local h hsim hw hkeep hl) fun q _ => hsim.known h (hc.known q)
      included := forall_nodes_after
        (Q := fun q nd => a'.Known LogEntry.term q nd.lastIncludedIndex)
        (hc.included_local h hsim hw hkeep hl) fun q _ => hsim.known h (hc.included q)
      installing := forall_nodes_after (Q := fun q nd => ∀ call args pc,
        nd.held = some (.installIndex call args pc) →
        a'.Known LogEntry.term q args.lastIncludedIndex)
        (fun _ _ _ => hc.installing_local h hsim hw hl)
        fun q _ call args pc hh => hsim.known h (hc.installing q call args pc hh)
      initialised := forall_nodes_after (Q := fun _ nd => nd.state = .leaderState →
        (∃ i, a'.Own LogEntry.term nd.currentTerm i) →
        nd.leaderInitDone = true ∨ nd.main = .leaderInitDone)
        (hc.initialised_local h hsim hcand hl) fun q hne hs hown => ?_
      calls := fun i c hcall => ?_
      threads := forall_nodes_after (Q := fun q nd => ∀ th ∈ nd.threads, th.Certified a' q)
        (fun th hth => ?_) fun q _ th hth => hthread (hc.threads q th hth)
      applying := forall_nodes_after (Q := fun q nd => ∀ nextApplied toBeApplied i,
        nd.applying = .send nextApplied toBeApplied i → nd.Batch a' q nextApplied toBeApplied)
        (fun _ _ i happ => hc.batch_after h hsim hl (hrestart _ _ i happ) (happlying _ _ i happ))
        fun q _ _ _ i happ => ?_
      applied := fun q command index he => ?_ }
  · rcases hsim.step with rfl | hstep
    · exact hc.acks
    · exact hc.acks.step hstep
  · -- the log of another leader has not changed
    have hsame : a'.leaderLog (w.nodes q).currentTerm = a.leaderLog (w.nodes q).currentTerm := by
      rcases hsim.step with rfl | hstep
      · rfl
      · exact hstep.leaderLog_eq (h.leader q hs) (hsim.others q hne).2.1
    unfold Cluster.Own at hown
    rw [hsame] at hown
    exact hc.initialised q hs hown
  · rcases callsAfter_cases hcall with ⟨c₀, hc₀, rfl⟩ | ⟨-, hsend⟩
    · exact (hc.calls i c₀ hc₀).grows h.sound hg
    · exact (hc.certified_of_sends h hbeat (local_sends hw hl hsend)).grows h.sound hg
  · rcases local_moves hl th hth with hold | hnew
    · exact hthread (hc.threads p th hold)
    · exact hthread (hc.certified_of_spawns h hcommit hnew)
  · exact (hc.applying q _ _ i happ).grows h.sound hg fun _ => hsim.known h
  · have hentry : ∃ e, a.Decided LogEntry.term index e ∧ e.command = command := by
      rcases List.mem_append.mp he with hnew | hold
      · exact happlied q command index hnew
      · exact hc.applied q command index hold
    obtain ⟨e, hd, heq⟩ := hentry
    exact ⟨e, hdecided hd, heq⟩

end Step

theorem init_commits (room : Fin n → ℕ → ℕ) :
    (init room : World n C D).Commits Cluster.init where
  acks := Cluster.init_acks
  known _ := ⟨le_rfl, .inl rfl⟩
  included _ := ⟨le_rfl, .inl rfl⟩
  installing p call args pc hh := by cases hh
  initialised p hs := by cases hs
  calls i c hc := by simp [init] at hc
  threads p th hth := absurd hth List.not_mem_nil
  applying p _ _ _ happ := by cases happ
  applied p command index he := absurd he List.not_mem_nil

end World

end MitDistributed.Raft
