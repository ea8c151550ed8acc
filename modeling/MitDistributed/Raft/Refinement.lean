import MitDistributed.Consensus.Completeness
import MitDistributed.Raft.FullLog
import MitDistributed.Raft.Leadership
import MitDistributed.Raft.Windows

namespace MitDistributed.Raft

open Transition Consensus

/-!
# Raft — the cluster as an abstract one

`World.Refines w a` relates a state of the cluster to a state of the abstract cluster of
`Consensus`: terms, votes, leaders and the logs that the peers stand for are those of `a`, and
whatever is under way rests on facts about `a` that no step undoes:

* a request for a vote shows a log that the candidate stood with (`Cluster.Stood`);
* a request that carries entries or a snapshot is issued by the leader of its term
  (`Cluster.Issued`); a heartbeat may also come from a peer that has left the term of the
  request, or does not stand for it (`Cluster.Past`);
* a positive answer to `AppendEntries` is recorded in the trace, and what it acknowledges is
  acknowledged in `a`;
* `matchIndex` of a leader is backed by such answers (`World.Backs`).
-/

variable {n : ℕ} {C D : Type}

/-- The cluster that the peers refine. -/
abbrev AbstractCluster (n : ℕ) (C : Type) := Cluster (Fin n) (LogEntry C)

/-! ### Requests -/

/-- The request carries the log `l` from `prevLogIndex` on. -/
structure AppendEntriesArgs.Carries (args : AppendEntriesArgs n C) (l : List (LogEntry C)) :
    Prop where
  le : args.prevLogIndex ≤ l.length
  term : args.prevLogTerm = termAt LogEntry.term l args.prevLogIndex
  entries : args.entries = l.drop args.prevLogIndex

theorem AppendEntriesArgs.Carries.length {args : AppendEntriesArgs n C} {l : List (LogEntry C)}
    (h : args.Carries l) : l.length = args.prevLogIndex + args.entries.length := by
  have hle := h.le
  rw [h.entries, List.length_drop]
  omega

/-- What a request of `src` rests on. -/
def Request.Backed (a : AbstractCluster n C) (src : Fin n) : Request n C D → Prop
  | .requestVote args => ∃ l, args.lastLogIndex = l.length ∧
      args.lastLogTerm = lastTerm LogEntry.term l ∧ a.Stood src args.term l
  | .appendEntries args => ∃ l, args.Carries l ∧ a.Rooted LogEntry.term l ∧
      (a.Issued src args.term l ∨ args.entries = [] ∧ a.Past src args.term)
  | .installSnapshot args => ∃ l, args.lastIncludedIndex = l.length ∧
      args.lastIncludedTerm = lastTerm LogEntry.term l ∧ a.Issued src args.term l

/-- The sender of a request that `p` holds the log of leads the term of the request, and counts
    on `p`; or it will not count on the answer. -/
def AppendEntriesArgs.Counted (a : AbstractCluster n C) (p : Fin n) (args : AppendEntriesArgs n C)
    (l : List (LogEntry C)) : Prop :=
  (a.Issued args.leaderId args.term l ∧ l.length ≤ a.acked p args.term) ∨
    a.Past args.leaderId args.term

/-- `p` holds the log that the request carries, and may answer `Success`. -/
def AppendEntriesArgs.Ready (a : AbstractCluster n C) (p : Fin n)
    (args : AppendEntriesArgs n C) : Prop :=
  ∃ l, args.Carries l ∧ l <+: a.log p ∧ args.Counted a p l

/-- `p` held the log that the request carries when it answered `Success`. -/
def AppendEntriesArgs.Answered (a : AbstractCluster n C) (p : Fin n) (args : AppendEntriesArgs n C)
    (lastIncludedIndex : ℕ) (log : List (LogEntry C)) : Prop :=
  ∃ l l', args.Carries l ∧ args.Counted a p l ∧ l <+: l' ∧ log ≠ [] ∧
    log.tail = l'.drop lastIncludedIndex

/-- The request carries a log that the leader of term `term` has, or had. -/
def AppendEntriesArgs.Led (a : AbstractCluster n C) (term : ℕ) (args : AppendEntriesArgs n C) :
    Prop :=
  ∃ l, args.Carries l ∧ l <+: a.leaderLog term

/-! ### Goroutines -/

/-- What a goroutine of `p` rests on. -/
def Thread.Backed (a : AbstractCluster n C) (p : Fin n) (nd : Node n C D) : Thread n C D → Prop
  | .sendRequestVoteToAll thisTerm _ _ _ => a.vote thisTerm p = some p ∧
      (a.term p = thisTerm → a.leader thisTerm = some p → nd.state = .leaderState)
  | .sendHeartbeatToAll thisTerm _ => a.leader thisTerm = some p ∨ a.Past p thisTerm
  | .sendAppendEntriesToAll thisTerm _ => a.leader thisTerm = some p
  | .sendAppendEntries _ args pc => a.leader args.term = some p ∧
      nd.WillSend (a.term p) (AppendEntriesArgs.Led a args.term) args pc
  | .sendInstallSnapshot _ args _ => a.leader args.term = some p ∧
      args.lastIncludedIndex ≤ nd.lastIncludedIndex ∧
      (args.term < a.term p ∨ ∃ l, args.lastIncludedIndex = l.length ∧
        args.lastIncludedTerm = lastTerm LogEntry.term l ∧ l <+: a.leaderLog args.term)
  | .tryIncrementCommitIndex _ => True

/-! ### The relation -/

/-- Index `m` of the leader `p` is backed at `j`: by the snapshot of the leader, by its own
    log, or by an answer of `j` in the term of the leader. -/
def World.Backs (w : World n C D) (a : AbstractCluster n C) (p j : Fin n) (m : ℕ) : Prop :=
  m ≤ (w.nodes p).lastIncludedIndex ∨
  (j = p ∧ m ≤ (a.leaderLog (w.nodes p).currentTerm).length) ∨
  ∃ args lii log, .accepted j args lii log ∈ w.trace ∧ args.term = (w.nodes p).currentTerm ∧
    args.leaderId = p ∧ m ≤ args.prevLogIndex + args.entries.length

/-- The state of the cluster is that of `a`. -/
structure World.Refines (w : World n C D) (a : AbstractCluster n C) : Prop where
  sound : a.Sound LogEntry.term
  complete : a.Complete LogEntry.term
  term : ∀ p, a.term p = (w.nodes p).currentTerm
  votedFor : ∀ p, (w.nodes p).votedFor = a.vote (w.nodes p).currentTerm p
  log : ∀ p, (w.nodes p).Shows (a.log p)
  voted : ∀ t v c, Voted w.trace t v c → a.vote t v = some c
  leader : ∀ p, (w.nodes p).state = .leaderState → a.leader (w.nodes p).currentTerm = some p
  ready : ∀ p call args, (w.nodes p).held = some (.appendCommit call args) → args.Ready a p
  calls : ∀ (i : ℕ) (c : Call n C D), w.calls[i]? = some c → c.request.Backed a c.src
  threads : ∀ p, ∀ th ∈ (w.nodes p).threads, th.Backed a p (w.nodes p)
  answered : ∀ p args lii log, .accepted p args lii log ∈ w.trace → args.Answered a p lii log
  replies : ∀ (i : ℕ) (c : Call n C D) args reply, w.calls[i]? = some c →
    c.request = .appendEntries args → c.reply = some (.appendEntries reply) →
    reply.success = true → ∃ lii log, .accepted c.dst args lii log ∈ w.trace
  matched : ∀ p, (w.nodes p).state = .leaderState →
    (w.nodes p).leaderInitDone = true ∨ (w.nodes p).main = .leaderInitDone →
    ∀ j, w.Backs a p j ((w.nodes p).matchIndex j)

/-! ### Facts that no step undoes -/

section Grows

variable {a a' : AbstractCluster n C} {p : Fin n}

theorem Request.Backed.grows {r : Request n C D} (h : r.Backed a p) (hs : a.Sound LogEntry.term)
    (hg : a.Grows a') : r.Backed a' p := by
  cases r with
  | requestVote args =>
    obtain ⟨l, hi, ht, hst⟩ := h
    exact ⟨l, hi, ht, hst.grows hg⟩
  | appendEntries args =>
    obtain ⟨l, hl, hr, hb⟩ := h
    exact ⟨l, hl, hr.grows hs hg, hb.imp (fun h => h.grows hg) fun h => ⟨h.1, h.2.grows hg⟩⟩
  | installSnapshot args =>
    obtain ⟨l, hi, ht, hb⟩ := h
    exact ⟨l, hi, ht, hb.grows hg⟩

namespace AppendEntriesArgs

variable {args : AppendEntriesArgs n C} {l : List (LogEntry C)}

theorem Counted.grows (h : args.Counted a p l) (hg : a.Grows a') : args.Counted a' p l := by
  rcases h with ⟨hi, hle⟩ | hp
  · exact .inl ⟨hi.grows hg, hle.trans (hg.acked p _)⟩
  · exact .inr (hp.grows hg)

theorem Ready.grows (h : args.Ready a p) (hg : a.Grows a') (hl : a'.log p = a.log p) :
    args.Ready a' p := by
  obtain ⟨l, hc, hp, hcount⟩ := h
  exact ⟨l, hc, hl.symm ▸ hp, hcount.grows hg⟩

theorem Answered.grows {lii : ℕ} {log : List (LogEntry C)} (h : args.Answered a p lii log)
    (hg : a.Grows a') : args.Answered a' p lii log := by
  obtain ⟨l, l', hc, hcount, hl⟩ := h
  exact ⟨l, l', hc, hcount.grows hg, hl⟩

end AppendEntriesArgs

/-- A goroutine stays backed, if its peer does not give up its leadership within a term and
    keeps its snapshot; a new leader of a term knows; and what it may still encode is spared. -/
theorem Thread.Backed.grows {th : Thread n C D} {nd nd' : Node n C D} (h : th.Backed a p nd)
    (hs : a.Sound LogEntry.term) (hg : a.Grows a')
    (hlii : nd.lastIncludedIndex ≤ nd'.lastIncludedIndex)
    (hkeep : a'.term p = a.term p → nd.state = .leaderState → nd'.state = .leaderState)
    (hnew : ∀ t, a'.leader t = some p → a.leader t = some p ∨ nd'.state = .leaderState)
    (hspare : ∀ peer args pc, th = .sendAppendEntries peer args pc → a.leader args.term = some p →
      a.term p ≤ args.term ∨ pc.encoding = true → Node.SparesBelow nd.log.length nd nd') :
    th.Backed a' p nd' := by
  have hlog {t : ℕ} {l : List (LogEntry C)} (hl : a.leader t = some p)
      (hp : l <+: a.leaderLog t) : l <+: a'.leaderLog t :=
    hp.trans (hg.leaderLog t (by simp [hl]))
  cases th with
  | sendRequestVoteToAll thisTerm =>
    obtain ⟨hv, hst⟩ := h
    refine ⟨hg.vote _ _ _ hv, fun ht hl => ?_⟩
    have hold : a.term p = thisTerm :=
      le_antisymm ((hg.term p).trans ht.le) (hs.vote_term _ _ _ hv).1
    rcases hnew thisTerm hl with hl' | hst'
    · exact hkeep (ht.trans hold.symm) (hst hold hl')
    · exact hst'
  | sendHeartbeatToAll thisTerm => exact h.imp (hg.leader _ _) fun h => h.grows hg
  | sendAppendEntriesToAll thisTerm => exact hg.leader _ _ h
  | sendAppendEntries peer args pc =>
    obtain ⟨hl, hsend⟩ := h
    refine ⟨hg.leader _ _ hl, hsend.spared (hg.term p) ?_ (hspare peer args pc rfl hl)⟩
    rintro r ⟨l, hc, hp⟩
    exact ⟨l, hc, hlog hl hp⟩
  | sendInstallSnapshot peer args =>
    obtain ⟨hl, hle, hlt | ⟨l, hi, ht, hp⟩⟩ := h
    · exact ⟨hg.leader _ _ hl, hle.trans hlii, .inl (hlt.trans_le (hg.term p))⟩
    · exact ⟨hg.leader _ _ hl, hle.trans hlii, .inr ⟨l, hi, ht, hlog hl hp⟩⟩
  | tryIncrementCommitIndex => trivial

end Grows

end MitDistributed.Raft
