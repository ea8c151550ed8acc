import MitDistributed.Raft.CommitIndex

namespace MitDistributed.Raft

open Transition

/-!
# Raft — what a step starts

Every goroutine after a step was there before, was started by the step, or was moved on by it;
`Node.Spawns` lists the ways, with what the step has read from the peer.  Invariants about
goroutines are proved from this list.
-/

variable {n : ℕ} {C D : Type}

namespace Node

/-- The peer builds a request of term `term`: for a broadcast under way, or as the leader. -/
def Serves (nd : Node n C D) (term : ℕ) : Prop :=
  (∃ (k : ℕ) (todo : List (Fin n)),
    nd.threads[k]? = some (.sendAppendEntriesToAll term (some todo))) ∨
  nd.leads term ∧ nd.raftStateFree = true

/-- If the goroutine reads the log, then the log can be read, or is being read already. -/
def MayRead (nd : Node n C D) (th : Thread n C D) : Prop :=
  th.readsLog = true → nd.logReadable = true ∨ ∃ th' ∈ nd.threads, th'.readsLog = true

section

variable (me : Fin n) (nd : Node n C D) (calls : List (Call n C D)) (eff : Effect n C D)

/-- The goroutines that a step of `me` starts or moves on. -/
inductive Spawns : Action n C D → Thread n C D → Prop
  /-- `doElection` -/
  | elect (he : eff = nd.doElection me) :
      Spawns a (.sendRequestVoteToAll (nd.currentTerm + 1) (others me) 1 [])
  /-- a vote is asked for, and asked for again; its outcome is counted -/
  | vote {k : ℕ}
      (hk : nd.threads[k]? = some (.sendRequestVoteToAll thisTerm (peer :: todo) sum waiting))
      (hs : eff.send = some c) (hd : c.dst = peer) :
      Spawns a (.sendRequestVoteToAll thisTerm todo sum (waiting ++ [calls.length]))
  | revote {call : ℕ} (hv : nd.Polled k call thisTerm sum waiting)
      (hc : calls[call]? = some request) (hs : eff.send = some c) (hd : c.dst = request.dst) :
      Spawns a (.sendRequestVoteToAll thisTerm [] sum (waiting.erase call ++ [calls.length]))
  | count {call : ℕ} (hv : nd.Polled k call thisTerm sum waiting)
      (hc : calls[call]? = some request) (hr : request.reply = some (.requestVote reply))
      (hsum : sum' = if reply.voteGranted then sum + 1 else sum) :
      Spawns a (.sendRequestVoteToAll thisTerm [] sum' (waiting.erase call))
  /-- a round of heartbeats in `leaderMain` -/
  | heartbeat (hm : nd.main = .leaderHeartbeat) :
      Spawns (.main me) (.sendHeartbeatToAll nd.currentTerm .start)
  | beat {k : ℕ} (hk : nd.threads[k]? = some (.sendHeartbeatToAll thisTerm pc))
      (pc' : HeartbeatPc n) (hr : nd.MayRead (.sendHeartbeatToAll thisTerm pc')) :
      Spawns a (.sendHeartbeatToAll thisTerm pc')
  /-- `Start` at a leader -/
  | start (hs : nd.state = .leaderState) : Spawns a (.sendAppendEntriesToAll nd.currentTerm none)
  | broadcast {k : ℕ} (hk : nd.threads[k]? = some (.sendAppendEntriesToAll thisTerm todo))
      (todo' : Option (List (Fin n))) (hr : nd.MayRead (.sendAppendEntriesToAll thisTerm todo')) :
      Spawns a (.sendAppendEntriesToAll thisTerm todo')
  /-- a request with the log, for `Start` or after a snapshot -/
  | append (ht : nd.Serves term)
      (ha : nd.appendArgs me term prevLogIndex nd.commitIndex = some args) (peer : Fin n) :
      Spawns a (.sendAppendEntries peer args .check)
  /-- the retry after a refusal -/
  | retry {k : ℕ} (hk : nd.threads[k]? = some (.sendAppendEntries peer args pc))
      (ht : nd.leads args.term) (hfree : nd.raftStateFree = true)
      (ha : nd.appendArgs me args.term prevLogIndex args.leaderCommit = some args') :
      Spawns a (.sendAppendEntries peer args' .check)
  /-- the check, the encoder, the call, and a call that has failed -/
  | check {k : ℕ} (hk : nd.threads[k]? = some (.sendAppendEntries peer args .check))
      (hl : nd.leads args.term) : Spawns a (.sendAppendEntries peer args (.encode []))
  | encode {k : ℕ} (hk : nd.threads[k]? = some (.sendAppendEntries peer args (.encode encoded)))
      (hlt : encoded.length < args.entries.length) :
      Spawns a (.sendAppendEntries peer args
        (.encode (encoded ++ [nd.sliceEntry args.entries encoded.length])))
  | call {k : ℕ} (hk : nd.threads[k]? = some (.sendAppendEntries peer args (.encode encoded)))
      (i : ℕ) :
      Spawns a (.sendAppendEntries peer args (.wait i))
  | resend {k : ℕ} (hk : nd.threads[k]? = some (.sendAppendEntries peer args (.wait i))) :
      Spawns a (.sendAppendEntries peer args .check)
  /-- a request with the snapshot -/
  | snapshot (ht : nd.Serves term) (hlii : 0 < nd.lastIncludedIndex) (peer : Fin n) :
      Spawns a (.sendInstallSnapshot peer (nd.snapshotArgs me term) .check)
  | resendSnapshot {k : ℕ} (hk : nd.threads[k]? = some (.sendInstallSnapshot peer args pc))
      (pc' : SendPc) :
      Spawns a (.sendInstallSnapshot peer args pc')
  /-- `tryIncrementCommitIndex` -/
  | scanStart : Spawns a (.tryIncrementCommitIndex .top)
  | scan {k : ℕ} (hk : nd.threads[k]? = some (.tryIncrementCommitIndex pc))
      (h : nd.ScanCase pc pc') : Spawns (.thread me k) (.tryIncrementCommitIndex pc')
  | write {k : ℕ}
      (hk : nd.threads[k]? = some (.tryIncrementCommitIndex (.write thisTerm thisLogLength i))) :
      Spawns (.thread me k) (.tryIncrementCommitIndex (.scan thisTerm thisLogLength (i + 1)))

end

/-! ### The goroutines -/

@[simp] theorem observe_threads (nd : Node n C D) (t : ℕ) :
    (nd.observe t).threads = nd.threads := by
  unfold observe
  split <;> rfl

@[simp] theorem advanceMatch_threads (nd : Node n C D) (peer : Fin n) (index : ℕ) :
    (nd.advanceMatch peer index).threads = nd.threads := by
  unfold advanceMatch
  split <;> rfl

/-- `Make` starts no goroutine but the two loops. -/
theorem make_threads (ps : Persister n C D) (room : ℕ → ℕ) : (make ps room).threads = [] := by
  unfold make readPersist
  split <;> rfl

section

variable {me : Fin n} {nd : Node n C D} {calls : List (Call n C D)} {eff : Effect n C D}
  {a : Action n C D} {k : ℕ}

theorem threadStep_moves (h : nd.threadStep me calls.length k = some eff) :
    ∀ th ∈ eff.node.threads, th ∈ nd.threads ∨ nd.Spawns me calls eff (.thread me k) th := by
  have hset {th : Thread n C D} (hth : nd.Spawns me calls eff (.thread me k) th) :
      ∀ th' ∈ (nd.setThread k th).threads,
        th' ∈ nd.threads ∨ nd.Spawns me calls eff (.thread me k) th' :=
    forall_mem_setThread (fun _ => Or.inl) (.inr hth) k
  -- a goroutine that reads goes on reading
  have hread {th th' : Thread n C D} (hk : nd.threads[k]? = some th) (hr : th.readsLog = true) :
      nd.MayRead th' := fun _ => .inr ⟨th, List.mem_of_getElem? hk, hr⟩
  cases threadStep_cases h with
  | vote hk => exact hset (.vote hk rfl rfl)
  | beatStart hk hlog => exact hset (.beat hk _ fun _ => .inl hlog)
  | beat hk => exact hset (.beat hk _ (hread hk rfl))
  | beatSent hk | beatWait hk => exact hset (.beat hk _ nofun)
  | broadcastStart hk _ hlog => exact hset (.broadcast hk _ fun _ => .inl hlog)
  | broadcastSkip hk => exact hset (.broadcast hk _ (hread hk rfl))
  | broadcastSnapshot hk _ hlii =>
    exact forall_mem_go (hset (.broadcast hk _ (hread hk rfl)))
      (.inr (.snapshot (.inl ⟨k, _, hk⟩) (Nat.zero_lt_of_lt hlii) _))
  | broadcastEntries hk _ _ hargs =>
    exact forall_mem_go (hset (.broadcast hk _ (hread hk rfl)))
      (.inr (.append (.inl ⟨k, _, hk⟩) hargs _))
  | append hk _ hlead => exact hset (.check hk hlead)
  | encode hk hlt => exact hset (.encode hk hlt)
  | call hk => exact hset (.call hk _)
  | snapshot hk => exact hset (.resendSnapshot hk _)
  | scan hk hscan => exact hset (.scan hk hscan)
  | write hk => exact hset (.write hk)
  | exit => exact fun _ => .inl
  | done => exact fun _ hmem => .inl (mem_endThread hmem)

theorem threadReply_moves {call : ℕ} {request : Call n C D} {ok : Bool}
    (hc : calls[call]? = some request)
    (h : nd.threadReply me calls.length k call request ok = some eff) :
    ∀ th ∈ eff.node.threads, th ∈ nd.threads ∨ nd.Spawns me calls eff a th := by
  have hset {nd' : Node n C D} {th : Thread n C D} (hth : nd.Spawns me calls eff a th)
      (heq : nd'.threads = nd.threads) : ∀ th' ∈ (nd'.setThread k th).threads,
        th' ∈ nd.threads ∨ nd.Spawns me calls eff a th' :=
    forall_mem_setThread (fun _ hmem => .inl (heq ▸ hmem)) (.inr hth) k
  have hend {nd' : Node n C D} (heq : nd'.threads = nd.threads) :
      ∀ th ∈ (nd'.endThread k).threads, th ∈ nd.threads ∨ nd.Spawns me calls eff a th :=
    fun _ hmem => .inl (heq ▸ mem_endThread hmem)
  have hobs (t : ℕ) := observe_threads nd t
  have hadv (t : ℕ) (peer : Fin n) (index : ℕ) :=
    (advanceMatch_threads (nd.observe t) peer index).trans (hobs t)
  cases threadReply_cases h with
  | voteAgain hv => exact hset (.revote hv hc rfl rfl) rfl
  | voteCounted hv _ hr hsum => exact hset (.count hv hc hr hsum) (hobs _)
  | voteWon hv _ hr hgrant => exact hset (.count hv hc hr (if_pos hgrant).symm) rfl
  | beatLost hb => exact hset (.beat hb.thread _ nofun) rfl
  | beatMatched hb => exact hset (.beat hb.thread _ nofun) (hadv _ _ _)
  | beatRefused hb => exact hset (.beat hb.thread _ nofun) (hobs _)
  | appendAgain hk => exact hset (.resend hk) rfl
  | appendMatched => exact hend (hadv _ _ _)
  | appendDeposed => exact hend (hobs _)
  | retrySnapshot hr h0 hlii =>
    exact forall_mem_go (hend rfl) (.inr (.snapshot (.inr ⟨⟨rfl, hr.lead.2⟩, hr.raftStateFree⟩)
      (Nat.lt_of_lt_of_le (Nat.pos_of_ne_zero h0) hlii) _))
  | retryEntries hr _ _ hargs => exact hset (.retry hr.thread hr.lead hr.raftStateFree hargs) rfl
  | snapshotAgain hk => exact hset (.resendSnapshot hk _) rfl
  | followSnapshot hr hlii =>
    exact forall_mem_go (hend rfl)
      (.inr (.snapshot (.inr ⟨hr.lead, hr.raftStateFree⟩) (Nat.zero_lt_of_lt hlii) _))
  | followEntries hr _ hargs =>
    exact forall_mem_go (hend rfl) (.inr (.append (.inr ⟨hr.lead, hr.raftStateFree⟩) hargs _))
  | voteStale | appendStale | snapshotStale | snapshotDeposed => exact hend rfl
  | retryZero | retryExit | followExit => exact fun _ => .inl

end

section

variable {me : Fin n} {nd : Node n C D} {eff : Effect n C D}

/-! The handlers and the service start none. -/

theorem handle_threads {call : ℕ} {request : Request n C D}
    (h : nd.handle call request = some eff) : eff.node.threads = nd.threads := by
  cases handle_cases h with
  | requestVote args => exact observe_threads nd args.term
  | appendEntries args =>
    refine Eq.trans ?_ (observe_threads nd args.term)
    simp only [appendEntries, stepDown]
    split <;> rfl
  | installSnapshot args => exact observe_threads nd args.term

theorem resume_threads (h : nd.resume me = some eff) : eff.node.threads = nd.threads := by
  cases resume_cases h with
  | @copyLog _ args =>
    show (nd.copyLog args).threads = nd.threads
    rcases copyLog_eq nd args with h | ⟨log, backing, h⟩ <;> rw [h]
    rfl
  | appendCommit =>
    simp only [appendCommit, followCommit]
    split <;> rfl
  | _ => rfl

theorem applyStep_threads (h : nd.applyStep me = some eff) : eff.node.threads = nd.threads := by
  cases applyStep_cases h <;> rfl

theorem trySnapshot_threads {index : ℕ} {snapshot : Option D}
    (h : nd.trySnapshot me index snapshot = some eff) : eff.node.threads = nd.threads := by
  cases trySnapshot_cases h <;> rfl

end

end Node

namespace World

variable {w : World n C D} {p : Fin n} {eff : Effect n C D} {a : Action n C D}

/-- **Classification.** Every goroutine after a step was there before, or is one of the list. -/
theorem local_moves (h : Local w p eff a) : ∀ th ∈ eff.node.threads,
    th ∈ (w.nodes p).threads ∨ (w.nodes p).Spawns p w.calls eff a th := by
  have hkeep (heq : eff.node.threads = (w.nodes p).threads) : ∀ th ∈ eff.node.threads,
      th ∈ (w.nodes p).threads ∨ (w.nodes p).Spawns p w.calls eff a th :=
    fun _ hmem => .inl (heq ▸ hmem)
  cases h with
  | main h =>
    cases Node.mainStep_cases h with
    | leaderInitDone => exact Node.forall_mem_go (fun _ => .inl) (.inr .scanStart)
    | heartbeat hm => exact Node.forall_mem_go (fun _ => .inl) (.inr (.heartbeat hm))
    | elect hm => exact Node.forall_mem_go (fun _ => .inl) (.inr (.elect rfl))
    | _ => exact hkeep rfl
  | thread k h => exact Node.threadStep_moves h
  | reply k call ok request hc h => exact Node.threadReply_moves hc h
  | apply h => exact hkeep (Node.applyStep_threads h)
  | deliver call request hc hp h => exact hkeep (Node.handle_threads h)
  | resume h => exact hkeep (Node.resume_threads h)
  | start command h =>
    cases Node.tryStart_cases h with
    | append hs => exact Node.forall_mem_go (fun _ => .inl) (.inr (.start hs))
    | ignore => exact hkeep rfl
  | snapshot index snapshot h => exact hkeep (Node.trySnapshot_threads h)
  | restart h =>
    subst h
    intro th hth
    exact absurd hth (by simp [Node.restart, Node.make_threads])

end World

end MitDistributed.Raft
