import MitDistributed.Raft.World

namespace MitDistributed.Raft

open Memory

/-!
# Raft — what one step can do

For each function that takes a step there is one relation, with one case for each way through
its code: the conditions under which the code goes that way, and the effect.  The modules that
follow split on these cases and do not look into the code again.

* `MainCase`, `ThreadCase`, `ReplyCase`, `ApplyCase` — the steps of the goroutines;
* `HandleCase`, `ResumeCase` — the steps of the handlers;
* `StartCase`, `SnapshotCase` — the calls of the service.
-/

variable {n : ℕ} {C D : Type}

namespace Node

/-! ### `mainLoop` -/

section

variable (me : Fin n) (nd : Node n C D)

inductive MainCase : Effect n C D → Prop
  -- `mainLoop` reads the role once; what it calls then goes on whatever becomes of the role
  | lead (hm : nd.main = .read) (hs : nd.state = .leaderState) (hfree : nd.raftStateFree = true) :
      MainCase { node := { nd with main := .leaderInit } }
  | stand (hm : nd.main = .read) (hs : nd.state = .candidateState)
      (hfree : nd.raftStateFree = true) :
      MainCase { node := { nd with main := .doElection } }
  | follow (hm : nd.main = .read) (hs : nd.state = .followerState)
      (hfree : nd.raftStateFree = true) :
      MainCase { node := { nd with main := .followerWait } }
  -- `leaderMain`
  | leaderInit (hm : nd.main = .leaderInit) (hpeer : nd.peerLogFree = true)
      (hread : nd.logReadable = true) :
      MainCase { node :=
        { nd with
          nextIndex := fun _ => nd.getLogLength
          matchIndex := fun _ => 0
          main := .leaderInitDone } }
  | leaderInitDone (hm : nd.main = .leaderInitDone) :
      MainCase
        { node := go { nd with leaderInitDone := true, main := .leaderHeartbeat }
            (.tryIncrementCommitIndex .top) }
  | heartbeat (hm : nd.main = .leaderHeartbeat) (hfree : nd.raftStateFree = true) :
      MainCase
        { node := go { nd with main := .leaderCheck }
            (.sendHeartbeatToAll nd.currentTerm .start) }
  | stay (hm : nd.main = .leaderCheck) (hs : nd.state = .leaderState)
      (hfree : nd.raftStateFree = true) : MainCase { node := { nd with main := .leaderHeartbeat } }
  | leave (hm : nd.main = .leaderCheck) (hs : nd.state ≠ .leaderState)
      (hfree : nd.raftStateFree = true) : MainCase { node := { nd with main := .read } }
  -- `doElection`; the wait that follows ends in every role
  | elect (hm : nd.main = .doElection) (hfree : nd.raftStateFree = true) :
      MainCase (nd.doElection me)
  | counted (hm : nd.main = .electionWait) : MainCase { node := { nd with main := .read } }
  -- `followerMain` makes a candidate of the peer without a look at its role
  | timeout (hm : nd.main = .followerWait) (hfree : nd.raftStateFree = true) :
      MainCase { node := { nd with state := .candidateState, main := .read } }

end

theorem mainStep_cases {me : Fin n} {nd : Node n C D} {eff : Effect n C D}
    (h : nd.mainStep me = some eff) : nd.MainCase me eff := by
  unfold mainStep at h
  split at h
  case h_1 hm =>
    split at h
    · rename_i hfree
      split at h <;> rename_i hs <;> cases h
      · exact .lead hm hs hfree
      · exact .stand hm hs hfree
      · exact .follow hm hs hfree
    · cases h
  case h_2 hm =>
    split at h <;> cases h
    rename_i hfree
    rw [Bool.and_eq_true] at hfree
    exact .leaderInit hm hfree.1 hfree.2
  case h_3 hm =>
    cases h
    exact .leaderInitDone hm
  case h_4 hm =>
    split at h <;> cases h
    exact .heartbeat hm ‹_›
  case h_5 hm =>
    split at h
    · rename_i hfree
      split at h <;> rename_i hs <;> cases h
      · exact .stay hm hs hfree
      · exact .leave hm hs hfree
    · cases h
  case h_6 hm =>
    split at h <;> cases h
    exact .elect hm ‹_›
  case h_7 hm =>
    cases h
    exact .counted hm
  case h_8 hm =>
    split at h <;> cases h
    exact .timeout hm ‹_›

/-! ### The goroutines started with `go` -/

/-- One step of a pass of `tryIncrementCommitIndex`. -/
inductive ScanCase (nd : Node n C D) : ScanPc → ScanPc → Prop
  -- the term and the end of the log are read once for a pass
  | start (hfree : nd.raftStateFree = true) (hs : nd.state = .leaderState) :
      ScanCase nd .top (.scan nd.currentTerm nd.getLogLength (nd.commitIndex + 1))
  | skip (hlt : i < thisLogLength) (hread : nd.logReadable = true)
      (hlii : i ≤ nd.lastIncludedIndex) :
      ScanCase nd (.scan thisTerm thisLogLength i)
        (.scan thisTerm thisLogLength (nd.lastIncludedIndex + 1))
  | found (hlt : i < thisLogLength) (hread : nd.logReadable = true)
      (hlii : ¬ i ≤ nd.lastIncludedIndex) (ht : nd.getTermOfLog i = some thisTerm) :
      ScanCase nd (.scan thisTerm thisLogLength i) (.count thisTerm thisLogLength i)
  | next (hlt : i < thisLogLength) (hread : nd.logReadable = true)
      (hlii : ¬ i ≤ nd.lastIncludedIndex) (ht : nd.getTermOfLog i = some nowLogTerm)
      (hne : nowLogTerm ≠ thisTerm) :
      ScanCase nd (.scan thisTerm thisLogLength i) (.scan thisTerm thisLogLength (i + 1))
  | again (hlt : ¬ i < thisLogLength) : ScanCase nd (.scan thisTerm thisLogLength i) .top
  | count (hpeer : nd.peerLogFree = true) :
      ScanCase nd (.count thisTerm thisLogLength i)
        (.commit thisTerm thisLogLength i (nd.countMatch i))
  -- the test and the write of the commit index are one critical section, but not for
  -- `InstallSnapshot`
  | commit (hfree : nd.commitFree = true) (hc : nd.commits i count) :
      ScanCase nd (.commit thisTerm thisLogLength i count) (.write thisTerm thisLogLength i)
  | pass (hfree : nd.commitFree = true) (hc : ¬ nd.commits i count) :
      ScanCase nd (.commit thisTerm thisLogLength i count) (.scan thisTerm thisLogLength (i + 1))

section

variable (me : Fin n) (nd : Node n C D)

/-- The goroutines that end the process, by an accessor whose index is not in the log. -/
inductive ExitCase : Thread n C D → Prop
  | vote (hread : nd.logReadable = true) (hl : nd.getTermOfLog (nd.getLogLength - 1) = none) :
      ExitCase (.sendRequestVoteToAll thisTerm (peer :: todo) sum waiting)
  | beat (hl : nd.getTermOfLog (nd.getLogLength - 1) = none) :
      ExitCase (.sendHeartbeatToAll thisTerm (.send (peer :: todo) waiting))
  | broadcast (hlt : nd.getLogLength - 1 ≥ nd.nextIndex peer)
      (hlii : ¬ nd.lastIncludedIndex > nd.nextIndex peer - 1)
      (hargs : nd.appendArgs me thisTerm (nd.nextIndex peer - 1) nd.commitIndex = none) :
      ExitCase (.sendAppendEntriesToAll thisTerm (some (peer :: todo)))
  | scan (hlt : i < thisLogLength) (hread : nd.logReadable = true)
      (hlii : ¬ i ≤ nd.lastIncludedIndex) (ht : nd.getTermOfLog i = none) :
      ExitCase (.tryIncrementCommitIndex (.scan thisTerm thisLogLength i))

/-- The goroutines that come to their end. -/
inductive EndCase : Thread n C D → Prop
  | beat (hfree : nd.raftStateFree = true)
      (hend : nd.currentTerm > thisTerm ∨ nd.state ≠ .leaderState ∨ replyCount = n - 1) :
      EndCase (.sendHeartbeatToAll thisTerm (.check replyCount waiting))
  | broadcast : EndCase (.sendAppendEntriesToAll thisTerm (some []))
  | append (hfree : nd.raftStateFree = true) (hlead : ¬ nd.leads args.term) :
      EndCase (.sendAppendEntries peer args .check)
  | snapshot (hfree : nd.raftStateFree = true) (hlead : ¬ nd.leads args.term) :
      EndCase (.sendInstallSnapshot peer args .check)
  | scan (hfree : nd.raftStateFree = true) (hs : nd.state ≠ .leaderState) :
      EndCase (.tryIncrementCommitIndex .top)

variable (fresh k : ℕ)

/-- The steps of the goroutines, other than receiving the outcome of a call. -/
inductive ThreadCase : Effect n C D → Prop
  | exit (hk : nd.threads[k]? = some th) (h : nd.ExitCase me th) : ThreadCase { node := nd.exit }
  | done (hk : nd.threads[k]? = some th) (h : nd.EndCase th) :
      ThreadCase { node := nd.endThread k }
  -- `sendRequestVoteToAll`: each request reads the log anew
  | vote (hk : nd.threads[k]? = some (.sendRequestVoteToAll thisTerm (peer :: todo) sum waiting))
      (hread : nd.logReadable = true)
      (hl : nd.getTermOfLog (nd.getLogLength - 1) = some lastLogTerm) :
      ThreadCase
        { node := nd.setThread k (.sendRequestVoteToAll thisTerm todo sum (waiting ++ [fresh]))
          send := some (newCall me peer (.requestVote
            { term := thisTerm
              candidateId := me
              lastLogIndex := nd.getLogLength - 1
              lastLogTerm := lastLogTerm })) }
  -- `sendHeartbeatToAll` holds the log for reading from `beatStart` to `beatSent`
  | beatStart (hk : nd.threads[k]? = some (.sendHeartbeatToAll thisTerm .start))
      (hread : nd.logReadable = true) :
      ThreadCase { node := nd.setThread k (.sendHeartbeatToAll thisTerm (.send (others me) [])) }
  | beat (hk : nd.threads[k]? = some (.sendHeartbeatToAll thisTerm (.send (peer :: todo) waiting)))
      (hl : nd.getTermOfLog (nd.getLogLength - 1) = some prevLogTerm) :
      ThreadCase
        { node := nd.setThread k (.sendHeartbeatToAll thisTerm (.send todo (waiting ++ [fresh])))
          send := some (newCall me peer (.appendEntries
            { term := thisTerm
              leaderId := me
              entries := []
              prevLogIndex := nd.getLogLength - 1
              prevLogTerm := prevLogTerm
              leaderCommit := nd.commitIndex })) }
  | beatSent (hk : nd.threads[k]? = some (.sendHeartbeatToAll thisTerm (.send [] waiting))) :
      ThreadCase { node := nd.setThread k (.sendHeartbeatToAll thisTerm (.check 0 waiting)) }
  | beatWait (hk : nd.threads[k]? = some (.sendHeartbeatToAll thisTerm (.check replyCount waiting)))
      (hfree : nd.raftStateFree = true)
      (hend : ¬ (nd.currentTerm > thisTerm ∨ nd.state ≠ .leaderState ∨ replyCount = n - 1)) :
      ThreadCase
        { node := nd.setThread k (.sendHeartbeatToAll thisTerm (.receive replyCount waiting)) }
  -- `sendAppendEntriesToAll`: a peer that lacks what is compacted gets the snapshot instead
  | broadcastStart (hk : nd.threads[k]? = some (.sendAppendEntriesToAll thisTerm none))
      (hpeer : nd.peerLogFree = true) (hread : nd.logReadable = true) :
      ThreadCase { node := nd.setThread k (.sendAppendEntriesToAll thisTerm (some (others me))) }
  | broadcastSnapshot
      (hk : nd.threads[k]? = some (.sendAppendEntriesToAll thisTerm (some (peer :: todo))))
      (hlt : nd.getLogLength - 1 ≥ nd.nextIndex peer)
      (hlii : nd.lastIncludedIndex > nd.nextIndex peer - 1) :
      ThreadCase
        { node := (nd.setThread k (.sendAppendEntriesToAll thisTerm (some todo))).go
            (.sendInstallSnapshot peer (nd.snapshotArgs me thisTerm) .check) }
  | broadcastEntries
      (hk : nd.threads[k]? = some (.sendAppendEntriesToAll thisTerm (some (peer :: todo))))
      (hlt : nd.getLogLength - 1 ≥ nd.nextIndex peer)
      (hlii : ¬ nd.lastIncludedIndex > nd.nextIndex peer - 1)
      (hargs : nd.appendArgs me thisTerm (nd.nextIndex peer - 1) nd.commitIndex = some args) :
      ThreadCase
        { node := (nd.setThread k (.sendAppendEntriesToAll thisTerm (some todo))).go
            (.sendAppendEntries peer args .check) }
  | broadcastSkip
      (hk : nd.threads[k]? = some (.sendAppendEntriesToAll thisTerm (some (peer :: todo))))
      (hlt : ¬ nd.getLogLength - 1 ≥ nd.nextIndex peer) :
      ThreadCase { node := nd.setThread k (.sendAppendEntriesToAll thisTerm (some todo)) }
  -- before each call the goroutine makes sure that its peer still leads the term of the request
  | append (hk : nd.threads[k]? = some (.sendAppendEntries peer args .check))
      (hfree : nd.raftStateFree = true) (hlead : nd.leads args.term) :
      ThreadCase { node := nd.setThread k (.sendAppendEntries peer args (.encode [])) }
  -- after the check it holds no lock, and what it encodes is what the array then holds
  | encode (hk : nd.threads[k]? = some (.sendAppendEntries peer args (.encode encoded)))
      (hlt : encoded.length < args.entries.length) :
      ThreadCase
        { node := nd.setThread k (.sendAppendEntries peer args
            (.encode (encoded ++ [nd.sliceEntry args.entries encoded.length]))) }
  | call (hk : nd.threads[k]? = some (.sendAppendEntries peer args (.encode encoded)))
      (hlt : ¬ encoded.length < args.entries.length) :
      ThreadCase
        { node := nd.setThread k (.sendAppendEntries peer args (.wait fresh))
          send := some (newCall me peer (.appendEntries (args.request encoded))) }
  | snapshot (hk : nd.threads[k]? = some (.sendInstallSnapshot peer args .check))
      (hfree : nd.raftStateFree = true) (hlead : nd.leads args.term) :
      ThreadCase
        { node := nd.setThread k (.sendInstallSnapshot peer args (.wait fresh))
          send := some (newCall me peer (.installSnapshot args)) }
  | scan (hk : nd.threads[k]? = some (.tryIncrementCommitIndex pc)) (h : nd.ScanCase pc pc') :
      ThreadCase { node := nd.setThread k (.tryIncrementCommitIndex pc') }
  | write
      (hk : nd.threads[k]? = some (.tryIncrementCommitIndex (.write thisTerm thisLogLength i))) :
      ThreadCase
        { node := (nd.commit i).setThread k (.tryIncrementCommitIndex
            (.scan thisTerm thisLogLength (i + 1))) }

end

section

variable {me : Fin n} {nd : Node n C D} {fresh k : ℕ} {eff : Effect n C D}

theorem appendToPeer_cases {thisTerm : ℕ} {peer : Fin n} {todo : List (Fin n)}
    (hk : nd.threads[k]? = some (.sendAppendEntriesToAll thisTerm (some (peer :: todo)))) :
    nd.ThreadCase me fresh k (nd.appendToPeer me k thisTerm peer todo) := by
  unfold appendToPeer
  split
  · rename_i hlt
    split
    · exact .broadcastSnapshot hk hlt ‹_›
    · rename_i hlii
      split <;> rename_i hargs
      · exact .broadcastEntries hk hlt hlii hargs
      · exact .exit hk (.broadcast hlt hlii hargs)
  · exact .broadcastSkip hk ‹_›

theorem scanStep_cases {pc : ScanPc} (hk : nd.threads[k]? = some (.tryIncrementCommitIndex pc))
    (h : nd.scanStep k pc = some eff) : nd.ThreadCase me fresh k eff := by
  cases pc with
  | top =>
    simp only [scanStep] at h
    split at h
    · rename_i hfree
      split at h <;> rename_i hs <;> cases h
      · exact .scan hk (.start hfree hs)
      · exact .done hk (.scan hfree hs)
    · cases h
  | scan thisTerm thisLogLength i =>
    simp only [scanStep] at h
    split at h
    · rename_i hlt
      split at h
      · rename_i hread
        split at h
        · cases h
          exact .scan hk (.skip hlt hread ‹_›)
        · rename_i hlii
          split at h
          · cases h
            exact .exit hk (.scan hlt hread hlii ‹_›)
          · rename_i nowLogTerm ht
            cases h
            by_cases heq : nowLogTerm = thisTerm
            · rw [if_pos heq]
              exact .scan hk (.found hlt hread hlii (heq ▸ ht))
            · rw [if_neg heq]
              exact .scan hk (.next hlt hread hlii ht heq)
      · cases h
    · cases h
      exact .scan hk (.again ‹_›)
  | count thisTerm thisLogLength i =>
    simp only [scanStep] at h
    split at h <;> cases h
    exact .scan hk (.count ‹_›)
  | commit thisTerm thisLogLength i count =>
    simp only [scanStep] at h
    split at h <;> cases h
    rename_i hfree
    by_cases hc : nd.commits i count
    · rw [if_pos hc]
      exact .scan hk (.commit hfree hc)
    · rw [if_neg hc]
      exact .scan hk (.pass hfree hc)
  | write thisTerm thisLogLength i =>
    cases h
    exact .write hk

theorem threadStep_cases (h : nd.threadStep me fresh k = some eff) :
    nd.ThreadCase me fresh k eff := by
  unfold threadStep at h
  split at h
  case h_1 hk =>
    split at h <;> cases h
    rename_i hread
    unfold sendRequestVote
    split <;> rename_i hl
    · exact .exit hk (.vote hread hl)
    · exact .vote hk hread hl
  case h_2 hk =>
    split at h <;> cases h
    exact .beatStart hk ‹_›
  case h_3 hk =>
    cases h
    unfold sendHeartbeat
    split <;> rename_i hl
    · exact .exit hk (.beat hl)
    · exact .beat hk hl
  case h_4 hk =>
    cases h
    exact .beatSent hk
  case h_5 hk =>
    split at h
    · rename_i hfree
      split at h <;> rename_i hend <;> cases h
      · exact .done hk (.beat hfree hend)
      · exact .beatWait hk hfree hend
    · cases h
  case h_6 hk =>
    split at h <;> cases h
    rename_i hfree
    rw [Bool.and_eq_true] at hfree
    exact .broadcastStart hk hfree.1 hfree.2
  case h_7 hk =>
    cases h
    exact appendToPeer_cases hk
  case h_8 hk =>
    cases h
    exact .done hk .broadcast
  case h_9 hk =>
    split at h <;> cases h
    rename_i hfree
    unfold checkAppendEntries
    split <;> rename_i hlead
    · exact .append hk hfree hlead
    · exact .done hk (.append hfree hlead)
  case h_10 hk =>
    cases h
    unfold callAppendEntries
    split <;> rename_i hlt
    · exact .encode hk hlt
    · exact .call hk hlt
  case h_11 hk =>
    split at h <;> cases h
    rename_i hfree
    unfold callInstallSnapshot
    split <;> rename_i hlead
    · exact .snapshot hk hfree hlead
    · exact .done hk (.snapshot hfree hlead)
  case h_12 hk => exact scanStep_cases hk h
  case h_13 => cases h

end

/-- Goroutine `k`, which is at `th`, reads `reply` with `raftState` and `peerLogMutex` locked. -/
structure Replied (nd : Node n C D) (k : ℕ) (request : Call n C D) (ok : Bool)
    (th : Thread n C D) (reply : Reply) : Prop where
  thread : nd.threads[k]? = some th
  raftStateFree : nd.raftStateFree = true
  peerLogFree : nd.peerLogFree = true
  ok : ok = true
  reply : request.reply = some reply

/-- Goroutine `k` receives the outcome of `call` in an election that is still open. -/
structure Polled (nd : Node n C D) (k call thisTerm sum : ℕ) (waiting : List ℕ) : Prop where
  thread : nd.threads[k]? = some (.sendRequestVoteToAll thisTerm [] sum waiting)
  raftStateFree : nd.raftStateFree = true
  waits : call ∈ waiting
  term : nd.currentTerm ≤ thisTerm
  candidate : nd.state = .candidateState

/-- Goroutine `k` receives the outcome of the heartbeat `call`. -/
structure Beaten (nd : Node n C D) (k call thisTerm replyCount : ℕ) (waiting : List ℕ)
    (request : Call n C D) (args : AppendEntriesArgs n C) : Prop where
  thread : nd.threads[k]? = some (.sendHeartbeatToAll thisTerm (.receive replyCount waiting))
  raftStateFree : nd.raftStateFree = true
  peerLogFree : nd.peerLogFree = true
  waits : call ∈ waiting
  request : request.request = .appendEntries args

/-- The leader reads that its entries are refused, by a peer that knows no later term. -/
structure Refused (nd : Node n C D) (k call : ℕ) (request : Call n C D) (ok : Bool) (peer : Fin n)
    (args : SenderArgs n) (r : AppendEntriesReply) : Prop
    extends nd.Replied k request ok (.sendAppendEntries peer args (.wait call)) (.appendEntries r)
    where
  lead : nd.leads args.term
  failed : ¬ r.success = true
  term : ¬ r.term > nd.currentTerm

/-- The leader reads that its snapshot has arrived. -/
structure Arrived (nd : Node n C D) (k call : ℕ) (request : Call n C D) (ok : Bool) (peer : Fin n)
    (args : InstallSnapshotArgs n D) (r : InstallSnapshotReply) : Prop
    extends nd.Replied k request ok (.sendInstallSnapshot peer args (.wait call))
      (.installSnapshot r) where
  lead : nd.leads args.term
  term : ¬ r.term > nd.currentTerm

section

variable (me : Fin n) (nd : Node n C D) (fresh k call : ℕ) (request : Call n C D) (ok : Bool)

/-- The outcomes that the goroutines receive. -/
inductive ReplyCase : Effect n C D → Prop
  -- votes: with a later term, or without a candidate, the election is over
  | voteStale (hk : nd.threads[k]? = some (.sendRequestVoteToAll thisTerm [] sum waiting))
      (hfree : nd.raftStateFree = true) (hw : call ∈ waiting)
      (hopen : nd.currentTerm > thisTerm ∨ nd.state ≠ .candidateState) :
      ReplyCase { node := nd.endThread k }
  | voteAgain (hv : nd.Polled k call thisTerm sum waiting) (hok : ok = false) :
      ReplyCase
        { node := nd.setThread k
            (.sendRequestVoteToAll thisTerm [] sum (waiting.erase call ++ [fresh]))
          send := some (newCall me request.dst request.request) }
  | voteCounted (hv : nd.Polled k call thisTerm sum waiting) (hok : ok = true)
      (hr : request.reply = some (.requestVote reply))
      (hsum : sum' = if reply.voteGranted then sum + 1 else sum)
      (hno : ¬ (reply.voteGranted = true ∧ sum + 1 > n / 2 ∧ (nd.observe reply.term).state =
        .candidateState)) :
      ReplyCase
        { node := (nd.observe reply.term).setThread k
            (.sendRequestVoteToAll thisTerm [] sum' (waiting.erase call)) }
  | voteWon (hv : nd.Polled k call thisTerm sum waiting) (hok : ok = true)
      (hr : request.reply = some (.requestVote reply)) (hgrant : reply.voteGranted = true)
      (hmaj : sum + 1 > n / 2) :
      ReplyCase
        { node := setThread { nd with state := .leaderState, leaderInitDone := false } k
            (.sendRequestVoteToAll thisTerm [] (sum + 1) (waiting.erase call))
          events := [.won me thisTerm nd.currentTerm] }
  -- heartbeats: no look at the role, and a refusal is not followed up
  | beatLost (hb : nd.Beaten k call thisTerm replyCount waiting request args) (hok : ok = false) :
      ReplyCase
        { node := nd.setThread k
            (.sendHeartbeatToAll thisTerm (.check (replyCount + 1) (waiting.erase call))) }
  | beatMatched (hb : nd.Beaten k call thisTerm replyCount waiting request args) (hok : ok = true)
      (hr : request.reply = some (.appendEntries reply)) (hs : reply.success = true) :
      ReplyCase
        { node := ((nd.observe reply.term).advanceMatch request.dst args.prevLogIndex).setThread k
            (.sendHeartbeatToAll thisTerm (.check (replyCount + 1) (waiting.erase call))) }
  | beatRefused (hb : nd.Beaten k call thisTerm replyCount waiting request args) (hok : ok = true)
      (hr : request.reply = some (.appendEntries reply)) (hs : ¬ reply.success = true) :
      ReplyCase
        { node := (nd.observe reply.term).setThread k
            (.sendHeartbeatToAll thisTerm (.check (replyCount + 1) (waiting.erase call))) }
  -- `sendAppendEntries`: a refused request is sent again from where the answer says, in the same
  -- term, or a snapshot in the current one
  | appendAgain (hk : nd.threads[k]? = some (.sendAppendEntries peer args (.wait call)))
      (hok : ok = false) :
      ReplyCase { node := nd.setThread k (.sendAppendEntries peer args .check) }
  | appendStale
      (hr : nd.Replied k request ok (.sendAppendEntries peer args (.wait call)) (.appendEntries
        reply)) (hlead : ¬ nd.leads args.term) : ReplyCase { node := nd.endThread k }
  | appendMatched
      (hr : nd.Replied k request ok (.sendAppendEntries peer args (.wait call)) (.appendEntries
        reply)) (hlead : nd.leads args.term) (hs : reply.success = true) :
      ReplyCase
        { node := ((nd.observe reply.term).advanceMatch peer
            (args.prevLogIndex + args.entries.length)).endThread k }
  | appendDeposed
      (hr : nd.Replied k request ok (.sendAppendEntries peer args (.wait call)) (.appendEntries
        reply)) (hlead : nd.leads args.term) (hs : ¬ reply.success = true)
      (ht : reply.term > nd.currentTerm) : ReplyCase { node := (nd.observe reply.term).endThread k }
  | retryZero (hr : nd.Refused k call request ok peer args reply)
      (h0 : reply.nextRetryStartIndex = 0) : ReplyCase { node := nd.exit }
  | retrySnapshot (hr : nd.Refused k call request ok peer args reply)
      (h0 : ¬ reply.nextRetryStartIndex = 0)
      (hlii : reply.nextRetryStartIndex ≤ nd.lastIncludedIndex) :
      ReplyCase
        { node := (nd.endThread k).go
            (.sendInstallSnapshot peer (nd.snapshotArgs me nd.currentTerm) .check) }
  | retryEntries (hr : nd.Refused k call request ok peer args reply)
      (h0 : ¬ reply.nextRetryStartIndex = 0)
      (hlii : ¬ reply.nextRetryStartIndex ≤ nd.lastIncludedIndex)
      (hargs : nd.appendArgs me args.term (reply.nextRetryStartIndex - 1) args.leaderCommit = some
        args') :
      ReplyCase
        { node := setThread
            { nd with nextIndex := Function.update nd.nextIndex peer reply.nextRetryStartIndex } k
            (.sendAppendEntries peer args' .check) }
  | retryExit (hr : nd.Refused k call request ok peer args reply)
      (h0 : ¬ reply.nextRetryStartIndex = 0)
      (hlii : ¬ reply.nextRetryStartIndex ≤ nd.lastIncludedIndex)
      (hargs : nd.appendArgs me args.term (reply.nextRetryStartIndex - 1) args.leaderCommit =
        none) :
      ReplyCase { node := nd.exit }
  -- `sendInstallSnapshot`: a newer snapshot, or the entries after this one
  | snapshotAgain (hk : nd.threads[k]? = some (.sendInstallSnapshot peer args (.wait call)))
      (hok : ok = false) :
      ReplyCase { node := nd.setThread k (.sendInstallSnapshot peer args .check) }
  | snapshotStale
      (hr : nd.Replied k request ok (.sendInstallSnapshot peer args (.wait call)) (.installSnapshot
        reply)) (hlead : ¬ nd.leads args.term) : ReplyCase { node := nd.endThread k }
  | snapshotDeposed
      (hr : nd.Replied k request ok (.sendInstallSnapshot peer args (.wait call)) (.installSnapshot
        reply)) (hlead : nd.leads args.term) (ht : reply.term > nd.currentTerm) :
      ReplyCase { node := (nd.updateTerm reply.term).endThread k }
  | followSnapshot (hr : nd.Arrived k call request ok peer args reply)
      (hlii : nd.lastIncludedIndex > args.lastIncludedIndex) :
      ReplyCase
        { node := ((nd.setMatch peer args.lastIncludedIndex).endThread k).go
            (.sendInstallSnapshot peer (nd.snapshotArgs me args.term) .check) }
  | followEntries (hr : nd.Arrived k call request ok peer args reply)
      (hlii : ¬ nd.lastIncludedIndex > args.lastIncludedIndex)
      (hargs : nd.appendArgs me args.term args.lastIncludedIndex nd.commitIndex = some args') :
      ReplyCase
        { node := ((nd.setMatch peer args.lastIncludedIndex).endThread k).go
            (.sendAppendEntries peer args' .check) }
  | followExit (hr : nd.Arrived k call request ok peer args reply)
      (hlii : ¬ nd.lastIncludedIndex > args.lastIncludedIndex)
      (hargs : nd.appendArgs me args.term args.lastIncludedIndex nd.commitIndex = none) :
      ReplyCase { node := nd.exit }

end

section

variable {me : Fin n} {nd : Node n C D} {fresh k call : ℕ} {request : Call n C D} {ok : Bool}
  {eff : Effect n C D}

/-- A candidate that is still one after a reply has seen no later term in it. -/
theorem observe_of_candidate {t : ℕ} (h : (nd.observe t).state = .candidateState) :
    nd.observe t = nd := by
  unfold observe at h ⊢
  split at h
  · cases h
  · rename_i hle
    exact if_neg hle

theorem receiveVote_cases {thisTerm sum : ℕ} {waiting : List ℕ} {outcome : Option RequestVoteReply}
    (hk : nd.threads[k]? = some (.sendRequestVoteToAll thisTerm [] sum waiting))
    (hfree : nd.raftStateFree = true) (hw : call ∈ waiting)
    (ho : outcome = none ∧ ok = false ∨
      ∃ reply, outcome = some reply ∧ ok = true ∧ request.reply = some (.requestVote reply)) :
    nd.ReplyCase me fresh k call request ok
      (nd.receiveVote me fresh k thisTerm sum waiting call request outcome) := by
  unfold receiveVote
  split
  · exact .voteStale hk hfree hw ‹_›
  rename_i hopen
  rw [not_or, not_lt, not_not] at hopen
  have hpoll : nd.Polled k call thisTerm sum waiting := ⟨hk, hfree, hw, hopen.1, hopen.2⟩
  rcases ho with ⟨rfl, hok⟩ | ⟨reply, rfl, hok, hr⟩
  · exact .voteAgain hpoll hok
  simp only [countVote]
  split
  · rename_i hv
    split
    · rename_i hmaj
      rw [observe_of_candidate hmaj.2]
      exact .voteWon hpoll hok hr hv hmaj.1
    · rename_i hmaj
      exact .voteCounted hpoll hok hr (if_pos hv).symm fun h => hmaj h.2
  · rename_i hv
    exact .voteCounted hpoll hok hr (if_neg hv).symm fun h => hv h.1

theorem receiveAppendEntries_cases {peer : Fin n} {args : SenderArgs n} {reply : AppendEntriesReply}
    (hr : nd.Replied k request ok (.sendAppendEntries peer args (.wait call))
      (.appendEntries reply)) :
    nd.ReplyCase me fresh k call request ok
      (nd.receiveAppendEntries me k peer args (some reply)) := by
  simp only [receiveAppendEntries]
  split
  · rename_i hlead
    split
    · exact .appendMatched hr hlead ‹_›
    rename_i hs
    split
    · exact .appendDeposed hr hlead hs ‹_›
    rename_i ht
    have href : nd.Refused k call request ok peer args reply := ⟨hr, hlead, hs, ht⟩
    unfold retryAppendEntries
    split
    · exact .retryZero href ‹_›
    rename_i h0
    split
    · exact .retrySnapshot href h0 ‹_›
    rename_i hlii
    split <;> rename_i hargs
    · exact .retryEntries href h0 hlii hargs
    · exact .retryExit href h0 hlii hargs
  · exact .appendStale hr ‹_›

theorem receiveInstallSnapshot_cases {peer : Fin n} {args : InstallSnapshotArgs n D}
    {reply : InstallSnapshotReply}
    (hr : nd.Replied k request ok (.sendInstallSnapshot peer args (.wait call))
      (.installSnapshot reply)) :
    nd.ReplyCase me fresh k call request ok
      (nd.receiveInstallSnapshot me k peer args (some reply)) := by
  simp only [receiveInstallSnapshot]
  split
  · rename_i hlead
    split
    · exact .snapshotDeposed hr hlead ‹_›
    rename_i ht
    unfold followSnapshot
    split
    · exact .followSnapshot ⟨hr, hlead, ht⟩ ‹_›
    rename_i hlii
    split <;> rename_i hargs
    · exact .followEntries ⟨hr, hlead, ht⟩ hlii hargs
    · exact .followExit ⟨hr, hlead, ht⟩ hlii hargs
  · exact .snapshotStale hr ‹_›

theorem threadReply_cases (h : nd.threadReply me fresh k call request ok = some eff) :
    nd.ReplyCase me fresh k call request ok eff := by
  unfold threadReply at h
  split at h
  case h_1 hk =>
    split at h
    · rename_i hw
      rw [Bool.and_eq_true, List.contains_iff_mem] at hw
      split at h <;> cases h
      · exact receiveVote_cases hk hw.1 hw.2 (.inl ⟨rfl, rfl⟩)
      · exact receiveVote_cases hk hw.1 hw.2 (.inr ⟨_, rfl, rfl, ‹_›⟩)
    · cases h
  case h_2 hk =>
    split at h
    · rename_i hw
      rw [Bool.and_eq_true, Bool.and_eq_true, List.contains_iff_mem] at hw
      obtain ⟨⟨hfree, hpeer⟩, hw⟩ := hw
      split at h <;> cases h
      · exact .beatLost ⟨hk, hfree, hpeer, hw, ‹_›⟩ rfl
      · rename_i reply args hr hreq
        simp only [receiveHeartbeat, learnHeartbeat]
        split <;> rename_i hs
        · exact .beatMatched ⟨hk, hfree, hpeer, hw, hreq⟩ rfl hr hs
        · exact .beatRefused ⟨hk, hfree, hpeer, hw, hreq⟩ rfl hr hs
    · cases h
  case h_3 hk =>
    split at h
    · rename_i hc
      subst hc
      split at h
      · cases h
        exact .appendAgain hk rfl
      · rename_i hr
        split at h <;> cases h
        rename_i hfree
        rw [Bool.and_eq_true] at hfree
        exact receiveAppendEntries_cases ⟨hk, hfree.1, hfree.2, rfl, hr⟩
      · cases h
    · cases h
  case h_4 hk =>
    split at h
    · rename_i hc
      subst hc
      split at h
      · cases h
        exact .snapshotAgain hk rfl
      · rename_i hr
        split at h <;> cases h
        rename_i hfree
        rw [Bool.and_eq_true] at hfree
        exact receiveInstallSnapshot_cases ⟨hk, hfree.1, hfree.2, rfl, hr⟩
      · cases h
    · cases h
  case h_5 => cases h

end

/-! ### `applyLoop` -/

section

variable (me : Fin n) (nd : Node n C D)

inductive ApplyCase : Effect n C D → Prop
  | wake (hpc : nd.applying = .wait) (hn : nd.applyNotifyCh > 0)
      (hc : nd.commitIndex > nd.lastApplied) :
      ApplyCase { node :=
        { nd with applyNotifyCh := nd.applyNotifyCh - 1, applying := .needUpdate } }
  | idle (hpc : nd.applying = .wait) (hn : nd.applyNotifyCh > 0)
      (hc : ¬ nd.commitIndex > nd.lastApplied) :
      ApplyCase { node := { nd with applyNotifyCh := nd.applyNotifyCh - 1, applying := .wait } }
  | next (hpc : nd.applying = .needUpdate) :
      ApplyCase { node := { nd with applying := .take (nd.lastApplied + 1) } }
  | skip (hpc : nd.applying = .take nextApplied) (hread : nd.logReadable = true)
      (hlii : nd.lastIncludedIndex > nextApplied) :
      ApplyCase { node := { nd with applying := .wait } }
  | exit (hpc : nd.applying = .take nextApplied) (hread : nd.logReadable = true)
      (hlii : ¬ nd.lastIncludedIndex > nextApplied)
      (hlogs : nd.getLogs nextApplied (nd.commitIndex + 1) = none) : ApplyCase { node := nd.exit }
  | take (hpc : nd.applying = .take nextApplied) (hread : nd.logReadable = true)
      (hlii : ¬ nd.lastIncludedIndex > nextApplied)
      (hlogs : nd.getLogs nextApplied (nd.commitIndex + 1) = some toBeApplied) :
      ApplyCase { node := { nd with applying := .send nextApplied toBeApplied 0 } }
  | send (hpc : nd.applying = .send nextApplied toBeApplied i) (hlt : i < toBeApplied.length) :
      ApplyCase
        { node := { nd with applying := .send nextApplied toBeApplied (i + 1) }
          events := [.applied me
            (.command (nd.sliceEntry toBeApplied i).command (i + nextApplied))] }
  -- the batch is delivered, and its length is added to `lastApplied` in two steps
  | load (hpc : nd.applying = .send nextApplied toBeApplied i) (hlt : ¬ i < toBeApplied.length) :
      ApplyCase { node := { nd with applying := .store (nd.lastApplied + toBeApplied.length) } }
  | store {lastApplied : ℕ} (hpc : nd.applying = .store lastApplied) :
      ApplyCase { node := { nd with lastApplied := lastApplied, applying := .wait } }

end

theorem applyStep_cases {me : Fin n} {nd : Node n C D} {eff : Effect n C D}
    (h : nd.applyStep me = some eff) : nd.ApplyCase me eff := by
  unfold applyStep at h
  split at h
  case h_1 hpc =>
    split at h <;> cases h
    rename_i hn
    by_cases hc : nd.commitIndex > nd.lastApplied
    · simp only [if_pos hc]
      exact .wake hpc hn hc
    · simp only [if_neg hc]
      exact .idle hpc hn hc
  case h_2 hpc =>
    cases h
    exact .next hpc
  case h_3 hpc =>
    split at h
    · rename_i hread
      split at h
      · cases h
        exact .skip hpc hread ‹_›
      · rename_i hlii
        split at h <;> rename_i hlogs <;> cases h
        · exact .exit hpc hread hlii hlogs
        · exact .take hpc hread hlii hlogs
    · cases h
  case h_4 hpc =>
    split at h <;> rename_i hlt <;> cases h
    · exact .send hpc hlt
    · exact .load hpc hlt
  case h_5 hpc =>
    cases h
    exact .store hpc

/-! ### The handlers -/

inductive HandleCase (nd : Node n C D) (call : ℕ) : Request n C D → Effect n C D → Prop
  | requestVote (args : RequestVoteArgs n) (hfree : nd.raftStateFree = true) :
      HandleCase nd call (.requestVote args) (nd.requestVote call args)
  | appendEntries (args : AppendEntriesArgs n C) (hfree : nd.logFree = true) :
      HandleCase nd call (.appendEntries args) (nd.appendEntries call args)
  | installSnapshot (args : InstallSnapshotArgs n D) (hfree : nd.logFree = true) :
      HandleCase nd call (.installSnapshot args) (nd.installSnapshot call args)

theorem handle_cases {nd : Node n C D} {call : ℕ} {request : Request n C D} {eff : Effect n C D}
    (h : nd.handle call request = some eff) : nd.HandleCase call request eff := by
  cases request with
  | requestVote args =>
    simp only [handle] at h
    split at h <;> cases h
    exact .requestVote args ‹_›
  | appendEntries args =>
    simp only [handle] at h
    split at h <;> cases h
    exact .appendEntries args ‹_›
  | installSnapshot args =>
    simp only [handle] at h
    split at h <;> cases h
    exact .installSnapshot args ‹_›

section

variable (nd : Node n C D) (call : ℕ) (args : InstallSnapshotArgs n D)

/-- The tests of `InstallSnapshot` before the writes of the two indices, and where it goes on. -/
inductive InstallTest : InstallPc → Held n C D → Prop
  | raiseCommit (hlt : args.lastIncludedIndex > nd.commitIndex) :
      InstallTest .testCommit (.installIndex call args .setCommit)
  | keepCommit (hle : args.lastIncludedIndex ≤ nd.commitIndex) :
      InstallTest .testCommit (.installIndex call args .testApplied)
  | raiseApplied (hlt : args.lastIncludedIndex > nd.lastApplied) :
      InstallTest .testApplied (.installIndex call args .setApplied)
  | keepApplied (hle : args.lastIncludedIndex ≤ nd.lastApplied) :
      InstallTest .testApplied (.installSave call args)

end

section

variable (me : Fin n) (nd : Node n C D)

inductive ResumeCase : Effect n C D → Prop
  | voteExit (hh : nd.held = some (.requestVote call args)) (hn : nd.isNewerThanMe args = none) :
      ResumeCase { node := nd.exit }
  | refuseVote (hh : nd.held = some (.requestVote call args))
      (hno : ¬ (args.term ≥ nd.currentTerm ∧ (nd.votedFor = none ∨ nd.votedFor = some
        args.candidateId) ∧ nd.isNewerThanMe args = some true)) :
      ResumeCase (nd.answer call (.requestVote { term := nd.currentTerm, voteGranted := false }))
  | grantVote (hh : nd.held = some (.requestVote call args)) (ht : args.term ≥ nd.currentTerm)
      (hv : nd.votedFor = none ∨ nd.votedFor = some args.candidateId)
      (hn : nd.isNewerThanMe args = some true) :
      ResumeCase
        { node := { nd with votedFor := some args.candidateId }.persist.release
          answer := some (call, .requestVote { term := nd.currentTerm, voteGranted := true })
          events := [.voted me args.candidateId args.term] }
  | appendExit (hh : nd.held = some (.appendLog call args)) (ht : ¬ args.term < nd.currentTerm)
      (hlii : ¬ nd.lastIncludedIndex > args.prevLogIndex)
      (hlen : ¬ args.prevLogIndex > nd.getLogLength - 1)
      (hprev : nd.getTermOfLog args.prevLogIndex ≠ some args.prevLogTerm)
      (h0 : args.prevLogIndex = 0) : ResumeCase { node := nd.exit }
  /-- the four refusals of `AppendEntries` -/
  | refuseAppend (hh : nd.held = some (.appendLog call args))
      (hno : args.term < nd.currentTerm ∨ nd.lastIncludedIndex > args.prevLogIndex ∨
        args.prevLogIndex > nd.getLogLength - 1 ∨ nd.getTermOfLog args.prevLogIndex ≠ some
        args.prevLogTerm) :
      ResumeCase (nd.answer call (.appendEntries
        { term := nd.currentTerm, success := false, nextRetryStartIndex := retry }))
  | copyLog (hh : nd.held = some (.appendLog call args)) (ht : ¬ args.term < nd.currentTerm)
      (hlii : ¬ nd.lastIncludedIndex > args.prevLogIndex)
      (hlen : ¬ args.prevLogIndex > nd.getLogLength - 1)
      (hprev : nd.getTermOfLog args.prevLogIndex = some args.prevLogTerm) :
      ResumeCase { node := { nd.copyLog args with held := some (.appendCommit call args) } }
  | appendCommit (hh : nd.held = some (.appendCommit call args)) (hfree : nd.commitFree = true) :
      ResumeCase (nd.appendCommit me call args)
  | ignoreSnapshot (hh : nd.held = some (.installLog call args)) (hi : ¬ nd.installs args) :
      ResumeCase (nd.answer call (.installSnapshot { term := nd.currentTerm }))
  | install (hh : nd.held = some (.installLog call args)) (hi : nd.installs args) :
      ResumeCase
        { node := { nd.install args with held := some (.installIndex call args .testCommit) }
          events := [.installed me args.lastIncludedIndex args.data] }
  -- the tests and the writes of the two indices; nothing is locked that guards them
  | installTest {held : Held n C D} (hh : nd.held = some (.installIndex call args pc))
      (ht : nd.InstallTest call args pc held) : ResumeCase { node := { nd with held := some held } }
  | setCommit (hh : nd.held = some (.installIndex call args .setCommit)) :
      ResumeCase { node :=
        { nd with
          commitIndex := args.lastIncludedIndex
          held := some (.installIndex call args .testApplied) } }
  | setApplied (hh : nd.held = some (.installIndex call args .setApplied)) :
      ResumeCase { node :=
        { nd with
          lastApplied := args.lastIncludedIndex
          held := some (.installSave call args) } }
  | installSave (hh : nd.held = some (.installSave call args)) :
      ResumeCase (nd.installSave call args)
  | installSend (hh : nd.held = some (.installSend call args)) :
      ResumeCase (nd.installSend me call args)
  | snapshotSave {snapshot : Option D} (hh : nd.held = some (.snapshotSave snapshot)) :
      ResumeCase (nd.snapshotSave snapshot)

end

variable {call : ℕ} {eff : Effect n C D}

theorem resumeRequestVote_cases {me : Fin n} {nd : Node n C D} {args : RequestVoteArgs n}
    (hh : nd.held = some (.requestVote call args)) :
    nd.ResumeCase me (nd.resumeRequestVote me call args) := by
  unfold resumeRequestVote
  split
  · rename_i hc
    split <;> rename_i hn
    · exact .voteExit hh hn
    · exact .refuseVote hh fun h => absurd (hn.symm.trans h.2.2) (by simp)
    · exact .grantVote hh hc.1 hc.2 hn
  · rename_i hc
    exact .refuseVote hh fun h => hc ⟨h.1, h.2.1⟩

theorem appendLog_cases {me : Fin n} {nd : Node n C D} {args : AppendEntriesArgs n C}
    (hh : nd.held = some (.appendLog call args)) : nd.ResumeCase me (nd.appendLog call args) := by
  unfold appendLog
  split
  · exact .refuseAppend hh (.inl ‹_›)
  rename_i ht
  split
  · exact .refuseAppend hh (.inr (.inl ‹_›))
  rename_i hlii
  split
  · exact .refuseAppend hh (.inr (.inr (.inl ‹_›)))
  rename_i hlen
  split
  · rename_i hprev
    split
    · exact .appendExit hh ht hlii hlen hprev ‹_›
    · exact .refuseAppend hh (.inr (.inr (.inr hprev)))
  · rename_i hprev
    exact .copyLog hh ht hlii hlen (not_not.mp hprev)

theorem installIndex_cases {me : Fin n} {nd : Node n C D} {args : InstallSnapshotArgs n D}
    {pc : InstallPc} (hh : nd.held = some (.installIndex call args pc)) :
    nd.ResumeCase me (nd.installIndex call args pc) := by
  cases pc with
  | testCommit =>
    by_cases hlt : args.lastIncludedIndex > nd.commitIndex
    · simp only [installIndex, if_pos hlt]
      exact .installTest hh (.raiseCommit hlt)
    · simp only [installIndex, if_neg hlt]
      exact .installTest hh (.keepCommit (not_lt.mp hlt))
  | setCommit => exact .setCommit hh
  | testApplied =>
    by_cases hlt : args.lastIncludedIndex > nd.lastApplied
    · simp only [installIndex, if_pos hlt]
      exact .installTest hh (.raiseApplied hlt)
    · simp only [installIndex, if_neg hlt]
      exact .installTest hh (.keepApplied (not_lt.mp hlt))
  | setApplied => exact .setApplied hh

theorem resume_cases {me : Fin n} {nd : Node n C D} (h : nd.resume me = some eff) :
    nd.ResumeCase me eff := by
  cases hh : nd.held with
  | none => simp only [resume, hh] at h; cases h
  | some held =>
    simp only [resume, hh] at h
    cases held with
    | requestVote call args => cases h; exact resumeRequestVote_cases hh
    | appendLog call args => cases h; exact appendLog_cases hh
    | appendCommit call args =>
      simp only at h
      split at h <;> cases h
      exact .appendCommit hh ‹_›
    | installLog call args =>
      cases h
      unfold installLog
      split
      · exact .install hh ‹_›
      · exact .ignoreSnapshot hh ‹_›
    | installIndex call args pc => cases h; exact installIndex_cases hh
    | installSave call args => cases h; exact .installSave hh
    | installSend call args => cases h; exact .installSend hh
    | snapshotSave snapshot => cases h; exact .snapshotSave hh

/-! ### `Start` and `Snapshot` -/

inductive StartCase (me : Fin n) (nd : Node n C D) (command : Option C) : Effect n C D → Prop
  | append (hs : nd.state = .leaderState) (hfree : nd.logFree = true)
      (hpeer : nd.peerLogFree = true) (hi : nd.leaderInitDone = true) :
      StartCase me nd command
        { node := (nd.appendCommand me command).go (.sendAppendEntriesToAll nd.currentTerm none)
          events := [.started me nd.getLogLength nd.currentTerm command nd.lastIncludedIndex
            (nd.appendCommand me command).log] }
  | ignore (hs : nd.state ≠ .leaderState) (hfree : nd.logFree = true)
      (hpeer : nd.peerLogFree = true) : StartCase me nd command { node := nd }

theorem tryStart_cases {me : Fin n} {nd : Node n C D} {command : Option C}
    (h : nd.tryStart me command = some eff) : nd.StartCase me command eff := by
  unfold tryStart start at h
  split at h
  · rename_i hc
    simp only [Bool.and_eq_true, Bool.or_eq_true, decide_eq_true_eq] at hc
    split at h <;> rename_i hs <;> cases h
    · exact .append hs hc.1.1 hc.1.2 (hc.2.resolve_left fun hne => hne hs)
    · exact .ignore hs hc.1.1 hc.1.2
  · cases h

inductive SnapshotCase (me : Fin n) (nd : Node n C D) (index : ℕ) (snapshot : Option D) :
    Effect n C D → Prop
  | ignore (hfree : nd.logFree = true)
      (hno : nd.lastIncludedIndex ≥ index ∨ nd.commitIndex < index ∨ nd.lastApplied < index) :
      SnapshotCase me nd index snapshot { node := nd }
  | exit (hfree : nd.logFree = true) (hlt : nd.lastIncludedIndex < index)
      (hle : index ≤ nd.commitIndex) (hle' : index ≤ nd.lastApplied)
      (ht : nd.getTermOfLog index = none) : SnapshotCase me nd index snapshot { node := nd.exit }
  | compact {term : ℕ} (hfree : nd.logFree = true) (hlt : nd.lastIncludedIndex < index)
      (hle : index ≤ nd.commitIndex) (hle' : index ≤ nd.lastApplied)
      (ht : nd.getTermOfLog index = some term) :
      SnapshotCase me nd index snapshot
        { node := { nd.compact index term with held := some (.snapshotSave snapshot) }
          events := [.snapshotted me index snapshot] }

theorem trySnapshot_cases {me : Fin n} {nd : Node n C D} {index : ℕ} {snapshot : Option D}
    (h : nd.trySnapshot me index snapshot = some eff) : nd.SnapshotCase me index snapshot eff := by
  unfold trySnapshot Node.snapshot at h
  split at h
  · rename_i hfree
    split at h
    · cases h
      exact .ignore hfree ‹_›
    · rename_i hc
      rw [not_or, not_or, not_le, not_lt, not_lt] at hc
      split at h <;> rename_i ht <;> cases h
      · exact .exit hfree hc.1 hc.2.1 hc.2.2 ht
      · exact .compact hfree hc.1 hc.2.1 hc.2.2 ht
  · cases h

end Node

end MitDistributed.Raft
