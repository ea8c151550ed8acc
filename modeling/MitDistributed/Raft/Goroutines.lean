import MitDistributed.Raft.Handlers

namespace MitDistributed.Raft

/-!
# Raft — the goroutines of a peer

`mainLoop` with `leaderMain`, `doElection` and `followerMain`; `applyLoop`; and the
goroutines started with `go`.  A step of a goroutine is one of its critical sections, or the
piece of code between two of them.  A step is `none` when the goroutine has to wait: for a
lock that is held, for a notification, or because it has nothing left to do.

Timers are free: `followerMain` may time out at any moment, and `doElection` may stop
waiting at any moment.
-/

variable {n : ℕ} {C D : Type}

/-! ### Locks -/

/-- `sendHeartbeatToAll` and `sendAppendEntriesToAll` hold `logMutex` for reading while
    they build their requests. -/
def Thread.readsLog : Thread n C D → Bool
  | .sendHeartbeatToAll _ (.send _ _) => true
  | .sendAppendEntriesToAll _ (some _) => true
  | _ => false

/-- `sendAppendEntriesToAll` holds `peerLogMutex` while it builds its requests. -/
def Thread.holdsPeerLog : Thread n C D → Bool
  | .sendAppendEntriesToAll _ (some _) => true
  | _ => false

/-- `tryIncrementCommitIndex` holds `commitMutex` from its test of `commitIndex` to the write. -/
def Thread.holdsCommit : Thread n C D → Bool
  | .tryIncrementCommitIndex (.write _ _ _) => true
  | _ => false

namespace Node

/-- `raftState` can be locked. -/
def raftStateFree (nd : Node n C D) : Bool := nd.held.isNone

/-- `logMutex` can be locked for reading.  Who holds it for writing also holds
    `raftState`, so `raftStateFree` implies it. -/
def logReadable (nd : Node n C D) : Bool :=
  match nd.held with
  | none => true
  | some (.requestVote _ _) => true
  | some _ => false

/-- `raftState` and `logMutex` can be locked, the latter for writing. -/
def logFree (nd : Node n C D) : Bool :=
  nd.held.isNone && nd.threads.all fun th => !th.readsLog

/-- `peerLogMutex` can be locked. -/
def peerLogFree (nd : Node n C D) : Bool :=
  nd.threads.all fun th => !th.holdsPeerLog

/-- `commitMutex` can be locked for writing.  Who only reads behind it is not made to wait: what it
    reads between the test and the write is what it could have read before the test. -/
def commitFree (nd : Node n C D) : Bool :=
  nd.threads.all fun th => !th.holdsCommit

/-! ### Threads -/

/-- Goroutine `k` goes on as `th`. -/
def setThread (nd : Node n C D) (k : ℕ) (th : Thread n C D) : Node n C D :=
  { nd with threads := nd.threads.set k th }

/-- Goroutine `k` returns. -/
def endThread (nd : Node n C D) (k : ℕ) : Node n C D :=
  { nd with threads := nd.threads.eraseIdx k }

end Node

/-- The peers that a broadcast of `me` goes to. -/
def others (me : Fin n) : List (Fin n) := (List.finRange n).filter (· ≠ me)

/-- A call that has just been made. -/
def newCall (src dst : Fin n) (request : Request n C D) : Call n C D :=
  { src := src, dst := dst, request := request, delivered := false, reply := none }

namespace Node

/-! ### `mainLoop` -/

/-- The vote of a peer for itself in the next term.  Its role does not change. -/
def voteForMe (me : Fin n) (nd : Node n C D) : Node n C D :=
  { nd with
    currentTerm := nd.currentTerm + 1
    votedFor := some me
    main := .electionWait }.persist

/-- The first critical section of `doElection`. -/
def doElection (me : Fin n) (nd : Node n C D) : Effect n C D :=
  { node := (nd.voteForMe me).go
      (.sendRequestVoteToAll (nd.currentTerm + 1) (others me) 1 [])
    events := [.voted me me (nd.currentTerm + 1)] }

/-- The next step of `mainLoop`. -/
def mainStep (me : Fin n) (nd : Node n C D) : Option (Effect n C D) :=
  match nd.main with
  | .read =>
    if nd.raftStateFree then
      match nd.state with
      | .leaderState => some { node := { nd with main := .leaderInit } }
      | .candidateState => some { node := { nd with main := .doElection } }
      | .followerState => some { node := { nd with main := .followerWait } }
    else none
  | .leaderInit =>
    if nd.peerLogFree && nd.logReadable then
      some { node :=
        { nd with
          nextIndex := fun _ => nd.getLogLength
          matchIndex := fun _ => 0
          main := .leaderInitDone } }
    else none
  | .leaderInitDone =>
    some { node := go { nd with leaderInitDone := true, main := .leaderHeartbeat }
            (.tryIncrementCommitIndex .top) }
  | .leaderHeartbeat =>
    if nd.raftStateFree then
      some { node := go { nd with main := .leaderCheck }
              (.sendHeartbeatToAll nd.currentTerm .start) }
    else none
  | .leaderCheck =>
    if nd.raftStateFree then
      if nd.state = .leaderState then some { node := { nd with main := .leaderHeartbeat } }
      else some { node := { nd with main := .read } }
    else none
  | .doElection =>
    if nd.raftStateFree then some (nd.doElection me) else none
  | .electionWait => some { node := { nd with main := .read } }
  | .followerWait =>
    if nd.raftStateFree then
      some { node := { nd with state := .candidateState, main := .read } }
    else none

/-! ### `sendRequestVoteToAll` -/

/-- Send the request for one more peer. -/
def sendRequestVote (me : Fin n) (nd : Node n C D) (fresh k thisTerm : ℕ) (peer : Fin n)
    (todo : List (Fin n)) (grantedVoteSum : ℕ) (waiting : List ℕ) : Effect n C D :=
  match nd.getTermOfLog (nd.getLogLength - 1) with
  | none => { node := nd.exit }
  | some lastLogTerm =>
    { node := nd.setThread k
        (.sendRequestVoteToAll thisTerm todo grantedVoteSum (waiting ++ [fresh]))
      send := some (newCall me peer (.requestVote
        { term := thisTerm
          candidateId := me
          lastLogIndex := nd.getLogLength - 1
          lastLogTerm := lastLogTerm })) }

/-- Count a reply, and become leader with a majority of votes. -/
def countVote (me : Fin n) (nd : Node n C D) (k thisTerm grantedVoteSum : ℕ) (waiting : List ℕ)
    (voteGranted : Bool) : Effect n C D :=
  if voteGranted then
    if grantedVoteSum + 1 > n / 2 ∧ nd.state = .candidateState then
      { node := setThread { nd with state := .leaderState, leaderInitDone := false } k
          (.sendRequestVoteToAll thisTerm [] (grantedVoteSum + 1) waiting)
        events := [.won me thisTerm nd.currentTerm] }
    else
      { node := nd.setThread k
          (.sendRequestVoteToAll thisTerm [] (grantedVoteSum + 1) waiting) }
  else { node := nd.setThread k (.sendRequestVoteToAll thisTerm [] grantedVoteSum waiting) }

/-- Process one outcome: a reply, or `none` for a call that returned false and is made
    again. -/
def receiveVote (me : Fin n) (nd : Node n C D) (fresh k thisTerm grantedVoteSum : ℕ)
    (waiting : List ℕ) (call : ℕ) (request : Call n C D) (outcome : Option RequestVoteReply) :
    Effect n C D :=
  if nd.currentTerm > thisTerm ∨ nd.state ≠ .candidateState then { node := nd.endThread k }
  else match outcome with
    | none =>
      { node := nd.setThread k
          (.sendRequestVoteToAll thisTerm [] grantedVoteSum (waiting.erase call ++ [fresh]))
        send := some (newCall me request.dst request.request) }
    | some reply => (nd.observe reply.term).countVote me k thisTerm grantedVoteSum
        (waiting.erase call) reply.voteGranted

/-! ### `sendHeartbeatToAll` -/

/-- Send the heartbeat for one more peer. -/
def sendHeartbeat (me : Fin n) (nd : Node n C D) (fresh k thisTerm : ℕ) (peer : Fin n)
    (todo : List (Fin n)) (waiting : List ℕ) : Effect n C D :=
  match nd.getTermOfLog (nd.getLogLength - 1) with
  | none => { node := nd.exit }
  | some prevLogTerm =>
    { node := nd.setThread k (.sendHeartbeatToAll thisTerm (.send todo (waiting ++ [fresh])))
      send := some (newCall me peer (.appendEntries
        { term := thisTerm
          leaderId := me
          entries := []
          prevLogIndex := nd.getLogLength - 1
          prevLogTerm := prevLogTerm
          leaderCommit := nd.commitIndex })) }

/-- Record that `peer` holds the log up to `index`. -/
def setMatch (nd : Node n C D) (peer : Fin n) (index : ℕ) : Node n C D :=
  { nd with
    matchIndex := Function.update nd.matchIndex peer index
    nextIndex := Function.update nd.nextIndex peer (index + 1) }

/-- The same, unless more is known already. -/
def advanceMatch (nd : Node n C D) (peer : Fin n) (index : ℕ) : Node n C D :=
  if index > nd.matchIndex peer then nd.setMatch peer index else nd

/-- What a reply to a heartbeat changes.  Nothing is checked about the current role or
    term. -/
def learnHeartbeat (nd : Node n C D) (peer : Fin n) (prevLogIndex : ℕ) :
    Option AppendEntriesReply → Node n C D
  | none => nd
  | some reply =>
    if reply.success then (nd.observe reply.term).advanceMatch peer prevLogIndex
    else nd.observe reply.term

/-- Process one outcome. -/
def receiveHeartbeat (nd : Node n C D) (k thisTerm replyCount : ℕ) (waiting : List ℕ) (call : ℕ)
    (peer : Fin n) (prevLogIndex : ℕ) (outcome : Option AppendEntriesReply) :
    Effect n C D :=
  { node := (nd.learnHeartbeat peer prevLogIndex outcome).setThread k
      (.sendHeartbeatToAll thisTerm (.check (replyCount + 1) (waiting.erase call))) }

/-! ### `sendAppendEntriesToAll` -/

/-- The request that carries the snapshot of this peer. -/
def snapshotArgs (me : Fin n) (nd : Node n C D) (term : ℕ) : InstallSnapshotArgs n D :=
  { term := term
    leaderId := me
    lastIncludedIndex := nd.lastIncludedIndex
    lastIncludedTerm := nd.lastIncludedTerm
    data := nd.persister.snapshot }

/-- The request that carries the log after `prevLogIndex`. -/
def appendArgs (me : Fin n) (nd : Node n C D) (term prevLogIndex leaderCommit : ℕ) :
    Option (SenderArgs n) :=
  match nd.getTermOfLog prevLogIndex, nd.getLogsFrom (prevLogIndex + 1) with
  | some prevLogTerm, some entries => some
    { term := term
      leaderId := me
      entries := entries
      prevLogIndex := prevLogIndex
      prevLogTerm := prevLogTerm
      leaderCommit := leaderCommit }
  | _, _ => none

/-- Start the sender for one more peer, if the peer misses entries. -/
def appendToPeer (me : Fin n) (nd : Node n C D) (k thisTerm : ℕ) (peer : Fin n)
    (todo : List (Fin n)) : Effect n C D :=
  if nd.getLogLength - 1 ≥ nd.nextIndex peer then
    if nd.lastIncludedIndex > nd.nextIndex peer - 1 then
      { node := (nd.setThread k (.sendAppendEntriesToAll thisTerm (some todo))).go
          (.sendInstallSnapshot peer (nd.snapshotArgs me thisTerm) .check) }
    else match nd.appendArgs me thisTerm (nd.nextIndex peer - 1) nd.commitIndex with
      | some args =>
        { node := (nd.setThread k (.sendAppendEntriesToAll thisTerm (some todo))).go
            (.sendAppendEntries peer args .check) }
      | none => { node := nd.exit }
  else { node := nd.setThread k (.sendAppendEntriesToAll thisTerm (some todo)) }

/-! ### `sendAppendEntries` -/

/-- Whether the peer still leads the term of the request. -/
def leads (nd : Node n C D) (term : ℕ) : Prop :=
  nd.currentTerm = term ∧ nd.state = .leaderState

instance (nd : Node n C D) (term : ℕ) : Decidable (nd.leads term) :=
  inferInstanceAs (Decidable (_ ∧ _))

/-- The check before the call. -/
def checkAppendEntries (nd : Node n C D) (k : ℕ) (peer : Fin n) (args : SenderArgs n) :
    Effect n C D :=
  if nd.leads args.term then
    { node := nd.setThread k (.sendAppendEntries peer args (.encode [])) }
  else { node := nd.endThread k }

/-- `Call`: the encoder reads the entries one by one, from the array as it is by then, and the
    request is on its way once all of them are encoded. -/
def callAppendEntries (me : Fin n) (nd : Node n C D) (fresh k : ℕ) (peer : Fin n)
    (args : SenderArgs n) (encoded : List (LogEntry C)) : Effect n C D :=
  if encoded.length < args.entries.length then
    let entry := nd.sliceEntry args.entries encoded.length
    { node := nd.setThread k (.sendAppendEntries peer args (.encode (encoded ++ [entry]))) }
  else
    { node := nd.setThread k (.sendAppendEntries peer args (.wait fresh))
      send := some (newCall me peer (.appendEntries (args.request encoded))) }

/-- The retry after a refusal: from `nextRetryStartIndex` on, or with the snapshot when
    that index is compacted.  Term and commit index of the request stay as they are. -/
def retryAppendEntries (me : Fin n) (nd : Node n C D) (k : ℕ) (peer : Fin n) (args : SenderArgs n)
    (retry : ℕ) : Effect n C D :=
  if retry = 0 then { node := nd.exit }
  else if retry ≤ nd.lastIncludedIndex then
    { node := (nd.endThread k).go
        (.sendInstallSnapshot peer (nd.snapshotArgs me nd.currentTerm) .check) }
  else match nd.appendArgs me args.term (retry - 1) args.leaderCommit with
    | some args =>
      { node := setThread { nd with nextIndex := Function.update nd.nextIndex peer retry } k
          (.sendAppendEntries peer args .check) }
    | none => { node := nd.exit }

/-- Process the outcome of the call. -/
def receiveAppendEntries (me : Fin n) (nd : Node n C D) (k : ℕ) (peer : Fin n) (args : SenderArgs n)
    (outcome : Option AppendEntriesReply) : Effect n C D :=
  match outcome with
  | none => { node := nd.setThread k (.sendAppendEntries peer args .check) }
  | some reply =>
    if nd.leads args.term then
      if reply.success then
        { node := ((nd.observe reply.term).advanceMatch peer
            (args.prevLogIndex + args.entries.length)).endThread k }
      else if reply.term > nd.currentTerm then { node := (nd.observe reply.term).endThread k }
      else nd.retryAppendEntries me k peer args reply.nextRetryStartIndex
    else { node := nd.endThread k }

/-! ### `sendInstallSnapshot` -/

/-- The check before the call, and the call. -/
def callInstallSnapshot (me : Fin n) (nd : Node n C D) (fresh k : ℕ) (peer : Fin n)
    (args : InstallSnapshotArgs n D) : Effect n C D :=
  if nd.leads args.term then
    { node := nd.setThread k (.sendInstallSnapshot peer args (.wait fresh))
      send := some (newCall me peer (.installSnapshot args)) }
  else { node := nd.endThread k }

/-- After the snapshot: go on with the rest of the log, or with a newer snapshot. -/
def followSnapshot (me : Fin n) (nd : Node n C D) (k : ℕ) (peer : Fin n)
    (args : InstallSnapshotArgs n D) : Effect n C D :=
  if nd.lastIncludedIndex > args.lastIncludedIndex then
    { node := ((nd.setMatch peer args.lastIncludedIndex).endThread k).go
        (.sendInstallSnapshot peer (nd.snapshotArgs me args.term) .check) }
  else match nd.appendArgs me args.term args.lastIncludedIndex nd.commitIndex with
    | some appendArgs =>
      { node := ((nd.setMatch peer args.lastIncludedIndex).endThread k).go
          (.sendAppendEntries peer appendArgs .check) }
    | none => { node := nd.exit }

/-- Process the outcome of the call. -/
def receiveInstallSnapshot (me : Fin n) (nd : Node n C D) (k : ℕ) (peer : Fin n)
    (args : InstallSnapshotArgs n D) (outcome : Option InstallSnapshotReply) : Effect n C D :=
  match outcome with
  | none => { node := nd.setThread k (.sendInstallSnapshot peer args .check) }
  | some reply =>
    if nd.leads args.term then
      if reply.term > nd.currentTerm then { node := (nd.updateTerm reply.term).endThread k }
      else nd.followSnapshot me k peer args
    else { node := nd.endThread k }

/-! ### `tryIncrementCommitIndex` -/

/-- The number of peers known to hold the log up to `i`. -/
def countMatch (nd : Node n C D) (i : ℕ) : ℕ :=
  (List.finRange n).countP fun j => decide (nd.matchIndex j ≥ i)

/-- Whether a pass commits up to `i`. -/
def commits (nd : Node n C D) (i count : ℕ) : Prop :=
  count > n / 2 ∧ i > nd.commitIndex

instance (nd : Node n C D) (i count : ℕ) : Decidable (nd.commits i count) :=
  inferInstanceAs (Decidable (_ ∧ _))

/-- Commit up to `i`, and notify `applyLoop`. -/
def commit (nd : Node n C D) (i : ℕ) : Node n C D :=
  { nd with commitIndex := i, applyNotifyCh := nd.applyNotifyCh + 1 }

/-- The next step of a pass. -/
def scanStep (nd : Node n C D) (k : ℕ) : ScanPc → Option (Effect n C D)
  | .top =>
    if nd.raftStateFree then
      if nd.state = .leaderState then
        let pc := .scan nd.currentTerm nd.getLogLength (nd.commitIndex + 1)
        some { node := nd.setThread k (.tryIncrementCommitIndex pc) }
      else some { node := nd.endThread k }
    else none
  | .scan thisTerm thisLogLength i =>
    if i < thisLogLength then
      if nd.logReadable then
        if i ≤ nd.lastIncludedIndex then
          let pc := .scan thisTerm thisLogLength (nd.lastIncludedIndex + 1)
          some { node := nd.setThread k (.tryIncrementCommitIndex pc) }
        else match nd.getTermOfLog i with
          | none => some { node := nd.exit }
          | some nowLogTerm =>
            let pc := if nowLogTerm = thisTerm then .count thisTerm thisLogLength i
              else .scan thisTerm thisLogLength (i + 1)
            some { node := nd.setThread k (.tryIncrementCommitIndex pc) }
      else none
    else some { node := nd.setThread k (.tryIncrementCommitIndex .top) }
  | .count thisTerm thisLogLength i =>
    if nd.peerLogFree then
      let pc := .commit thisTerm thisLogLength i (nd.countMatch i)
      some { node := nd.setThread k (.tryIncrementCommitIndex pc) }
    else none
  | .commit thisTerm thisLogLength i count =>
    if nd.commitFree then
      let pc := if nd.commits i count then .write thisTerm thisLogLength i
        else .scan thisTerm thisLogLength (i + 1)
      some { node := nd.setThread k (.tryIncrementCommitIndex pc) }
    else none
  -- `InstallSnapshot` does not lock `commitMutex`, and can write in between
  | .write thisTerm thisLogLength i =>
    let pc := .scan thisTerm thisLogLength (i + 1)
    some { node := (nd.commit i).setThread k (.tryIncrementCommitIndex pc) }

/-! ### `applyLoop` -/

/-- The next step of `applyLoop`. -/
def applyStep (me : Fin n) (nd : Node n C D) : Option (Effect n C D) :=
  match nd.applying with
  | .wait =>
    if nd.applyNotifyCh > 0 then
      let pc := if nd.commitIndex > nd.lastApplied then .needUpdate else .wait
      some { node := { nd with applyNotifyCh := nd.applyNotifyCh - 1, applying := pc } }
    else none
  | .needUpdate => some { node := { nd with applying := .take (nd.lastApplied + 1) } }
  | .take nextApplied =>
    if nd.logReadable then
      if nd.lastIncludedIndex > nextApplied then some { node := { nd with applying := .wait } }
      else match nd.getLogs nextApplied (nd.commitIndex + 1) with
        | none => some { node := nd.exit }
        | some toBeApplied =>
          some { node := { nd with applying := .send nextApplied toBeApplied 0 } }
    else none
  | .send nextApplied toBeApplied i =>
    if i < toBeApplied.length then
      let command := (nd.sliceEntry toBeApplied i).command
      some { node := { nd with applying := .send nextApplied toBeApplied (i + 1) }
             events := [.applied me (.command command (i + nextApplied))] }
    else
      -- `rf.lastApplied += len(toBeApplied)` reads without a lock, and then writes
      some { node := { nd with applying := .store (nd.lastApplied + toBeApplied.length) } }
  | .store lastApplied =>
    some { node := { nd with lastApplied := lastApplied, applying := .wait } }

/-! ### The goroutines started with `go` -/

/-- The next step of goroutine `k`, other than receiving the outcome of a call. -/
def threadStep (me : Fin n) (nd : Node n C D) (fresh k : ℕ) : Option (Effect n C D) :=
  match nd.threads[k]? with
  | some (.sendRequestVoteToAll thisTerm (peer :: todo) grantedVoteSum waiting) =>
    if nd.logReadable then
      some (nd.sendRequestVote me fresh k thisTerm peer todo grantedVoteSum waiting)
    else none
  | some (.sendHeartbeatToAll thisTerm .start) =>
    if nd.logReadable then
      some { node := nd.setThread k (.sendHeartbeatToAll thisTerm (.send (others me) [])) }
    else none
  | some (.sendHeartbeatToAll thisTerm (.send (peer :: todo) waiting)) =>
    some (nd.sendHeartbeat me fresh k thisTerm peer todo waiting)
  | some (.sendHeartbeatToAll thisTerm (.send [] waiting)) =>
    some { node := nd.setThread k (.sendHeartbeatToAll thisTerm (.check 0 waiting)) }
  | some (.sendHeartbeatToAll thisTerm (.check replyCount waiting)) =>
    if nd.raftStateFree then
      if nd.currentTerm > thisTerm ∨ nd.state ≠ .leaderState ∨ replyCount = n - 1 then
        some { node := nd.endThread k }
      else
        let th : Thread n C D := .sendHeartbeatToAll thisTerm (.receive replyCount waiting)
        some { node := nd.setThread k th }
    else none
  | some (.sendAppendEntriesToAll thisTerm none) =>
    if nd.peerLogFree && nd.logReadable then
      some { node := nd.setThread k (.sendAppendEntriesToAll thisTerm (some (others me))) }
    else none
  | some (.sendAppendEntriesToAll thisTerm (some (peer :: todo))) =>
    some (nd.appendToPeer me k thisTerm peer todo)
  | some (.sendAppendEntriesToAll _ (some [])) => some { node := nd.endThread k }
  | some (.sendAppendEntries peer args .check) =>
    if nd.raftStateFree then some (nd.checkAppendEntries k peer args) else none
  | some (.sendAppendEntries peer args (.encode encoded)) =>
    some (nd.callAppendEntries me fresh k peer args encoded)
  | some (.sendInstallSnapshot peer args .check) =>
    if nd.raftStateFree then some (nd.callInstallSnapshot me fresh k peer args) else none
  | some (.tryIncrementCommitIndex pc) => nd.scanStep k pc
  | _ => none

/-- Goroutine `k` receives the outcome of `call`: the reply if `ok`, else the failure that
    `Call` reports as false. -/
def threadReply (me : Fin n) (nd : Node n C D) (fresh k call : ℕ) (request : Call n C D)
    (ok : Bool) : Option (Effect n C D) :=
  match nd.threads[k]? with
  | some (.sendRequestVoteToAll thisTerm [] grantedVoteSum waiting) =>
    if nd.raftStateFree && waiting.contains call then
      match ok, request.reply with
      | false, _ =>
        some (nd.receiveVote me fresh k thisTerm grantedVoteSum waiting call request none)
      | true, some (.requestVote reply) =>
        some (nd.receiveVote me fresh k thisTerm grantedVoteSum waiting call request (some reply))
      | _, _ => none
    else none
  | some (.sendHeartbeatToAll thisTerm (.receive replyCount waiting)) =>
    if nd.raftStateFree && nd.peerLogFree && waiting.contains call then
      match ok, request.reply, request.request with
      | false, _, .appendEntries args =>
        some (nd.receiveHeartbeat k thisTerm replyCount waiting call request.dst
          args.prevLogIndex none)
      | true, some (.appendEntries reply), .appendEntries args =>
        some (nd.receiveHeartbeat k thisTerm replyCount waiting call request.dst
          args.prevLogIndex (some reply))
      | _, _, _ => none
    else none
  | some (.sendAppendEntries peer args (.wait c)) =>
    if c = call then
      match ok, request.reply with
      | false, _ => some (nd.receiveAppendEntries me k peer args none)
      | true, some (.appendEntries reply) =>
        if nd.raftStateFree && nd.peerLogFree then
          some (nd.receiveAppendEntries me k peer args (some reply))
        else none
      | _, _ => none
    else none
  | some (.sendInstallSnapshot peer args (.wait c)) =>
    if c = call then
      match ok, request.reply with
      | false, _ => some (nd.receiveInstallSnapshot me k peer args none)
      | true, some (.installSnapshot reply) =>
        if nd.raftStateFree && nd.peerLogFree then
          some (nd.receiveInstallSnapshot me k peer args (some reply))
        else none
      | _, _ => none
    else none
  | _ => none

end Node

end MitDistributed.Raft
