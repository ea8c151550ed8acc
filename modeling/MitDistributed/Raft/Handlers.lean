import MitDistributed.Raft.Log

namespace MitDistributed.Raft

/-!
# Raft — the RPC handlers, `Snapshot` and `Start`

Each handler is cut where the peer can crash between two writes of the `Persister`, and
where another goroutine can run although the handler still holds its locks.  The steps of
one handler are linked by `Node.held`:

* `RequestVote` — `requestVote`, then `resumeRequestVote`;
* `AppendEntries` — `appendEntries`, then `appendLog`, then `appendCommit`;
* `InstallSnapshot` — `installSnapshot`, then `installLog`, then `installIndex` for each test and
  each write of the two indices, then `installSave`, then `installSend`;
* `Snapshot` — `snapshot`, then `snapshotSave`.
-/

variable {n : ℕ} {C D : Type}

/-- What one step of a peer does: its new state, at most one new call, at most one answer
    to a call it handles, and the events it makes visible. -/
structure Effect (n : ℕ) (C D : Type) where
  node : Node n C D
  send : Option (Call n C D) := none
  answer : Option (ℕ × Reply) := none
  events : List (Event n C D) := []

namespace Node

/-- `go`: start a goroutine. -/
def go (nd : Node n C D) (th : Thread n C D) : Node n C D :=
  { nd with threads := nd.threads ++ [th] }

/-- The handler returns: its locks are free again. -/
def release (nd : Node n C D) : Node n C D := { nd with held := none }

/-- Return from a handler with `reply`. -/
def answer (nd : Node n C D) (call : ℕ) (reply : Reply) : Effect n C D :=
  { node := nd.release, answer := some (call, reply) }

/-! ### `RequestVote` -/

def requestVote (nd : Node n C D) (call : ℕ) (args : RequestVoteArgs n) : Effect n C D :=
  { node := { nd.observe args.term with held := some (.requestVote call args) } }

/-- Whether the candidate's log is at least as up-to-date as the one of this peer. -/
def isNewerThanMe (nd : Node n C D) (args : RequestVoteArgs n) : Option Bool :=
  if nd.getLogLength = 1 then some true
  else (nd.getTermOfLog (nd.getLogLength - 1)).map fun lastTerm =>
    decide (args.lastLogTerm > lastTerm) ||
      (decide (args.lastLogTerm = lastTerm) &&
        decide (args.lastLogIndex ≥ nd.getLogLength - 1))

def resumeRequestVote (me : Fin n) (nd : Node n C D) (call : ℕ) (args : RequestVoteArgs n) :
    Effect n C D :=
  let refuse := nd.answer call (.requestVote { term := nd.currentTerm, voteGranted := false })
  if args.term ≥ nd.currentTerm ∧
      (nd.votedFor = none ∨ nd.votedFor = some args.candidateId) then
    match nd.isNewerThanMe args with
    | none => { node := nd.exit }
    | some false => refuse
    | some true =>
      { node := { nd with votedFor := some args.candidateId }.persist.release
        answer := some (call, .requestVote { term := nd.currentTerm, voteGranted := true })
        events := [.voted me args.candidateId args.term] }
  else refuse

/-! ### `AppendEntries` -/

/-- A candidate that hears from a leader of its term becomes a follower. -/
def stepDown (nd : Node n C D) (term : ℕ) : Node n C D :=
  if nd.state = .candidateState ∧ term ≥ nd.currentTerm then
    { nd with state := .followerState }
  else nd

def appendEntries (nd : Node n C D) (call : ℕ) (args : AppendEntriesArgs n C) : Effect n C D :=
  { node := { (nd.observe args.term).stepDown args.term with held := some (.appendLog call args) } }

/-- Where the leader retries after a term conflict: before the entries of the conflicting
    term, as far as the log still holds them. -/
def nextRetryStartIndex (nd : Node n C D) (conflictTerm : Option ℕ) : ℕ → ℕ
  | 0 => 0
  | i + 1 =>
    if i + 1 > 1 ∧ i + 1 ≥ nd.lastIncludedIndex ∧ nd.getTermOfLog (i + 1) = conflictTerm then
      nd.nextRetryStartIndex conflictTerm i
    else i + 1

/-- Copy one received entry to `index`: append it past the end of the log, cut the log
    where the terms differ, keep the own entry where they agree. -/
def copyEntry (nd : Node n C D) (index : ℕ) (entry : LogEntry C) : Node n C D :=
  if index > nd.getLogLength - 1 then nd.appendEntry entry
  else if nd.getTermOfLog index ≠ some entry.term then
    (nd.cutLog (index - nd.lastIncludedIndex)).appendEntry entry
  else nd

/-- Copy the received entries, the first one to `index`. -/
def copyEntries (nd : Node n C D) (index : ℕ) : List (LogEntry C) → Node n C D
  | [] => nd
  | entry :: entries => (nd.copyEntry index entry).copyEntries (index + 1) entries

/-- Copy the entries of a request and make them durable; a heartbeat has none. -/
def copyLog (nd : Node n C D) (args : AppendEntriesArgs n C) : Node n C D :=
  if args.entries = [] then nd
  else (nd.copyEntries (args.prevLogIndex + 1) args.entries).persist

def appendLog (nd : Node n C D) (call : ℕ) (args : AppendEntriesArgs n C) : Effect n C D :=
  let refuse (retry : ℕ) := nd.answer call (.appendEntries
    { term := nd.currentTerm, success := false, nextRetryStartIndex := retry })
  if args.term < nd.currentTerm then refuse 0
  else if nd.lastIncludedIndex > args.prevLogIndex then refuse (nd.lastIncludedIndex + 1)
  else if args.prevLogIndex > nd.getLogLength - 1 then refuse nd.getLogLength
  else if nd.getTermOfLog args.prevLogIndex ≠ some args.prevLogTerm then
    if args.prevLogIndex = 0 then { node := nd.exit }
    else refuse (nd.nextRetryStartIndex (nd.getTermOfLog args.prevLogIndex) args.prevLogIndex)
  else { node := { nd.copyLog args with held := some (.appendCommit call args) } }

/-- Follow the commit index of the leader, as far as the log goes, and notify `applyLoop`. -/
def followCommit (nd : Node n C D) (leaderCommit : ℕ) : Node n C D :=
  if leaderCommit > nd.commitIndex then
    { nd with
      commitIndex :=
        if leaderCommit < nd.getLogLength - 1 then leaderCommit else nd.getLogLength - 1
      applyNotifyCh := nd.applyNotifyCh + 1 }
  else nd

def appendCommit (me : Fin n) (nd : Node n C D) (call : ℕ) (args : AppendEntriesArgs n C) :
    Effect n C D :=
  { node := (nd.followCommit args.leaderCommit).release
    answer := some (call, .appendEntries
      { term := nd.currentTerm, success := true, nextRetryStartIndex := 0 })
    events := [.accepted me args nd.lastIncludedIndex nd.log] }

/-! ### `InstallSnapshot` -/

def installSnapshot (nd : Node n C D) (call : ℕ) (args : InstallSnapshotArgs n D) :
    Effect n C D :=
  { node := { nd.observe args.term with held := some (.installLog call args) } }

/-- Whether the handler takes the snapshot over. -/
def installs (nd : Node n C D) (args : InstallSnapshotArgs n D) : Prop :=
  args.term ≥ nd.currentTerm ∧ nd.lastIncludedIndex < args.lastIncludedIndex ∧
    nd.lastApplied < args.lastIncludedIndex

instance (nd : Node n C D) (args : InstallSnapshotArgs n D) : Decidable (nd.installs args) :=
  inferInstanceAs (Decidable (_ ∧ _ ∧ _))

/-- Replace the log up to the snapshot, keep the entries after it, and make it durable.  `persist`
    comes after the writes of the two indices in the source; what it saves is behind `logMutex`
    until the handler returns, so that nobody can tell, and a crash before it is a crash before
    this step. -/
def install (nd : Node n C D) (args : InstallSnapshotArgs n D) : Node n C D :=
  { nd.moveLog (.zero :: nd.log.drop (args.lastIncludedIndex + 1 - nd.lastIncludedIndex)) with
    lastIncludedIndex := args.lastIncludedIndex
    lastIncludedTerm := args.lastIncludedTerm }.persist

def installLog (me : Fin n) (nd : Node n C D) (call : ℕ) (args : InstallSnapshotArgs n D) :
    Effect n C D :=
  if nd.installs args then
    { node := { nd.install args with held := some (.installIndex call args .testCommit) }
      events := [.installed me args.lastIncludedIndex args.data] }
  else nd.answer call (.installSnapshot { term := nd.currentTerm })

/-- Raise `commitIndex` and `lastApplied` to the snapshot, each with a test and then a write. -/
def installIndex (nd : Node n C D) (call : ℕ) (args : InstallSnapshotArgs n D) :
    InstallPc → Effect n C D
  | .testCommit =>
    let pc := if args.lastIncludedIndex > nd.commitIndex then .setCommit else .testApplied
    { node := { nd with held := some (.installIndex call args pc) } }
  | .setCommit =>
    { node :=
      { nd with
        commitIndex := args.lastIncludedIndex
        held := some (.installIndex call args .testApplied) } }
  | .testApplied =>
    let held := if args.lastIncludedIndex > nd.lastApplied then .installIndex call args .setApplied
      else .installSave call args
    { node := { nd with held := some held } }
  | .setApplied =>
    { node :=
      { nd with
        lastApplied := args.lastIncludedIndex
        held := some (.installSave call args) } }

/-- The second write of the `Persister`.  The bytes it saves are those of a nil slice. -/
def installSave (nd : Node n C D) (call : ℕ) (args : InstallSnapshotArgs n D) : Effect n C D :=
  { node := { nd.saveStateAndSnapshot none args.data with held := some (.installSend call args) } }

def installSend (me : Fin n) (nd : Node n C D) (call : ℕ) (args : InstallSnapshotArgs n D) :
    Effect n C D :=
  { node := nd.release
    answer := some (call, .installSnapshot { term := nd.currentTerm })
    events := [.applied me (.snapshot args.data nd.lastIncludedTerm nd.lastIncludedIndex)] }

/-! ### `Snapshot` -/

/-- Drop the log before `index`.  The entry at `index` stays in slot 0. -/
def compact (nd : Node n C D) (index term : ℕ) : Node n C D :=
  { nd.moveLog (nd.log.drop (index - nd.lastIncludedIndex)) with
    lastIncludedIndex := index
    lastIncludedTerm := term }.persist

/-- The service has taken `snapshot` at `index`. -/
def snapshot (me : Fin n) (nd : Node n C D) (index : ℕ) (snapshot : Option D) : Effect n C D :=
  if nd.lastIncludedIndex ≥ index ∨ nd.commitIndex < index ∨ nd.lastApplied < index then
    { node := nd }
  else match nd.getTermOfLog index with
    | none => { node := nd.exit }
    | some term =>
      { node := { nd.compact index term with held := some (.snapshotSave snapshot) }
        events := [.snapshotted me index snapshot] }

/-- The second write of the `Persister`, again with the bytes of a nil slice. -/
def snapshotSave (nd : Node n C D) (snapshot : Option D) : Effect n C D :=
  { node := (nd.saveStateAndSnapshot none snapshot).release }

/-! ### `Start` -/

/-- Append a command to the log of a leader and make it durable. -/
def appendCommand (me : Fin n) (nd : Node n C D) (command : Option C) : Node n C D :=
  { nd.appendEntry ⟨nd.currentTerm, command⟩ with
    matchIndex := Function.update nd.matchIndex me nd.getLogLength
    nextIndex := Function.update nd.nextIndex me (nd.getLogLength + 1) }.persist

/-- `Start` once it need not wait for `leaderMain`: append the command at a leader and
    broadcast it, do nothing at another peer.  The index of the command is the length of
    the log before. -/
def start (me : Fin n) (nd : Node n C D) (command : Option C) : Effect n C D :=
  if nd.state = .leaderState then
    { node := (nd.appendCommand me command).go (.sendAppendEntriesToAll nd.currentTerm none)
      events := [.started me nd.getLogLength nd.currentTerm command nd.lastIncludedIndex
        (nd.appendCommand me command).log] }
  else { node := nd }

end Node

end MitDistributed.Raft
