import Mathlib.Data.Fintype.Basic
import Mathlib.Logic.Function.Basic
import MitDistributed.Memory.Slices

namespace MitDistributed.Raft

open Memory

/-!
# Raft — the data model

The state of one peer (`raft.go`, `RaftState.go`, `persister.go`), of the requests in
flight between peers (`labrpc`), and of the goroutines a peer runs.

* `Node` — the fields of `Raft` and `RaftState`, the `Persister`, and where each goroutine
  of the peer stands: `main` for `mainLoop`, `applying` for `applyLoop`, `threads` for the
  goroutines started with `go`, and `held` for an RPC handler (or `Snapshot`) that is
  between two of its critical steps and still holds its locks.
* `Call` — one `labrpc` call.  Calls are never removed, so that the list of all calls is
  the network and also the history of the requests and replies.
* `Event` — what a run makes visible: votes, won elections, accepted entries, started
  commands and messages put on `applyCh`.

A cluster has `n` peers, numbered as in `peers[]`.  Commands have an arbitrary type `C` and
snapshots an arbitrary type `D`; `none` is Go's `nil` (or an empty byte slice).  A decoded
`Entries` of length zero is `nil` (the encoder leaves out empty slices), so a heartbeat is
a request whose `entries` are `[]`.

`log` is a slice, and `getLogs` hands out windows on its array.  `Node.log` is its value, and
`Node.backing` the rest of the array and the arrays that the log was on before; the windows that
goroutines hold (`Slice`) show what their array holds when they are read.
-/

/-- The three values of `RaftState.state`. -/
inductive Role
  | candidateState
  | leaderState
  | followerState
  deriving DecidableEq, Repr

/-- A log entry.  Slot 0 of a log holds an entry that is never used. -/
structure LogEntry (C : Type) where
  term : ℕ
  command : Option C
  deriving DecidableEq, Repr

/-- The entry that slot 0 of a new log, and a slot nobody has written to, hold. -/
def LogEntry.zero {C : Type} : LogEntry C :=
  { term := 0, command := none }

/-- A message on `applyCh`: a committed command or a snapshot. -/
inductive ApplyMsg (C D : Type)
  | command (command : Option C) (commandIndex : ℕ)
  | snapshot (snapshot : Option D) (snapshotTerm snapshotIndex : ℕ)
  deriving DecidableEq, Repr

/-! ### RPC arguments and replies -/

structure RequestVoteArgs (n : ℕ) where
  term : ℕ
  candidateId : Fin n
  lastLogIndex : ℕ
  lastLogTerm : ℕ
  deriving DecidableEq, Repr

structure RequestVoteReply where
  term : ℕ
  voteGranted : Bool
  deriving DecidableEq, Repr

structure AppendEntriesArgs (n : ℕ) (C : Type) where
  term : ℕ
  leaderId : Fin n
  entries : List (LogEntry C)
  prevLogIndex : ℕ
  prevLogTerm : ℕ
  leaderCommit : ℕ
  deriving DecidableEq, Repr

/-- `AppendEntriesArgs` at its sender, where `Entries` is a window on the array of the log. -/
structure SenderArgs (n : ℕ) where
  term : ℕ
  leaderId : Fin n
  entries : Slice
  prevLogIndex : ℕ
  prevLogTerm : ℕ
  leaderCommit : ℕ
  deriving DecidableEq, Repr

/-- The request that the receiver decodes, if the encoder has found `entries` in the window. -/
def SenderArgs.request {n : ℕ} {C : Type} (args : SenderArgs n) (entries : List (LogEntry C)) :
    AppendEntriesArgs n C :=
  { term := args.term
    leaderId := args.leaderId
    entries := entries
    prevLogIndex := args.prevLogIndex
    prevLogTerm := args.prevLogTerm
    leaderCommit := args.leaderCommit }

structure AppendEntriesReply where
  term : ℕ
  success : Bool
  nextRetryStartIndex : ℕ
  deriving DecidableEq, Repr

structure InstallSnapshotArgs (n : ℕ) (D : Type) where
  term : ℕ
  leaderId : Fin n
  lastIncludedIndex : ℕ
  lastIncludedTerm : ℕ
  data : Option D
  deriving DecidableEq, Repr

structure InstallSnapshotReply where
  term : ℕ
  deriving DecidableEq, Repr

/-- The request of a call. -/
inductive Request (n : ℕ) (C D : Type)
  | requestVote (args : RequestVoteArgs n)
  | appendEntries (args : AppendEntriesArgs n C)
  | installSnapshot (args : InstallSnapshotArgs n D)
  deriving DecidableEq, Repr

/-- The reply to a call. -/
inductive Reply
  | requestVote (reply : RequestVoteReply)
  | appendEntries (reply : AppendEntriesReply)
  | installSnapshot (reply : InstallSnapshotReply)
  deriving DecidableEq, Repr

/-- One `labrpc` call.  `delivered` is set when the network hands the request to the
    server, which happens at most once; `reply` is set when the handler returns. -/
structure Call (n : ℕ) (C D : Type) where
  src : Fin n
  dst : Fin n
  request : Request n C D
  delivered : Bool
  reply : Option Reply
  deriving DecidableEq, Repr

/-! ### Stable storage -/

/-- What `persist` encodes. -/
structure RaftBytes (n : ℕ) (C : Type) where
  currentTerm : ℕ
  votedFor : Option (Fin n)
  lastIncludedIndex : ℕ
  lastIncludedTerm : ℕ
  log : List (LogEntry C)
  deriving DecidableEq, Repr

/-- The `Persister`; `none` stands for an empty byte slice. -/
structure Persister (n : ℕ) (C D : Type) where
  raftstate : Option (RaftBytes n C)
  snapshot : Option D
  deriving DecidableEq, Repr

/-! ### Goroutines -/

/-- Where `mainLoop` stands: about to read the role, or inside `leaderMain`,
    `doElection` or `followerMain`. -/
inductive MainPc
  | read
  | leaderInit
  | leaderInitDone
  | leaderHeartbeat
  | leaderCheck
  | doElection
  | electionWait
  | followerWait
  deriving DecidableEq, Repr

/-- Where `applyLoop` stands: waiting for a notification, about to read `lastApplied`,
    about to take a batch from the log, sending entry `i` of the batch taken, or about to write
    the sum of what it has read from `lastApplied` and the length of the batch. -/
inductive ApplyPc
  | wait
  | needUpdate
  | take (nextApplied : ℕ)
  | send (nextApplied : ℕ) (toBeApplied : Slice) (i : ℕ)
  | store (lastApplied : ℕ)
  deriving DecidableEq, Repr

/-- Where one pass of `tryIncrementCommitIndex` stands.  At `write` it holds `commitMutex`, and has
    found that a majority counts and that `i` is above the commit index. -/
inductive ScanPc
  | top
  | scan (thisTerm thisLogLength i : ℕ)
  | count (thisTerm thisLogLength i : ℕ)
  | commit (thisTerm thisLogLength i count : ℕ)
  | write (thisTerm thisLogLength i : ℕ)
  deriving DecidableEq, Repr

/-- Where `sendHeartbeatToAll` stands: sending (with `logMutex` held from the first
    request on), at the top of the reply loop, or waiting for a reply. -/
inductive HeartbeatPc (n : ℕ)
  | start
  | send (todo : List (Fin n)) (waiting : List ℕ)
  | check (replyCount : ℕ) (waiting : List ℕ)
  | receive (replyCount : ℕ) (waiting : List ℕ)
  deriving DecidableEq, Repr

/-- Where `sendInstallSnapshot` stands: about to check its leadership and call, or waiting for the
    call to return. -/
inductive SendPc
  | check
  | wait (call : ℕ)
  deriving DecidableEq, Repr

/-- Where `sendAppendEntries` stands: about to check its leadership; in `Call`, which holds no lock,
    with the first entries of the window encoded; or waiting for the call to return. -/
inductive AppendPc (C : Type)
  | check
  | encode (encoded : List (LogEntry C))
  | wait (call : ℕ)
  deriving DecidableEq, Repr

/-- A goroutine.  `waiting` holds the calls whose outcome the goroutine has not
    received yet. -/
inductive Thread (n : ℕ) (C D : Type)
  | sendRequestVoteToAll (thisTerm : ℕ) (todo : List (Fin n)) (grantedVoteSum : ℕ)
      (waiting : List ℕ)
  | sendHeartbeatToAll (thisTerm : ℕ) (pc : HeartbeatPc n)
  | sendAppendEntriesToAll (thisTerm : ℕ) (todo : Option (List (Fin n)))
  | sendAppendEntries (peer : Fin n) (args : SenderArgs n) (pc : AppendPc C)
  | sendInstallSnapshot (peer : Fin n) (args : InstallSnapshotArgs n D) (pc : SendPc)
  | tryIncrementCommitIndex (pc : ScanPc)
  deriving DecidableEq, Repr

/-- Where `InstallSnapshot` stands once it has taken over the snapshot.  It does not lock
    `commitMutex`: others can read and write `commitIndex` and `lastApplied` between its tests and
    its writes. -/
inductive InstallPc
  | testCommit
  | setCommit
  | testApplied
  | setApplied
  deriving DecidableEq, Repr

/-- An RPC handler, or `Snapshot`, between two of its steps.  The handlers hold
    `raftState` all the way and, `RequestVote` apart, `logMutex` too; the peer can crash
    between any two steps. -/
inductive Held (n : ℕ) (C D : Type)
  | requestVote (call : ℕ) (args : RequestVoteArgs n)
  | appendLog (call : ℕ) (args : AppendEntriesArgs n C)
  | appendCommit (call : ℕ) (args : AppendEntriesArgs n C)
  | installLog (call : ℕ) (args : InstallSnapshotArgs n D)
  | installIndex (call : ℕ) (args : InstallSnapshotArgs n D) (pc : InstallPc)
  | installSave (call : ℕ) (args : InstallSnapshotArgs n D)
  | installSend (call : ℕ) (args : InstallSnapshotArgs n D)
  | snapshotSave (snapshot : Option D)
  deriving DecidableEq, Repr

/-! ### A peer -/

/-- One peer.  `exited` is set when the process ends in `log.Fatalf`; `applyNotifyCh` is
    the number of notifications waiting in that channel. -/
structure Node (n : ℕ) (C D : Type) where
  state : Role
  currentTerm : ℕ
  votedFor : Option (Fin n)
  log : List (LogEntry C)
  backing : Backing (LogEntry C)
  lastIncludedIndex : ℕ
  lastIncludedTerm : ℕ
  commitIndex : ℕ
  lastApplied : ℕ
  nextIndex : Fin n → ℕ
  matchIndex : Fin n → ℕ
  leaderInitDone : Bool
  applyNotifyCh : ℕ
  persister : Persister n C D
  exited : Bool
  main : MainPc
  threads : List (Thread n C D)
  held : Option (Held n C D)
  applying : ApplyPc

/-! ### The cluster -/

/-- What a run makes visible.  `won p thisTerm currentTerm` is the transition to leader in
    `sendRequestVoteToAll thisTerm`; `accepted` records a `Success` answer, and `started` a
    command that `Start` returned as leader, together with the log of the peer at that
    moment; `snapshotted` is a snapshot that the service took, `installed` one that came from
    a leader. -/
inductive Event (n : ℕ) (C D : Type)
  | voted (voter candidate : Fin n) (term : ℕ)
  | won (peer : Fin n) (thisTerm currentTerm : ℕ)
  | accepted (peer : Fin n) (args : AppendEntriesArgs n C) (lastIncludedIndex : ℕ)
      (log : List (LogEntry C))
  | started (peer : Fin n) (index term : ℕ) (command : Option C) (lastIncludedIndex : ℕ)
      (log : List (LogEntry C))
  | snapshotted (peer : Fin n) (index : ℕ) (snapshot : Option D)
  | installed (peer : Fin n) (index : ℕ) (snapshot : Option D)
  | applied (peer : Fin n) (msg : ApplyMsg C D)
  | made (peer : Fin n) (lastIncludedIndex : ℕ)
  deriving DecidableEq, Repr

/-- The whole cluster: the peers, every call made so far, and the events so far, the
    latest one first. -/
structure World (n : ℕ) (C D : Type) where
  nodes : Fin n → Node n C D
  calls : List (Call n C D)
  trace : List (Event n C D)

end MitDistributed.Raft
