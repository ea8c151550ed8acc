import MitDistributed.Raft.State

namespace MitDistributed.Raft

open Memory

/-!
# Raft — the log of a peer and its stable storage

The accessors of `raft.go` that turn a log index into a slot of the compacted `log`, the updates of
`log` as a slice, and `persist` / `readPersist`.  An accessor is `none` where the source ends the
process with `log.Fatalf` (or panics on a slice).
-/

variable {n : ℕ} {C D : Type}

namespace Node

/-- The highest valid log index plus one. -/
def getLogLength (nd : Node n C D) : ℕ := nd.lastIncludedIndex + nd.log.length

/-- The term of the entry at `index`, which may be the last one of the snapshot. -/
def getTermOfLog (nd : Node n C D) (index : ℕ) : Option ℕ :=
  if index ≥ nd.getLogLength then none
  else if index < nd.lastIncludedIndex then none
  else if index = nd.lastIncludedIndex then some nd.lastIncludedTerm
  else (nd.log[index - nd.lastIncludedIndex]?).map LogEntry.term

/-- The entry at `index`. -/
def getLog (nd : Node n C D) (index : ℕ) : Option (LogEntry C) :=
  if index ≥ nd.getLogLength then none
  else if index ≤ nd.lastIncludedIndex then none
  else nd.log[index - nd.lastIncludedIndex]?

/-- A window on the entries from `first` up to and without `last`. -/
def getLogs (nd : Node n C D) (first last : ℕ) : Option Slice :=
  if last > nd.getLogLength then none
  else if first ≤ nd.lastIncludedIndex then none
  else if first > last then none
  else some (nd.backing.slice (first - nd.lastIncludedIndex) (last - nd.lastIncludedIndex))

/-- A window on the entries from `first` on. -/
def getLogsFrom (nd : Node n C D) (first : ℕ) : Option Slice :=
  nd.getLogs first nd.getLogLength

/-! ### The log as a slice -/

/-- `append(rf.log, entry)` -/
def appendEntry (nd : Node n C D) (entry : LogEntry C) : Node n C D :=
  { nd with log := nd.log ++ [entry], backing := nd.backing.append .zero nd.log }

/-- `rf.log[0:k]` -/
def cutLog (nd : Node n C D) (k : ℕ) : Node n C D :=
  { nd with log := nd.log.take k, backing := nd.backing.cut nd.log k }

/-- The log goes to an array of its own, on which there is no window yet. -/
def moveLog (nd : Node n C D) (log : List (LogEntry C)) : Node n C D :=
  { nd with log := log, backing := nd.backing.move .zero nd.log }

/-- What a window shows now. -/
def readSlice (nd : Node n C D) (s : Slice) : List (LogEntry C) :=
  nd.backing.read nd.log s

/-- What slot `i` of a window holds now. -/
def sliceEntry (nd : Node n C D) (s : Slice) (i : ℕ) : LogEntry C :=
  nd.backing.get .zero nd.log s i

/-! ### Stable storage -/

/-- `SaveRaftState` of the encoded term, vote and log. -/
def persist (nd : Node n C D) : Node n C D :=
  { nd with
    persister :=
      { nd.persister with
        raftstate := some
          { currentTerm := nd.currentTerm
            votedFor := nd.votedFor
            lastIncludedIndex := nd.lastIncludedIndex
            lastIncludedTerm := nd.lastIncludedTerm
            log := nd.log } } }

/-- `readPersist`: nothing changes when there are no bytes to decode. -/
def readPersist (nd : Node n C D) : Option (RaftBytes n C) → Node n C D
  | none => nd
  | some data =>
    { nd with
      currentTerm := data.currentTerm
      votedFor := data.votedFor
      lastIncludedIndex := data.lastIncludedIndex
      lastIncludedTerm := data.lastIncludedTerm
      log := data.log }

/-- `Persister.SaveStateAndSnapshot`. -/
def saveStateAndSnapshot (nd : Node n C D) (data : Option (RaftBytes n C))
    (snapshot : Option D) : Node n C D :=
  { nd with persister := { raftstate := data, snapshot := snapshot } }

/-- The role, term and vote once a higher term is adopted, made durable. -/
def updateTerm (nd : Node n C D) (term : ℕ) : Node n C D :=
  { nd with currentTerm := term, votedFor := none, state := .followerState }.persist

/-- Adopt `term` if it is higher.  The same lines stand in the three handlers and in the
    places that process a reply. -/
def observe (nd : Node n C D) (term : ℕ) : Node n C D :=
  if term > nd.currentTerm then nd.updateTerm term else nd

/-- `log.Fatalf`: the process ends. -/
def exit (nd : Node n C D) : Node n C D := { nd with exited := true }

/-- The fields that `Make` sets before it reads the persister.  `room` is how many free slots the
    runtime will give to the arrays of the log. -/
def blank (persister : Persister n C D) (room : ℕ → ℕ) : Node n C D :=
  { state := .followerState
    currentTerm := 0
    votedFor := none
    log := [.zero]
    backing := .new .zero room
    lastIncludedIndex := 0
    lastIncludedTerm := 0
    commitIndex := 0
    lastApplied := 0
    nextIndex := fun _ => 0
    matchIndex := fun _ => 0
    leaderInitDone := false
    applyNotifyCh := 0
    persister := persister
    exited := false
    main := .read
    threads := []
    held := none
    applying := .wait }

/-- What is below the snapshot counts as committed and applied. -/
def startFromSnapshot (nd : Node n C D) : Node n C D :=
  { nd with
    commitIndex := if nd.lastIncludedIndex > 0 then nd.lastIncludedIndex else nd.commitIndex
    lastApplied := if nd.lastIncludedIndex > 0 then nd.lastIncludedIndex else nd.lastApplied }

/-- `Make`, on what the persister holds.  Every goroutine of the peer starts afresh. -/
def make (persister : Persister n C D) (room : ℕ → ℕ) : Node n C D :=
  ((blank persister room).readPersist persister.raftstate).startFromSnapshot

end Node

end MitDistributed.Raft
