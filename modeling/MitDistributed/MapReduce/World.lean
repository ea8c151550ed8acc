import MitDistributed.Files.Disk
import MitDistributed.MapReduce.Protocol
import MitDistributed.MapReduce.Tasks

namespace MitDistributed.MapReduce

open Transition Files

/-!
# Workers, coordinator and files

The workers of a job with the files they share.  Every file operation of a worker is a step of its
own, so workers interleave inside a file; the coordinator's handlers are atomic and go by
`Protocol`.

All attempts of a task use the same temporary names.  A report of the current number has the
temporary files moved to their final names, whoever wrote them last.  A rename that fails ends the
coordinator.
-/

/-- `mr-m-i-tmp`, `mr-m-i`, `mr-out-r-tmp` and `mr-out-r`. -/
inductive FileName
  | tmp (m i : ℕ)
  | inter (m i : ℕ)
  | outTmp (r : ℕ)
  | out (r : ℕ)
  deriving DecidableEq, Repr

variable {B : Type}

/-- Where a worker is in a file: the writes that are left go to the inode it has open. -/
inductive WritePc (B : Type)
  | remove
  | create
  | write (inode offset : ℕ) (rest : List (List B))

/-- A file of a task: its temporary name, and what is written to it write by write. -/
abbrev Output (B : Type) := FileName × List (List B)

inductive Worker (B : Type)
  | idle
  /-- Has a map task. -/
  | mapping (a : Assignment) (name : String) (nReduce : ℕ)
  /-- Has a reduce task, and has read the files of the map tasks before `i`. -/
  | reading (a : Assignment) (nMap i : ℕ) (got : List KeyValue)
  | writing (a : Assignment) (pc : WritePc B) (file : Output B) (todo : List (Output B))
  | reporting (a : Assignment)
  | exited

namespace Worker

/-- The assignment a worker is at. -/
def attempt : Worker B → Option Assignment
  | .mapping a _ _ | .reading a _ _ _ | .writing a _ _ _ | .reporting a => some a
  | .idle | .exited => none

/-- The assignment whose files a worker is about to touch. -/
def writer : Worker B → Option Assignment
  | .writing a _ _ _ => some a
  | .idle | .mapping _ _ _ | .reading _ _ _ _ | .reporting _ | .exited => none

/-- Go on with the first file, or report. -/
def write (a : Assignment) : List (Output B) → Worker B
  | [] => .reporting a
  | file :: todo => .writing a .remove file todo

@[simp] theorem attempt_write (a : Assignment) (files : List (Output B)) :
    (write a files).attempt = some a := by
  cases files <;> rfl

/-- What a worker does with the reply to its request. -/
def take (reply : Reply) : Worker B :=
  if reply.isFinished then .exited
  else match reply.given with
    | none => .idle
    | some a =>
      if reply.isMap then .mapping a reply.mapFileName reply.nReduce
      else .reading a reply.nMap 0 []

end Worker

/-- The files of a map task. -/
def mapOutputs (format : Format B) (m nReduce : ℕ) (mid : List (List KeyValue)) :
    List (Output B) :=
  (List.range nReduce).map fun i => (.tmp m i, ((mid[i]?).getD []).map format.encode)

/-- The renames of a report. -/
def renames (nReduce : ℕ) (a : Assignment) : List (FileName × FileName) :=
  match a.kind with
  | .map => (List.range nReduce).map fun i => (.tmp a.id i, .inter a.id i)
  | .reduce => [(.outTmp a.id, .out a.id)]

structure World (B : Type) where
  protocol : Protocol
  disk : Disk FileName B
  workers : ℕ → Worker B
  /-- Reports on their way. -/
  net : List Assignment
  /-- The coordinator has ended with an error. -/
  fatal : Bool

namespace World

inductive Action
  | ask (w : ℕ)
  /-- The next step of a worker, up to its report. -/
  | work (w : ℕ)
  | send (w : ℕ)
  | deliver (a : Assignment)
  | check (kind : Kind) (id : ℕ)
  /-- The worker dies; another one starts in its place. -/
  | crash (w : ℕ)
  deriving DecidableEq, Repr

def init (job : Job B) : World B where
  protocol := .init job.files job.nReduce
  disk := .empty
  workers _ := .idle
  net := []
  fatal := false

def setWorker (s : World B) (w : ℕ) (worker : Worker B) : World B :=
  { s with workers := Function.update s.workers w worker }

def ask (s : World B) (w : ℕ) : World B :=
  { s.setWorker w (.take s.protocol.coordinator.ask.2) with protocol := s.protocol.ask }

/-- A worker's step: what becomes of it and of the disk.  Each attempt sorts in its own way. -/
def workStep (job : Job B) (sorter : Assignment → Sorter) (d : Disk FileName B) :
    Worker B → Option (Worker B × Disk FileName B)
  | .mapping a name nReduce =>
    match job.contents name with
    | none => some (.exited, d)
    | some content =>
      let mid := middleResult nReduce (job.mapf name content)
      some (.write a (mapOutputs job.format a.id nReduce mid), d)
  | .reading a nMap i got =>
    if i < nMap then
      let records := (d.read (.inter i a.id)).elim [] job.format.decode
      some (.reading a nMap (i + 1) (got ++ records), d)
    else some (.write a [(.outTmp a.id, job.reduceLines (sorter a) got)], d)
  | .writing a .remove file todo => some (.writing a .create file todo, d.remove file.1)
  | .writing a .create file todo =>
    some (.writing a (.write (d.inode file.1) 0 file.2) file todo, d.create file.1)
  | .writing a (.write inode offset (bytes :: rest)) file todo =>
    some (.writing a (.write inode (offset + bytes.length) rest) file todo,
      d.write job.format.zero inode offset bytes)
  -- `Close`, and on to the next file
  | .writing a (.write _ _ []) _ todo => some (.write a todo, d)
  | .idle | .reporting _ | .exited => none

/-- A report reaches the coordinator. -/
def deliver (s : World B) (a : Assignment) : World B :=
  if s.protocol.coordinator.Accepts a then
    let (d, ok) := s.disk.renameAll (renames s.protocol.coordinator.nReduce a)
    if ok then { s with protocol := s.protocol.report a, disk := d, net := s.net.erase a }
    else { s with disk := d, net := s.net.erase a, fatal := true }
  else { s with protocol := s.protocol.report a, net := s.net.erase a }

def step (job : Job B) (sorter : Assignment → Sorter) (s : World B) : Action → Option (World B)
  | .ask w =>
    match s.workers w with
    | .idle => if s.fatal then none else some (s.ask w)
    | _ => none
  | .work w =>
    (workStep job sorter s.disk (s.workers w)).map fun r =>
      { s.setWorker w r.1 with disk := r.2 }
  | .send w =>
    match s.workers w with
    | .reporting a => some { s.setWorker w .idle with net := a :: s.net }
    | _ => none
  | .deliver a => if s.fatal = false ∧ a ∈ s.net then some (s.deliver a) else none
  | .check kind id =>
    if s.fatal then none
    else (s.protocol.step (.check kind id)).map fun p => { s with protocol := p }
  | .crash w => some (s.setWorker w .idle)

/-- A worker touches its files only while its number is the task's. -/
def WritesCurrent (s : World B) : Action → Prop
  | .work w => ∀ a ∈ (s.workers w).writer, s.protocol.coordinator.Accepts a
  | _ => True

instance (s : World B) (action : Action) : Decidable (s.WritesCurrent action) := by
  unfold WritesCurrent
  split <;> infer_instance

def Reachable (job : Job B) (sorter : Assignment → Sorter) (s : World B) : Prop :=
  Run (step job sorter) (fun _ _ => True) (init job) s

/-- One file with one character, for one reduce task. -/
def oneFile : Job (KeyValue ⊕ String) :=
  { charCount with
    files := ["pg-one"]
    contents := fun name => if name = "pg-one" then some "a" else none
    nReduce := 1 }

/-- Worker 0 has the map task and stalls before it touches its file; the task is taken back and
    worker 1 writes the file and reports. -/
def stalledAttempt : List Action :=
  [.ask 0, .work 0, .check .map 0, .ask 1, .work 1, .work 1, .work 1, .work 1, .work 1, .send 1]

/-- Worker 0 goes on before the report of worker 1 arrives.  When it has created the file anew, an
    empty file is accepted; when it has only removed it, the rename fails. -/
theorem accepted_incomplete :
    (∃ s, Reachable oneFile (fun _ => byKey) s ∧ ⟨.map, 0, 1⟩ ∈ s.protocol.accepted ∧
      s.disk.read (.inter 0 0) = some [] ∧
      oneFile.mapFile 0 0 = some [.inl ⟨"a", "1"⟩]) ∧
    ∃ s, Reachable oneFile (fun _ => byKey) s ∧ s.fatal = true := by
  constructor
  · exact exists_run_of_exec (step oneFile fun _ => byKey) (init oneFile)
      (stalledAttempt ++ [.work 0, .work 0, .deliver ⟨.map, 0, 1⟩]) _ (by decide +kernel)
  · exact exists_run_of_exec (step oneFile fun _ => byKey) (init oneFile)
      (stalledAttempt ++ [.work 0, .deliver ⟨.map, 0, 1⟩]) _ (by decide +kernel)

end World

end MitDistributed.MapReduce
