import Mathlib.Data.List.Basic
import Mathlib.Tactic.Common

namespace MitDistributed.MapReduce

/-!
# The coordinator

The coordinator's tasks and its handlers.  Map and reduce tasks have the same life: handed out,
taken back by a checker when they are late, finished by a report.  The handlers are written once,
with the kind of task as a parameter.

The renames of a report's files are not here; a report finishes its task when they are done.
-/

/-- `-1`, `0` and `1` in the source. -/
inductive Phase
  | unassigned | running | finished
  deriving DecidableEq, Repr

inductive Kind
  | map | reduce
  deriving DecidableEq, Repr

/-- `MapTask` or `ReduceTask`; the file names of the map tasks stand in the coordinator. -/
structure Task where
  phase : Phase
  taskNumber : ℕ
  deriving DecidableEq, Repr

namespace Task

/-- `SetPhase(0)` -/
def assign (t : Task) : Task := { t with phase := .running }

/-- What a checker does when its time is over. -/
def expire (t : Task) : Task :=
  if t.phase ≠ .finished then { phase := .unassigned, taskNumber := t.taskNumber + 1 } else t

/-- `SetPhase(1)` -/
def finish (t : Task) : Task := { t with phase := .finished }

theorem expire_of_finished {t : Task} (h : t.phase = .finished) : t.expire = t := by
  simp [expire, h]

theorem expire_of_ne {t : Task} (h : t.phase ≠ .finished) :
    t.expire = { phase := .unassigned, taskNumber := t.taskNumber + 1 } := by
  simp [expire, h]

end Task

/-- A task as it was handed out. -/
structure Assignment where
  kind : Kind
  id : ℕ
  number : ℕ
  deriving DecidableEq, Repr

/-- `given` is the task of a reply with its `TaskNumber`; `none` when the id is `-1`. -/
structure Reply where
  isFinished : Bool
  isMap : Bool
  given : Option Assignment
  mapFileName : String
  nMap : ℕ
  nReduce : ℕ
  deriving DecidableEq, Repr

structure Coordinator where
  nMap : ℕ
  nReduce : ℕ
  isMapFinished : Bool
  isFinished : Bool
  fileNames : List String
  mapTaskList : List Task
  reduceTaskList : List Task
  deriving DecidableEq, Repr

namespace Coordinator

def tasks (c : Coordinator) : Kind → List Task
  | .map => c.mapTaskList
  | .reduce => c.reduceTaskList

def task (c : Coordinator) (kind : Kind) (id : ℕ) : Option Task := (c.tasks kind)[id]?

def modifyTask (c : Coordinator) (kind : Kind) (id : ℕ) (f : Task → Task) : Coordinator :=
  match kind with
  | .map => { c with mapTaskList := c.mapTaskList.modify id f }
  | .reduce => { c with reduceTaskList := c.reduceTaskList.modify id f }

def getUnassigned (c : Coordinator) (kind : Kind) : Option ℕ :=
  (c.tasks kind).findIdx? fun t => t.phase = .unassigned

def getUnassignedMapTask (c : Coordinator) : Option ℕ := c.getUnassigned .map

def getUnassignedReduceTask (c : Coordinator) : Option ℕ := c.getUnassigned .reduce

def taskChecker (c : Coordinator) (kind : Kind) (id : ℕ) : Coordinator :=
  c.modifyTask kind id Task.expire

def mapTaskChecker (c : Coordinator) (id : ℕ) : Coordinator := c.taskChecker .map id

def reduceTaskChecker (c : Coordinator) (id : ℕ) : Coordinator := c.taskChecker .reduce id

/-- The scan over the tasks of a kind. -/
def allFinished (c : Coordinator) (kind : Kind) : Bool :=
  (c.tasks kind).all fun t => t.phase = .finished

def done (c : Coordinator) : Bool := c.allFinished .reduce

/-- Hand out the task `id`. -/
def assign (c : Coordinator) (kind : Kind) (id : ℕ) : Coordinator × Option Assignment :=
  (c.modifyTask kind id Task.assign, (c.task kind id).map fun t => ⟨kind, id, t.taskNumber⟩)

/-- `Reply.MapFileName`, which stays empty without a map task. -/
def mapFileName (c : Coordinator) : Option Assignment → String
  | some ⟨.map, id, _⟩ => ((c.fileNames)[id]?).getD ""
  | some ⟨.reduce, _, _⟩ | none => ""

/-- `RPCHandler`, a request for a task of the kind that is on. -/
def request (c : Coordinator) (kind : Kind) (unassigned : Option ℕ) : Coordinator × Reply :=
  let (c', given) := match unassigned with
    | none => (c, none)
    | some id => c.assign kind id
  (c', { isFinished := false, isMap := kind = .map, given, mapFileName := c.mapFileName given,
         nMap := c.nMap, nReduce := c.nReduce })

/-- `RPCHandler` with `AskForTask`. -/
def ask (c : Coordinator) : Coordinator × Reply :=
  if c.isFinished then
    (c, { isFinished := true, isMap := false, given := none, mapFileName := "",
          nMap := c.nMap, nReduce := c.nReduce })
  else if c.isMapFinished then c.request .reduce c.getUnassignedReduceTask
  else c.request .map c.getUnassignedMapTask

/-- A report is accepted when its `TaskNumber` is the task's. -/
def Accepts (c : Coordinator) (a : Assignment) : Prop :=
  (c.task a.kind a.id).map Task.taskNumber = some a.number

instance (c : Coordinator) (a : Assignment) : Decidable (c.Accepts a) :=
  inferInstanceAs (Decidable (_ = _))

/-- Store the result of a scan. -/
def storeFinished (c : Coordinator) (kind : Kind) (result : Bool) : Coordinator :=
  match kind with
  | .map => { c with isMapFinished := result }
  | .reduce => { c with isFinished := result }

/-- A report that is accepted: `SetPhase(1)`, the scan, and its result. -/
def finish (c : Coordinator) (kind : Kind) (id : ℕ) : Coordinator :=
  let c' := c.modifyTask kind id Task.finish
  c'.storeFinished kind (c'.allFinished kind)

/-- `RPCHandler`, the report of a task. -/
def report (c : Coordinator) (a : Assignment) : Coordinator :=
  if c.Accepts a then c.finish a.kind a.id else c

end Coordinator

def makeCoordinator (files : List String) (nReduce : ℕ) : Coordinator where
  nMap := files.length
  nReduce := nReduce
  isMapFinished := false
  isFinished := false
  fileNames := files
  mapTaskList := files.map fun _ => ⟨.unassigned, 0⟩
  reduceTaskList := List.replicate nReduce ⟨.unassigned, 0⟩

namespace Coordinator

/-! ### What the handlers do to a task -/

variable {c : Coordinator} {kind kind' : Kind} {id id' : ℕ} {f : Task → Task} {t : Task}

theorem tasks_modifyTask :
    (c.modifyTask kind id f).tasks kind' =
      if kind = kind' then (c.tasks kind').modify id f else c.tasks kind' := by
  cases kind <;> cases kind' <;> rfl

/-- Only the task that is meant changes. -/
theorem task_modifyTask :
    (c.modifyTask kind id f).task kind' id' =
      if kind = kind' ∧ id = id' then (c.task kind' id').map f else c.task kind' id' := by
  unfold task
  rw [tasks_modifyTask]
  by_cases hk : kind = kind'
  · by_cases hid : id = id' <;> simp [hk, hid]
  · simp [hk]

theorem task_modifyTask_of_eq (ht : c.task kind id = some t) :
    (c.modifyTask kind id f).task kind id = some (f t) := by
  rw [task_modifyTask, if_pos ⟨rfl, rfl⟩, ht, Option.map_some]

theorem task_modifyTask_of_ne (h : ¬ (kind = kind' ∧ id = id')) :
    (c.modifyTask kind id f).task kind' id' = c.task kind' id' := by
  rw [task_modifyTask, if_neg h]

/-- Where a task of the changed coordinator comes from. -/
theorem task_modifyTask_cases {t' : Task} (h : (c.modifyTask kind id f).task kind' id' = some t') :
    (kind = kind' ∧ id = id') ∧ (∃ t, c.task kind' id' = some t ∧ f t = t') ∨
    ¬ (kind = kind' ∧ id = id') ∧ c.task kind' id' = some t' := by
  rw [task_modifyTask] at h
  split at h
  · rename_i hsame
    exact .inl ⟨hsame, Option.map_eq_some_iff.mp h⟩
  · rename_i hother
    exact .inr ⟨hother, h⟩

@[simp] theorem task_storeFinished (result : Bool) :
    (c.storeFinished kind result).task kind' id = c.task kind' id := by
  cases kind <;> cases kind' <;> rfl

@[simp] theorem tasks_storeFinished (result : Bool) :
    (c.storeFinished kind result).tasks kind' = c.tasks kind' := by
  cases kind <;> cases kind' <;> rfl

@[simp] theorem length_tasks_modifyTask :
    ((c.modifyTask kind id f).tasks kind').length = (c.tasks kind').length := by
  rw [tasks_modifyTask]
  split <;> simp

theorem allFinished_iff :
    c.allFinished kind = true ↔ ∀ id t, c.task kind id = some t → t.phase = .finished := by
  rw [allFinished, List.all_eq_true]
  constructor
  · intro h id t ht
    exact of_decide_eq_true (h t (List.mem_of_getElem? ht))
  · intro h t ht
    obtain ⟨id, hid⟩ := List.mem_iff_getElem?.mp ht
    exact decide_eq_true (h id t hid)

/-- Finished tasks stay so when the change keeps the phase of a finished task. -/
theorem allFinished_modifyTask
    (hf : ∀ t, c.task kind id = some t → t.phase = .finished → (f t).phase = .finished)
    (h : c.allFinished kind' = true) : (c.modifyTask kind id f).allFinished kind' = true := by
  rw [allFinished_iff] at h ⊢
  intro i t' ht'
  rcases task_modifyTask_cases ht' with ⟨⟨rfl, rfl⟩, t, ht, rfl⟩ | ⟨-, ht'⟩
  · exact hf t ht (h _ t ht)
  · exact h i t' ht'

/-- What is finished after a change that finishes no task was finished before. -/
theorem allFinished_of_modifyTask (hf : ∀ t : Task, (f t).phase = .finished → t.phase = .finished)
    (h : (c.modifyTask kind id f).allFinished kind' = true) : c.allFinished kind' = true := by
  rw [allFinished_iff] at h ⊢
  intro i t ht
  by_cases hsame : kind = kind' ∧ id = i
  · obtain ⟨rfl, rfl⟩ := hsame
    exact hf t (h _ _ (task_modifyTask_of_eq ht))
  · exact h i t ((task_modifyTask_of_ne hsame).trans ht)

theorem allFinished_modifyTask_of_ne (h : kind ≠ kind') :
    (c.modifyTask kind id f).allFinished kind' = c.allFinished kind' := by
  rw [allFinished, tasks_modifyTask, if_neg h, allFinished]

@[simp] theorem allFinished_storeFinished (result : Bool) :
    (c.storeFinished kind result).allFinished kind' = c.allFinished kind' := by
  rw [allFinished, tasks_storeFinished, allFinished]

theorem task_finish :
    (c.finish kind id).task kind' id' = (c.modifyTask kind id Task.finish).task kind' id' :=
  task_storeFinished _

theorem allFinished_finish :
    (c.finish kind id).allFinished kind' = (c.modifyTask kind id Task.finish).allFinished kind' :=
  allFinished_storeFinished _

@[simp] theorem isMapFinished_modifyTask :
    (c.modifyTask kind id f).isMapFinished = c.isMapFinished := by
  cases kind <;> rfl

theorem exists_task_iff : (∃ t, c.task kind id = some t) ↔ id < (c.tasks kind).length := by
  constructor
  · rintro ⟨t, ht⟩
    exact (List.getElem?_eq_some_iff.mp ht).1
  · intro hlt
    exact ⟨_, List.getElem?_eq_getElem hlt⟩

variable {a : Assignment}

theorem accepts_iff : c.Accepts a ↔ ∃ t, c.task a.kind a.id = some t ∧ t.taskNumber = a.number := by
  rw [Accepts, Option.map_eq_some_iff]

/-- Reports are judged by the tasks' numbers alone. -/
theorem accepts_modifyTask (hf : ∀ t : Task, (f t).taskNumber = t.taskNumber) :
    (c.modifyTask kind id f).Accepts a ↔ c.Accepts a := by
  unfold Accepts
  rw [task_modifyTask]
  split
  · rw [Option.map_map, show Task.taskNumber ∘ f = Task.taskNumber from funext hf]
  · exact Iff.rfl

theorem accepts_finish : (c.finish kind id).Accepts a ↔ c.Accepts a := by
  rw [Accepts, task_finish]
  exact accepts_modifyTask (f := Task.finish) fun _ => rfl

theorem getUnassigned_eq_some (h : c.getUnassigned kind = some id) :
    ∃ t, c.task kind id = some t ∧ t.phase = .unassigned := by
  obtain ⟨hlt, hphase, -⟩ := List.findIdx?_eq_some_iff_getElem.mp h
  exact ⟨_, List.getElem?_eq_getElem hlt, of_decide_eq_true hphase⟩

/-- **What a request does.**  It hands out nothing and changes nothing, or it hands out a task
    that was unassigned, a reduce task only when the map tasks are known to be finished. -/
theorem ask_cases (c : Coordinator) :
    c.ask.1 = c ∧ c.ask.2.given = none ∨
    ∃ kind id t, c.task kind id = some t ∧ t.phase = .unassigned ∧
      (kind = .reduce → c.isMapFinished = true) ∧
      c.ask = (c.modifyTask kind id Task.assign,
        { isFinished := false, isMap := kind = .map, given := some ⟨kind, id, t.taskNumber⟩
          mapFileName := c.mapFileName (some ⟨kind, id, t.taskNumber⟩)
          nMap := c.nMap, nReduce := c.nReduce }) := by
  by_cases hfin : c.isFinished = true
  · exact .inl (by simp [ask, hfin])
  obtain ⟨kind, hkind, hask⟩ : ∃ kind, (kind = .reduce → c.isMapFinished = true) ∧
      c.ask = c.request kind (c.getUnassigned kind) := by
    by_cases hmap : c.isMapFinished = true
    · exact ⟨.reduce, fun _ => hmap, by rw [ask, if_neg hfin, if_pos hmap]; rfl⟩
    · exact ⟨.map, (by cases ·), by rw [ask, if_neg hfin, if_neg hmap]; rfl⟩
  rw [hask]
  cases hun : c.getUnassigned kind with
  | none => exact .inl ⟨rfl, rfl⟩
  | some id =>
    obtain ⟨t, ht, hphase⟩ := getUnassigned_eq_some hun
    refine .inr ⟨kind, id, t, ht, hphase, hkind, ?_⟩
    simp only [request, assign, ht, Option.map_some]

end Coordinator

end MitDistributed.MapReduce
