import MitDistributed.MapReduce.Protocol

namespace MitDistributed.MapReduce

open Transition

/-!
# Concurrent map reports

Reports of different map tasks hold different mutexes, so their handlers interleave.  A handler
that accepts its report is cut into the steps others can come between: `SetPhase(1)`, the scan of
the task list one task at a time, and the store of its result in `IsMapFinished`.

A handler can store a `false` that it scanned before the last task was finished, over the `true`
of the handler of that task (`isMapFinished_lost`).  `StoresFirst` excludes this: no report is
accepted while another handler still has a `false` to store.
-/

/-- Where a handler is after `SetPhase(1)`. -/
inductive ScanPc
  | scan (next : ℕ)
  | store (result : Bool)
  deriving DecidableEq, Repr

/-- The handler of a report of map task `id`; it holds the task's mutex. -/
structure Handler where
  id : ℕ
  pc : ScanPc
  deriving DecidableEq, Repr

structure Reports where
  protocol : Protocol
  handlers : List Handler
  deriving DecidableEq, Repr

namespace Reports

inductive Action
  /-- A request, a checker or the report of a reduce task. -/
  | other (action : Protocol.Action)
  /-- The report of a map task, up to `SetPhase(1)`. -/
  | enter (a : Assignment)
  | scan (h : Handler)
  | store (h : Handler)
  deriving DecidableEq, Repr

def init (files : List String) (nReduce : ℕ) : Reports := ⟨.init files nReduce, []⟩

/-- The task's mutex is free. -/
def Free (s : Reports) (id : ℕ) : Prop := ∀ h ∈ s.handlers, h.id ≠ id

instance (s : Reports) (id : ℕ) : Decidable (s.Free id) :=
  inferInstanceAs (Decidable (∀ h ∈ s.handlers, h.id ≠ id))

/-- The steps that are not cut.  The checker of a map task waits for the task's mutex, and the
    report of a map task is not one of them. -/
def Uncut (s : Reports) : Protocol.Action → Prop
  | .ask => True
  | .report a => a.kind = .reduce
  | .check kind id => kind = .map → s.Free id

instance (s : Reports) (action : Protocol.Action) : Decidable (s.Uncut action) := by
  unfold Uncut
  split <;> infer_instance

/-- The handler up to `SetPhase(1)`; a report with another number ends here. -/
def enter (s : Reports) (a : Assignment) : Reports :=
  if s.protocol.coordinator.Accepts a then
    { protocol :=
        { s.protocol with
          coordinator := s.protocol.coordinator.modifyTask a.kind a.id Task.finish
          outstanding := s.protocol.outstanding.erase a
          accepted := a :: s.protocol.accepted }
      handlers := ⟨a.id, .scan 0⟩ :: s.handlers }
  else { s with protocol := { s.protocol with outstanding := s.protocol.outstanding.erase a } }

/-- Look at one more task; the scan stops at one that is not finished. -/
def scanNext (c : Coordinator) (next : ℕ) : ScanPc :=
  match c.task .map next with
  | none => .store true
  | some t => if t.phase ≠ .finished then .store false else .scan (next + 1)

def storeResult (s : Reports) (h : Handler) (result : Bool) : Reports :=
  { protocol :=
      { s.protocol with coordinator := s.protocol.coordinator.storeFinished .map result }
    handlers := s.handlers.erase h }

def step (s : Reports) : Action → Option Reports
  | .other action =>
    if s.Uncut action then (s.protocol.step action).map fun p => { s with protocol := p }
    else none
  | .enter a =>
    if a ∈ s.protocol.outstanding ∧ a.kind = .map ∧ s.Free a.id then some (s.enter a) else none
  | .scan h =>
    match h.pc with
    | .scan next =>
      if h ∈ s.handlers then
        some { s with handlers :=
          ⟨h.id, scanNext s.protocol.coordinator next⟩ :: s.handlers.erase h }
      else none
    | .store _ => none
  | .store h =>
    match h.pc with
    | .scan _ => none
    | .store result => if h ∈ s.handlers then some (s.storeResult h result) else none

/-- A report is let in only while no handler has a `false` to store. -/
def StoresFirst (s : Reports) : Action → Prop
  | .enter _ => ∀ h ∈ s.handlers, h.pc ≠ .store false
  | _ => True

instance (s : Reports) (action : Action) : Decidable (s.StoresFirst action) := by
  unfold StoresFirst
  split <;> infer_instance

def Reachable (files : List String) (nReduce : ℕ) (s : Reports) : Prop :=
  Run step (fun _ _ => True) (init files nReduce) s

/-- Two reports overlap: the first scans before the second sets its phase, and stores last. -/
theorem isMapFinished_lost :
    ∃ s, Reachable ["pg-one", "pg-two"] 1 s ∧
      s.protocol.coordinator.allFinished .map = true ∧ s.handlers = [] ∧
      s.protocol.coordinator.isMapFinished = false :=
  exists_run_of_exec step (init ["pg-one", "pg-two"] 1)
    [.other .ask, .other .ask,
      .enter ⟨.map, 0, 0⟩, .scan ⟨0, .scan 0⟩, .scan ⟨0, .scan 1⟩,
      .enter ⟨.map, 1, 0⟩, .scan ⟨1, .scan 0⟩, .scan ⟨1, .scan 1⟩, .scan ⟨1, .scan 2⟩,
      .store ⟨1, .store true⟩, .store ⟨0, .store false⟩]
    (fun s => s.protocol.coordinator.allFinished .map = true ∧ s.handlers = [] ∧
      s.protocol.coordinator.isMapFinished = false) (by decide +kernel)

/-! ### Reports that let a pending `false` be stored first -/

/-- A pending `false` is still true, and once all map tasks are finished the flag is set or a
    handler is on its way to set it. -/
structure Inv (s : Reports) : Prop where
  pending : ∀ h ∈ s.handlers, h.pc = .store false →
    ¬ s.protocol.coordinator.allFinished .map = true
  flag : s.protocol.coordinator.allFinished .map = true →
    s.protocol.coordinator.isMapFinished = true ∨ ∃ h, h ∈ s.handlers

namespace Inv

variable {s s' : Reports}

theorem init {files : List String} (hfiles : files ≠ []) (nReduce : ℕ) :
    Inv (Reports.init files nReduce) := by
  obtain ⟨file, files, rfl⟩ := List.exists_cons_of_ne_nil hfiles
  exact ⟨fun h hh => absurd hh List.not_mem_nil, fun hall => by cases hall⟩

/-- A step that finishes no map task, and leaves the flag and the handlers alone. -/
theorem of_protocol (hs : Inv s) {p : Protocol}
    (hall : p.coordinator.allFinished .map = true →
      s.protocol.coordinator.allFinished .map = true)
    (hflag : p.coordinator.isMapFinished = s.protocol.coordinator.isMapFinished) :
    Inv { s with protocol := p } where
  pending h hh hpc hnow := hs.pending h hh hpc (hall hnow)
  flag hnow := by
    rw [hflag]
    exact hs.flag (hall hnow)

theorem other (hs : Inv s) {action : Protocol.Action} (huncut : s.Uncut action) {p : Protocol}
    (hstep : s.protocol.step action = some p) : Inv { s with protocol := p } := by
  cases action with
  | ask =>
    cases hstep
    have hc : s.protocol.ask.coordinator = s.protocol.coordinator.ask.1 := by
      unfold Protocol.ask
      split <;> rfl
    rcases s.protocol.coordinator.ask_cases with ⟨hsame, -⟩ | ⟨kind, id, t, -, -, -, hassign⟩
    · exact hs.of_protocol (by rw [hc, hsame]; exact fun h => h) (by rw [hc, hsame])
    · refine hs.of_protocol ?_ (by rw [hc, hassign, Coordinator.isMapFinished_modifyTask])
      rw [hc, hassign]
      -- the task that is handed out runs, so it cannot be among the finished ones
      exact Coordinator.allFinished_of_modifyTask fun t hfin => by cases hfin
  | report a =>
    rw [Protocol.step, Option.ite_none_right_eq_some, Option.some.injEq] at hstep
    obtain ⟨-, rfl⟩ := hstep
    have hkind : a.kind = .reduce := huncut
    by_cases hacc : s.protocol.coordinator.Accepts a
    · have hc : (s.protocol.report a).coordinator =
          s.protocol.coordinator.finish .reduce a.id := by
        rw [Protocol.report, Coordinator.report, if_pos hacc, hkind]
      refine hs.of_protocol ?_ (by rw [hc]; rfl)
      rw [hc, Coordinator.finish, Coordinator.allFinished_storeFinished,
        Coordinator.allFinished_modifyTask_of_ne (by decide)]
      exact fun h => h
    · have hc : (s.protocol.report a).coordinator = s.protocol.coordinator := by
        rw [Protocol.report, Coordinator.report, if_neg hacc]
      exact hs.of_protocol (by rw [hc]; exact fun h => h) (by rw [hc])
  | check kind id =>
    rw [Protocol.step, Option.ite_none_right_eq_some, Option.some.injEq] at hstep
    obtain ⟨-, rfl⟩ := hstep
    refine hs.of_protocol (Coordinator.allFinished_of_modifyTask fun t hfin => ?_)
      Coordinator.isMapFinished_modifyTask
    by_contra hne
    rw [Task.expire_of_ne hne] at hfin
    cases hfin

theorem enter (hs : Inv s) {a : Assignment} (hfirst : ∀ h ∈ s.handlers, h.pc ≠ .store false) :
    Inv (s.enter a) := by
  unfold Reports.enter
  split
  · refine ⟨fun h hh hpc => ?_, fun _ => .inr ⟨_, List.mem_cons_self ..⟩⟩
    rcases List.mem_cons.mp hh with rfl | hh
    · cases hpc
    · exact absurd hpc (hfirst h hh)
  · exact hs.of_protocol (fun h => h) rfl

/-- A scan that ends in `false` has seen a task that is not finished. -/
theorem not_allFinished_of_scanNext {c : Coordinator} {next : ℕ}
    (h : scanNext c next = .store false) : ¬ c.allFinished .map = true := by
  intro hall
  rw [Coordinator.allFinished_iff] at hall
  unfold scanNext at h
  split at h
  · cases h
  · rename_i t ht
    rw [if_neg (not_not.mpr (hall next t ht))] at h
    cases h

theorem scan (hs : Inv s) (h : Handler) (next : ℕ) :
    Inv { s with handlers :=
      ⟨h.id, scanNext s.protocol.coordinator next⟩ :: s.handlers.erase h } where
  pending h' hh' hpc := by
    rcases List.mem_cons.mp hh' with rfl | hh'
    · exact not_allFinished_of_scanNext hpc
    · exact hs.pending h' (List.mem_of_mem_erase hh') hpc
  flag _ := .inr ⟨_, List.mem_cons_self ..⟩

theorem store (hs : Inv s) {h : Handler} (hh : h ∈ s.handlers) {result : Bool}
    (hpc : h.pc = .store result) : Inv (s.storeResult h result) where
  pending h' hh' hpc' := by
    rw [storeResult, Coordinator.allFinished_storeFinished]
    exact hs.pending h' (List.mem_of_mem_erase hh') hpc'
  flag hall := by
    rw [storeResult, Coordinator.allFinished_storeFinished] at hall
    cases result with
    | true => exact .inl rfl
    | false => exact absurd hall (hs.pending h hh hpc)

theorem step {action : Action} (hs : Inv s) (hok : s.StoresFirst action)
    (hstep : s.step action = some s') : Inv s' := by
  cases action with
  | other action =>
    rw [Reports.step, Option.ite_none_right_eq_some, Option.map_eq_some_iff] at hstep
    obtain ⟨huncut, p, hp, rfl⟩ := hstep
    exact hs.other huncut hp
  | enter a =>
    rw [Reports.step, Option.ite_none_right_eq_some, Option.some.injEq] at hstep
    obtain ⟨-, rfl⟩ := hstep
    exact hs.enter hok
  | scan h =>
    cases hpc : h.pc with
    | scan next =>
      simp only [Reports.step, hpc, Option.ite_none_right_eq_some, Option.some.injEq] at hstep
      obtain ⟨-, rfl⟩ := hstep
      exact hs.scan h next
    | store result => simp [Reports.step, hpc] at hstep
  | store h =>
    cases hpc : h.pc with
    | scan next => simp [Reports.step, hpc] at hstep
    | store result =>
      simp only [Reports.step, hpc, Option.ite_none_right_eq_some, Option.some.injEq] at hstep
      obtain ⟨hh, rfl⟩ := hstep
      exact hs.store hh hpc

end Inv

/-- **Finished map tasks are noticed.**  In a job with a map task, in every run in which no report
    is accepted while another handler has a `false` to store: when all map tasks are finished and
    no handler is left, `IsMapFinished` is set. -/
theorem isMapFinished_of_storesFirst {files : List String} (hfiles : files ≠ []) {nReduce : ℕ}
    {s : Reports} (hr : Run step StoresFirst (init files nReduce) s)
    (hall : s.protocol.coordinator.allFinished .map = true) (hdone : s.handlers = []) :
    s.protocol.coordinator.isMapFinished = true := by
  have hinv : Inv s := hr.invariant (fun _ _ _ h hok hstep => h.step hok hstep)
    (Inv.init hfiles nReduce)
  rcases hinv.flag hall with hflag | ⟨h, hh⟩
  · exact hflag
  · rw [hdone] at hh
    cases hh

/-- The handlers overlap, but the first has stored when the second sets its phase. -/
theorem isMapFinished_of_storesFirst_twoReports :
    ∃ s, Run step StoresFirst (init ["pg-one", "pg-two"] 1) s ∧
      s.protocol.coordinator.isMapFinished = true := by
  obtain ⟨s, hr, hall, hdone⟩ := exists_run_of_execOk step StoresFirst
    (init ["pg-one", "pg-two"] 1)
    [.other .ask, .other .ask,
      .enter ⟨.map, 0, 0⟩, .scan ⟨0, .scan 0⟩, .enter ⟨.map, 1, 0⟩, .scan ⟨0, .scan 1⟩,
      .scan ⟨1, .scan 0⟩, .scan ⟨0, .scan 2⟩, .scan ⟨1, .scan 1⟩, .scan ⟨1, .scan 2⟩,
      .store ⟨1, .store true⟩, .store ⟨0, .store true⟩]
    (fun s => s.protocol.coordinator.allFinished .map = true ∧ s.handlers = [])
    (by decide +kernel)
  exact ⟨s, hr, isMapFinished_of_storesFirst (by decide) hr hall hdone⟩

end Reports

end MitDistributed.MapReduce
