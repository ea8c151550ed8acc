import MitDistributed.MapReduce.Coordinator
import MitDistributed.Transition.Run

namespace MitDistributed.MapReduce

open Transition

/-!
# The task protocol

The coordinator with the tasks it has handed out and the checkers it has started.  Requests,
reports and checkers are atomic steps in any order; a worker that crashed or stalled is one whose
report does not come.

`assigned` and `accepted` are histories, newest first.  `Inv` relates them to the tasks: a task's
number is above the numbers it was handed out with as long as it is unassigned, and it is finished
exactly when one of its reports was accepted.
-/

structure Protocol where
  coordinator : Coordinator
  /-- Handed out, and not yet reported. -/
  outstanding : List Assignment
  /-- The checkers that are asleep. -/
  checkers : List (Kind × ℕ)
  assigned : List Assignment
  accepted : List Assignment
  deriving DecidableEq, Repr

namespace Protocol

inductive Action
  | ask
  | report (a : Assignment)
  | check (kind : Kind) (id : ℕ)
  deriving DecidableEq, Repr

def init (files : List String) (nReduce : ℕ) : Protocol :=
  ⟨makeCoordinator files nReduce, [], [], [], []⟩

/-- A request; what is handed out gets a checker. -/
def ask (p : Protocol) : Protocol :=
  match p.coordinator.ask.2.given with
  | none => { p with coordinator := p.coordinator.ask.1 }
  | some a =>
    { p with
      coordinator := p.coordinator.ask.1
      outstanding := a :: p.outstanding
      checkers := (a.kind, a.id) :: p.checkers
      assigned := a :: p.assigned }

/-- A report; an assignment is reported once. -/
def report (p : Protocol) (a : Assignment) : Protocol :=
  { p with
    coordinator := p.coordinator.report a
    outstanding := p.outstanding.erase a
    accepted := if p.coordinator.Accepts a then a :: p.accepted else p.accepted }

def check (p : Protocol) (kind : Kind) (id : ℕ) : Protocol :=
  { p with
    coordinator := p.coordinator.taskChecker kind id
    checkers := p.checkers.erase (kind, id) }

section Forms

variable {p : Protocol} {c : Coordinator} {a : Assignment}

theorem ask_eq_self (hc : p.coordinator.ask.1 = p.coordinator)
    (hgiven : p.coordinator.ask.2.given = none) : p.ask = p := by
  rw [ask, hgiven, hc]

theorem ask_of_given {reply : Reply} (hask : p.coordinator.ask = (c, reply))
    (hgiven : reply.given = some a) :
    p.ask = { p with
      coordinator := c
      outstanding := a :: p.outstanding
      checkers := (a.kind, a.id) :: p.checkers
      assigned := a :: p.assigned } := by
  rw [ask, hask, hgiven]

theorem report_of_accepts (h : p.coordinator.Accepts a) :
    p.report a = { p with
      coordinator := p.coordinator.finish a.kind a.id
      outstanding := p.outstanding.erase a
      accepted := a :: p.accepted } := by
  rw [report, Coordinator.report, if_pos h, if_pos h]

theorem report_of_not_accepts (h : ¬ p.coordinator.Accepts a) :
    p.report a = { p with outstanding := p.outstanding.erase a } := by
  rw [report, Coordinator.report, if_neg h, if_neg h]

end Forms

def step (p : Protocol) : Action → Option Protocol
  | .ask => some p.ask
  | .report a => if a ∈ p.outstanding then some (p.report a) else none
  | .check kind id => if (kind, id) ∈ p.checkers then some (p.check kind id) else none

def Reachable (files : List String) (nReduce : ℕ) (p : Protocol) : Prop :=
  Run step (fun _ _ => True) (init files nReduce) p

/-- The last assignment of a task. -/
def latest (p : Protocol) (kind : Kind) (id : ℕ) : Option Assignment :=
  p.assigned.find? fun a => a.kind = kind ∧ a.id = id

/-- What relates the histories to the tasks. -/
structure Inv (files : List String) (nReduce : ℕ) (p : Protocol) : Prop where
  nMap : (p.coordinator.tasks .map).length = files.length
  nReduce : (p.coordinator.tasks .reduce).length = nReduce
  nodup : p.outstanding.Nodup
  outstanding : ∀ a ∈ p.outstanding, a ∈ p.assigned ∧ a ∉ p.accepted
  /-- A later assignment of a task has a higher number. -/
  increasing : p.assigned.Pairwise fun a b => a.kind = b.kind → a.id = b.id → b.number < a.number
  /-- The numbers handed out are up to the task's, and below it while it is unassigned. -/
  bound : ∀ a ∈ p.assigned, ∃ t, p.coordinator.task a.kind a.id = some t ∧
    a.number ≤ t.taskNumber ∧ (t.phase = .unassigned → a.number < t.taskNumber)
  /-- An accepted report has finished its task. -/
  accepted : ∀ a ∈ p.accepted, p.coordinator.task a.kind a.id = some ⟨.finished, a.number⟩
  /-- A finished task has an accepted report. -/
  finished : ∀ kind id t, p.coordinator.task kind id = some t → t.phase = .finished →
    ⟨kind, id, t.taskNumber⟩ ∈ p.accepted
  /-- No task is accepted twice. -/
  once : (p.accepted.map fun a => (a.kind, a.id)).Nodup
  mapFinished : p.coordinator.isMapFinished = true → p.coordinator.allFinished .map = true
  reduceLate : ∀ a ∈ p.assigned, a.kind = .reduce → p.coordinator.allFinished .map = true

namespace Inv

variable {files : List String} {nReduce : ℕ} {p : Protocol}

variable {a : Assignment} {t : Task} {kind : Kind} {id : ℕ}

/-- A task with an outstanding assignment of its current number is running. -/
theorem running (h : Inv files nReduce p) (ha : a ∈ p.outstanding)
    (ht : p.coordinator.task a.kind a.id = some t) (hnumber : t.taskNumber = a.number) :
    t.phase = .running := by
  obtain ⟨hassigned, hnot⟩ := h.outstanding a ha
  obtain ⟨t', ht', -, hun⟩ := h.bound a hassigned
  obtain rfl : t = t' := Option.some.inj (ht.symm.trans ht')
  cases hphase : t.phase with
  | unassigned => exact absurd (hun hphase) (by omega)
  | running => rfl
  | finished =>
    have hacc := h.finished _ _ _ ht hphase
    rw [hnumber] at hacc
    exact absurd hacc hnot

/-- An assignment with the current number of its task is its last one. -/
theorem latest_eq (h : Inv files nReduce p) (ha : a ∈ p.assigned)
    (ht : p.coordinator.task a.kind a.id = some t) (hnumber : t.taskNumber = a.number) :
    p.latest a.kind a.id = some a := by
  obtain ⟨newer, older, hsplit⟩ := List.append_of_mem ha
  -- a newer assignment of the task would have a number above the task's
  have hnewer : ∀ b ∈ newer, ¬ (b.kind = a.kind ∧ b.id = a.id) := by
    rintro b hb ⟨hkind, hid⟩
    have hlt : a.number < b.number := by
      have hinc := h.increasing
      rw [hsplit, List.pairwise_append] at hinc
      exact hinc.2.2 b hb a (List.mem_cons_self ..) hkind hid
    obtain ⟨t', ht', hle, -⟩ := h.bound b (by rw [hsplit]; exact List.mem_append_left _ hb)
    rw [hkind, hid, ht, Option.some.injEq] at ht'
    subst ht'
    omega
  rw [latest, hsplit, List.find?_append, List.find?_eq_none.mpr (by simpa using hnewer)]
  simp

/-! ### The steps keep the invariant -/

theorem init : Inv files nReduce (Protocol.init files nReduce) := by
  have hnew : ∀ kind id t, (makeCoordinator files nReduce).task kind id = some t →
      t.phase = .unassigned := by
    intro kind id t ht
    have hmem := List.mem_of_getElem? ht
    cases kind with
    | map =>
      obtain ⟨_, -, rfl⟩ := List.mem_map.mp hmem
      rfl
    | reduce =>
      rw [List.eq_of_mem_replicate hmem]
  exact {
    nMap := List.length_map _
    nReduce := List.length_replicate
    nodup := List.nodup_nil
    outstanding := fun a ha => absurd ha List.not_mem_nil
    increasing := List.Pairwise.nil
    bound := fun a ha => absurd ha List.not_mem_nil
    accepted := fun a ha => absurd ha List.not_mem_nil
    finished := fun kind id t ht hphase => by
      rw [hnew kind id t ht] at hphase
      cases hphase
    once := List.nodup_nil
    mapFinished := fun h => by cases h
    reduceLate := fun a ha => absurd ha List.not_mem_nil }

variable (h : Inv files nReduce p)

include h

/-- Earlier assignments of an unassigned task have lower numbers. -/
theorem lt_of_unassigned (ht : p.coordinator.task kind id = some t)
    (hphase : t.phase = .unassigned) :
    ∀ b ∈ p.assigned, kind = b.kind → id = b.id → b.number < t.taskNumber := by
  rintro b hb rfl rfl
  obtain ⟨t', ht', -, hun⟩ := h.bound b hb
  obtain rfl : t = t' := Option.some.inj (ht.symm.trans ht')
  exact hun hphase

/-- Handing out a task that is unassigned. -/
theorem assign (ht : p.coordinator.task kind id = some t) (hphase : t.phase = .unassigned)
    (hmap : kind = .reduce → p.coordinator.isMapFinished = true) :
    Inv files nReduce
      { p with
        coordinator := p.coordinator.modifyTask kind id Task.assign
        outstanding := ⟨kind, id, t.taskNumber⟩ :: p.outstanding
        checkers := (kind, id) :: p.checkers
        assigned := ⟨kind, id, t.taskNumber⟩ :: p.assigned } := by
  have hbelow := h.lt_of_unassigned ht hphase
  have hfresh : (⟨kind, id, t.taskNumber⟩ : Assignment) ∉ p.assigned := fun hmem =>
    absurd (hbelow _ hmem rfl rfl) (Nat.lt_irrefl _)
  have hnotFinished : ∀ {i}, p.coordinator.task kind id = some ⟨.finished, i⟩ → False := by
    intro i hfin
    obtain rfl := Option.some.inj (ht.symm.trans hfin)
    cases hphase
  have hall : p.coordinator.allFinished .map = true →
      (p.coordinator.modifyTask kind id Task.assign).allFinished .map = true :=
    Coordinator.allFinished_modifyTask fun t' ht' hfin => by
      obtain rfl : t = t' := Option.some.inj (ht.symm.trans ht')
      rw [hphase] at hfin
      cases hfin
  exact {
    nMap := by simpa using h.nMap
    nReduce := by simpa using h.nReduce
    nodup := List.nodup_cons.mpr ⟨fun hmem => hfresh (h.outstanding _ hmem).1, h.nodup⟩
    outstanding := by
      intro b hb
      rcases List.mem_cons.mp hb with rfl | hb
      · exact ⟨List.mem_cons_self .., fun hacc => hnotFinished (h.accepted _ hacc)⟩
      · obtain ⟨hassigned, hnot⟩ := h.outstanding b hb
        exact ⟨List.mem_cons_of_mem _ hassigned, hnot⟩
    increasing := List.pairwise_cons.mpr ⟨hbelow, h.increasing⟩
    bound := by
      intro b hb
      by_cases hsame : kind = b.kind ∧ id = b.id
      · obtain ⟨rfl, rfl⟩ := hsame
        refine ⟨_, Coordinator.task_modifyTask_of_eq ht, ?_, fun hun => by cases hun⟩
        rcases List.mem_cons.mp hb with heq | hb
        · exact Nat.le_of_eq (congrArg Assignment.number heq)
        · exact Nat.le_of_lt (hbelow b hb rfl rfl)
      · rcases List.mem_cons.mp hb with rfl | hb
        · exact absurd ⟨rfl, rfl⟩ hsame
        · rw [Coordinator.task_modifyTask_of_ne hsame]
          exact h.bound b hb
    accepted := by
      intro b hb
      have hfin := h.accepted b hb
      by_cases hsame : kind = b.kind ∧ id = b.id
      · obtain ⟨rfl, rfl⟩ := hsame
        exact (hnotFinished hfin).elim
      · rwa [Coordinator.task_modifyTask_of_ne hsame]
    finished := by
      intro kind' id' t' ht' hfin
      rcases Coordinator.task_modifyTask_cases ht' with ⟨-, t₀, -, rfl⟩ | ⟨-, ht'⟩
      · cases hfin
      · exact h.finished kind' id' t' ht' hfin
    once := h.once
    mapFinished := fun hflag => hall (h.mapFinished (by simpa using hflag))
    reduceLate := by
      intro b hb hkind
      rcases List.mem_cons.mp hb with rfl | hb
      · exact hall (h.mapFinished (hmap hkind))
      · exact hall (h.reduceLate b hb hkind) }

theorem ask : Inv files nReduce p.ask := by
  rcases p.coordinator.ask_cases with ⟨hc, hgiven⟩ | ⟨kind, id, t, ht, hphase, hmap, hask⟩
  · rwa [ask_eq_self hc hgiven]
  · rw [ask_of_given hask rfl]
    exact h.assign ht hphase hmap

/-- A report with the current number finishes its task. -/
theorem finish (ha : a ∈ p.outstanding) (ht : p.coordinator.task a.kind a.id = some t)
    (hnumber : t.taskNumber = a.number) :
    Inv files nReduce
      { p with
        coordinator := p.coordinator.finish a.kind a.id
        outstanding := p.outstanding.erase a
        accepted := a :: p.accepted } := by
  have hrunning := h.running ha ht hnumber
  have hold : ∀ b ∈ p.accepted, ¬ (a.kind = b.kind ∧ a.id = b.id) := by
    rintro b hb ⟨hkind, hid⟩
    have hfin := h.accepted b hb
    rw [← hkind, ← hid] at hfin
    obtain rfl := Option.some.inj (ht.symm.trans hfin)
    cases hrunning
  have hall : p.coordinator.allFinished .map = true →
      (p.coordinator.finish a.kind a.id).allFinished .map = true := fun hmap => by
    rw [Coordinator.allFinished_finish]
    exact Coordinator.allFinished_modifyTask (fun _ _ _ => rfl) hmap
  exact {
    nMap := by simpa [Coordinator.finish] using h.nMap
    nReduce := by simpa [Coordinator.finish] using h.nReduce
    nodup := h.nodup.erase a
    outstanding := by
      intro b hb
      obtain ⟨hne, hb⟩ := h.nodup.mem_erase_iff.mp hb
      obtain ⟨hassigned, hnot⟩ := h.outstanding b hb
      exact ⟨hassigned, List.not_mem_cons_of_ne_of_not_mem hne hnot⟩
    increasing := h.increasing
    bound := by
      intro b hb
      obtain ⟨t', ht', hle, hun⟩ := h.bound b hb
      rw [Coordinator.task_finish]
      by_cases hsame : a.kind = b.kind ∧ a.id = b.id
      · obtain ⟨hkind, hid⟩ := hsame
        rw [hkind, hid]
        exact ⟨_, Coordinator.task_modifyTask_of_eq ht', hle, fun hun => by cases hun⟩
      · rw [Coordinator.task_modifyTask_of_ne hsame]
        exact ⟨t', ht', hle, hun⟩
    accepted := by
      intro b hb
      rw [Coordinator.task_finish]
      rcases List.mem_cons.mp hb with rfl | hb
      · rw [Coordinator.task_modifyTask_of_eq ht, Task.finish, hnumber]
      · rw [Coordinator.task_modifyTask_of_ne (hold b hb)]
        exact h.accepted b hb
    finished := by
      intro kind id t' ht' hfin
      rw [Coordinator.task_finish] at ht'
      rcases Coordinator.task_modifyTask_cases ht' with ⟨⟨rfl, rfl⟩, t₀, ht₀, rfl⟩ | ⟨-, ht'⟩
      · obtain rfl : t = t₀ := Option.some.inj (ht.symm.trans ht₀)
        rw [Task.finish, hnumber]
        exact List.mem_cons_self ..
      · exact List.mem_cons_of_mem _ (h.finished kind id t' ht' hfin)
    once := by
      rw [List.map_cons, List.nodup_cons]
      refine ⟨fun hmem => ?_, h.once⟩
      obtain ⟨b, hb, heq⟩ := List.mem_map.mp hmem
      exact hold b hb ⟨(congrArg Prod.fst heq).symm, (congrArg Prod.snd heq).symm⟩
    mapFinished := by
      -- the flag is the scan's result after a map report, and untouched by a reduce report
      intro hflag
      cases hkind : a.kind with
      | map =>
        rw [hkind] at hflag
        rw [Coordinator.allFinished_finish]
        exact hflag
      | reduce =>
        rw [hkind] at hflag
        have hall := hall (h.mapFinished hflag)
        rwa [hkind] at hall
    reduceLate := fun b hb hkind => hall (h.reduceLate b hb hkind) }

theorem report (ha : a ∈ p.outstanding) :
    Inv files nReduce (p.report a) := by
  by_cases hacc : p.coordinator.Accepts a
  · rw [report_of_accepts hacc]
    obtain ⟨t, ht, hnumber⟩ := Coordinator.accepts_iff.mp hacc
    exact h.finish ha ht hnumber
  · rw [report_of_not_accepts hacc]
    exact { h with
      nodup := h.nodup.erase a
      outstanding := fun b hb => h.outstanding b (List.mem_of_mem_erase hb) }

theorem check (kind : Kind) (id : ℕ) :
    Inv files nReduce (p.check kind id) := by
  have hall : p.coordinator.allFinished .map = true →
      (p.coordinator.taskChecker kind id).allFinished .map = true :=
    Coordinator.allFinished_modifyTask fun t _ hfin => by rwa [Task.expire_of_finished hfin]
  exact {
    nMap := by simpa [Protocol.check, Coordinator.taskChecker] using h.nMap
    nReduce := by simpa [Protocol.check, Coordinator.taskChecker] using h.nReduce
    nodup := h.nodup
    outstanding := h.outstanding
    increasing := h.increasing
    bound := by
      intro a ha
      obtain ⟨t, ht, hle, hun⟩ := h.bound a ha
      by_cases hsame : kind = a.kind ∧ id = a.id
      · obtain ⟨rfl, rfl⟩ := hsame
        refine ⟨_, Coordinator.task_modifyTask_of_eq ht, ?_⟩
        by_cases hfin : t.phase = .finished
        · rw [Task.expire_of_finished hfin]
          exact ⟨hle, hun⟩
        · rw [Task.expire_of_ne hfin]
          exact ⟨Nat.le_succ_of_le hle, fun _ => Nat.lt_succ_of_le hle⟩
      · exact ⟨t, (Coordinator.task_modifyTask_of_ne hsame).trans ht, hle, hun⟩
    accepted := by
      intro a ha
      have hfin := h.accepted a ha
      by_cases hsame : kind = a.kind ∧ id = a.id
      · obtain ⟨rfl, rfl⟩ := hsame
        exact (Coordinator.task_modifyTask_of_eq hfin).trans
          (congrArg some (Task.expire_of_finished rfl))
      · exact (Coordinator.task_modifyTask_of_ne hsame).trans hfin
    finished := by
      intro kind' id' t' ht' hfin
      rcases Coordinator.task_modifyTask_cases ht' with ⟨-, t, ht, rfl⟩ | ⟨-, ht'⟩
      · by_cases hphase : t.phase = .finished
        · rw [Task.expire_of_finished hphase]
          exact h.finished kind' id' t ht hphase
        · rw [Task.expire_of_ne hphase] at hfin
          cases hfin
      · exact h.finished kind' id' t' ht' hfin
    once := h.once
    mapFinished := fun hflag =>
      hall (h.mapFinished (by simpa [Protocol.check, Coordinator.taskChecker] using hflag))
    reduceLate := fun a ha hkind => hall (h.reduceLate a ha hkind) }

/-- A checker makes no report current that was not. -/
theorem accepts_of_check (ha : a ∈ p.assigned)
    (hacc : (p.check kind id).coordinator.Accepts a) : p.coordinator.Accepts a := by
  obtain ⟨t, ht, hle, -⟩ := h.bound a ha
  obtain ⟨t', ht', hnumber⟩ := Coordinator.accepts_iff.mp hacc
  rcases Coordinator.task_modifyTask_cases ht' with ⟨-, t₀, ht₀, rfl⟩ | ⟨-, ht'⟩
  · obtain rfl : t = t₀ := Option.some.inj (ht.symm.trans ht₀)
    by_cases hfin : t.phase = .finished
    · rw [Task.expire_of_finished hfin] at hnumber
      exact Coordinator.accepts_iff.mpr ⟨t, ht, hnumber⟩
    · -- the number that was handed out is behind the task's now
      rw [Task.expire_of_ne hfin] at hnumber
      have hnumber : t.taskNumber + 1 = a.number := hnumber
      omega
  · exact Coordinator.accepts_iff.mpr ⟨t', ht', hnumber⟩

theorem step {p' : Protocol} {action : Action}
    (hstep : p.step action = some p') : Inv files nReduce p' := by
  cases action with
  | ask =>
    cases hstep
    exact h.ask
  | report a =>
    rw [Protocol.step, Option.ite_none_right_eq_some, Option.some.injEq] at hstep
    obtain ⟨ha, rfl⟩ := hstep
    exact h.report ha
  | check kind id =>
    rw [Protocol.step, Option.ite_none_right_eq_some, Option.some.injEq] at hstep
    obtain ⟨-, rfl⟩ := hstep
    exact h.check kind id

/-- A finished task stays as it is. -/
theorem finished_step {p' : Protocol} {action : Action} (hstep : p.step action = some p')
    (ht : p.coordinator.task kind id = some t)
    (hfin : t.phase = .finished) : p'.coordinator.task kind id = some t := by
  have hacc := h.finished kind id t ht hfin
  -- accepted reports are kept, and an accepted report fixes its task
  have hkept : ∀ a ∈ p.accepted, a ∈ p'.accepted := by
    intro a ha
    cases action with
    | ask =>
      cases hstep
      unfold Protocol.ask
      split <;> exact ha
    | report b =>
      rw [Protocol.step, Option.ite_none_right_eq_some, Option.some.injEq] at hstep
      obtain ⟨-, rfl⟩ := hstep
      unfold Protocol.report
      dsimp only
      split
      · exact List.mem_cons_of_mem _ ha
      · exact ha
    | check kind id =>
      rw [Protocol.step, Option.ite_none_right_eq_some, Option.some.injEq] at hstep
      obtain ⟨-, rfl⟩ := hstep
      exact ha
  rw [(h.step hstep).accepted _ (hkept _ hacc), ← hfin]

end Inv

variable {files : List String} {nReduce : ℕ} {p : Protocol}

/-- The invariant holds in every run. -/
theorem Reachable.inv (hr : Reachable files nReduce p) : Inv files nReduce p :=
  hr.invariant (fun _ _ _ h _ hstep => h.step hstep) Inv.init

theorem Inv.allFinished_iff_accepted (h : Inv files nReduce p) (kind : Kind) :
    p.coordinator.allFinished kind = true ↔
      ∀ id < (p.coordinator.tasks kind).length, ∃ number, ⟨kind, id, number⟩ ∈ p.accepted := by
  rw [Coordinator.allFinished_iff]
  constructor
  · intro hall id hid
    obtain ⟨t, ht⟩ := Coordinator.exists_task_iff.mpr hid
    exact ⟨_, h.finished kind id t ht (hall id t ht)⟩
  · intro hacc id t ht
    obtain ⟨number, hmem⟩ := hacc id (Coordinator.exists_task_iff.mp ⟨t, ht⟩)
    obtain rfl := Option.some.inj (ht.symm.trans (h.accepted _ hmem))
    rfl

/-- **The task protocol.**  In every reachable state: no two assignments of a task have the same
    number; a report changes the coordinator only if it is from the last assignment of a task
    that is running; a task is accepted once and a finished task is never touched again; reduce
    tasks are handed out when every map task was accepted; and the job is done exactly when every
    reduce task was accepted. -/
theorem task_protocol (hr : Reachable files nReduce p) :
    (p.assigned.Pairwise fun a b => a.kind = b.kind → a.id = b.id → a.number ≠ b.number) ∧
    (∀ a ∈ p.outstanding, p.coordinator.report a ≠ p.coordinator →
      p.latest a.kind a.id = some a ∧
      ∃ t, p.coordinator.task a.kind a.id = some t ∧ t.phase = .running) ∧
    ((p.accepted.map fun a => (a.kind, a.id)).Nodup ∧
      ∀ action p', p.step action = some p' → ∀ kind id t, p.coordinator.task kind id = some t →
        t.phase = .finished → p'.coordinator.task kind id = some t) ∧
    (∀ a ∈ p.assigned, a.kind = .reduce →
      ∀ m < files.length, ∃ number, ⟨.map, m, number⟩ ∈ p.accepted) ∧
    (p.coordinator.done = true ↔
      ∀ r < nReduce, ∃ number, ⟨.reduce, r, number⟩ ∈ p.accepted) := by
  have h := hr.inv
  refine ⟨h.increasing.imp fun hlt hkind hid => Nat.ne_of_gt (hlt hkind hid), ?_, ⟨h.once, ?_⟩,
    ?_, ?_⟩
  · intro a ha hchanges
    have hacc : p.coordinator.Accepts a := by
      by_contra hnot
      exact hchanges (if_neg hnot)
    obtain ⟨t, ht, hnumber⟩ := Coordinator.accepts_iff.mp hacc
    exact ⟨h.latest_eq (h.outstanding a ha).1 ht hnumber, t, ht, h.running ha ht hnumber⟩
  · exact fun action p' hstep kind id t ht hfin => h.finished_step hstep ht hfin
  · intro a ha hkind
    rw [← h.nMap]
    exact (h.allFinished_iff_accepted .map).mp (h.reduceLate a ha hkind)
  · rw [← h.nReduce]
    exact h.allFinished_iff_accepted .reduce

/-- The first attempt of map task 0 is late: it is taken back, a second one is accepted, and the
    job runs to its end while the first has still not reported. -/
theorem task_protocol_lateAttempt :
    ∃ p, Reachable ["pg-one", "pg-two"] 1 p ∧ ⟨.map, 0, 0⟩ ∈ p.outstanding ∧
      p.accepted = [⟨.reduce, 0, 0⟩, ⟨.map, 1, 0⟩, ⟨.map, 0, 1⟩] ∧
      (p.coordinator.done = true ↔ ∀ r < 1, ∃ number, ⟨.reduce, r, number⟩ ∈ p.accepted) := by
  obtain ⟨p, hr, hlate, hacc⟩ := exists_run_of_exec step (init ["pg-one", "pg-two"] 1)
    [.ask, .check .map 0, .ask, .ask, .report ⟨.map, 0, 1⟩, .report ⟨.map, 1, 0⟩, .ask,
      .report ⟨.reduce, 0, 0⟩]
    (fun p => ⟨.map, 0, 0⟩ ∈ p.outstanding ∧
      p.accepted = [⟨.reduce, 0, 0⟩, ⟨.map, 1, 0⟩, ⟨.map, 0, 1⟩]) (by decide +kernel)
  exact ⟨p, hr, hlate, hacc, (task_protocol hr).2.2.2.2⟩

end Protocol

end MitDistributed.MapReduce
