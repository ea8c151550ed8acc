import MitDistributed.MapReduce.World

namespace MitDistributed.MapReduce

open Transition Files

/-!
# Accepted output

When workers touch their files only while their number is the task's, what the coordinator accepts
is complete.

`plan` is what an attempt writes, file by file.  `WorkerOk` says how far the attempt has come on
the disk, as long as its number is current: there is then no other attempt of the task that could
be in its files.  `Inv` adds the reports on their way and the accepted files.
-/

namespace FileName

def IsTmp : FileName → Prop
  | .tmp _ _ | .outTmp _ => True
  | .inter _ _ | .out _ => False

/-- The name without `-tmp`. -/
def final : FileName → FileName
  | .tmp m i => .inter m i
  | .outTmp r => .out r
  | .inter m i => .inter m i
  | .out r => .out r

/-- The task that writes a file. -/
def owner : FileName → Kind × ℕ
  | .tmp m _ | .inter m _ => (.map, m)
  | .outTmp r | .out r => (.reduce, r)

@[simp] theorem owner_final (n : FileName) : n.final.owner = n.owner := by cases n <;> rfl

theorem not_isTmp_final (n : FileName) : ¬ n.final.IsTmp := by cases n <;> exact id

theorem final_injective {m n : FileName} (hm : m.IsTmp) (hn : n.IsTmp) (h : m.final = n.final) :
    m = n := by
  cases m <;> cases n <;> simp_all [final, IsTmp]

/-- Temporary and final names of different files are all different. -/
theorem nodup_moves {names : List FileName} (htmp : ∀ n ∈ names, n.IsTmp) (hnd : names.Nodup) :
    (names.flatMap fun n => [n, n.final]).Nodup := by
  have hapart : ∀ m n : FileName, m.IsTmp → m ≠ n.final := fun m n hm heq =>
    not_isTmp_final n (heq ▸ hm)
  rw [List.nodup_flatMap]
  refine ⟨fun n hn => by simpa using hapart n n (htmp n hn), ?_⟩
  refine hnd.pairwise_of_forall_ne fun m hm n hn hne => ?_
  have hm := htmp m hm
  have hn := htmp n hn
  simp only [Function.onFun, List.disjoint_cons_left, List.mem_cons, List.not_mem_nil, or_false,
    not_or, List.disjoint_nil_left, and_true]
  exact ⟨⟨hne, hapart m n hm⟩, (hapart n m hn).symm, fun heq => hne (final_injective hm hn heq)⟩

end FileName

variable {B : Type}

/-- What an attempt writes. -/
def plan (job : Job B) (sorter : Assignment → Sorter) (a : Assignment) :
    Option (List (Output B)) :=
  match a.kind with
  | .map => do
    let name ← (job.files)[a.id]?
    let mid ← job.mapTask name
    some (mapOutputs job.format a.id job.nReduce mid)
  | .reduce =>
    some [(.outTmp a.id,
      job.reduceLines (sorter a) (job.reduceResult fun m => job.mapFile m a.id))]

section Plan

variable {job : Job B} {sorter : Assignment → Sorter} {a : Assignment} {files : List (Output B)}

theorem plan_of_map (hkind : a.kind = .map) (h : plan job sorter a = some files) :
    ∃ name mid, (job.files)[a.id]? = some name ∧ job.mapTask name = some mid ∧
      files = mapOutputs job.format a.id job.nReduce mid := by
  unfold plan at h
  rw [hkind] at h
  simp only [Option.bind_eq_bind, Option.bind_eq_some_iff, Option.some.injEq] at h
  obtain ⟨name, hname, mid, hmid, rfl⟩ := h
  exact ⟨name, mid, hname, hmid, rfl⟩

theorem plan_of_reduce (hkind : a.kind = .reduce) :
    plan job sorter a = some [(.outTmp a.id,
      job.reduceLines (sorter a) (job.reduceResult fun m => job.mapFile m a.id))] := by
  unfold plan
  rw [hkind]

/-- The files of a plan are temporary ones of its task, all different, and the coordinator renames
    these. -/
structure Names (nReduce : ℕ) (a : Assignment) (files : List (Output B)) : Prop where
  renames_eq : renames nReduce a = files.map fun f => (f.1, f.1.final)
  isTmp : ∀ f ∈ files, f.1.IsTmp
  owner : ∀ f ∈ files, f.1.owner = (a.kind, a.id)
  nodup : (files.map Prod.fst).Nodup

theorem names_of_plan (h : plan job sorter a = some files) : Names job.nReduce a files := by
  cases hkind : a.kind with
  | map =>
    obtain ⟨name, mid, -, -, rfl⟩ := plan_of_map hkind h
    refine ⟨?_, fun f hf => ?_, fun f hf => ?_, ?_⟩
    · simp [renames, hkind, mapOutputs, FileName.final, Function.comp_def]
    · obtain ⟨i, -, rfl⟩ := List.mem_map.mp hf
      trivial
    · obtain ⟨i, -, rfl⟩ := List.mem_map.mp hf
      rw [hkind]
      rfl
    · rw [mapOutputs, List.map_map]
      exact List.nodup_range.map fun i j heq => by simpa using heq
  | reduce =>
    rw [plan_of_reduce hkind, Option.some.injEq] at h
    subst h
    refine ⟨by simp [renames, hkind, FileName.final], fun f hf => ?_, fun f hf => ?_,
      List.nodup_singleton _⟩
    · rw [List.mem_singleton.mp hf]
      trivial
    · rw [List.mem_singleton.mp hf, hkind]
      rfl

/-- A map task's plan has the file of every reduce task. -/
theorem exists_mem_of_plan (hkind : a.kind = .map) (h : plan job sorter a = some files) {i : ℕ}
    (hi : i < job.nReduce) :
    ∃ chunks, (.tmp a.id i, chunks) ∈ files ∧ job.mapFile a.id i = some chunks.flatten := by
  obtain ⟨name, mid, hname, hmid, rfl⟩ := plan_of_map hkind h
  obtain ⟨content, -, rfl⟩ := Option.map_eq_some_iff.mp hmid
  refine ⟨_, List.mem_map.mpr ⟨i, List.mem_range.mpr hi, rfl⟩, ?_⟩
  simp only [Job.mapFile, hname, hmid, Option.bind_eq_bind, Option.bind_some,
    middleResult_getElem? hi, Option.getD_some, List.flatMap_def]

end Plan

/-! ### How far an attempt has come -/

/-- The files are complete. -/
def Ready (d : Disk FileName B) (files : List (Output B)) : Prop :=
  ∀ f ∈ files, d.read f.1 = some f.2.flatten

theorem Ready.mono {d d' : Disk FileName B} {files : List (Output B)} (h : Ready d files)
    (hsame : ∀ f ∈ files, Disk.Same d d' f.1) : Ready d' files :=
  fun f hf => (hsame f hf).read.trans (h f hf)

/-- The file in work holds what has been written to it. -/
def PcOk (d : Disk FileName B) (file : Output B) : WritePc B → Prop
  | .remove => True
  | .create => d.entry file.1 = none
  | .write inode offset rest => ∃ written, file.2 = written ++ rest ∧
      d.entry file.1 = some inode ∧ d.data inode = written.flatten ∧
      offset = written.flatten.length

theorem PcOk.mono {d d' : Disk FileName B} {file : Output B} {pc : WritePc B} (h : PcOk d file pc)
    (hsame : Disk.Same d d' file.1) : PcOk d' file pc := by
  cases pc with
  | remove => trivial
  | create => exact hsame.1.trans h
  | write inode offset rest =>
    obtain ⟨written, hfile, hentry, hdata, hoffset⟩ := h
    exact ⟨written, hfile, hsame.1.trans hentry, (hsame.2 inode hentry).trans hdata, hoffset⟩

section Workers

variable (job : Job B) (sorter : Assignment → Sorter)

/-- A worker is where its task's plan says, with the disk to match while its number is current. -/
def WorkerOk (d : Disk FileName B) (current : Assignment → Prop) : Worker B → Prop
  | .idle | .exited => True
  | .mapping a name nReduce =>
    a.kind = .map ∧ (job.files)[a.id]? = some name ∧ nReduce = job.nReduce
  | .reading a nMap i got =>
    a.kind = .reduce ∧ a.id < job.nReduce ∧ nMap = job.nMap ∧ i ≤ nMap ∧
      got = (List.range i).flatMap fun m => (job.mapFile m a.id).elim [] job.format.decode
  | .writing a pc file todo =>
    ∃ done, plan job sorter a = some (done ++ file :: todo) ∧
      (current a → Ready d done ∧ PcOk d file pc)
  | .reporting a => ∃ files, plan job sorter a = some files ∧ (current a → Ready d files)

variable {job sorter} {d d' : Disk FileName B} {current current' : Assignment → Prop}
  {worker worker' : Worker B}

/-- A step of others keeps a worker as it is, unless it touches the files of a worker whose number
    is current. -/
theorem WorkerOk.mono (h : WorkerOk job sorter d current worker)
    (hmono : ∀ a, worker.attempt = some a → current' a →
      current a ∧ ∀ n : FileName, n.owner = (a.kind, a.id) → Disk.Same d d' n) :
    WorkerOk job sorter d' current' worker := by
  cases worker with
  | idle | exited => trivial
  | mapping a name nReduce => exact h
  | reading a nMap i got => exact h
  | writing a pc file todo =>
    obtain ⟨done, hplan, hok⟩ := h
    refine ⟨done, hplan, fun hcur' => ?_⟩
    obtain ⟨hcur, hsame⟩ := hmono a rfl hcur'
    obtain ⟨hready, hpc⟩ := hok hcur
    have howner := fun f hf => hsame f.1 ((names_of_plan hplan).owner f hf)
    exact ⟨hready.mono fun f hf => howner f (List.mem_append_left _ hf),
      hpc.mono (howner file (List.mem_append_right _ (List.mem_cons_self ..)))⟩
  | reporting a =>
    obtain ⟨files, hplan, hok⟩ := h
    refine ⟨files, hplan, fun hcur' => ?_⟩
    obtain ⟨hcur, hsame⟩ := hmono a rfl hcur'
    exact (hok hcur).mono fun f hf => hsame f.1 ((names_of_plan hplan).owner f hf)

/-- A worker that goes on with its plan. -/
theorem workerOk_write {a : Assignment} (done : List (Output B)) {todo : List (Output B)}
    (hplan : plan job sorter a = some (done ++ todo)) (hready : current a → Ready d done) :
    WorkerOk job sorter d current (.write a todo) := by
  cases todo with
  | nil => exact ⟨done, by rwa [List.append_nil] at hplan, hready⟩
  | cons file todo => exact ⟨done, hplan, fun hcur => ⟨hready hcur, trivial⟩⟩

variable (job sorter current) in
/-- What a worker's step does: it keeps the worker on its plan, and touches at most one file, a
    temporary one of its own task. -/
structure Advances (d d' : Disk FileName B) (worker worker' : Worker B) : Prop where
  ok : WorkerOk job sorter d' current worker'
  attempt : ∀ a ∈ worker'.attempt, a ∈ worker.attempt
  same : ∀ n : FileName, (∀ a ∈ worker.writer, n.IsTmp → n.owner ≠ (a.kind, a.id)) →
    Disk.Same d d' n

/-- The first file of a plan is next. -/
theorem advances_begin {a : Assignment} {files : List (Output B)}
    (hplan : plan job sorter a = some files) (hatt : worker.attempt = some a) :
    Advances job sorter current d d worker (.write a files) where
  ok := workerOk_write [] hplan fun _ _ hf => absurd hf List.not_mem_nil
  attempt b hb := by rwa [Worker.attempt_write, ← hatt] at hb
  same n _ := .refl d n

theorem advances_mapping {a : Assignment} {name : String} {nReduce : ℕ}
    (h : WorkerOk job sorter d current (.mapping a name nReduce))
    (hstep : World.workStep job sorter d (.mapping a name nReduce) = some (worker', d')) :
    Advances job sorter current d d' (.mapping a name nReduce) worker' := by
  obtain ⟨hkind, hname, rfl⟩ := h
  cases hcontent : job.contents name with
  | none =>
    simp only [World.workStep, hcontent, Option.some.injEq, Prod.mk.injEq] at hstep
    obtain ⟨rfl, rfl⟩ := hstep
    exact ⟨trivial, fun _ hb => (by cases hb), fun n _ => .refl d n⟩
  | some content =>
    simp only [World.workStep, hcontent, Option.some.injEq, Prod.mk.injEq] at hstep
    obtain ⟨rfl, rfl⟩ := hstep
    exact advances_begin (by simp [plan, hkind, hname, Job.mapTask, hcontent]) rfl

theorem advances_reading {a : Assignment} {nMap i : ℕ} {got : List KeyValue}
    (h : WorkerOk job sorter d current (.reading a nMap i got))
    (hmaps : ∀ m < job.nMap, d.read (.inter m a.id) = job.mapFile m a.id)
    (hstep : World.workStep job sorter d (.reading a nMap i got) = some (worker', d')) :
    Advances job sorter current d d' (.reading a nMap i got) worker' := by
  obtain ⟨hkind, hid, rfl, hle, hgot⟩ := h
  by_cases hi : i < job.nMap
  · simp only [World.workStep, if_pos hi, Option.some.injEq, Prod.mk.injEq] at hstep
    obtain ⟨rfl, rfl⟩ := hstep
    refine ⟨⟨hkind, hid, rfl, hi, ?_⟩, fun _ hb => hb, fun n _ => .refl d n⟩
    rw [hmaps i hi, hgot, List.range_succ, List.flatMap_append, List.flatMap_singleton]
  · simp only [World.workStep, if_neg hi, Option.some.injEq, Prod.mk.injEq] at hstep
    obtain ⟨rfl, rfl⟩ := hstep
    refine advances_begin ?_ rfl
    obtain rfl : i = job.nMap := by omega
    rw [plan_of_reduce hkind, hgot]
    rfl

/-- One call on the file in work; the number of the attempt is current. -/
theorem advances_writing {a : Assignment} {pc : WritePc B} {file : Output B}
    {todo : List (Output B)} (h : WorkerOk job sorter d current (.writing a pc file todo))
    (hcurrent : current a)
    (hstep : World.workStep job sorter d (.writing a pc file todo) = some (worker', d')) :
    Advances job sorter current d d' (.writing a pc file todo) worker' := by
  obtain ⟨done, hplan, hok⟩ := h
  obtain ⟨hready, hpc⟩ := hok hcurrent
  have hnames := names_of_plan hplan
  have hmem : file ∈ done ++ file :: todo := List.mem_append_right _ List.mem_cons_self
  -- the other files of the plan have other names
  have hdone : ∀ f ∈ done, f.1 ≠ file.1 := by
    have hnd := hnames.nodup
    rw [List.map_append, List.map_cons, List.nodup_append] at hnd
    exact fun f hf => hnd.2.2 f.1 (List.mem_map_of_mem hf) file.1 (List.mem_cons_self ..)
  have hother : ∀ n : FileName,
      (∀ b ∈ (Worker.writing a pc file todo).writer, n.IsTmp → n.owner ≠ (b.kind, b.id)) →
      n ≠ file.1 := by
    rintro n hn rfl
    exact hn a rfl (hnames.isTmp file hmem) (hnames.owner file hmem)
  cases pc with
  | remove =>
    cases hstep
    refine ⟨⟨done, hplan, fun _ => ⟨?_, Disk.entry_remove_self ..⟩⟩, fun _ hb => hb, fun n hn => ?_⟩
    · exact hready.mono fun f hf => Disk.same_remove d (hdone f hf)
    · exact Disk.same_remove d (hother n hn)
  | create =>
    cases hstep
    refine ⟨⟨done, hplan, fun _ => ⟨?_, [], rfl, Disk.entry_create_self .., ?_, rfl⟩⟩,
      fun _ hb => hb, fun n hn => ?_⟩
    · exact hready.mono fun f hf => Disk.same_create d (hdone f hf)
    · exact Disk.data_create_self ..
    · exact Disk.same_create d (hother n hn)
  | write inode offset rest =>
    obtain ⟨written, hfile, hentry, hdata, hoffset⟩ := hpc
    cases rest with
    | nil =>
      cases hstep
      refine ⟨workerOk_write (done ++ [file]) (by simpa using hplan) fun _ f hf => ?_,
        fun _ hb => by rwa [Worker.attempt_write] at hb, fun n _ => .refl d n⟩
      rcases List.mem_append.mp hf with hf | hf
      · exact hready f hf
      · -- the file that is closed is complete
        obtain rfl := List.mem_singleton.mp hf
        rw [Disk.read, hentry, Option.map_some, hdata, hfile, List.append_nil]
    | cons bytes rest =>
      cases hstep
      refine ⟨⟨done, hplan, fun _ => ⟨?_, written ++ [bytes], ?_, hentry, ?_, ?_⟩⟩,
        fun _ hb => hb, fun n hn => ?_⟩
      · exact hready.mono fun f hf => Disk.same_write d _ _ _ hentry (hdone f hf)
      · rw [hfile, List.append_assoc]
        rfl
      · -- nobody else has the file, so the offset is its end
        rw [Disk.data_write_self, hdata, hoffset, Disk.splice_length, List.flatten_append]
        simp
      · simp [hoffset]
      · exact Disk.same_write d _ _ _ hentry (hother n hn)

/-- **A worker's step**, if the intermediate files that it reads are complete and its number is
    current when it writes. -/
theorem WorkerOk.workStep (h : WorkerOk job sorter d current worker)
    (hcurrent : ∀ a ∈ worker.writer, current a)
    (hmaps : ∀ a nMap i got, worker = .reading a nMap i got → ∀ m < job.nMap,
      d.read (.inter m a.id) = job.mapFile m a.id)
    (hstep : World.workStep job sorter d worker = some (worker', d')) :
    Advances job sorter current d d' worker worker' := by
  cases worker with
  | idle | exited | reporting a => cases hstep
  | mapping a name nReduce => exact advances_mapping h hstep
  | reading a nMap i got => exact advances_reading h (hmaps a nMap i got rfl) hstep
  | writing a pc file todo => exact advances_writing h (hcurrent a rfl) hstep

end Workers

/-! ### The invariant -/

/-- The coordinator was made for the job. -/
def Configured (job : Job B) (c : Coordinator) : Prop :=
  c.fileNames = job.files ∧ c.nMap = job.nMap ∧ c.nReduce = job.nReduce

section Configured

variable {job : Job B} {c : Coordinator} (h : Configured job c)

include h

theorem Configured.modifyTask (kind : Kind) (id : ℕ) (f : Task → Task) :
    Configured job (c.modifyTask kind id f) := by
  cases kind <;> exact h

theorem Configured.finish (kind : Kind) (id : ℕ) : Configured job (c.finish kind id) := by
  cases kind <;> exact h

end Configured

namespace World

structure Inv (job : Job B) (sorter : Assignment → Sorter) (s : World B) : Prop where
  protocol : Protocol.Inv job.files job.nReduce s.protocol
  configured : Configured job s.protocol.coordinator
  workers : ∀ w, WorkerOk job sorter s.disk s.protocol.coordinator.Accepts (s.workers w)
  /-- What a worker is at was not reported. -/
  held : ∀ w, ∀ a ∈ (s.workers w).attempt, a ∈ s.protocol.outstanding ∧ a ∉ s.net
  /-- No two workers are at the same assignment. -/
  unique : ∀ v w a, a ∈ (s.workers v).attempt → a ∈ (s.workers w).attempt → v = w
  nodup : s.net.Nodup
  /-- A report on its way is like a worker that is about to send it. -/
  net : ∀ a ∈ s.net, a ∈ s.protocol.outstanding ∧
    WorkerOk job sorter s.disk s.protocol.coordinator.Accepts (.reporting a)
  accepted : ∀ a ∈ s.protocol.accepted, ∃ files, plan job sorter a = some files ∧
    ∀ f ∈ files, s.disk.read f.1.final = some f.2.flatten
  fatal : s.fatal = false

/-- Two current assignments of a task are the same. -/
theorem eq_of_accepts {c : Coordinator} {a b : Assignment} (ha : c.Accepts a) (hb : c.Accepts b)
    (hsame : (a.kind, a.id) = (b.kind, b.id)) : a = b := by
  obtain ⟨hkind, hid⟩ := Prod.mk.inj hsame
  unfold Coordinator.Accepts at ha hb
  rw [hkind, hid, hb, Option.some.injEq] at ha
  cases a
  cases b
  simp_all

namespace Inv

variable {job : Job B} {sorter : Assignment → Sorter} {s : World B}

theorem init : Inv job sorter (World.init job) where
  protocol := Protocol.Inv.init
  configured := ⟨rfl, rfl, rfl⟩
  workers _ := trivial
  held w a ha := by cases ha
  unique v w a ha := by cases ha
  nodup := List.nodup_nil
  net a ha := absurd ha List.not_mem_nil
  accepted a ha := absurd ha List.not_mem_nil
  fatal := rfl

variable {a : Assignment} {w : ℕ} {worker : Worker B} {d : Disk FileName B}

/-- The intermediate files are complete when there is a reduce task to read them. -/
theorem read_inter (h : Inv job sorter s) (ha : a ∈ s.protocol.outstanding)
    (hkind : a.kind = .reduce) (hid : a.id < job.nReduce) {m : ℕ} (hm : m < job.nMap) :
    s.disk.read (.inter m a.id) = job.mapFile m a.id := by
  have hall := h.protocol.reduceLate a (h.protocol.outstanding a ha).1 hkind
  rw [h.protocol.allFinished_iff_accepted, h.protocol.nMap] at hall
  obtain ⟨number, hacc⟩ := hall m hm
  obtain ⟨files, hplan, hread⟩ := h.accepted _ hacc
  obtain ⟨chunks, hmem, hfile⟩ := exists_mem_of_plan rfl hplan hid
  exact (hread _ hmem).trans hfile.symm

/-- The attempt is under way at a worker, or reported. -/
def Pending (s : World B) (a : Assignment) : Prop :=
  a ∈ s.net ∨ ∃ w, a ∈ (s.workers w).attempt

theorem mem_attempt_setWorker {v : ℕ} (ha : a ∈ ((s.setWorker w worker).workers v).attempt) :
    v = w ∧ a ∈ worker.attempt ∨ v ≠ w ∧ a ∈ (s.workers v).attempt := by
  simp only [World.setWorker, Function.update_apply] at ha
  split at ha
  · exact .inl ⟨‹_›, ha⟩
  · exact .inr ⟨‹_›, ha⟩

variable (h : Inv job sorter s)

include h

/-- Worker `w` moves on, and the disk with it: nobody else whose number is current has a file that
    changes. -/
theorem setWorker (hok : WorkerOk job sorter d s.protocol.coordinator.Accepts worker)
    (hatt : ∀ a ∈ worker.attempt, a ∈ s.protocol.outstanding ∧ a ∉ s.net ∧
      ∀ v ≠ w, a ∉ (s.workers v).attempt)
    (hothers : ∀ b, s.protocol.coordinator.Accepts b →
      (b ∈ s.net ∨ ∃ v ≠ w, b ∈ (s.workers v).attempt) →
      ∀ n : FileName, n.owner = (b.kind, b.id) → Disk.Same s.disk d n)
    (hfinal : ∀ n : FileName, ¬ n.IsTmp → Disk.Same s.disk d n) :
    Inv job sorter { s.setWorker w worker with disk := d } := by
  refine { h with workers := ?_, held := ?_, unique := fun v v' a ha ha' => ?_
                  net := fun b hb => ⟨(h.net b hb).1, (h.net b hb).2.mono ?_⟩
                  accepted := fun b hb => ?_ }
  · refine (Function.forall_update_iff s.workers fun _ => WorkerOk job sorter d _).mpr ⟨hok, ?_⟩
    exact fun v hv => (h.workers v).mono fun b hb hcur => ⟨hcur, hothers b hcur (.inr ⟨v, hv, hb⟩)⟩
  · refine (Function.forall_update_iff s.workers fun _ (x : Worker B) => ∀ a ∈ x.attempt,
      a ∈ s.protocol.outstanding ∧ a ∉ s.net).mpr ⟨fun a ha => ?_, fun v _ => h.held v⟩
    exact ⟨(hatt a ha).1, (hatt a ha).2.1⟩
  · rcases mem_attempt_setWorker ha with ⟨hv, ha⟩ | ⟨hv, ha⟩ <;>
      rcases mem_attempt_setWorker ha' with ⟨hv', ha'⟩ | ⟨hv', ha'⟩
    · exact hv.trans hv'.symm
    · exact absurd ha' ((hatt a ha).2.2 v' hv')
    · exact absurd ha ((hatt a ha').2.2 v hv)
    · exact h.unique v v' a ha ha'
  · intro c hc hcur
    cases hc
    exact ⟨hcur, hothers b hcur (.inl hb)⟩
  · obtain ⟨files, hplan, hread⟩ := h.accepted b hb
    refine ⟨files, hplan, fun f hf => ?_⟩
    exact (hfinal _ (FileName.not_isTmp_final f.1)).read.trans (hread f hf)

/-- A worker's own step. -/
theorem work (hcurrent : ∀ a ∈ (s.workers w).writer, s.protocol.coordinator.Accepts a)
    (hstep : workStep job sorter s.disk (s.workers w) = some (worker, d)) :
    Inv job sorter { s.setWorker w worker with disk := d } := by
  have hwriter : ∀ a ∈ (s.workers w).writer, a ∈ (s.workers w).attempt := by
    intro a ha
    cases hw : s.workers w <;> rw [hw] at ha <;> first | exact ha | cases ha
  obtain ⟨hok, hatt, hsame⟩ := (h.workers w).workStep hcurrent
    (fun a nMap i got hw m hm => by
      have hok := h.workers w
      rw [hw] at hok
      exact h.read_inter (h.held w a (by rw [hw]; rfl)).1 hok.1 hok.2.1 hm) hstep
  refine h.setWorker hok (fun a ha => ?_) (fun b hcur hb n hn => ?_) fun n hn => ?_
  · obtain ⟨hout, hnet⟩ := h.held w a (hatt a ha)
    exact ⟨hout, hnet, fun v hv hmem => hv (h.unique v w a hmem (hatt a ha))⟩
  · -- nobody else whose number is current has files of the task
    refine hsame n fun a ha _ howner => ?_
    obtain rfl := eq_of_accepts hcur (hcurrent a ha) (hn.symm.trans howner)
    rcases hb with hnet | ⟨v, hv, hmem⟩
    · exact (h.held w b (hwriter b ha)).2 hnet
    · exact hv (h.unique v w b hmem (hwriter b ha))
  · exact hsame n fun a _ htmp => absurd htmp hn

/-- A worker that is at nothing any more. -/
theorem drop (w : ℕ) (hok : WorkerOk job sorter s.disk s.protocol.coordinator.Accepts worker)
    (hatt : worker.attempt = none) : Inv job sorter (s.setWorker w worker) := by
  refine h.setWorker hok (fun a ha => ?_) (fun _ _ _ n _ => .refl _ n) fun n _ => .refl _ n
  rw [hatt] at ha
  cases ha

/-- The protocol moves on, and the disk with it: what is under way stays so, and where its number is
    current afterwards its files are untouched. -/
theorem setProtocol {p : Protocol} (hp : Protocol.Inv job.files job.nReduce p)
    (hconf : Configured job p.coordinator)
    (hpending : ∀ b ∈ s.protocol.outstanding, Pending s b → b ∈ p.outstanding ∧
      (p.coordinator.Accepts b → s.protocol.coordinator.Accepts b ∧
        ∀ n : FileName, n.owner = (b.kind, b.id) → Disk.Same s.disk d n))
    (hacc : ∀ b ∈ p.accepted, ∃ files, plan job sorter b = some files ∧
      ∀ f ∈ files, d.read f.1.final = some f.2.flatten) :
    Inv job sorter { s with protocol := p, disk := d } := by
  have hheld (w : ℕ) (b : Assignment) (hb : b ∈ (s.workers w).attempt) :=
    hpending b (h.held w b hb).1 (.inr ⟨w, hb⟩)
  have hnet (b : Assignment) (hb : b ∈ s.net) := hpending b (h.net b hb).1 (.inl hb)
  refine { h with protocol := hp, configured := hconf, workers := fun w => ?_
                  held := fun w b hb => ?_
                  net := fun b hb => ⟨(hnet b hb).1, (h.net b hb).2.mono fun c hc hcur => ?_⟩
                  accepted := hacc }
  · exact (h.workers w).mono fun b hb => (hheld w b hb).2
  · exact ⟨(hheld w b hb).1, (h.held w b hb).2⟩
  · cases hc
    exact (hnet b hb).2 hcur

/-- A worker starts at the beginning of its task. -/
theorem take_ok {kind : Kind} {id : ℕ} {t : Task}
    (ht : s.protocol.coordinator.task kind id = some t) :
    ∃ worker : Worker B, Worker.take
        { isFinished := false, isMap := kind = .map, given := some ⟨kind, id, t.taskNumber⟩
          mapFileName := s.protocol.coordinator.mapFileName (some ⟨kind, id, t.taskNumber⟩)
          nMap := s.protocol.coordinator.nMap
          nReduce := s.protocol.coordinator.nReduce } = worker ∧
      worker.attempt = some ⟨kind, id, t.taskNumber⟩ ∧
      ∀ current, WorkerOk job sorter s.disk current worker := by
  obtain ⟨hnames, hnMap, hnReduce⟩ := h.configured
  have hid := Coordinator.exists_task_iff.mp ⟨t, ht⟩
  cases kind with
  | map =>
    refine ⟨_, rfl, rfl, fun _ => ⟨rfl, ?_, hnReduce⟩⟩
    rw [h.protocol.nMap] at hid
    rw [Coordinator.mapFileName, hnames, List.getElem?_eq_getElem hid, Option.getD_some]
  | reduce =>
    refine ⟨_, rfl, rfl, fun _ => ⟨rfl, ?_, hnMap, Nat.zero_le _, rfl⟩⟩
    rwa [h.protocol.nReduce] at hid

theorem ask (w : ℕ) : Inv job sorter (s.ask w) := by
  rcases s.protocol.coordinator.ask_cases with ⟨hc, hgiven⟩ | ⟨kind, id, t, ht, hphase, -, hask⟩
  · have htake : Worker.take s.protocol.coordinator.ask.2 = (.idle : Worker B) ∨
        Worker.take s.protocol.coordinator.ask.2 = (.exited : Worker B) := by
      unfold Worker.take
      rw [hgiven]
      split
      · exact .inr rfl
      · exact .inl rfl
    unfold World.ask
    rw [Protocol.ask_eq_self hc hgiven]
    rcases htake with htake | htake <;> rw [htake] <;> exact h.drop w trivial rfl
  · -- the assignment is a new one
    have hnew : (⟨kind, id, t.taskNumber⟩ : Assignment) ∉ s.protocol.outstanding := fun hmem =>
      absurd (h.protocol.lt_of_unassigned ht hphase _ (h.protocol.outstanding _ hmem).1 rfl rfl)
        (Nat.lt_irrefl _)
    have hp := h.protocol.ask
    obtain ⟨worker, htake, hatt, hok⟩ := h.take_ok ht
    rw [World.ask, hask, htake]
    rw [Protocol.ask_of_given hask rfl] at hp ⊢
    have hs := h.setProtocol (d := s.disk) hp (h.configured.modifyTask kind id _) (fun b hb _ => ?_)
      h.accepted
    · refine hs.setWorker (hok _) (fun a ha => ?_) (fun _ _ _ n _ => .refl _ n) fun n _ => .refl _ n
      cases hatt.symm.trans ha
      exact ⟨List.mem_cons_self, fun hnet => hnew (h.net _ hnet).1,
        fun v _ hv => hnew (h.held v _ hv).1⟩
    · refine ⟨List.mem_cons_of_mem _ hb, fun hcur => ⟨?_, fun n _ => .refl _ n⟩⟩
      exact (Coordinator.accepts_modifyTask (f := Task.assign) fun _ => rfl).mp hcur

theorem send (hw : s.workers w = .reporting a) :
    Inv job sorter { s.setWorker w .idle with net := a :: s.net } := by
  have hidle := h.drop w (show WorkerOk job sorter s.disk _ .idle from trivial) rfl
  have hmine : a ∈ (s.workers w).attempt := by
    rw [hw]
    rfl
  obtain ⟨hout, hnet⟩ := h.held w a hmine
  refine { hidle with held := fun v b hb => ?_, nodup := List.nodup_cons.mpr ⟨hnet, h.nodup⟩
                      net := fun b hb => ?_ }
  · obtain ⟨hbout, hbnet⟩ := hidle.held v b hb
    refine ⟨hbout, List.not_mem_cons_of_ne_of_not_mem ?_ hbnet⟩
    rintro rfl
    -- the worker that sent it is at nothing now
    rcases mem_attempt_setWorker hb with ⟨-, hb⟩ | ⟨hv, hb⟩
    · cases hb
    · exact hv (h.unique v w b hb hmine)
  · rcases List.mem_cons.mp hb with rfl | hb
    · exact ⟨hout, hw ▸ h.workers w⟩
    · exact h.net b hb

/-- A report leaves the network, and is then nobody's attempt. -/
theorem erase (ha : a ∈ s.net) :
    Inv job sorter { s with net := s.net.erase a } ∧
      ¬ Pending { s with net := s.net.erase a } a := by
  refine ⟨{ h with held := fun w b hb => ⟨(h.held w b hb).1, fun hmem => ?_⟩
                   nodup := h.nodup.erase a
                   net := fun b hb => h.net b (List.mem_of_mem_erase hb) }, ?_⟩
  · exact (h.held w b hb).2 (List.mem_of_mem_erase hmem)
  · rintro (hnet | ⟨w, hw⟩)
    · exact (h.nodup.mem_erase_iff.mp hnet).1 rfl
    · exact (h.held w a hw).2 ha

/-- A report that comes too late. -/
theorem deliver_late (ha : a ∈ s.net) (hacc : ¬ s.protocol.coordinator.Accepts a) :
    Inv job sorter { s with protocol := s.protocol.report a, net := s.net.erase a } := by
  have hp := h.protocol.report (h.net a ha).1
  obtain ⟨hs, hgone⟩ := h.erase ha
  rw [Protocol.report_of_not_accepts hacc] at hp ⊢
  refine hs.setProtocol (d := s.disk) hp h.configured (fun b hb hpending => ⟨?_, fun hcur => ?_⟩)
    h.accepted
  · have hne : b ≠ a := fun heq => hgone (heq ▸ hpending)
    exact (List.mem_erase_of_ne hne).mpr hb
  · exact ⟨hcur, fun n _ => .refl _ n⟩

/-- The renames of a report that is accepted: the files are moved, and no other task's. -/
theorem renameAll (ha : a ∈ s.net) (hacc : s.protocol.coordinator.Accepts a) :
    ∃ d files, s.disk.renameAll (renames s.protocol.coordinator.nReduce a) = (d, true) ∧
      plan job sorter a = some files ∧ (∀ f ∈ files, d.read f.1.final = some f.2.flatten) ∧
      ∀ n : FileName, n.owner ≠ (a.kind, a.id) → Disk.Same s.disk d n := by
  obtain ⟨-, files, hplan, hready⟩ := h.net a ha
  have hready := hready hacc
  have hnames := names_of_plan hplan
  have hthere : ∀ p ∈ files.map (fun f => (f.1, f.1.final)), ∃ i, s.disk.entry p.1 = some i := by
    intro p hp
    obtain ⟨f, hf, rfl⟩ := List.mem_map.mp hp
    obtain ⟨i, hi, -⟩ := Option.map_eq_some_iff.mp (hready f hf)
    exact ⟨i, hi⟩
  have hmoves : ((files.map fun f => (f.1, f.1.final)).flatMap fun p => [p.1, p.2]).Nodup := by
    have hnd := FileName.nodup_moves (fun n hn => by
      obtain ⟨f, hf, rfl⟩ := List.mem_map.mp hn
      exact hnames.isTmp f hf) hnames.nodup
    rw [List.flatMap_map] at hnd ⊢
    exact hnd
  obtain ⟨d, hd, hmoved, hsame⟩ := Disk.renameAll_of_entry hthere hmoves
  refine ⟨d, files, ?_, hplan, fun f hf => ?_, fun n hn => hsame n fun p hp => ?_⟩
  · rw [h.configured.2.2, hnames.renames_eq]
    exact hd
  · exact (hmoved (f.1, f.1.final) (List.mem_map_of_mem hf)).trans (hready f hf)
  · obtain ⟨f, hf, rfl⟩ := List.mem_map.mp hp
    have howner := hnames.owner f hf
    exact ⟨fun heq => hn (heq ▸ howner), fun heq => hn (by rw [heq, FileName.owner_final, howner])⟩

/-- A report that is accepted. -/
theorem deliver_accepted (ha : a ∈ s.net) (hacc : s.protocol.coordinator.Accepts a)
    {files : List (Output B)} (hplan : plan job sorter a = some files)
    (hread : ∀ f ∈ files, d.read f.1.final = some f.2.flatten)
    (hsame : ∀ n : FileName, n.owner ≠ (a.kind, a.id) → Disk.Same s.disk d n) :
    Inv job sorter
      { s with protocol := s.protocol.report a, disk := d, net := s.net.erase a } := by
  have hp := h.protocol.report (h.net a ha).1
  obtain ⟨hs, hgone⟩ := h.erase ha
  rw [Protocol.report_of_accepts hacc] at hp ⊢
  refine hs.setProtocol hp (h.configured.finish a.kind a.id) (fun b hb hpending => ?_)
    fun b hb => ?_
  · have hne : b ≠ a := fun heq => hgone (heq ▸ hpending)
    refine ⟨(List.mem_erase_of_ne hne).mpr hb, fun hcur => ?_⟩
    have hcur := Coordinator.accepts_finish.mp hcur
    -- a current assignment other than `a` is of another task
    refine ⟨hcur, fun n hn => hsame n fun howner => hne ?_⟩
    exact eq_of_accepts hcur hacc (hn.symm.trans howner)
  · rcases List.mem_cons.mp hb with rfl | hb
    · exact ⟨files, hplan, hread⟩
    · obtain ⟨files', hplan', hread'⟩ := h.accepted b hb
      refine ⟨files', hplan', fun f hf => ?_⟩
      -- no task is accepted twice
      have honce := hp.once
      rw [List.map_cons, List.nodup_cons] at honce
      have howner : f.1.final.owner ≠ (a.kind, a.id) := by
        rw [FileName.owner_final, (names_of_plan hplan').owner f hf]
        exact fun heq => honce.1 (List.mem_map.mpr ⟨b, hb, heq⟩)
      exact (hsame _ howner).read.trans (hread' f hf)

theorem deliver (ha : a ∈ s.net) : Inv job sorter (s.deliver a) := by
  unfold World.deliver
  by_cases hacc : s.protocol.coordinator.Accepts a
  · obtain ⟨d, files, hd, hplan, hread, hsame⟩ := h.renameAll ha hacc
    rw [if_pos hacc, hd]
    exact h.deliver_accepted ha hacc hplan hread hsame
  · rw [if_neg hacc]
    exact h.deliver_late ha hacc

theorem check (kind : Kind) (id : ℕ) :
    Inv job sorter { s with protocol := s.protocol.check kind id } := by
  refine h.setProtocol (d := s.disk) (h.protocol.check kind id) (h.configured.modifyTask kind id _)
    (fun b hb _ => ⟨hb, fun hcur => ⟨?_, fun n _ => .refl _ n⟩⟩) h.accepted
  exact h.protocol.accepts_of_check (h.protocol.outstanding b hb).1 hcur

theorem step {s' : World B} {action : Action} (hok : s.WritesCurrent action)
    (hstep : World.step job sorter s action = some s') :
    Inv job sorter s' := by
  cases action with
  | ask w =>
    simp only [World.step] at hstep
    split at hstep
    · rw [Option.ite_none_left_eq_some, Option.some.injEq] at hstep
      obtain ⟨-, rfl⟩ := hstep
      exact h.ask w
    · cases hstep
  | work w =>
    obtain ⟨⟨worker, d⟩, hwork, rfl⟩ := Option.map_eq_some_iff.mp hstep
    exact h.work hok hwork
  | send w =>
    simp only [World.step] at hstep
    split at hstep <;> cases hstep
    rename_i a hw
    exact h.send hw
  | deliver a =>
    rw [World.step, Option.ite_none_right_eq_some, Option.some.injEq] at hstep
    obtain ⟨⟨-, ha⟩, rfl⟩ := hstep
    exact h.deliver ha
  | check kind id =>
    simp only [World.step, Protocol.step, Option.ite_none_left_eq_some, Option.map_eq_some_iff,
      Option.ite_none_right_eq_some, Option.some.injEq] at hstep
    obtain ⟨-, p, ⟨-, rfl⟩, rfl⟩ := hstep
    exact h.check kind id
  | crash w =>
    cases hstep
    exact h.drop w trivial rfl

end Inv

/-- **Accepted output is complete.**  In every run in which workers touch their files only while
    their number is the task's: no rename fails, and in every state reached the files of an
    accepted map task are what its input sends to each reduce task, and the file of an accepted
    reduce task has the lines for all records of its keys. -/
theorem accepted_complete (job : Job B) (sorter : Assignment → Sorter) {s : World B}
    (hr : Run (step job sorter) WritesCurrent (init job) s) :
    s.fatal = false ∧
    (∀ m number, ⟨.map, m, number⟩ ∈ s.protocol.accepted → ∀ i < job.nReduce,
      (job.mapFile m i).isSome ∧ s.disk.read (.inter m i) = job.mapFile m i) ∧
    ∀ r number, ⟨.reduce, r, number⟩ ∈ s.protocol.accepted →
      s.disk.read (.out r) = some (job.reduceLines (sorter ⟨.reduce, r, number⟩)
        (job.reduceResult fun m => job.mapFile m r)).flatten := by
  have h : Inv job sorter s :=
    hr.invariant (fun _ _ _ h hok hstep => h.step hok hstep) Inv.init
  refine ⟨h.fatal, fun m number hacc i hi => ?_, fun r number hacc => ?_⟩
  · obtain ⟨files, hplan, hread⟩ := h.accepted _ hacc
    obtain ⟨chunks, hmem, hfile⟩ := exists_mem_of_plan rfl hplan hi
    exact ⟨by rw [hfile]; rfl, (hread _ hmem).trans hfile.symm⟩
  · obtain ⟨files, hplan, hread⟩ := h.accepted _ hacc
    rw [plan_of_reduce rfl, Option.some.injEq] at hplan
    exact hread _ (hplan ▸ List.mem_singleton.mpr rfl)

/-- The late attempt does not touch its file: the attempt that replaced it is accepted, and the
    reduce task after it. -/
theorem accepted_complete_oneFile :
    ∃ s, Run (step oneFile fun _ => byKey) WritesCurrent (init oneFile) s ∧
      s.protocol.accepted = [⟨.reduce, 0, 0⟩, ⟨.map, 0, 1⟩] ∧
      s.disk.read (.inter 0 0) = oneFile.mapFile 0 0 ∧
      s.disk.read (.out 0) = some (oneFile.reduceLines byKey
        (oneFile.reduceResult fun m => oneFile.mapFile m 0)).flatten := by
  obtain ⟨s, hr, hacc⟩ := exists_run_of_execOk (step oneFile fun _ => byKey) WritesCurrent
    (init oneFile)
    (stalledAttempt ++ ([.deliver ⟨.map, 0, 1⟩, .ask 1, .work 1, .work 1, .work 1, .work 1,
      .work 1, .work 1, .send 1, .deliver ⟨.reduce, 0, 0⟩] : List Action))
    (fun s => s.protocol.accepted = [⟨.reduce, 0, 0⟩, ⟨.map, 0, 1⟩]) (by decide +kernel)
  obtain ⟨-, hmap, hreduce⟩ := accepted_complete oneFile (fun _ => byKey) hr
  rw [hacc] at hmap hreduce
  exact ⟨s, hr, hacc, (hmap 0 1 (by decide) 0 (by decide)).2, hreduce 0 0 (by decide)⟩

end World

end MitDistributed.MapReduce
