import MitDistributed.KVRaft.Server
import MitDistributed.Raft.StaleReads

namespace MitDistributed.KVRaft

open Function Rsm Transition

/-!
# Key/value store — the handlers on top of Raft

Every `KVServer` with its own Raft peer.  A handler of `Get` or `PutAppend` calls `Start`, enters
a channel in `waitChs` under the index that it got, and waits there for the response or for the
timeout; `applyLoop` takes the messages from `applyCh` and passes the responses on.  A handler
that finds its index taken ends the process.

Indices are those of the log of the peer, so that `Start` returns an index again once a newer
leader has cut the log below it.

* `Service.step` — a step of Raft, of a handler or of `applyLoop`;
* `waitCh_is_free` — as long as no log is cut below an index that a handler still has, no handler
  finds its index taken;
* `waitCh_is_taken` — a peer that loses and regains the leadership while a handler waits.
-/

/-! ### A server -/

/-- What `serialize` encodes. -/
structure Snapshot where
  latestAppliedRaftIndex : ℕ
  state : State

/-- Where `applyLoop` stands: waiting for a message, with an entry just applied, or about to pass
    the response on. -/
inductive LoopPc
  | receive
  | applied (index : ℕ) (response : WaitChResponse)
  | respond (index : ℕ) (response : WaitChResponse)

/-- Why a process ends: "try to get a existing waitCh", or a message without an `Op`. -/
inductive Exit
  | existingWaitCh
  | noOp
  deriving DecidableEq

/-- A server.  The channels in `waitChs` are those of the handlers that have registered. -/
structure KVServer where
  state : State
  latestAppliedRaftIndex : ℕ
  loop : LoopPc
  handlers : List (Handler Op WaitChResponse)
  exited : Option Exit

/-- The steps of a handler after `Start` has returned. -/
inductive HandlerAct
  | register
  | receive
  | timeout
  | finish

namespace KVServer

def serialize (kv : KVServer) : Snapshot :=
  { latestAppliedRaftIndex := kv.latestAppliedRaftIndex, state := kv.state }

def deserialize (kv : KVServer) : Option Snapshot → KVServer
  | none => kv
  | some snapshot =>
    { kv with
      state := snapshot.state
      latestAppliedRaftIndex := snapshot.latestAppliedRaftIndex }

/-- `StartKVServer` -/
def start (snapshot : Option Snapshot) : KVServer :=
  deserialize
    { state := .initial, latestAppliedRaftIndex := 0, loop := .receive, handlers := []
      exited := none } snapshot

/-- `applyLoop` gets a message. -/
def receive (kv : KVServer) : Raft.ApplyMsg Op Snapshot → KVServer
  | .command command index =>
    if index ≤ kv.latestAppliedRaftIndex then kv
    else
      match command with
      | some op =>
        let applied := kv.state.applyOp op
        { kv with
          state := applied.1
          latestAppliedRaftIndex := index
          loop := .applied index applied.2 }
      | none => { kv with exited := some .noOp }
  | .snapshot snapshot _ index =>
    if index > kv.latestAppliedRaftIndex then kv.deserialize snapshot else kv

/-- A message, if there is one, reaches `applyLoop` when that waits for it. -/
def accept (kv : KVServer) : Option (Raft.ApplyMsg Op Snapshot) → Option KVServer
  | none => some kv
  | some msg =>
    match kv.loop with
    | .receive => some (kv.receive msg)
    | _ => none

/-- `applyLoop` passes the response to the channel under the index, if there is one. -/
def respond (kv : KVServer) (index : ℕ) (response : WaitChResponse) : KVServer :=
  { kv with loop := .receive, handlers := kv.handlers.map (Handler.offer index response) }

/-- `Start` has returned the index to a handler, or the peer is not the leader. -/
def called (kv : KVServer) (op : Op) : Option ℕ → KVServer
  | some index => { kv with handlers := kv.handlers ++ [⟨op, index, .started⟩] }
  | none => kv

/-- Whether `waitChs` has a channel under the index. -/
def occupied (kv : KVServer) (index : ℕ) : Bool :=
  kv.handlers.any fun h => h.pos == index && h.stage.registered

/-- Move the `i`-th handler on. -/
def setStage (kv : KVServer) (i : ℕ) (h : Handler Op WaitChResponse)
    (stage : Stage WaitChResponse) : KVServer :=
  { kv with handlers := kv.handlers.set i { h with stage := stage } }

/-- A step of the `i`-th handler. -/
def advance (kv : KVServer) (i : ℕ) (act : HandlerAct) : Option KVServer :=
  match kv.handlers[i]? with
  | some h =>
    match act, h.stage with
    | .register, .started =>
      if kv.occupied h.pos then some { kv with exited := some .existingWaitCh }
      else some (kv.setStage i h (.waiting none))
    | .receive, .waiting (some response) => some (kv.setStage i h (.leaving (some response)))
    | .timeout, .waiting _ => some (kv.setStage i h (.leaving none))
    | .finish, .leaving _ => some { kv with handlers := kv.handlers.eraseIdx i }
    | _, _ => none
  | none => none

end KVServer

/-! ### The service -/

/-- The message that a step of Raft puts on `applyCh`. -/
def message? {n : ℕ} (eff : Raft.Effect n Op Snapshot) : Option (Raft.ApplyMsg Op Snapshot) :=
  eff.events.findSome? fun
    | .applied _ msg => some msg
    | _ => none

/-- The index that `Start` returns at a leader. -/
def startedAt? {n : ℕ} (eff : Raft.Effect n Op Snapshot) : Option ℕ :=
  eff.events.findSome? fun
    | .started _ index _ _ _ _ => some index
    | _ => none

/-- The Raft peers and the servers on top of them. -/
structure Service (n : ℕ) where
  raft : Raft.World n Op Snapshot
  servers : Fin n → KVServer

inductive ServiceAction (n : ℕ)
  /-- a step of Raft that the server does not ask for -/
  | raft (a : Raft.Action n Op Snapshot)
  /-- a handler calls `Start` -/
  | call (p : Fin n) (op : Op)
  /-- a step of the `i`-th handler -/
  | handler (p : Fin n) (i : ℕ) (act : HandlerAct)
  /-- `applyLoop` calls `Snapshot` if it is due -/
  | snapshot (p : Fin n) (due : Bool)
  /-- `applyLoop` passes a response on -/
  | respond (p : Fin n)

namespace Service

variable {n : ℕ}

/-- The service after every server has started for the first time; `room` is as in
    `Raft.World.init`. -/
def init (room : Fin n → ℕ → ℕ) : Service n :=
  { raft := .init room, servers := fun _ => .start none }

/-- Whether the process of a server runs. -/
def live (w : Service n) (p : Fin n) : Bool :=
  !(w.raft.nodes p).exited && (w.servers p).exited.isNone

/-- Peer `p` takes a step of Raft, and its server is `kv` afterwards. -/
def after (w : Service n) (a : Raft.Action n Op Snapshot) (p : Fin n)
    (eff : Raft.Effect n Op Snapshot) (kv : KVServer) : Service n :=
  { raft := w.raft.after a p eff, servers := update w.servers p kv }

def setServer (w : Service n) (p : Fin n) (kv : KVServer) : Service n :=
  { w with servers := update w.servers p kv }

/-- Whether `Snapshot` has not returned yet. -/
def saving (w : Service n) (p : Fin n) : Bool :=
  match (w.raft.nodes p).held with
  | some (.snapshotSave _) => true
  | _ => false

def step (w : Service n) : ServiceAction n → Option (Service n)
  | .raft (.start _ _) => none
  | .raft (.snapshot _ _ _) => none
  | .raft (.restart p) =>
    let eff := (w.raft.nodes p).restart p
    some (w.after (.restart p) p eff (.start eff.node.persister.snapshot))
  | .raft a =>
    (w.raft.effect a).bind fun x =>
      if w.live x.1 then
        ((w.servers x.1).accept (message? x.2)).map fun kv => w.after a x.1 x.2 kv
      else none
  | .call p op =>
    if w.live p then
      (w.raft.effect (.start p (some op))).map fun x =>
        w.after (.start p (some op)) p x.2 ((w.servers p).called op (startedAt? x.2))
    else none
  | .handler p i act =>
    if w.live p then ((w.servers p).advance i act).map (w.setServer p) else none
  | .snapshot p due =>
    match (w.servers p).loop with
    | .applied index response =>
      let kv := { w.servers p with loop := .respond index response }
      if w.live p then
        if due then
          let snapshot := some (w.servers p).serialize
          (w.raft.effect (.snapshot p index snapshot)).map fun x =>
            w.after (.snapshot p index snapshot) p x.2 kv
        else some (w.setServer p kv)
      else none
    | _ => none
  | .respond p =>
    match (w.servers p).loop with
    | .respond index response =>
      if w.live p && !w.saving p then
        some (w.setServer p ((w.servers p).respond index response))
      else none
    | _ => none

/-- The states that runs with every action allowed by `ok` reach. -/
def Reachable (ok : Service n → ServiceAction n → Prop) (w : Service n) : Prop :=
  ∃ room, Run step ok (init room) w

/-- A checked execution reaches a state with property `P`. -/
theorem Reachable.exists_of_execOk (ok : Service n → ServiceAction n → Prop)
    [∀ w a, Decidable (ok w a)] (acts : List (ServiceAction n)) (P : Service n → Prop)
    [DecidablePred P] (h : ((execOk step ok (init fun _ _ => 0) acts).any fun w => P w) = true) :
    ∃ w, Reachable ok w ∧ P w := by
  obtain ⟨w, hrun, hP⟩ := exists_run_of_execOk step ok (init fun _ _ => 0) acts P h
  exact ⟨w, ⟨_, hrun⟩, hP⟩

section

variable (w : Service n)

/-- What a step can do. -/
inductive Moves : ServiceAction n → Service n → Prop
  | raft (ha : ∀ q, a ≠ .restart q) (heff : w.raft.effect a = some (p, eff))
      (hkv : (w.servers p).accept (message? eff) = some kv) : Moves (.raft a) (w.after a p eff kv)
  | restart (p : Fin n) (snapshot : Option Snapshot) :
      Moves (.raft (.restart p)) (w.after (.restart p) p eff (.start snapshot))
  | call (heff : w.raft.effect (.start p (some op)) = some (p, eff)) :
      Moves (.call p op)
        (w.after (.start p (some op)) p eff ((w.servers p).called op (startedAt? eff)))
  | handler (hkv : (w.servers p).advance i act = some kv) :
      Moves (.handler p i act) (w.setServer p kv)
  | snapshot (heff : w.raft.effect (.snapshot p index snapshot) = some (p, eff)) :
      Moves (.snapshot p true)
        (w.after (.snapshot p index snapshot) p eff { w.servers p with loop := pc })
  | skip (p : Fin n) (pc : LoopPc) :
      Moves (.snapshot p false) (w.setServer p { w.servers p with loop := pc })
  | respond (p : Fin n) (index : ℕ) (response : WaitChResponse) :
      Moves (.respond p) (w.setServer p ((w.servers p).respond index response))

end

variable {w w' : Service n} {x : ServiceAction n}

/-- A step of Raft that the server does not ask for, restarts apart. -/
theorem moves_of_raft {a : Raft.Action n Op Snapshot} (ha : ∀ q, a ≠ .restart q)
    (h : ((w.raft.effect a).bind fun x =>
      if w.live x.1 then
        ((w.servers x.1).accept (message? x.2)).map fun kv => w.after a x.1 x.2 kv
      else none) = some w') : w.Moves (.raft a) w' := by
  obtain ⟨⟨p, eff⟩, heff, hrest⟩ := Option.bind_eq_some_iff.mp h
  split at hrest
  · obtain ⟨kv, hkv, rfl⟩ := Option.map_eq_some_iff.mp hrest
    exact .raft ha heff hkv
  · cases hrest

/-- **Inversion** of a step. -/
theorem moves_of_step (h : w.step x = some w') : w.Moves x w' := by
  cases x with
  | raft a =>
    cases a with
    | start | snapshot => cases h
    | restart p => obtain rfl := Option.some.inj h; exact .restart p _
    | main | thread | reply | apply | deliver | resume => exact moves_of_raft nofun h
  | call p op =>
    rw [step] at h
    split at h
    · obtain ⟨⟨q, eff⟩, heff, rfl⟩ := Option.map_eq_some_iff.mp h
      obtain rfl : q = p := by cases Raft.World.effect_local heff; rfl
      exact .call heff
    · cases h
  | handler p i act =>
    rw [step] at h
    split at h
    · obtain ⟨kv, hkv, rfl⟩ := Option.map_eq_some_iff.mp h
      exact .handler hkv
    · cases h
  | snapshot p due =>
    rw [step] at h
    split at h
    · split at h
      · cases due with
        | true =>
          obtain ⟨⟨q, eff⟩, heff, rfl⟩ := Option.map_eq_some_iff.mp h
          obtain rfl : q = p := by cases Raft.World.effect_local heff; rfl
          exact .snapshot heff
        | false => obtain rfl := Option.some.inj h; exact .skip p _
      · cases h
    · cases h
  | respond p =>
    rw [step] at h
    split at h
    · split at h <;> cases h
      exact .respond p _ _
    · cases h

end Service

/-! ### Indices of handlers -/

namespace KVServer

variable {kv kv' : KVServer} {len len' : ℕ}

/-- The handlers of a server have different indices, all of them in the log, and none has found its
    index taken. -/
structure Indexed (kv : KVServer) (len : ℕ) : Prop where
  nodup : (kv.handlers.map Handler.pos).Nodup
  lt : ∀ h ∈ kv.handlers, h.pos < len
  exited : kv.exited ≠ some .existingWaitCh

theorem Indexed.start (snapshot : Option Snapshot) : (KVServer.start snapshot).Indexed len := by
  cases snapshot with
  | none | some => exact ⟨List.nodup_nil, fun _ hh => absurd hh List.not_mem_nil, nofun⟩

/-- The log has another length. -/
theorem Indexed.mono (h : kv.Indexed len) (hlt : ∀ x ∈ kv.handlers, x.pos < len') :
    kv.Indexed len' :=
  ⟨h.nodup, hlt, h.exited⟩

/-- Handlers that have returned make no difference. -/
theorem Indexed.sublist (h : kv.Indexed len)
    (hsub : (kv'.handlers.map Handler.pos).Sublist (kv.handlers.map Handler.pos))
    (hexit : kv'.exited ≠ some .existingWaitCh) : kv'.Indexed len := by
  refine ⟨h.nodup.sublist hsub, fun x hx => ?_, hexit⟩
  obtain ⟨y, hy, hpos⟩ := List.mem_map.mp (hsub.subset (List.mem_map_of_mem hx))
  rw [← hpos]
  exact h.lt y hy

theorem receive_handlers (kv : KVServer) (msg : Raft.ApplyMsg Op Snapshot) :
    (kv.receive msg).handlers = kv.handlers := by
  unfold receive
  split
  · split
    · rfl
    · split <;> rfl
  · split
    · unfold deserialize
      split <;> rfl
    · rfl

theorem receive_exited (msg : Raft.ApplyMsg Op Snapshot)
    (h : kv.exited ≠ some .existingWaitCh) : (kv.receive msg).exited ≠ some .existingWaitCh := by
  unfold receive
  split
  · split
    · exact h
    · split
      · exact h
      · simp
  · split
    · unfold deserialize
      split <;> exact h
    · exact h

theorem Indexed.accept (h : kv.Indexed len) {msg : Option (Raft.ApplyMsg Op Snapshot)}
    (hkv : kv.accept msg = some kv') : kv'.handlers = kv.handlers ∧ kv'.Indexed len := by
  unfold KVServer.accept at hkv
  split at hkv
  · cases hkv
    exact ⟨rfl, h⟩
  · rename_i msg
    split at hkv <;> cases hkv
    have hsame := kv.receive_handlers msg
    refine ⟨hsame, h.sublist ?_ (receive_exited _ h.exited)⟩
    rw [hsame]

theorem Indexed.respond (h : kv.Indexed len) (index : ℕ) (response : WaitChResponse) :
    (kv.respond index response).Indexed len := by
  refine h.sublist ?_ h.exited
  have hpos (x : Handler Op WaitChResponse) : (x.offer index response).pos = x.pos := by
    unfold Handler.offer
    split
    · split <;> rfl
    · rfl
  show ((kv.handlers.map _).map _).Sublist _
  rw [List.map_map, show Handler.pos ∘ Handler.offer index response = Handler.pos from funext hpos]

/-- A handler that is about to register finds no channel: the handlers have different indices. -/
theorem Indexed.occupied (h : kv.Indexed len) {i : ℕ} {x : Handler Op WaitChResponse}
    (hi : kv.handlers[i]? = some x) (hstage : x.stage = .started) :
    kv.occupied x.pos = false := by
  rw [KVServer.occupied, List.any_eq_false]
  intro y hy hcond
  rw [Bool.and_eq_true, beq_iff_eq] at hcond
  obtain rfl : y = x :=
    List.inj_on_of_nodup_map h.nodup hy (List.mem_of_getElem? hi) hcond.1
  rw [hstage] at hcond
  cases hcond.2

theorem Indexed.setStage (h : kv.Indexed len) {i : ℕ} {x : Handler Op WaitChResponse}
    (hi : kv.handlers[i]? = some x) (stage : Stage WaitChResponse) :
    (kv.setStage i x stage).Indexed len := by
  refine h.sublist ?_ h.exited
  obtain ⟨hlt, rfl⟩ := List.getElem?_eq_some_iff.mp hi
  have hsame : (kv.handlers.map Handler.pos).set i kv.handlers[i].pos =
      kv.handlers.map Handler.pos := by
    rw [← List.getElem_map (h := by rwa [List.length_map]) Handler.pos, List.set_getElem_self]
  show ((kv.handlers.set i _).map _).Sublist _
  rw [List.map_set, hsame]

/-- **Handlers, step.** -/
theorem Indexed.advance (h : kv.Indexed len) {i : ℕ} {act : HandlerAct}
    (hkv : kv.advance i act = some kv') : kv'.Indexed len := by
  unfold KVServer.advance at hkv
  split at hkv
  · rename_i x hi
    split at hkv
    · rename_i hstage
      rw [h.occupied hi hstage] at hkv
      cases hkv
      exact h.setStage hi _
    · cases hkv
      exact h.setStage hi _
    · cases hkv
      exact h.setStage hi _
    · cases hkv
      exact h.sublist ((List.eraseIdx_sublist _ i).map _) h.exited
    · cases hkv
  · cases hkv

/-- `Start` returns an index beyond all others. -/
theorem Indexed.called (h : kv.Indexed len) (op : Op) :
    (kv.called op (some len)).Indexed (len + 1) := by
  refine ⟨?_, fun x hx => ?_, h.exited⟩
  · show ((kv.handlers ++ [_]).map _).Nodup
    rw [List.map_append, List.nodup_append]
    refine ⟨h.nodup, List.nodup_singleton _, ?_⟩
    intro a ha b hb heq
    obtain ⟨x, hx, rfl⟩ := List.mem_map.mp ha
    have hlt := h.lt x hx
    have hb : b = len := List.mem_singleton.mp hb
    omega
  · rcases List.mem_append.mp hx with hold | hnew
    · exact (h.lt x hold).trans (Nat.lt_succ_self len)
    · rw [List.mem_singleton.mp hnew]
      exact Nat.lt_succ_self len

end KVServer

/-- What `Start` returns and what it does to the log. -/
theorem startedAt_of_tryStart {n : ℕ} {me : Fin n} {nd : Raft.Node n Op Snapshot}
    {command : Option Op} {eff : Raft.Effect n Op Snapshot}
    (h : nd.tryStart me command = some eff) :
    startedAt? eff = some nd.getLogLength ∧ eff.node.getLogLength = nd.getLogLength + 1 ∨
      startedAt? eff = none ∧ eff.node = nd := by
  cases Raft.Node.tryStart_cases h with
  | append => exact .inl ⟨rfl, Raft.Node.getLogLength_appendCommand me nd command⟩
  | ignore => exact .inr ⟨rfl, rfl⟩

namespace Service

variable {n : ℕ} {w w' : Service n} {x : ServiceAction n} {p : Fin n}

/-- If `AppendEntries` is about to copy entries at a peer, the log keeps every index that a handler
    of its server still has. -/
def KeepsIndices (w : Service n) : ServiceAction n → Prop
  | .raft (.resume p) =>
    match (w.raft.nodes p).held with
    | some (.appendLog _ args) =>
      (w.raft.nodes p).Passes args →
        ∀ h ∈ (w.servers p).handlers, h.pos < ((w.raft.nodes p).copyLog args).getLogLength
    | _ => True
  | _ => True

instance (w : Service n) (x : ServiceAction n) : Decidable (w.KeepsIndices x) := by
  unfold KeepsIndices
  repeat' split
  all_goals infer_instance

def Indexed (w : Service n) : Prop :=
  ∀ p, (w.servers p).Indexed (w.raft.nodes p).getLogLength

theorem Indexed.after (h : w.Indexed) {a : Raft.Action n Op Snapshot}
    {eff : Raft.Effect n Op Snapshot} {kv : KVServer} (hself : kv.Indexed eff.node.getLogLength) :
    (w.after a p eff kv).Indexed := by
  intro q
  show (update w.servers p kv q).Indexed ((w.raft.after a p eff).nodes q).getLogLength
  rcases eq_or_ne q p with rfl | hne
  · rw [update_self, Raft.World.after_nodes_self]
    exact hself
  · rw [update_of_ne hne, Raft.World.after_nodes_of_ne _ _ _ hne]
    exact h q

theorem Indexed.setServer (h : w.Indexed) {kv : KVServer}
    (hself : kv.Indexed (w.raft.nodes p).getLogLength) : (w.setServer p kv).Indexed := by
  intro q
  show (update w.servers p kv q).Indexed _
  rcases eq_or_ne q p with rfl | hne
  · rw [update_self]
    exact hself
  · rw [update_of_ne hne]
    exact h q

/-- A step of Raft keeps the indices of the handlers in the log. -/
theorem Indexed.raft (h : w.Indexed) {a : Raft.Action n Op Snapshot}
    {eff : Raft.Effect n Op Snapshot} (ha : a ≠ .restart p) (heff : w.raft.effect a = some (p, eff))
    (hok : w.KeepsIndices (.raft a)) :
    (w.servers p).Indexed eff.node.getLogLength := by
  refine (h p).mono fun y hy => ?_
  have hstored := Raft.World.local_stored (Raft.World.effect_local heff)
  rcases Raft.World.getLogLength_of_stored hstored ha with hle | ⟨call, args, rfl, hh, hpass, heq⟩
  · exact ((h p).lt y hy).trans_le hle
  · unfold KeepsIndices at hok
    dsimp only at hok
    rw [hh] at hok
    rw [heq]
    exact hok hpass y hy

/-- **Indices, step.** -/
theorem Indexed.step (h : w.Indexed) (hok : w.KeepsIndices x) (hstep : w.step x = some w') :
    w'.Indexed := by
  cases moves_of_step hstep with
  | raft ha heff hkv =>
    exact h.after ((h.raft (ha _) heff hok).accept hkv).2
  | restart p snapshot => exact h.after (.start snapshot)
  | @call p op eff heff =>
    have hlocal := Raft.World.effect_local heff
    refine h.after ?_
    cases hlocal with
    | start _ hstart =>
      rcases startedAt_of_tryStart hstart with ⟨hat, hlen⟩ | ⟨hat, hsame⟩
      · rw [hat, hlen]
        exact (h p).called op
      · rw [hat, hsame]
        exact h p
  | handler hkv => exact h.setServer ((h _).advance hkv)
  | snapshot heff =>
    have hself := h.raft (by simp) heff trivial
    exact h.after ⟨hself.nodup, hself.lt, hself.exited⟩
  | skip p => exact h.setServer ⟨(h p).nodup, (h p).lt, (h p).exited⟩
  | respond p index response => exact h.setServer ((h p).respond index response)

/-- **Indices, run.** -/
theorem Reachable.indexed (hr : Reachable KeepsIndices w) : w.Indexed := by
  obtain ⟨room, hrun⟩ := hr
  exact hrun.invariant (fun _ _ _ hw hok hstep => hw.step hok hstep) fun _ => .start none

end Service

/-- **Indices are free.** As long as no log is cut below an index that a handler of its server still
    has, a handler that is about to register finds no channel under its index, and no process ends
    for this reason. -/
theorem waitCh_is_free {n : ℕ} {w : Service n} (hr : Service.Reachable Service.KeepsIndices w)
    (p : Fin n) :
    (∀ (i : ℕ) (h : Handler Op WaitChResponse), (w.servers p).handlers[i]? = some h →
      h.stage = .started → (w.servers p).occupied h.pos = false) ∧
    (w.servers p).exited ≠ some .existingWaitCh := by
  have hindexed := hr.indexed p
  exact ⟨fun i h hi hstage => hindexed.occupied hi hstage, hindexed.exited⟩

/-- Client 5 puts "a" under the key "a". -/
def putA (requestId : ℤ) : Op := ⟨.put, [97], [97], 5, requestId⟩

/-- Peer 0 becomes leader of term 1 with the vote of peer 1. -/
def leaderZero : List (ServiceAction 3) :=
  ([.main 0, .main 0, .main 0, .main 0, .thread 0 0, .thread 0 0, .deliver 0, .resume 1,
    .reply 0 0 0 true, .main 0, .main 0, .main 0, .main 0] :
      List (Raft.Action 3 Op Snapshot)).map .raft

/-- Peer 1 becomes leader of term 2 with the vote of peer 2 and sends one entry to peer 0, in which
    peer 0 finds a conflict; `first` is the goroutine of peer 0 that its next election starts.  Then
    peer 0 becomes leader of term 3 with the vote of peer 2. -/
def oneThenZero (first : ℕ) : List (ServiceAction 3) :=
  ([.main 1, .main 1, .main 1, .main 1, .thread 1 0, .thread 1 0, .deliver 3, .resume 2,
    .reply 1 0 3 true, .main 1, .main 1, .main 1, .main 1] :
      List (Raft.Action 3 Op Snapshot)).map .raft ++
  [.call 1 (putA 2)] ++
  ([.thread 1 2, .thread 1 2, .thread 1 2, .thread 1 2, .thread 1 2, .thread 1 2, .thread 1 2,
    .deliver 4, .resume 0, .resume 0, .main 0, .main 0, .main 0, .main 0, .main 0, .main 0,
    .thread 0 first, .thread 0 first, .deliver 6, .resume 2, .reply 0 first 6 true, .main 0,
    .main 0, .main 0, .main 0] : List (Raft.Action 3 Op Snapshot)).map .raft

/-- One handler waits at index 1 while the entry there is replaced; the next one gets index 2. -/
def replacedAtIndex1 : List (ServiceAction 3) :=
  leaderZero ++ [.call 0 (putA 0), .handler 0 0 .register] ++ oneThenZero 4 ++ [.call 0 (putA 3)]

theorem waitCh_is_free_replacedAtIndex1 :
    ∃ w : Service 3, Service.Reachable Service.KeepsIndices w ∧
      (w.servers 0).occupied 1 = true ∧
      (w.servers 0).handlers[1]? = some ⟨putA 3, 2, .started⟩ ∧
      (w.servers 0).occupied 2 = false ∧ (w.servers 0).exited ≠ some .existingWaitCh := by
  obtain ⟨w, hr, hone, htwo⟩ := Service.Reachable.exists_of_execOk Service.KeepsIndices
    replacedAtIndex1
    (fun w => (w.servers 0).occupied 1 = true ∧
      (w.servers 0).handlers[1]? = some ⟨putA 3, 2, .started⟩) (by decide +kernel)
  obtain ⟨hfree, hexited⟩ := waitCh_is_free hr 0
  exact ⟨w, hr, hone, htwo, hfree 1 _ htwo rfl, hexited⟩

/-- Two handlers wait, at the indices 1 and 2, while the log is cut at index 1; the next one gets
    index 2 again. -/
def cutAtIndex1 : List (ServiceAction 3) :=
  leaderZero ++
    [.call 0 (putA 0), .call 0 (putA 1), .handler 0 0 .register, .handler 0 1 .register] ++
    oneThenZero 5 ++ [.call 0 (putA 3), .handler 0 2 .register]

def ServiceAction.isRestart {n : ℕ} : ServiceAction n → Bool
  | .raft (.restart _) => true
  | _ => false

/-- Without the condition the process ends, with no restart before. -/
theorem waitCh_is_taken :
    ∃ w : Service 3, Service.Reachable (fun _ x => x.isRestart = false) w ∧
      (w.servers 0).handlers[1]? = some ⟨putA 1, 2, .waiting none⟩ ∧
      (w.servers 0).handlers[2]? = some ⟨putA 3, 2, .started⟩ ∧
      (w.servers 0).exited = some .existingWaitCh := by
  exact Service.Reachable.exists_of_execOk (fun _ x => x.isRestart = false) cutAtIndex1 _
    (by decide +kernel)

end MitDistributed.KVRaft
