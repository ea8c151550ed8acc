import MitDistributed.KVRaft.Clerk
import MitDistributed.Linearizability.Positions
import MitDistributed.Models.KvStore

namespace MitDistributed.KVRaft

open Function Linearizability Models Porcupine Rsm Transition

/-!
# Key/value store — the history that the tests check

The tests call their clerks through wrappers that read a monotonic clock before and after the call
and write the operation down in an `OpLog`; when all clients are through, the log is given to the
linearizability checker.

* `Recorder` — the world with the wrappers and the log;
* `RecorderOk` — every operation in the log has a position in the agreed log where it takes effect,
  and the positions agree with the times;
* `RecorderOk.of_reachable` — so in every run in which no server replaces the entry of a handler
  that waits for it.
-/

/-! ### The wrappers -/

/-- The input that is written down for a call. -/
def Call.input (call : Call) : KvInput :=
  match call.type with
  | .get => { op := 0, key := call.key, value := [] }
  | .put => { op := 1, key := call.key, value := call.value }
  | .append => { op := 2, key := call.key, value := call.value }

/-- What is written down as the output when a response ends the call. -/
def Call.result (call : Call) (response : WaitChResponse) : Bytes :=
  match call.type with
  | .get => if response.err = .ok then response.value else []
  | .put => []
  | .append => []

/-- A call that has returned.  `op` and `pos` keep the history: the request of the call, and the
    position of the agreed log where it took effect. -/
structure Answered where
  cli : ℤ
  call : Call
  start : ℤ
  value : Bytes
  op : Op
  pos : ℕ
  deriving DecidableEq

/-- What is written down. -/
def Answered.operation (x : Answered) (stop : ℤ) : KvOperation :=
  { clientId := x.cli, input := x.call.input, call := x.start, output := { value := x.value },
    ret := stop }

/-- Where a client is in `Get`, `Put` or `Append` of the tests: `start` is read; the clerk is
    called; it has returned; `end` is read. -/
inductive Wrapper
  | idle
  | stamped (cli : ℤ) (call : Call) (start : ℤ)
  | calling (cli : ℤ) (call : Call) (start : ℤ)
  | returned (x : Answered)
  | ended (x : Answered) (stop : ℤ)
  deriving DecidableEq

namespace Wrapper

/-- The call the clerk is at, and the time before it. -/
def called : Wrapper → Option (Call × ℤ)
  | calling _ call start => some (call, start)
  | _ => none

def answered : Wrapper → Option Answered
  | returned x => some x
  | ended x _ => some x
  | _ => none

def stopped : Wrapper → Option (Answered × ℤ)
  | ended x stop => some (x, stop)
  | _ => none

def start : Wrapper → Option ℤ
  | idle => none
  | stamped _ _ start => some start
  | calling _ _ start => some start
  | returned x => some x.start
  | ended x _ => some x.start

end Wrapper

/-- The world with a clock, the wrappers of the clients and the `OpLog`. -/
structure Recorder (n : ℕ) where
  world : World n
  now : ℤ
  wrappers : ℤ → Wrapper
  log : List (Answered × ℤ)

inductive RecorderAction
  /-- time passes -/
  | tick (now : ℤ)
  | stamp (c cli : ℤ) (call : Call)
  | call (c : ℤ)
  /-- the clerk returns with the `j`-th reply -/
  | reply (c : ℤ) (j : ℕ)
  | stop (c : ℤ)
  /-- the operation is written down -/
  | append (c : ℤ)
  /-- any other step of the world -/
  | other (a : Action)

/-- Neither a call nor a return. -/
def Action.other : Action → Bool
  | .call _ _ => false
  | .reply _ _ => false
  | _ => true

/-- Where a request with a reply to its entry at `pos` takes effect: a write does so at its first
    entry. -/
def effectAt (agreed : List Op) (op : Op) (pos : ℕ) : ℕ :=
  if op.type = .get then pos else agreed.idxOf op

namespace Recorder

variable {n : ℕ}

def init (n : ℕ) : Recorder n :=
  { world := .init n, now := 0, wrappers := fun _ => .idle, log := [] }

/-- The operations of the `OpLog`. -/
def operations (r : Recorder n) : List KvOperation :=
  r.log.map fun x => x.1.operation x.2

def setWrapper (r : Recorder n) (c : ℤ) (x : Wrapper) : Recorder n :=
  { r with wrappers := update r.wrappers c x }

@[simp] theorem setWrapper_wrappers_self (r : Recorder n) (c : ℤ) (x : Wrapper) :
    (r.setWrapper c x).wrappers c = x := update_self _ _ _

theorem setWrapper_wrappers_of_ne (r : Recorder n) {c d : ℤ} (x : Wrapper) (h : d ≠ c) :
    (r.setWrapper c x).wrappers d = r.wrappers d := update_of_ne h _ _

def step (r : Recorder n) : RecorderAction → Option (Recorder n)
  | .tick now => if r.now ≤ now then some { r with now := now } else none
  | .stamp c cli call =>
    match r.wrappers c with
    | .idle => some (r.setWrapper c (.stamped cli call r.now))
    | _ => none
  | .call c =>
    match r.wrappers c with
    | .stamped cli call start =>
      (r.world.step (.call c call)).map fun world =>
        { r.setWrapper c (.calling cli call start) with world := world }
    | _ => none
  | .reply c j =>
    match r.wrappers c, r.world.servers.answers[j]? with
    | .calling cli call start, some ⟨op, pos, some response⟩ =>
      (r.world.step (.reply c j)).map fun world =>
        { r.setWrapper c (.returned
            { cli := cli, call := call, start := start, value := call.result response, op := op
              pos := effectAt r.world.servers.agreed op pos }) with world := world }
    | _, _ => none
  | .stop c =>
    match r.wrappers c with
    | .returned x => some (r.setWrapper c (.ended x r.now))
    | _ => none
  | .append c =>
    match r.wrappers c with
    | .ended x stop => some { r.setWrapper c .idle with log := r.log ++ [(x, stop)] }
    | _ => none
  | .other a =>
    if a.other then (r.world.step a).map fun world => { r with world := world } else none

/-- No server replaces the log entry of a handler that waits for it. -/
def KeepsWaiting (r : Recorder n) : RecorderAction → Prop
  | .other a => r.world.KeepsWaiting a
  | _ => True

instance (r : Recorder n) (a : RecorderAction) : Decidable (r.KeepsWaiting a) := by
  unfold KeepsWaiting
  split <;> infer_instance

def Reachable (r : Recorder n) : Prop :=
  Run Recorder.step KeepsWaiting (Recorder.init n) r

/-! ### Inversion -/

section

variable (r : Recorder n)

/-- What a step can do. -/
inductive Moves : Recorder n → Prop
  | tick {now : ℤ} (hnow : r.now ≤ now) : Moves { r with now := now }
  | stamp (cli : ℤ) (call : Call) (hc : r.wrappers c = .idle) :
      Moves (r.setWrapper c (.stamped cli call r.now))
  | call (hc : r.wrappers c = .stamped cli call start) (hnone : (r.world.clerks c).calling = none) :
      Moves { r.setWrapper c (.calling cli call start) with
        world := r.world.send c (r.world.clerks c) call }
  | reply (hc : r.wrappers c = .calling cli call start)
      (hanswer : ⟨(r.world.clerks c).op c call, pos, some response⟩ ∈ r.world.servers.answers)
      (hcall : (r.world.clerks c).calling = some call) :
      Moves { r.setWrapper c (.returned
          { cli := cli, call := call, start := start, value := call.result response
            op := (r.world.clerks c).op c call
            pos := effectAt r.world.servers.agreed ((r.world.clerks c).op c call) pos }) with
        world := r.world.close c }
  | stop (hc : r.wrappers c = .returned x) : Moves (r.setWrapper c (.ended x r.now))
  | append (hc : r.wrappers c = .ended x stop) :
      Moves { r.setWrapper c .idle with log := r.log ++ [(x, stop)] }
  | resend (hcall : (r.world.clerks c).calling = some call) :
      Moves { r with world := r.world.send c (r.world.clerks c).incrementLastLeader call }
  | serves (requests : List (ℕ × Op)) (hstep : r.world.servers.step machine x = some servers) :
      Moves { r with world := { r.world with servers := servers, requests := requests } }

end

/-- **Inversion** of a step, where the clerk is at the call its wrapper has made. -/
theorem moves_of_step {r r' : Recorder n} {a : RecorderAction}
    (hcalling : ∀ c, (r.world.clerks c).calling = (r.wrappers c).called.map Prod.fst)
    (h : r.step a = some r') : r.Moves r' := by
  cases a with
  | tick now =>
    rw [step] at h
    split at h <;> cases h
    rename_i hnow
    exact .tick hnow
  | stamp c cli call =>
    rw [step] at h
    split at h <;> cases h
    rename_i hc
    exact .stamp cli call hc
  | call c =>
    rw [step] at h
    split at h
    · rename_i cli call start hc
      have hnone : (r.world.clerks c).calling = none := by rw [hcalling, hc]; rfl
      rw [World.step, hnone] at h
      cases h
      exact .call hc hnone
    · cases h
  | reply c j =>
    rw [step] at h
    split at h
    · rename_i cli call start op pos response hc hanswer
      have hcall : (r.world.clerks c).calling = some call := by rw [hcalling, hc]; rfl
      rw [World.step, hcall, hanswer] at h
      dsimp only at h
      split at h
      · rename_i hcond
        obtain ⟨rfl, -⟩ := hcond
        cases h
        exact .reply hc (List.mem_of_getElem? hanswer) hcall
      · cases h
    · cases h
  | stop c =>
    rw [step] at h
    split at h <;> cases h
    rename_i x hc
    exact .stop hc
  | append c =>
    rw [step] at h
    split at h <;> cases h
    rename_i x stop hc
    exact .append hc
  | other a =>
    rw [step] at h
    split at h
    · rename_i hother
      obtain ⟨world, hworld, rfl⟩ := Option.map_eq_some_iff.mp h
      cases a with
      | call c call => cases hother
      | reply c j => cases hother
      | serve i =>
        rw [World.step] at hworld
        split at hworld
        · obtain ⟨servers, hs, rfl⟩ := Option.map_eq_some_iff.mp hworld
          exact .serves _ hs
        · cases hworld
      | fail c =>
        rw [World.step] at hworld
        split at hworld <;> cases hworld
        rename_i call hcall
        exact .resend hcall
      | internal s act =>
        rw [World.step] at hworld
        split at hworld
        · obtain ⟨servers, hs, rfl⟩ := Option.map_eq_some_iff.mp hworld
          exact .serves _ hs
        · cases hworld
    · cases h

/-- The world of the recorder is one of servers and clerks. -/
theorem reachable_world {r : Recorder n} (hr : r.Reachable) :
    World.Reachable World.KeepsWaiting r.world := by
  have h0 : World.Reachable World.KeepsWaiting (Recorder.init n).world := Run.refl _
  refine Run.invariant (I := fun r => World.Reachable World.KeepsWaiting r.world) ?_ hr h0
  intro r a r' hworld hkeeps h
  have hstep {b : Action} {w : World n} (hw : r.world.step b = some w)
      (hk : r.world.KeepsWaiting b) : World.Reachable World.KeepsWaiting w :=
    Run.tail b hworld hk hw
  cases a with
  | tick now =>
    rw [step] at h
    split at h <;> cases h
    exact hworld
  | stamp c cli call | stop c | append c =>
    rw [step] at h
    split at h <;> cases h
    exact hworld
  | call c =>
    rw [step] at h
    split at h
    · obtain ⟨w, hw, rfl⟩ := Option.map_eq_some_iff.mp h
      exact hstep hw trivial
    · cases h
  | reply c j =>
    rw [step] at h
    split at h
    · obtain ⟨w, hw, rfl⟩ := Option.map_eq_some_iff.mp h
      exact hstep hw trivial
    · cases h
  | other b =>
    rw [step] at h
    split at h
    · obtain ⟨w, hw, rfl⟩ := Option.map_eq_some_iff.mp h
      exact hstep hw hkeeps
    · cases h

/-! ### The invariant -/

/-- The call has returned, whether or not it is written down. -/
def Answers (r : Recorder n) (x : Answered) : Prop :=
  (∃ stop, (x, stop) ∈ r.log) ∨ ∃ c, (r.wrappers c).answered = some x

/-- `end` has been read. -/
def Stopped (r : Recorder n) (x : Answered) (stop : ℤ) : Prop :=
  (x, stop) ∈ r.log ∨ ∃ c, (r.wrappers c).stopped = some (x, stop)

/-- `op` is the request of a call that has been made, with the time that was read before it. -/
def Called (r : Recorder n) (op : Op) (start : ℤ) : Prop :=
  (∃ x, r.Answers x ∧ x.op = op ∧ x.start = start) ∨
    ∃ c call, (r.wrappers c).called = some (call, start) ∧ (r.world.clerks c).op c call = op

section Congr

variable {r r' : Recorder n} {x : Answered} {op : Op} {c start stop : ℤ} {y : Wrapper}

/-- What `f` sees of the wrappers after a step of one of them that `f` does not see. -/
theorem apply_setWrapper {β : Type*} (f : Wrapper → β) (h : f y = f (r.wrappers c)) (d : ℤ) :
    f ((r.setWrapper c y).wrappers d) = f (r.wrappers d) := by
  rcases eq_or_ne d c with rfl | hne
  · rw [setWrapper_wrappers_self, h]
  · rw [setWrapper_wrappers_of_ne _ _ hne]

/-- What the wrapper of some client has after one of them was set. -/
theorem exists_setWrapper_iff {β : Type*} (f : Wrapper → Option β) {b : β} :
    (∃ d, f ((r.setWrapper c y).wrappers d) = some b) ↔
      f y = some b ∨ ∃ d ≠ c, f (r.wrappers d) = some b :=
  exists_update_iff r.wrappers fun _ x => f x = some b

theorem answers_setWrapper (h : y.answered = (r.wrappers c).answered) :
    (r.setWrapper c y).Answers x ↔ r.Answers x :=
  or_congr_right (exists_congr fun d => by rw [apply_setWrapper Wrapper.answered h])

theorem stopped_setWrapper (h : y.stopped = (r.wrappers c).stopped) :
    (r.setWrapper c y).Stopped x stop ↔ r.Stopped x stop :=
  or_congr_right (exists_congr fun d => by rw [apply_setWrapper Wrapper.stopped h])

/-- Calls that have been made before. -/
theorem Called.of_congr (h : r'.Called op start) (hworld : r'.world = r.world)
    (hanswers : ∀ x, r'.Answers x → r.Answers x)
    (hcalled : ∀ d, (r'.wrappers d).called = (r.wrappers d).called) : r.Called op start := by
  refine h.imp (fun ⟨x, hx, heq⟩ => ⟨x, hanswers x hx, heq⟩) fun ⟨d, call, hd, hop⟩ => ?_
  exact ⟨d, call, hcalled d ▸ hd, hworld ▸ hop⟩

theorem Stopped.answers (h : r.Stopped x stop) : r.Answers x := by
  refine h.imp (fun hx => ⟨stop, hx⟩) fun ⟨c, hc⟩ => ⟨c, ?_⟩
  cases hw : r.wrappers c <;> rw [hw] at hc <;> cases hc
  rfl

end Congr

end Recorder

/-- The request of a call that is made now is not in the agreed log. -/
theorem World.Ledger.op_not_mem {n : ℕ} {w : World n} (h : w.Ledger) (hw : w.Consistent) {c : ℤ}
    (call : Call) (hnone : (w.clerks c).calling = none) :
    (w.clerks c).op c call ∉ w.servers.agreed := by
  intro hmem
  have hcalling := (h c).current _ ⟨hw.started _ (hw.sound.agreed _ hmem), rfl⟩ trivial rfl
  rw [hnone] at hcalling
  cases hcalling

/-- Where and how a request took effect. -/
structure Answered.Placed {n : ℕ} (w : World n) (x : Answered) : Prop where
  entry : w.servers.agreed[x.pos]? = some x.op
  type_eq : x.op.type = x.call.type
  key_eq : x.op.key = x.call.key
  value_eq : x.op.value = x.call.value
  old : x.op.requestId < (w.clerks x.op.clientId).requestId
  write : x.call.type ≠ .get → x.op ∉ w.servers.agreed.take x.pos
  read : x.call.type = .get → ∃ st, machine.replay (w.servers.agreed.take x.pos) = some st ∧
    x.value = (st.storage.get? x.call.key).getD []

theorem Answered.Placed.mono {n : ℕ} {w w' : World n} {x : Answered} (h : x.Placed w)
    (hpre : w.servers.agreed <+: w'.servers.agreed)
    (hid : ∀ c, (w.clerks c).requestId ≤ (w'.clerks c).requestId) : x.Placed w' := by
  have hlt := (List.getElem?_eq_some_iff.mp h.entry).1
  have htake := take_eq_of_isPrefix hpre hlt.le
  refine { h with entry := ?_, old := h.old.trans_le (hid _), write := ?_, read := ?_ }
  · rw [List.prefix_iff_getElem?.mp hpre x.pos hlt, ← List.getElem?_eq_getElem hlt, h.entry]
  · rw [htake]
    exact h.write
  · rw [htake]
    exact h.read

/-- What holds of the wrapper of a client. -/
structure Wrapper.Ok {n : ℕ} (r : Recorder n) (c : ℤ) (y : Wrapper) : Prop where
  calling : (r.world.clerks c).calling = y.called.map Prod.fst
  own : ∀ x, y.answered = some x → x.op.clientId = c ∧ x.op ∉ r.log.map fun z => z.1.op
  start_le : ∀ start, y.start = some start → start ≤ r.now

/-- What holds of the wrappers and the log. -/
structure RecorderOk {n : ℕ} (r : Recorder n) : Prop where
  client : ∀ c, (r.wrappers c).Ok r c
  placed : ∀ x, r.Answers x → x.Placed r.world
  /-- Every request is that of a call which has returned, or of the one its client is at. -/
  sent : ∀ op ∈ r.world.sent, (∃ x, r.Answers x ∧ x.op = op) ∨
    ∃ call, (r.world.clerks op.clientId).calling = some call ∧
      (r.world.clerks op.clientId).op op.clientId call = op
  nodup : (r.log.map fun y => y.1.op).Nodup
  log_le : ∀ y ∈ r.log, y.1.start ≤ r.now
  start_le_stop : ∀ x stop, r.Stopped x stop → x.start ≤ stop
  /-- A request that was made after `end` of another one takes effect after it. -/
  order : ∀ x stop, r.Stopped x stop → ∀ op start, r.Called op start → stop < start →
    ∀ q, r.world.servers.agreed[q]? = some op → x.pos < q

namespace RecorderOk

variable {n : ℕ} {r r' : Recorder n} {c cli start stop : ℤ} {x : Answered}

theorem init : RecorderOk (Recorder.init n) where
  client _ :=
    ⟨rfl, by simp [Recorder.init, Wrapper.answered], by simp [Recorder.init, Wrapper.start]⟩
  placed x hx := by simp [Recorder.Answers, Recorder.init, Wrapper.answered] at hx
  sent _ hop := absurd hop List.not_mem_nil
  nodup := List.nodup_nil
  log_le _ hy := absurd hy List.not_mem_nil
  start_le_stop x stop hx := by simp [Recorder.Stopped, Recorder.init, Wrapper.stopped] at hx
  order x stop hx := by simp [Recorder.Stopped, Recorder.init, Wrapper.stopped] at hx

theorem le_now_of_called (h : RecorderOk r) {op : Op} (hcalled : r.Called op start) :
    start ≤ r.now := by
  rcases hcalled with ⟨x, ⟨stop, hx⟩ | ⟨c, hc⟩, -, rfl⟩ | ⟨c, call, hc, -⟩
  · exact h.log_le _ hx
  · refine (h.client c).start_le _ ?_
    cases hw : r.wrappers c <;> rw [hw] at hc <;> cases hc <;> rfl
  · refine (h.client c).start_le _ ?_
    cases hw : r.wrappers c <;> rw [hw] at hc <;> cases hc
    rfl

theorem tick (h : RecorderOk r) {now : ℤ} (hnow : r.now ≤ now) :
    RecorderOk { r with now := now } :=
  { h with
    client := fun c => { h.client c with
      start_le := fun start hs => ((h.client c).start_le start hs).trans hnow }
    log_le := fun y hy => (h.log_le y hy).trans hnow }

/-- The world moves on, with every client at the same call. -/
theorem world (h : RecorderOk r) {w : World n} (hpre : r.world.servers.agreed <+: w.servers.agreed)
    (hclerks : ∀ c, (w.clerks c).calling = (r.world.clerks c).calling ∧
      (w.clerks c).requestId = (r.world.clerks c).requestId)
    (hsent : ∀ op ∈ w.sent, op ∈ r.world.sent ∨
      ∃ call, (r.world.clerks op.clientId).calling = some call ∧
        (r.world.clerks op.clientId).op op.clientId call = op) :
    RecorderOk { r with world := w } := by
  have hop (c : ℤ) (call : Call) : (w.clerks c).op c call = (r.world.clerks c).op c call := by
    rw [Clerk.op, Clerk.op, (hclerks c).2]
  refine { h with client := fun c => ?_, placed := fun x hx => ?_, sent := fun op hop' => ?_,
                  order := fun x stop hx op start hcalled hlt q hq => ?_ }
  · exact { h.client c with calling := (hclerks c).1.trans (h.client c).calling }
  · exact (h.placed x hx).mono hpre fun c => (hclerks c).2.ge
  · rcases (hsent op hop').elim (h.sent op) .inr with hx | ⟨call, hcall, heq⟩
    · exact .inl hx
    · exact .inr ⟨call, (hclerks _).1.trans hcall, (hop _ _).trans heq⟩
  · have hcalled' : r.Called op start := by
      refine hcalled.imp_right ?_
      rintro ⟨c, call, hc, heq⟩
      exact ⟨c, call, hc, (hop c call).symm.trans heq⟩
    rcases Nat.lt_or_ge q r.world.servers.agreed.length with hold | hnew
    · have hq' : r.world.servers.agreed[q]? = some op := by
        rw [← hq]
        exact (List.prefix_iff_getElem?.mp hpre q hold).symm ▸ List.getElem?_eq_getElem hold
      exact h.order x stop hx op start hcalled' hlt q hq'
    · -- the entry is new
      have hentry := (h.placed x (Recorder.Stopped.answers hx)).entry
      exact (List.getElem?_eq_some_iff.mp hentry).1.trans_le hnew

/-- A step of a wrapper outside of the call: the clock is read before it or after it. -/
theorem reads (h : RecorderOk r) {y : Wrapper} (hcalled : y.called = (r.wrappers c).called)
    (hans : y.answered = (r.wrappers c).answered)
    (hstart : ∀ start, y.start = some start → start ≤ r.now)
    (hstop : ∀ x stop, y.stopped = some (x, stop) → x.start ≤ stop ∧ stop = r.now) :
    RecorderOk (r.setWrapper c y) := by
  have hanswers (x : Answered) : (r.setWrapper c y).Answers x ↔ r.Answers x :=
    Recorder.answers_setWrapper hans
  have hstopped (x : Answered) (stop : ℤ) (hx : (r.setWrapper c y).Stopped x stop) :
      r.Stopped x stop ∨ x.start ≤ stop ∧ stop = r.now := by
    rcases hx with hx | hx
    · exact .inl (.inl hx)
    · rcases (Recorder.exists_setWrapper_iff Wrapper.stopped).mp hx with heq | ⟨d, -, hd⟩
      · exact .inr (hstop x stop heq)
      · exact .inl (.inr ⟨d, hd⟩)
  refine { h with client := ?_, placed := fun x hx => h.placed x ((hanswers x).mp hx)
                  sent := fun op hop => ?_, start_le_stop := fun x stop hx => ?_
                  order := fun x stop hx op start hcall hlt => ?_ }
  · refine (forall_update_iff _ (Wrapper.Ok (r.setWrapper c y))).mpr ⟨?_, ?_⟩
    · exact ⟨hcalled ▸ (h.client c).calling, hans ▸ (h.client c).own, hstart⟩
    · exact fun d _ => { h.client d with }
  · exact (h.sent op hop).imp_left fun ⟨x, hx, heq⟩ => ⟨x, (hanswers x).mpr hx, heq⟩
  · exact (hstopped x stop hx).elim (h.start_le_stop x stop) And.left
  · have hcall' : r.Called op start :=
      hcall.of_congr rfl (fun x => (hanswers x).mp)
        (Recorder.apply_setWrapper Wrapper.called hcalled)
    rcases hstopped x stop hx with hold | ⟨-, rfl⟩
    · exact h.order x stop hold op start hcall' hlt
    · -- nothing has been called later than now
      exact absurd (h.le_now_of_called hcall') (not_le.mpr hlt)

/-- The clerk is called. -/
theorem call (h : RecorderOk r) (hledger : r.world.Ledger) (hw : r.world.Consistent) {call : Call}
    (hc : r.wrappers c = .stamped cli call start) (hnone : (r.world.clerks c).calling = none) :
    RecorderOk { r.setWrapper c (.calling cli call start) with
      world := r.world.send c (r.world.clerks c) call } := by
  have hnew := hledger.op_not_mem hw call hnone
  have hid (d : ℤ) : ((r.world.send c (r.world.clerks c) call).clerks d).requestId =
      (r.world.clerks d).requestId := by
    rcases eq_or_ne d c with rfl | hne
    · rw [World.send_clerks_self]
    · rw [World.send_clerks_of_ne _ _ _ hne]
  have hanswers (x : Answered) :
      (r.setWrapper c (.calling cli call start)).Answers x ↔ r.Answers x :=
    Recorder.answers_setWrapper (by rw [hc]; rfl)
  have hstopped (x : Answered) (stop : ℤ) :
      (r.setWrapper c (.calling cli call start)).Stopped x stop ↔ r.Stopped x stop :=
    Recorder.stopped_setWrapper (by rw [hc]; rfl)
  refine { h with client := ?_, placed := fun x hx => ?_, sent := fun op hop => ?_
                  start_le_stop := fun x stop hx => h.start_le_stop x stop ((hstopped x stop).mp hx)
                  order := fun x stop hx op start' hcalled hlt q hq => ?_ }
  · refine (forall_update_iff _ (Wrapper.Ok _)).mpr ⟨⟨?_, ?_, ?_⟩, fun d hne => ?_⟩
    · rw [World.send_clerks_self]
      rfl
    · exact fun x hx => by cases hx
    · exact fun s hs => (h.client c).start_le s (hc ▸ hs)
    · refine { h.client d with calling := ?_ }
      rw [World.send_clerks_of_ne _ _ _ hne]
      exact (h.client d).calling
  · exact (h.placed x ((hanswers x).mp hx)).mono (List.prefix_refl _) fun d => (hid d).ge
  · rcases List.mem_append.mp hop with hold | hop
    · rcases h.sent op hold with ⟨x, hx, heq⟩ | ⟨call', hcall', heq⟩
      · exact .inl ⟨x, (hanswers x).mpr hx, heq⟩
      · have hne : op.clientId ≠ c := fun heq => by
          rw [heq, hnone] at hcall'
          cases hcall'
        rw [World.send_clerks_of_ne _ _ _ hne]
        exact .inr ⟨call', hcall', heq⟩
    · obtain rfl := List.mem_singleton.mp hop
      refine .inr ⟨call, ?_⟩
      show ((r.world.send c _ call).clerks c).calling = _ ∧
        ((r.world.send c _ call).clerks c).op c _ = _
      rw [World.send_clerks_self]
      exact ⟨rfl, rfl⟩
  · refine h.order x stop ((hstopped x stop).mp hx) op start' ?_ hlt q hq
    refine hcalled.imp (fun ⟨y, hy, heq⟩ => ⟨y, (hanswers y).mp hy, heq⟩) ?_
    rintro ⟨d, call', hd, hop⟩
    have hop' : (r.world.clerks d).op d call' = op := by
      rw [← hop, Clerk.op, Clerk.op]
      rw [hid]
    refine ⟨d, call', ?_, hop'⟩
    rcases eq_or_ne d c with rfl | hne
    · -- the new request is in no log
      rw [Recorder.setWrapper_wrappers_self] at hd
      cases hd
      exact absurd (List.mem_of_getElem? hq) (hop' ▸ hnew)
    · rwa [Recorder.setWrapper_wrappers_of_ne _ _ hne] at hd

/-- The operation is written down. -/
theorem append (h : RecorderOk r) (hc : r.wrappers c = .ended x stop) :
    RecorderOk { r.setWrapper c .idle with log := r.log ++ [(x, stop)] } := by
  have hx : (r.wrappers c).answered = some x := by rw [hc]; rfl
  obtain ⟨hclient, hfresh⟩ := (h.client c).own x hx
  have hanswers (y : Answered) :
      Recorder.Answers { r.setWrapper c .idle with log := r.log ++ [(x, stop)] } y ↔
        r.Answers y := by
    constructor
    · rintro (⟨t, hy⟩ | hy)
      · rcases List.mem_append.mp hy with hy | hy
        · exact .inl ⟨t, hy⟩
        · obtain ⟨rfl, -⟩ := Prod.mk.inj (List.mem_singleton.mp hy)
          exact .inr ⟨c, hx⟩
      · rcases (Recorder.exists_setWrapper_iff Wrapper.answered).mp hy with hidle | ⟨d, -, hd⟩
        · cases hidle
        · exact .inr ⟨d, hd⟩
    · rintro (⟨t, hy⟩ | ⟨d, hd⟩)
      · exact .inl ⟨t, List.mem_append_left _ hy⟩
      · rcases eq_or_ne d c with rfl | hne
        · cases hx.symm.trans hd
          exact .inl ⟨stop, List.mem_append_right _ List.mem_cons_self⟩
        · exact .inr ((Recorder.exists_setWrapper_iff Wrapper.answered).mpr (.inr ⟨d, hne, hd⟩))
  have hstopped (y : Answered) (t : ℤ)
      (hy : Recorder.Stopped { r.setWrapper c .idle with log := r.log ++ [(x, stop)] } y t) :
      r.Stopped y t := by
    rcases hy with hy | hy
    · rcases List.mem_append.mp hy with hy | hy
      · exact .inl hy
      · obtain ⟨rfl, rfl⟩ := Prod.mk.inj (List.mem_singleton.mp hy)
        exact .inr ⟨c, by rw [hc]; rfl⟩
    · rcases (Recorder.exists_setWrapper_iff Wrapper.stopped).mp hy with hidle | ⟨d, -, hd⟩
      · cases hidle
      · exact .inr ⟨d, hd⟩
  refine { client := ?_, placed := fun y hy => h.placed y ((hanswers y).mp hy)
           sent := fun op hop => ?_, nodup := ?_, log_le := fun y hy => ?_
           start_le_stop := fun y t hy => h.start_le_stop y t (hstopped y t hy)
           order := fun y t hy op start hcall => h.order y t (hstopped y t hy) op start ?_ }
  · refine (forall_update_iff _ (Wrapper.Ok _)).mpr ⟨⟨?_, ?_, ?_⟩, fun d hne => ?_⟩
    · exact (h.client c).calling.trans (by rw [hc]; rfl)
    · exact fun y hy => by cases hy
    · exact fun s hs => by cases hs
    · refine { h.client d with own := fun y hy => ?_ }
      obtain ⟨hy, hlog⟩ := (h.client d).own y hy
      refine ⟨hy, ?_⟩
      simp only [List.map_append, List.map_cons, List.map_nil, List.mem_append, List.mem_singleton]
      rintro (hmem | heq)
      · exact hlog hmem
      · exact hne (hy.symm.trans (heq ▸ hclient))
  · exact (h.sent op hop).imp_left fun ⟨x, hx, heq⟩ => ⟨x, (hanswers x).mpr hx, heq⟩
  · simp only [List.map_append, List.map_cons, List.map_nil]
    exact List.nodup_append'.mpr ⟨h.nodup, List.nodup_singleton _, by simpa using hfresh⟩
  · rcases List.mem_append.mp hy with hy | hy
    · exact h.log_le y hy
    · obtain rfl := List.mem_singleton.mp hy
      exact (h.client c).start_le _ (by rw [hc]; rfl)
  · exact hcall.of_congr rfl (fun x => (hanswers x).mp)
      (Recorder.apply_setWrapper Wrapper.called (by rw [hc]; rfl))

/-- The request of the call that returns took effect. -/
theorem placed_of_reply (hw : r.world.Consistent) (hkept : r.world.servers.Kept) (cli start : ℤ)
    {call : Call} {pos : ℕ} {response : WaitChResponse}
    (hanswer : ⟨(r.world.clerks c).op c call, pos, some response⟩ ∈ r.world.servers.answers) :
    Answered.Placed (r.world.close c)
      { cli := cli, call := call, start := start, value := call.result response
        op := (r.world.clerks c).op c call
        pos := effectAt r.world.servers.agreed ((r.world.clerks c).op c call) pos } := by
  have hget := hkept.answers _ hanswer _ rfl
  have hmem := List.mem_of_getElem? hget
  obtain ⟨st, op, st', hst, hop, happly⟩ :=
    Machine.performs_of_responseAt (hw.sound.answers _ hanswer _ rfl)
  obtain rfl : (r.world.clerks c).op c call = op := Option.some.inj (hget.symm.trans hop)
  have hresponse : response = (st.applyOp ((r.world.clerks c).op c call)).2 :=
    (congrArg Prod.snd (Option.some.inj happly)).symm
  refine ⟨?_, rfl, rfl, rfl, ?_, fun htype => ?_, fun htype => ?_⟩
  · unfold effectAt
    split
    · exact hget
    · exact List.getElem?_idxOf hmem
  · show (r.world.clerks c).requestId < ((r.world.close c).clerks c).requestId
    rw [World.close_clerks_self]
    exact Int.lt_succ _
  · show _ ∉ r.world.servers.agreed.take (effectAt _ _ pos)
    rw [effectAt, if_neg (show ((r.world.clerks c).op c call).type ≠ .get from htype),
      List.mem_take_iff_idxOf_lt hmem]
    exact lt_irrefl _
  · have htype' : ((r.world.clerks c).op c call).type = .get := htype
    refine ⟨st, ?_, ?_⟩
    · rw [effectAt, if_pos htype']
      exact hst
    · rw [Call.result, htype]
      rcases State.reply_applyOp_get htype' with ⟨herr, hval⟩ | ⟨herr, hval⟩
      · rw [← hresponse] at herr hval
        have hval : st.storage.get? call.key = some response.value := hval
        simp [herr, hval]
      · rw [← hresponse] at herr
        have hval : st.storage.get? call.key = none := hval
        simp [herr, hval]

/-- The clerk returns. -/
theorem reply (h : RecorderOk r) (hw : r.world.Consistent) (hkept : r.world.servers.Kept)
    {call : Call} {pos : ℕ} {response : WaitChResponse}
    (hc : r.wrappers c = .calling cli call start)
    (hanswer : ⟨(r.world.clerks c).op c call, pos, some response⟩ ∈ r.world.servers.answers)
    (hcall : (r.world.clerks c).calling = some call) :
    RecorderOk { r.setWrapper c (.returned
        { cli := cli, call := call, start := start, value := call.result response
          op := (r.world.clerks c).op c call
          pos := effectAt r.world.servers.agreed ((r.world.clerks c).op c call) pos }) with
      world := r.world.close c } := by
  have hplaced := placed_of_reply hw hkept cli start hanswer
  generalize hx : Answered.mk _ _ _ _ _ _ = x at hplaced ⊢
  have hxop : x.op = (r.world.clerks c).op c call := by rw [← hx]
  have hxstart : x.start = start := by rw [← hx]
  have hid (d : ℤ) : (r.world.clerks d).requestId ≤ ((r.world.close c).clerks d).requestId := by
    rcases eq_or_ne d c with rfl | hne
    · rw [World.close_clerks_self]
      exact (Int.lt_succ _).le
    · rw [World.close_clerks_of_ne _ hne]
  have hstopped (y : Answered) (t : ℤ) :
      (r.setWrapper c (.returned x)).Stopped y t ↔ r.Stopped y t :=
    Recorder.stopped_setWrapper (by rw [hc]; rfl)
  have hanswers (y : Answered) :
      (r.setWrapper c (.returned x)).Answers y ↔ r.Answers y ∨ y = x := by
    constructor
    · rintro (hy | hy)
      · exact .inl (.inl hy)
      · rcases (Recorder.exists_setWrapper_iff Wrapper.answered).mp hy with heq | ⟨d, -, hd⟩
        · exact .inr (Option.some.inj heq).symm
        · exact .inl (.inr ⟨d, hd⟩)
    · rintro ((hy | ⟨d, hd⟩) | rfl)
      · exact .inl hy
      · refine .inr ((Recorder.exists_setWrapper_iff Wrapper.answered).mpr (.inr ⟨d, ?_, hd⟩))
        rintro rfl
        rw [hc] at hd
        cases hd
      · exact .inr ((Recorder.exists_setWrapper_iff Wrapper.answered).mpr (.inl rfl))
  refine { h with client := ?_, placed := fun y hy => ?_, sent := fun op hop => ?_
                  start_le_stop := fun y t hy => h.start_le_stop y t ((hstopped y t).mp hy)
                  order := fun y t hy op start' hcalled => ?_ }
  · refine (forall_update_iff _ (Wrapper.Ok _)).mpr ⟨⟨?_, ?_, ?_⟩, fun d hne => ?_⟩
    · rw [World.close_clerks_self]
      rfl
    · intro y hy
      cases hy
      refine ⟨by rw [hxop]; rfl, fun hmem => ?_⟩
      -- what is in the log was asked for before
      obtain ⟨z, hz, hop⟩ := List.mem_map.mp hmem
      have hold := (h.placed z.1 (.inl ⟨z.2, hz⟩)).old
      rw [hop, hxop] at hold
      exact lt_irrefl _ hold
    · exact fun s hs => (h.client c).start_le s (by rw [hc, ← hxstart]; exact hs)
    · refine { h.client d with calling := ?_ }
      rw [World.close_clerks_of_ne _ hne]
      exact (h.client d).calling
  · rcases (hanswers y).mp hy with hold | rfl
    · exact (h.placed y hold).mono (List.prefix_refl _) hid
    · exact hplaced
  · rcases h.sent op hop with ⟨y, hy, heq⟩ | ⟨call', hcall', heq⟩
    · exact .inl ⟨y, (hanswers y).mpr (.inl hy), heq⟩
    · rcases eq_or_ne op.clientId c with hclient | hne
      · rw [hclient] at hcall' heq
        obtain rfl : call = call' := Option.some.inj (hcall.symm.trans hcall')
        exact .inl ⟨x, (hanswers x).mpr (.inr rfl), hxop.trans heq⟩
      · rw [World.close_clerks_of_ne _ hne]
        exact .inr ⟨call', hcall', heq⟩
  · refine h.order y t ((hstopped y t).mp hy) op start' ?_
    rcases hcalled with ⟨z, hz, hop, hstart'⟩ | ⟨d, call', hd, hop⟩
    · rcases (hanswers z).mp hz with hold | rfl
      · exact .inl ⟨z, hold, hop, hstart'⟩
      · refine .inr ⟨c, call, ?_, hxop.symm.trans hop⟩
        rw [hc, ← hstart', hxstart]
        rfl
    · rcases eq_or_ne d c with rfl | hne
      · rw [Recorder.setWrapper_wrappers_self] at hd
        cases hd
      · rw [Recorder.setWrapper_wrappers_of_ne _ _ hne] at hd
        rw [World.close_clerks_of_ne _ hne] at hop
        exact .inr ⟨d, call', hd, hop⟩

/-- **The wrappers and the log, step.** -/
theorem step (h : RecorderOk r) (hw : r.world.Consistent) (hkept : r.world.servers.Kept)
    (hledger : r.world.Ledger) {a : RecorderAction} (hstep : r.step a = some r') :
    RecorderOk r' := by
  cases Recorder.moves_of_step (fun c => (h.client c).calling) hstep with
  | tick hnow => exact h.tick hnow
  | stamp cli call hc =>
    refine h.reads (by rw [hc]; rfl) (by rw [hc]; rfl) (fun start hs => ?_) fun x stop hx => ?_
    · exact (Option.some.inj hs).ge
    · cases hx
  | call hc hnone => exact h.call hledger hw hc hnone
  | reply hc hanswer hcall => exact h.reply hw hkept hc hanswer hcall
  | @stop c x hc =>
    have hstart : x.start ≤ r.now := (h.client c).start_le _ (by rw [hc]; rfl)
    refine h.reads (by rw [hc]; rfl) (by rw [hc]; rfl) (fun start hs => ?_) fun y stop hy => ?_
    · exact Option.some.inj hs ▸ hstart
    · cases hy
      exact ⟨hstart, rfl⟩
  | append hc => exact h.append hc
  | @resend c call hcall =>
    refine h.world (List.prefix_refl _) (fun d => ?_) fun op hop => ?_
    · rcases eq_or_ne d c with rfl | hne
      · rw [World.send_clerks_self, hcall]
        exact ⟨rfl, rfl⟩
      · rw [World.send_clerks_of_ne _ _ _ hne]
        exact ⟨rfl, rfl⟩
    · rcases List.mem_append.mp hop with hold | hnew
      · exact .inl hold
      · obtain rfl := List.mem_singleton.mp hnew
        exact .inr ⟨call, hcall, rfl⟩
  | serves requests hs =>
    exact h.world (Cluster.agreed_isPrefix hs) (fun d => ⟨rfl, rfl⟩) fun op hop => .inl hop

/-- **The wrappers and the log, run.** -/
theorem of_reachable (hr : r.Reachable) : RecorderOk r := by
  have hboth : r.Reachable ∧ RecorderOk r := by
    refine Run.invariant (I := fun r => r.Reachable ∧ RecorderOk r) ?_ hr ⟨.refl _, .init⟩
    rintro r a r' ⟨hr, hok⟩ hkeeps hstep
    obtain ⟨hw, hkept, hledger, -⟩ := World.invariants_of_reachable (Recorder.reachable_world hr)
    exact ⟨.tail a hr hkeeps hstep, hok.step hw hkept hledger hstep⟩
  exact hboth.2

end RecorderOk

end MitDistributed.KVRaft
