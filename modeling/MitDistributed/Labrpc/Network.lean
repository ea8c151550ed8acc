import MitDistributed.Rpc.Exchange
import MitDistributed.Storage

namespace MitDistributed.Labrpc

open Function Transition

/-!
# The simulated network (`labrpc/labrpc.go`)

Every `Call` hands its request to the goroutine of the network, which starts a `processReq` for it;
that starts a goroutine that runs the handler, waits for it and sends one message back.  So a call
has up to four goroutines: the caller, `processReq`, the one that runs `server.dispatch`, and one
that takes the reply of a handler nobody waits for any more.  They talk over unbuffered channels.

* `Job` — a call with its goroutines, `Job.step` the steps they take;
* `Network` — the network with all calls, `Network.step` the steps of the goroutines and the
  functions the tests call (`AddServer`, `Enable`, `Cleanup`, …).

How long a sleep or a timer takes is left open; the random draws are inputs of the steps.
-/

/-! ### Servers -/

/-- The methods of a service that are handlers. -/
structure Service where
  name : Bytes
  methods : List Bytes
  deriving DecidableEq

structure Server where
  services : List Service
  /-- Incoming requests. -/
  count : BitVec 64
  deriving DecidableEq

/-- `MakeServer` -/
def Server.make : Server :=
  { services := [], count := 0 }

/-- A service replaces the one of its name. -/
def Server.addService (rs : Server) (svc : Service) : Server :=
  { rs with services := svc :: rs.services.filter fun old => old.name ≠ svc.name }

/-- One more incoming request. -/
def Server.countRequest (rs : Server) : Server :=
  { rs with count := rs.count + 1 }

/-- The byte of a dot. -/
def dot : UInt8 := 46

/-- Split a name at its last dot; without one the slice panics. -/
def splitMethod : Bytes → Option (Bytes × Bytes)
  | [] => none
  | b :: rest =>
    match splitMethod rest with
    | some (service, method) => some (b :: service, method)
    | none => if b = dot then some ([], rest) else none

/-- Whether `dispatch` finds a handler; else it panics or ends the program. -/
def Server.knows (rs : Server) (svcMeth : Bytes) : Bool :=
  match splitMethod svcMeth with
  | none => false
  | some (serviceName, methodName) =>
    (rs.services.find? fun svc => svc.name = serviceName).any fun svc => methodName ∈ svc.methods

/-! ### Calls -/

structure ReqMsg (E : Type) where
  endname : E
  svcMeth : Bytes
  args : Bytes
  deriving DecidableEq

structure ReplyMsg where
  ok : Bool
  reply : Bytes
  deriving DecidableEq

/-- The message of a failure. -/
def ReplyMsg.failure : ReplyMsg :=
  { ok := false, reply := [] }

/-- What `processReq` has read of the network. -/
structure Info (N : Type) where
  servername : N
  /-- The address of the server. -/
  server : ℕ
  reliable : Bool
  longreordering : Bool
  deriving DecidableEq

/-- The goroutine of `Call`: it offers its request, waits for the message, has returned. -/
inductive Caller
  | sending
  | waiting
  | returned (msg : ReplyMsg)
  deriving DecidableEq

/-- The goroutine of `processReq`. -/
inductive Proc (N : Type)
  /-- the request has not been taken -/
  | idle
  | start
  /-- the end is connected; sleeps if the network is not reliable -/
  | delay (info : Info N)
  /-- waits for the handler, looking every 100 ms whether the server is dead -/
  | poll (info : Info N)
  /-- the loop is left, with the reply of the handler or without one -/
  | check (info : Info N) (reply : Option ReplyMsg)
  /-- a timer will send the message -/
  | after (msg : ReplyMsg)
  /-- sends the message -/
  | reply (msg : ReplyMsg)
  | done
  deriving DecidableEq

/-- The goroutine that runs the handler on the server with an address; it then sends the reply. -/
inductive Handler
  | idle
  | ready (server : ℕ)
  | running (server : ℕ)
  | sending (server : ℕ) (reply : Bytes)
  | done (server : ℕ) (reply : Bytes)
  deriving DecidableEq

/-- The goroutine that takes the reply of a handler nobody waits for. -/
inductive Drain
  | idle
  | waiting
  | done
  deriving DecidableEq

structure Job (E N : Type) where
  req : ReqMsg E
  caller : Caller
  proc : Proc N
  handler : Handler
  drain : Drain
  deriving DecidableEq

inductive JobAct
  /-- the goroutine of the network takes the request -/
  | accept
  /-- the caller finds the network destroyed -/
  | abandon
  | readInfo
  | dropRequest
  | spawn
  /-- the reply of the handler is received -/
  | receive
  /-- 100 ms have passed -/
  | tick
  /-- the last look at the server; whether the reply is dropped or delayed, where it may be -/
  | check (drop delay : Bool)
  | fire
  /-- the caller gets the message -/
  | reply
  | dispatch
  /-- the handler returns -/
  | finish (reply : Bytes)
  | drain
  deriving DecidableEq

/-- The network, with the servers by address. -/
structure Network (E N : Type) where
  reliable : Bool
  longReordering : Bool
  ends : E → Bool
  enabled : E → Bool
  servers : N → Option ℕ
  connections : E → Option N
  objects : List Server
  /-- Closed by `Cleanup`. -/
  done : Bool
  /-- The goroutine of the network is in its loop. -/
  looping : Bool
  count : BitVec 32
  bytes : BitVec 64
  jobs : List (Job E N)
  /-- The program has ended: a panic, or `log.Fatalf`. -/
  crashed : Bool

section Step

variable {E N : Type}

namespace Network

/-- `MakeNetwork` -/
def make : Network E N :=
  { reliable := true, longReordering := false, ends := fun _ => false, enabled := fun _ => false
    servers := fun _ => none, connections := fun _ => none, objects := [], done := false
    looping := true, count := 0, bytes := 0, jobs := [], crashed := false }

/-- What is read of an end, if it is enabled and connected to a server. -/
def readEndnameInfo (rn : Network E N) (endname : E) : Option (Info N) :=
  if rn.enabled endname then
    (rn.connections endname).bind fun servername =>
      (rn.servers servername).map fun server =>
        { servername := servername, server := server, reliable := rn.reliable
          longreordering := rn.longReordering }
  else none

def isServerDead (rn : Network E N) (endname : E) (servername : N) (server : ℕ) : Bool :=
  !rn.enabled endname || rn.servers servername ≠ some server

/-- `GetCount`; there is no server after `DeleteServer`. -/
def getCount (rn : Network E N) (servername : N) : Option (BitVec 64) :=
  (rn.servers servername).bind fun server => rn.objects[server]?.map Server.count

end Network

/-- What a step of a job does to the network: requests and bytes to be counted, a server on which
    the handler is looked up. -/
structure Effect where
  count : ℕ
  bytes : ℕ
  dispatch : Option ℕ

def Effect.none : Effect :=
  { count := 0, bytes := 0, dispatch := .none }

namespace Job

/-- `Call` -/
def call (req : ReqMsg E) : Job E N :=
  { req := req, caller := .sending, proc := .idle, handler := .idle, drain := .idle }

/-- The rest of `processReq` after the last look at the server. -/
def answer (info : Info N) (msg : ReplyMsg) (drop delay : Bool) : Proc N × ℕ :=
  if !info.reliable && drop then (.reply .failure, 0)
  else if info.longreordering && delay then (.after msg, 0)
  else (.reply msg, msg.reply.length)

/-- One step of the goroutines of a call. -/
def step (rn : Network E N) (job : Job E N) : JobAct → Option (Job E N × Effect)
  | .accept =>
    if job.caller = .sending ∧ rn.looping = true then
      some ({ job with caller := .waiting, proc := .start },
        { Effect.none with count := 1, bytes := job.req.args.length })
    else none
  | .abandon =>
    if job.caller = .sending ∧ rn.done = true then
      some ({ job with caller := .returned .failure }, .none)
    else none
  | .readInfo =>
    match job.proc with
    | .start =>
      match rn.readEndnameInfo job.req.endname with
      | some info => some ({ job with proc := .delay info }, .none)
      | none => some ({ job with proc := .after .failure }, .none)
    | _ => none
  | .dropRequest =>
    match job.proc with
    | .delay info =>
      if info.reliable then none else some ({ job with proc := .reply .failure }, .none)
    | _ => none
  | .spawn =>
    match job.proc with
    | .delay info =>
      some ({ job with proc := .poll info, handler := .ready info.server }, .none)
    | _ => none
  | .receive =>
    match job.proc, job.handler with
    | .poll info, .sending server reply =>
      some ({ job with
        proc := .check info (some { ok := true, reply := reply })
        handler := .done server reply }, .none)
    | _, _ => none
  | .tick =>
    match job.proc with
    | .poll info =>
      if rn.isServerDead job.req.endname info.servername info.server then
        some ({ job with proc := .check info none, drain := .waiting }, .none)
      else some (job, .none)
    | _ => none
  | .check drop delay =>
    match job.proc with
    | .check info reply =>
      match reply with
      | some msg =>
        if rn.isServerDead job.req.endname info.servername info.server then
          some ({ job with proc := .reply .failure }, .none)
        else
          let next := answer info msg drop delay
          some ({ job with proc := next.1 }, { Effect.none with bytes := next.2 })
      | none => some ({ job with proc := .reply .failure }, .none)
    | _ => none
  | .fire =>
    match job.proc with
    | .after msg =>
      some ({ job with proc := .reply msg }, { Effect.none with bytes := msg.reply.length })
    | _ => none
  | .reply =>
    match job.proc with
    | .reply msg =>
      if job.caller = .waiting then
        some ({ job with proc := .done, caller := .returned msg }, .none)
      else none
    | _ => none
  | .dispatch =>
    match job.handler with
    | .ready server =>
      some ({ job with handler := .running server }, { Effect.none with dispatch := some server })
    | _ => none
  | .finish reply =>
    match job.handler with
    | .running server => some ({ job with handler := .sending server reply }, .none)
    | _ => none
  | .drain =>
    match job.drain, job.handler with
    | .waiting, .sending server reply =>
      some ({ job with drain := .done, handler := .done server reply }, .none)
    | _, _ => none

end Job

inductive Act (E N : Type)
  | call (req : ReqMsg E)
  | job (i : ℕ) (a : JobAct)
  /-- the goroutine of the network ends -/
  | leave
  | makeServer
  | addService (server : ℕ) (svc : Service)
  | reliable (yes : Bool)
  | longReordering (yes : Bool)
  | makeEnd (endname : E)
  | addServer (servername : N) (server : ℕ)
  | deleteServer (servername : N)
  | connect (endname : E) (servername : N)
  | enable (endname : E) (enabled : Bool)
  | cleanup

namespace Network

/-- The network after a step of job `i`; `server.dispatch` counts the request, and a handler that
    is not found ends the program. -/
def after (rn : Network E N) (i : ℕ) (job : Job E N) (effect : Effect) : Network E N :=
  { rn with
    jobs := rn.jobs.set i job
    count := rn.count + .ofNat 32 effect.count
    bytes := rn.bytes + .ofNat 64 effect.bytes
    objects := effect.dispatch.elim rn.objects fun server =>
      rn.objects.modify server Server.countRequest
    crashed := effect.dispatch.any fun server =>
      !rn.objects[server]?.any fun rs => rs.knows job.req.svcMeth }

variable [DecidableEq E] [DecidableEq N]

def step (rn : Network E N) (a : Act E N) : Option (Network E N) :=
  if rn.crashed then none
  else match a with
  | .call req =>
    if rn.ends req.endname then some { rn with jobs := rn.jobs ++ [.call req] } else none
  | .job i a =>
    rn.jobs[i]?.bind fun job => (job.step rn a).map fun next => rn.after i next.1 next.2
  | .leave => if rn.looping && rn.done then some { rn with looping := false } else none
  | .makeServer => some { rn with objects := rn.objects ++ [.make] }
  | .addService server svc =>
    rn.objects[server]?.map fun rs =>
      { rn with objects := rn.objects.set server (rs.addService svc) }
  | .reliable yes => some { rn with reliable := yes }
  | .longReordering yes => some { rn with longReordering := yes }
  | .makeEnd endname =>
    if rn.ends endname then some { rn with crashed := true }
    else some { rn with
      ends := update rn.ends endname true
      enabled := update rn.enabled endname false
      connections := update rn.connections endname none }
  | .addServer servername server =>
    if server < rn.objects.length then
      some { rn with servers := update rn.servers servername (some server) }
    else none
  | .deleteServer servername =>
    some { rn with servers := update rn.servers servername none }
  | .connect endname servername =>
    some { rn with connections := update rn.connections endname (some servername) }
  | .enable endname enabled =>
    some { rn with enabled := update rn.enabled endname enabled }
  | .cleanup =>
    -- closing a closed channel panics
    if rn.done then some { rn with crashed := true } else some { rn with done := true }

def Reachable (rn : Network E N) : Prop :=
  Run step (fun _ _ => True) make rn

end Network

/-! ### Inversion -/

section

variable (rn : Network E N) (job : Job E N)

/-- What the steps of a job can do. -/
inductive Job.Moves : Job E N → Effect → Prop
  | accept (hcaller : job.caller = .sending) (hlooping : rn.looping = true) :
      Moves { job with caller := .waiting, proc := .start }
        { Effect.none with count := 1, bytes := job.req.args.length }
  | abandon (hcaller : job.caller = .sending) (hdone : rn.done = true) :
      Moves { job with caller := .returned .failure } .none
  | connected (hproc : job.proc = .start) (hinfo : rn.readEndnameInfo job.req.endname = some info) :
      Moves { job with proc := .delay info } .none
  | disconnected (hproc : job.proc = .start) (hinfo : rn.readEndnameInfo job.req.endname = none) :
      Moves { job with proc := .after .failure } .none
  | dropRequest (hproc : job.proc = .delay info) (hreliable : info.reliable = false) :
      Moves { job with proc := .reply .failure } .none
  | spawn (hproc : job.proc = .delay info) :
      Moves { job with proc := .poll info, handler := .ready info.server } .none
  | receive (hproc : job.proc = .poll info) (hhandler : job.handler = .sending server reply) :
      Moves { job with
        proc := .check info (some { ok := true, reply := reply }), handler := .done server reply }
        .none
  | dead (hproc : job.proc = .poll info)
      (hdead : rn.isServerDead job.req.endname info.servername info.server = true) :
      Moves { job with proc := .check info none, drain := .waiting } .none
  | alive (hproc : job.proc = .poll info)
      (halive : rn.isServerDead job.req.endname info.servername info.server = false) :
      Moves job .none
  | refuse (hproc : job.proc = .check info reply)
      (hcause : reply = none ∨ rn.isServerDead job.req.endname info.servername info.server = true) :
      Moves { job with proc := .reply .failure } .none
  | dropReply (hproc : job.proc = .check info (some msg))
      (halive : rn.isServerDead job.req.endname info.servername info.server = false)
      (hreliable : info.reliable = false) : Moves { job with proc := .reply .failure } .none
  | delayReply (hproc : job.proc = .check info (some msg))
      (halive : rn.isServerDead job.req.endname info.servername info.server = false)
      (hlong : info.longreordering = true) : Moves { job with proc := .after msg } .none
  | sendReply (hproc : job.proc = .check info (some msg))
      (halive : rn.isServerDead job.req.endname info.servername info.server = false) :
      Moves { job with proc := .reply msg } { Effect.none with bytes := msg.reply.length }
  | fire (hproc : job.proc = .after msg) :
      Moves { job with proc := .reply msg } { Effect.none with bytes := msg.reply.length }
  | reply (hproc : job.proc = .reply msg) (hcaller : job.caller = .waiting) :
      Moves { job with proc := .done, caller := .returned msg } .none
  | dispatch (hhandler : job.handler = .ready server) :
      Moves { job with handler := .running server }
        { Effect.none with dispatch := some server }
  | finish (reply : Bytes) (hhandler : job.handler = .running server) :
      Moves { job with handler := .sending server reply } .none
  | drain (hdrain : job.drain = .waiting) (hhandler : job.handler = .sending server reply) :
      Moves { job with drain := .done, handler := .done server reply } .none

end

/-- **Inversion** of a step of a job. -/
theorem Job.moves_of_step {rn : Network E N} {job : Job E N} {a : JobAct} {next : Job E N × Effect}
    (h : job.step rn a = some next) : job.Moves rn next.1 next.2 := by
  cases a with
  | accept =>
    rw [step] at h
    split at h
    next hcond => obtain rfl := Option.some.inj h; exact .accept hcond.1 hcond.2
    next => cases h
  | abandon =>
    rw [step] at h
    split at h
    next hcond => obtain rfl := Option.some.inj h; exact .abandon hcond.1 hcond.2
    next => cases h
  | readInfo =>
    rw [step] at h
    split at h
    next hproc =>
      split at h
      next info hinfo => obtain rfl := Option.some.inj h; exact .connected hproc hinfo
      next hinfo => obtain rfl := Option.some.inj h; exact .disconnected hproc hinfo
    next => cases h
  | dropRequest =>
    rw [step] at h
    split at h
    next info hproc =>
      split at h
      next => cases h
      next hreliable =>
        cases h
        exact .dropRequest hproc (Bool.not_eq_true _ ▸ hreliable)
    next => cases h
  | spawn =>
    rw [step] at h
    split at h
    next info hproc => obtain rfl := Option.some.inj h; exact .spawn hproc
    next => cases h
  | receive =>
    rw [step] at h
    split at h
    next info server reply hproc hhandler =>
      cases h
      exact .receive hproc hhandler
    next => cases h
  | tick =>
    rw [step] at h
    split at h
    next info hproc =>
      split at h
      next hdead => obtain rfl := Option.some.inj h; exact .dead hproc hdead
      next halive =>
        cases h
        exact .alive hproc (Bool.not_eq_true _ ▸ halive)
    next => cases h
  | check drop delay =>
    rw [step] at h
    split at h
    next info reply hproc =>
      split at h
      next msg =>
        split at h
        next hdead => obtain rfl := Option.some.inj h; exact .refuse hproc (.inr hdead)
        next halive =>
          rw [Bool.not_eq_true] at halive
          cases h
          -- the draws decide what happens to a reply that may be sent
          unfold answer
          split
          next hdrop =>
            rw [Bool.and_eq_true, Bool.not_eq_true'] at hdrop
            exact .dropReply hproc halive hdrop.1
          next =>
            split
            next hdelay => exact .delayReply hproc halive (Bool.and_eq_true .. ▸ hdelay).1
            next => exact .sendReply hproc halive
      next => obtain rfl := Option.some.inj h; exact .refuse hproc (.inl rfl)
    next => cases h
  | fire =>
    rw [step] at h
    split at h
    next msg hproc => obtain rfl := Option.some.inj h; exact .fire hproc
    next => cases h
  | reply =>
    rw [step] at h
    split at h
    next msg hproc =>
      split at h
      next hcaller => obtain rfl := Option.some.inj h; exact .reply hproc hcaller
      next => cases h
    next => cases h
  | dispatch =>
    rw [step] at h
    split at h
    next server hhandler => obtain rfl := Option.some.inj h; exact .dispatch hhandler
    next => cases h
  | finish reply =>
    rw [step] at h
    split at h
    next server hhandler => obtain rfl := Option.some.inj h; exact .finish reply hhandler
    next => cases h
  | drain =>
    rw [step] at h
    split at h
    next server reply hdrain hhandler =>
      cases h
      exact .drain hdrain hhandler
    next => cases h

theorem Job.Moves.req {rn : Network E N} {job job' : Job E N} {effect : Effect}
    (h : job.Moves rn job' effect) : job'.req = job.req := by
  cases h <;> rfl

namespace Network

variable [DecidableEq E] [DecidableEq N]

section

variable (rn : Network E N)

/-- What the steps of the network can do. -/
inductive Moves : Act E N → Network E N → Prop
  | call (hend : rn.ends req.endname = true) :
      Moves (.call req) { rn with jobs := rn.jobs ++ [.call req] }
  | job {i : ℕ} {a : JobAct} {job job' : Job E N} {effect : Effect} (hjob : rn.jobs[i]? = some job)
      (hmove : job.Moves rn job' effect) : Moves (.job i a) (rn.after i job' effect)
  | leave (hdone : rn.done = true) : Moves .leave { rn with looping := false }
  | makeServer : Moves .makeServer { rn with objects := rn.objects ++ [.make] }
  | addService (hrs : rn.objects[server]? = some rs) :
      Moves (.addService server svc)
        { rn with objects := rn.objects.set server (rs.addService svc) }
  | reliable (yes : Bool) : Moves (.reliable yes) { rn with reliable := yes }
  | longReordering (yes : Bool) : Moves (.longReordering yes) { rn with longReordering := yes }
  | makeEnd (hend : rn.ends endname = false) :
      Moves (.makeEnd endname) { rn with
        ends := update rn.ends endname true
        enabled := update rn.enabled endname false
        connections := update rn.connections endname none }
  | makeEndAgain (hend : rn.ends endname = true) :
      Moves (.makeEnd endname) { rn with crashed := true }
  | addServer (hserver : server < rn.objects.length) :
      Moves (.addServer servername server)
        { rn with servers := update rn.servers servername (some server) }
  | deleteServer (servername : N) :
      Moves (.deleteServer servername)
        { rn with servers := update rn.servers servername none }
  | connect (endname : E) (servername : N) :
      Moves (.connect endname servername)
        { rn with connections := update rn.connections endname (some servername) }
  | enable (endname : E) (enabled : Bool) :
      Moves (.enable endname enabled)
        { rn with enabled := update rn.enabled endname enabled }
  | cleanup (hdone : rn.done = false) : Moves .cleanup { rn with done := true }
  | cleanupAgain (hdone : rn.done = true) : Moves .cleanup { rn with crashed := true }

end

variable {rn rn' : Network E N} {a : Act E N}

/-- **Inversion** of a step of the network; a program that has ended takes none. -/
theorem moves_of_step (h : rn.step a = some rn') : rn.crashed = false ∧ rn.Moves a rn' := by
  rw [step.eq_def] at h
  split at h
  next => cases h
  next hcrashed =>
    refine ⟨Bool.not_eq_true _ ▸ hcrashed, ?_⟩
    cases a with
    | call req =>
      dsimp only at h
      split at h
      next hend => obtain rfl := Option.some.inj h; exact .call hend
      next => cases h
    | job i a =>
      obtain ⟨job, hjob, hnext⟩ := Option.bind_eq_some_iff.mp h
      obtain ⟨next, hstep, rfl⟩ := Option.map_eq_some_iff.mp hnext
      exact .job hjob (Job.moves_of_step hstep)
    | leave =>
      dsimp only at h
      split at h
      next hcond =>
        cases h
        exact .leave (Bool.and_eq_true .. ▸ hcond).2
      next => cases h
    | makeServer => obtain rfl := Option.some.inj h; exact .makeServer
    | addService server svc =>
      obtain ⟨rs, hrs, rfl⟩ := Option.map_eq_some_iff.mp h
      exact .addService hrs
    | reliable yes => obtain rfl := Option.some.inj h; exact .reliable yes
    | longReordering yes => obtain rfl := Option.some.inj h; exact .longReordering yes
    | makeEnd endname =>
      dsimp only at h
      split at h
      next hend => obtain rfl := Option.some.inj h; exact .makeEndAgain hend
      next hend =>
        cases h
        exact .makeEnd (Bool.not_eq_true _ ▸ hend)
    | addServer servername server =>
      dsimp only at h
      split at h
      next hserver => obtain rfl := Option.some.inj h; exact .addServer hserver
      next => cases h
    | deleteServer servername => obtain rfl := Option.some.inj h; exact .deleteServer servername
    | connect endname servername =>
      cases h
      exact .connect endname servername
    | enable endname enabled => obtain rfl := Option.some.inj h; exact .enable endname enabled
    | cleanup =>
      dsimp only at h
      split at h
      next hdone => obtain rfl := Option.some.inj h; exact .cleanupAgain hdone
      next hdone =>
        cases h
        exact .cleanup (Bool.not_eq_true _ ▸ hdone)

/-- What a step does to one call: it makes it, takes a step of it, or leaves it as it is. -/
theorem Moves.getElem?_jobs {i : ℕ} {job' : Job E N} (h : rn.Moves a rn')
    (hjob' : rn'.jobs[i]? = some job') :
    rn.jobs[i]? = some job' ∨
    (∃ job effect, rn.jobs[i]? = some job ∧ job.Moves rn job' effect) ∨
    (i = rn.jobs.length ∧ ∃ req, job' = .call req) := by
  cases h with
  | call hend =>
    rw [List.getElem?_append] at hjob'
    split at hjob'
    next => exact .inl hjob'
    next hlt =>
      obtain ⟨hi, hcall⟩ := List.getElem?_eq_some_iff.mp hjob'
      rw [List.length_singleton] at hi
      rw [List.getElem_singleton] at hcall
      exact .inr (.inr ⟨by omega, _, hcall.symm⟩)
  | @job j _ job next effect hjob hmove =>
    by_cases hji : j = i
    · subst hji
      refine .inr (.inl ⟨job, effect, hjob, ?_⟩)
      obtain ⟨hlt, -⟩ := List.getElem?_eq_some_iff.mp hjob
      obtain rfl : next = job' := by simpa [after, hlt] using hjob'
      exact hmove
    · exact .inl (by simpa [after, hji] using hjob')
  | _ => exact .inl hjob'

/-- A call stays where it is in the list, as it was or after a step. -/
theorem Moves.exists_job {i : ℕ} {job : Job E N} (h : rn.Moves a rn')
    (hjob : rn.jobs[i]? = some job) :
    ∃ job', rn'.jobs[i]? = some job' ∧ (job' = job ∨ ∃ effect, job.Moves rn job' effect) := by
  obtain ⟨hlt, -⟩ := List.getElem?_eq_some_iff.mp hjob
  cases h with
  | call => exact ⟨job, by rw [List.getElem?_append_left hlt, hjob], .inl rfl⟩
  | @job j _ old next effect hold hmove =>
    by_cases hji : j = i
    · subst hji
      obtain rfl := Option.some.inj (hjob.symm.trans hold)
      exact ⟨next, by simp [after, hlt], .inr ⟨effect, hmove⟩⟩
    · exact ⟨job, by simpa [after, hji] using hjob, .inl rfl⟩
  | _ => exact ⟨job, hjob, .inl rfl⟩

end Network

end Step

end MitDistributed.Labrpc
