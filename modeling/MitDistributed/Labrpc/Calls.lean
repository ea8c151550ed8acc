import MitDistributed.Labrpc.Network

namespace MitDistributed.Labrpc

open Transition Rpc

/-!
# Calls over the simulated network

The goroutines of a call are always in one of a few phases (`Phase`), whatever else happens on the
network: other calls, servers that come and go, ends that are enabled and disabled.  So a call is
performed at most once, and a positive reply is what its handler returned: the network refines the
calls of `Rpc/Exchange`.
-/

variable {E N : Type}

/-! ### The phases of a call -/

/-- The handler has not handed its reply over. -/
inductive Handler.Pending (server : ℕ) : Handler → Prop
  | ready : Pending server (.ready server)
  | running : Pending server (.running server)
  | sending (reply : Bytes) : Pending server (.sending server reply)

/-- A handler for which `processReq` does not wait: it never ran, its reply was received, or there
    is a goroutine that takes the reply. -/
inductive Left : Handler → Drain → Prop
  | never : Left .idle .idle
  | received (server : ℕ) (reply : Bytes) : Left (.done server reply) .idle
  | waiting {server : ℕ} {handler : Handler} (hpending : handler.Pending server) :
      Left handler .waiting
  | drained (server : ℕ) (reply : Bytes) : Left (.done server reply) .done

/-- A message that `processReq` may send: the reply it received, or a failure. -/
inductive Sent : ReplyMsg → Handler → Drain → Prop
  | positive (server : ℕ) (reply : Bytes) :
      Sent { ok := true, reply := reply } (.done server reply) .idle
  | failure {handler : Handler} {drain : Drain} (hleft : Left handler drain) :
      Sent .failure handler drain

inductive Phase : Caller → Proc N → Handler → Drain → Prop
  | called : Phase .sending .idle .idle .idle
  | abandoned : Phase (.returned .failure) .idle .idle .idle
  | started : Phase .waiting .start .idle .idle
  | delayed (info : Info N) : Phase .waiting (.delay info) .idle .idle
  | polling {info : Info N} {handler : Handler} (hpending : handler.Pending info.server) :
      Phase .waiting (.poll info) handler .idle
  | received (info : Info N) (reply : Bytes) :
      Phase .waiting (.check info (some { ok := true, reply := reply }))
        (.done info.server reply) .idle
  | givenUp {handler : Handler} {drain : Drain} (info : Info N) (hleft : Left handler drain) :
      Phase .waiting (.check info none) handler drain
  | timed {msg : ReplyMsg} {handler : Handler} {drain : Drain} (hsent : Sent msg handler drain) :
      Phase .waiting (.after msg) handler drain
  | replying {msg : ReplyMsg} {handler : Handler} {drain : Drain}
      (hsent : Sent msg handler drain) : Phase .waiting (.reply msg) handler drain
  | returned {msg : ReplyMsg} {handler : Handler} {drain : Drain}
      (hsent : Sent msg handler drain) : Phase (.returned msg) .done handler drain

section Work

variable {server server' : ℕ} {handler handler' : Handler} {drain : Drain} {msg : ReplyMsg}
  {caller : Caller} {proc : Proc N} {reply : Bytes}

theorem Handler.Pending.unique (h : handler.Pending server) (h' : handler.Pending server') :
    server = server' := by
  cases h <;> cases h' <;> rfl

/-- The handler works on. -/
theorem Left.work (h : Left handler drain) (hfrom : handler.Pending server)
    (hto : handler'.Pending server) : Left handler' drain := by
  cases h with
  | waiting => exact .waiting hto
  | never => cases hfrom
  | received => cases hfrom
  | drained => cases hfrom

theorem Sent.work (h : Sent msg handler drain) (hfrom : handler.Pending server)
    (hto : handler'.Pending server) : Sent msg handler' drain := by
  cases h with
  | positive => cases hfrom
  | failure hleft => exact .failure (hleft.work hfrom hto)

theorem Phase.work (h : Phase caller proc handler drain) (hfrom : handler.Pending server)
    (hto : handler'.Pending server) : Phase caller proc handler' drain := by
  cases h with
  | called => cases hfrom
  | abandoned => cases hfrom
  | started => cases hfrom
  | delayed => cases hfrom
  | polling hpending =>
    obtain rfl := hfrom.unique hpending
    exact .polling hto
  | received => cases hfrom
  | givenUp info hleft => exact .givenUp info (hleft.work hfrom hto)
  | timed hsent => exact .timed (hsent.work hfrom hto)
  | replying hsent => exact .replying (hsent.work hfrom hto)
  | returned hsent => exact .returned (hsent.work hfrom hto)

theorem Sent.taken (h : Sent msg handler .waiting) : Sent msg (.done server reply) .done := by
  cases h with
  | failure => exact .failure (.drained server reply)

/-- The reply of a handler nobody waits for is taken. -/
theorem Phase.taken (h : Phase caller proc handler .waiting) :
    Phase caller proc (.done server reply) .done := by
  cases h with
  | givenUp info => exact .givenUp info (.drained server reply)
  | timed hsent => exact .timed hsent.taken
  | replying hsent => exact .replying hsent.taken
  | returned hsent => exact .returned hsent.taken

end Work

namespace Job

variable {rn : Network E N} {job job' : Job E N} {effect : Effect}

def Ok (job : Job E N) : Prop :=
  Phase job.caller job.proc job.handler job.drain

theorem Ok.step (h : job.Ok) (hmove : job.Moves rn job' effect) : job'.Ok := by
  obtain ⟨req, caller, proc, handler, drain⟩ := job
  change Phase caller proc handler drain at h
  cases hmove with
  | accept hcaller => cases hcaller; cases h; exact .started
  | abandon hcaller => cases hcaller; cases h; exact .abandoned
  | @connected info hproc => cases hproc; cases h; exact .delayed info
  | disconnected hproc => cases hproc; cases h; exact .timed (.failure .never)
  | dropRequest hproc => cases hproc; cases h; exact .replying (.failure .never)
  | spawn hproc => cases hproc; cases h; exact .polling .ready
  | @receive info server reply hproc hhandler =>
    cases hproc; cases hhandler; cases h with
    | polling hpending =>
      obtain rfl := hpending.unique (.sending reply)
      exact .received info reply
  | @dead info hproc =>
    cases hproc; cases h with
    | polling hpending => exact .givenUp info (.waiting hpending)
  | alive => exact h
  | refuse hproc =>
    cases hproc; cases h with
    | received _ reply => exact .replying (.failure (.received _ reply))
    | givenUp info hleft => exact .replying (.failure hleft)
  | dropReply hproc =>
    cases hproc; cases h with
    | received _ reply => exact .replying (.failure (.received _ reply))
  | delayReply hproc =>
    cases hproc; cases h with
    | received _ reply => exact .timed (.positive _ reply)
  | sendReply hproc =>
    cases hproc; cases h with
    | received _ reply => exact .replying (.positive _ reply)
  | fire hproc =>
    cases hproc; cases h with
    | timed hsent => exact .replying hsent
  | reply hproc =>
    cases hproc; cases h with
    | replying hsent => exact .returned hsent
  | dispatch hhandler => cases hhandler; exact h.work .ready .running
  | finish reply hhandler => cases hhandler; exact h.work .running (.sending reply)
  | drain hdrain hhandler => cases hdrain; exact h.taken

end Job

/-- The server a handler was started for. -/
def Handler.server : Handler → Option ℕ
  | .idle => none
  | .ready server | .running server | .sending server _ | .done server _ => some server

/-- The server a call has been, or will be, handed to. -/
def Job.Targets (job : Job E N) (server : ℕ) : Prop :=
  (∃ info, job.proc = .delay info ∧ info.server = server) ∨ job.handler.server = some server

theorem Job.Moves.targets {rn : Network E N} {job job' : Job E N} {effect : Effect} {server : ℕ}
    (hmove : job.Moves rn job' effect) (h : job'.Targets server) :
    job.Targets server ∨ ∃ servername, rn.servers servername = some server := by
  cases hmove with
  | connected _ hinfo =>
    rcases h with ⟨info, hproc, hserver⟩ | hhandler
    · -- the server comes from the table of the network
      obtain rfl := Proc.delay.inj hproc
      rw [Network.readEndnameInfo] at hinfo
      split at hinfo
      next =>
        obtain ⟨servername, -, hname⟩ := Option.bind_eq_some_iff.mp hinfo
        obtain ⟨rs, hrs, rfl⟩ := Option.map_eq_some_iff.mp hname
        exact .inr ⟨servername, hserver ▸ hrs⟩
      next => cases hinfo
    · exact .inl (.inr hhandler)
  | spawn hproc =>
    rcases h with ⟨_, hpoll, _⟩ | hhandler
    · cases hpoll
    · exact .inl (.inl ⟨_, hproc, Option.some.inj hhandler⟩)
  | receive _ hhandler =>
    rcases h with ⟨_, hdelay, _⟩ | hserver
    · cases hdelay
    · exact .inl (.inr (by rw [hhandler]; exact hserver))
  | dispatch hhandler => exact .inl (h.imp id fun hserver => by rw [hhandler]; exact hserver)
  | finish _ hhandler => exact .inl (h.imp id fun hserver => by rw [hhandler]; exact hserver)
  | drain _ hhandler => exact .inl (h.imp id fun hserver => by rw [hhandler]; exact hserver)
  | abandon => exact .inl h
  | alive => exact .inl h
  | _ =>
    -- neither the handler nor the server that was read changes
    rcases h with ⟨_, hdelay, _⟩ | hserver
    · cases hdelay
    · exact .inl (.inr hserver)

/-! ### Performed at most once -/

/-- What the handler has returned. -/
def Handler.performed : Handler → Option Bytes
  | .sending _ reply | .done _ reply => some reply
  | _ => none

/-- What `Call` has returned: `some none` for `false`. -/
def Caller.result : Caller → Option (Option Bytes)
  | .returned msg => some (if msg.ok then some msg.reply else none)
  | _ => none

/-- A call as its client sees it. -/
def Job.exchange (job : Job E N) : Exchange Bytes :=
  { performed := job.handler.performed, returned := job.caller.result }

theorem Job.Ok.follows {rn : Network E N} {job job' : Job E N} {effect : Effect} (h : job.Ok)
    (hmove : job.Moves rn job' effect) : job.exchange.Follows job'.exchange := by
  obtain ⟨req, caller, proc, handler, drain⟩ := job
  change Phase caller proc handler drain at h
  cases hmove with
  | accept hcaller => cases hcaller; exact .inl rfl
  | abandon hcaller => cases hcaller; exact Exchange.follows_fail rfl
  | spawn hproc => cases hproc; cases h; exact .inl rfl
  | receive hproc hhandler => cases hhandler; exact .inl rfl
  | reply hproc hcaller =>
    cases hproc; cases h with
    | replying hsent =>
      cases hsent with
      | positive server reply => exact Exchange.follows_answer rfl rfl
      | failure => exact Exchange.follows_fail rfl
  | dispatch hhandler => cases hhandler; exact .inl rfl
  | finish reply hhandler => cases hhandler; exact Exchange.follows_perform rfl
  | drain hdrain hhandler => cases hhandler; exact .inl rfl
  | _ => exact .inl rfl

namespace Network

/-- The calls as their clients see them. -/
def exchanges (rn : Network E N) : List (Exchange Bytes) :=
  rn.jobs.map Job.exchange

variable [DecidableEq E] [DecidableEq N] {rn rn' : Network E N} {a : Act E N}

/-- What every call keeps in its steps holds of every call. -/
theorem Moves.forall_jobs {P : Job E N → Prop} (h : rn.Moves a rn') (hcall : ∀ req, P (.call req))
    (hmove : ∀ job job' effect, P job → job.Moves rn job' effect → P job')
    (hjobs : ∀ (i : ℕ) (job : Job E N), rn.jobs[i]? = some job → P job) :
    ∀ (i : ℕ) (job : Job E N), rn'.jobs[i]? = some job → P job := by
  intro i job' hjob'
  rcases h.getElem?_jobs hjob' with hold | ⟨job, effect, hjob, hstep⟩ | ⟨-, req, rfl⟩
  · exact hjobs i job' hold
  · exact hmove job job' effect (hjobs i job hjob) hstep
  · exact hcall req

/-- The phases of all calls. -/
def Ok (rn : Network E N) : Prop :=
  ∀ (i : ℕ) (job : Job E N), rn.jobs[i]? = some job → job.Ok

theorem Ok.step (h : rn.Ok) (hstep : rn.step a = some rn') : rn'.Ok :=
  (moves_of_step hstep).2.forall_jobs (fun _ => .called) (fun _ _ _ hok hmove => hok.step hmove) h

theorem ok_of_reachable (h : rn.Reachable) : rn.Ok :=
  Run.invariant (fun _ _ _ hok _ hstep => hok.step hstep) h fun i job hjob => by simp [make] at hjob

/-- The servers that are registered, and those that handlers run on, exist; the goroutine of the
    network ends when the network is cleaned up only. -/
structure Placed (rn : Network E N) : Prop where
  registered : ∀ servername server, rn.servers servername = some server →
    server < rn.objects.length
  targets : ∀ (i : ℕ) (job : Job E N), rn.jobs[i]? = some job → ∀ server, job.Targets server →
    server < rn.objects.length
  looping : rn.looping = false → rn.done = true

theorem Moves.length_objects (h : rn.Moves a rn') : rn.objects.length ≤ rn'.objects.length := by
  cases h with
  | @job _ _ _ _ effect =>
    obtain ⟨_, _, _ | server⟩ := effect
    · exact Nat.le_refl _
    · exact Nat.le_of_eq (List.length_modify ..).symm
  | makeServer => simp
  | addService => simp
  | _ => exact Nat.le_refl _

theorem Moves.registered {servername : N} {server : ℕ} (h : rn.Moves a rn') (hrn : rn.Placed)
    (hserver : rn'.servers servername = some server) : server < rn.objects.length := by
  cases h with
  | @addServer rs name hrs =>
    by_cases hname : servername = name
    · subst hname
      obtain rfl : rs = server := by simpa using hserver
      exact hrs
    · exact hrn.registered servername server (by simpa [hname] using hserver)
  | deleteServer name =>
    by_cases hname : servername = name
    · subst hname
      simp at hserver
    · exact hrn.registered servername server (by simpa [hname] using hserver)
  | _ => exact hrn.registered servername server hserver

theorem Placed.step (h : rn.Placed) (hstep : rn.step a = some rn') : rn'.Placed := by
  have hmove := (moves_of_step hstep).2
  refine ⟨?_, ?_, ?_⟩
  · intro servername server hserver
    exact Nat.lt_of_lt_of_le (hmove.registered h hserver) hmove.length_objects
  · intro i job' hjob' server htarget
    refine Nat.lt_of_lt_of_le ?_ hmove.length_objects
    rcases hmove.getElem?_jobs hjob' with hold | ⟨job, effect, hjob, hmoves⟩ | ⟨-, req, rfl⟩
    · exact h.targets i job' hold server htarget
    · rcases hmoves.targets htarget with hbefore | ⟨servername, hserver⟩
      · exact h.targets i job hjob server hbefore
      · exact h.registered servername server hserver
    · -- a new call has no server
      rcases htarget with ⟨_, hdelay, _⟩ | hhandler
      · cases hdelay
      · cases hhandler
  · intro hleft
    cases hmove with
    | leave hdone => exact hdone
    | cleanup => rfl
    | _ => exact h.looping hleft

theorem placed_of_reachable (h : rn.Reachable) : rn.Placed := by
  refine Run.invariant (fun _ _ _ hplaced _ hstep => hplaced.step hstep) h ⟨?_, ?_, ?_⟩
  · intro servername server hserver
    cases hserver
  · intro i job hjob
    simp [make] at hjob
  · intro hleft
    cases hleft

/-- A step of the network is at most one step of the calls its clients see. -/
theorem Ok.exchanges_step {xs : List (Exchange Bytes)} (h : rn.Ok) (hstep : rn.step a = some rn')
    (hxs : Exchanges xs rn.exchanges) : Exchanges xs rn'.exchanges := by
  cases (moves_of_step hstep).2 with
  | call =>
    rw [exchanges, List.map_append]
    exact hxs.new
  | job hjob hmove =>
    rw [exchanges, after, List.map_set]
    exact hxs.set (by simp [exchanges, hjob]) ((h _ _ hjob).follows hmove)
  | _ => exact hxs

theorem Ok.exchanges_run (h : rn.Ok) (hrun : Run Network.step (fun _ _ => True) rn rn') :
    Exchanges rn.exchanges rn'.exchanges := by
  refine (Run.invariant (I := fun t => t.Ok ∧ Exchanges rn.exchanges t.exchanges) ?_ hrun
    ⟨h, Exchanges.refl _⟩).2
  intro t a u ⟨ht, hxs⟩ _ hstep
  exact ⟨ht.step hstep, ht.exchanges_step hstep hxs⟩

/-- **Calls are performed at most once.**  Whatever the network does between two moments, its
    clients see calls that are performed once at most, and fail or return what was performed; a
    call that has returned true has been performed, and returned the reply of its handler. -/
theorem calls_refine_exchanges (hreach : rn.Reachable) (hrun : Run step (fun _ _ => True) rn rn') :
    Exchanges rn.exchanges rn'.exchanges ∧
      ∀ (i : ℕ) (job : Job E N) (msg : ReplyMsg), rn'.jobs[i]? = some job →
        job.caller = .returned msg → msg.ok = true → job.handler.performed = some msg.reply := by
  refine ⟨(ok_of_reachable hreach).exchanges_run hrun, ?_⟩
  intro i job msg hjob hcaller hok
  -- every call was made since the network was
  have hall := ((ok_of_reachable (.refl make)).exchanges_run (hreach.trans hrun)).answered
  refine hall job.exchange (List.mem_map_of_mem (List.mem_of_getElem? hjob)) msg.reply ?_
  simp [Job.exchange, hcaller, Caller.result, hok]

end Network

/-- A request to read, of the end 0. -/
def getReq : ReqMsg ℕ :=
  { endname := 0, svcMeth := [75, 86, dot, 71], args := [3] }

/-- A server with the handler of the request, under the name 1, and an end connected to it. -/
def connectActs : List (Act ℕ (Fin 2)) :=
  [.makeServer, .addService 0 { name := [75, 86], methods := [[71]] }, .addServer 1 0, .makeEnd 0,
    .connect 0 1, .enable 0 true]

/-- A call whose handler is at work. -/
def workActs : List (Act ℕ (Fin 2)) :=
  .call getReq :: [.accept, .readInfo, .spawn, .dispatch].map (.job 0)

/-- The handler returns, and then the call. -/
def returnActs : List (Act ℕ (Fin 2)) :=
  [.finish [5], .receive, .check false false, .reply].map (.job 0)

/-- A second call from beginning to end, over a network that drops its reply. -/
def droppedActs : List (Act ℕ (Fin 2)) :=
  [.reliable false, .call getReq] ++ [.accept, .readInfo, .spawn, .dispatch, .finish [6], .receive,
    .check true false, .reply].map (.job 1)

/-- While the handler of a call is at work, another call is performed and fails. -/
theorem calls_refine_exchanges_get :
    ∃ rn rn' : Network ℕ (Fin 2), rn.Reachable ∧ Run Network.step (fun _ _ => True) rn rn' ∧
      rn.exchanges = [{ performed := none, returned := none }] ∧
      rn'.exchanges = [{ performed := some [5], returned := some (some [5]) },
        { performed := some [6], returned := some none }] ∧
      Exchanges rn.exchanges rn'.exchanges := by
  obtain ⟨rn, hreach, hrn, hrest⟩ := exists_run_of_exec Network.step .make
    (connectActs ++ workActs)
    (fun rn => rn.exchanges = [{ performed := none, returned := none }] ∧
      ((exec Network.step rn (droppedActs ++ returnActs)).any fun rn' =>
        rn'.exchanges = [{ performed := some [5], returned := some (some [5]) },
          { performed := some [6], returned := some none }]) = true) (by decide +kernel)
  obtain ⟨rn', hrun, hrn'⟩ := exists_run_of_exec _ _ _ _ hrest
  exact ⟨rn, rn', hreach, hrun, hrn, hrn', (Network.calls_refine_exchanges hreach hrun).1⟩

end MitDistributed.Labrpc
