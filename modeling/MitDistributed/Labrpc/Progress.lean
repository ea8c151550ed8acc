import MitDistributed.Labrpc.Calls

namespace MitDistributed.Labrpc

open Transition

/-!
# Every call can return

The goroutines of a call wait for each other over unbuffered channels, and a handler can outlive the
`processReq` that started it.  They never wait for each other in a circle, and none is left behind:
in every state of the network the goroutines of a call can run to their end, in ten steps at most
and without any other call.

* `Job.remaining` — a bound for the steps that are left;
* `Job.Ok.progress` — while a goroutine is left, one can take a step that lowers the bound.
-/

variable {E N : Type}

/-! ### Steps that are left -/

def Caller.remaining : Caller → ℕ
  | .sending => 10
  | _ => 0

def Proc.remaining : Proc N → ℕ
  | .start => 9
  | .delay _ => 8
  | .poll _ => 4
  | .check _ _ => 3
  | .after _ => 2
  | .reply _ => 1
  | .idle | .done => 0

def Handler.remaining : Handler → ℕ
  | .ready _ => 3
  | .running _ => 2
  | .sending _ _ => 1
  | .idle | .done _ _ => 0

namespace Job

def remaining (job : Job E N) : ℕ :=
  job.caller.remaining + job.proc.remaining + job.handler.remaining

/-- The call has returned and its goroutines have ended. -/
structure Ended (job : Job E N) : Prop where
  caller : ∃ msg, job.caller = .returned msg
  proc : job.proc = .idle ∨ job.proc = .done
  handler : job.handler = .idle ∨ ∃ server reply, job.handler = .done server reply
  drain : job.drain ≠ .waiting

variable {rn : Network E N} {job : Job E N}

/-- A step that lowers the bound; a handler is looked up when it is ready. -/
def Advances (rn : Network E N) (job : Job E N) : Prop :=
  ∃ a next effect, job.step rn a = some (next, effect) ∧ next.remaining < job.remaining ∧
    ∀ server, effect.dispatch = some server → job.handler = .ready server

/-- A step in which no handler is looked up. -/
theorem advances_of_step {a : JobAct} {next : Job E N} {effect : Effect}
    (hstep : job.step rn a = some (next, effect)) (hless : next.remaining < job.remaining)
    (hdispatch : effect.dispatch = none) : job.Advances rn := by
  refine ⟨a, next, effect, hstep, hless, ?_⟩
  intro server hserver
  rw [hdispatch] at hserver
  cases hserver

/-- A handler whose reply is waited for can work. -/
theorem advances_of_pending {server : ℕ} (hpending : job.handler.Pending server)
    (hwait : (∃ info, job.proc = .poll info) ∨ job.drain = .waiting) : job.Advances rn := by
  obtain ⟨req, caller, proc, handler, drain⟩ := job
  cases hpending with
  | ready =>
    refine ⟨.dispatch, _, _, rfl, by simp [remaining, Handler.remaining], ?_⟩
    intro server' hserver
    cases hserver
    rfl
  | running =>
    exact advances_of_step (a := .finish []) rfl (by simp [remaining, Handler.remaining]) rfl
  | sending reply =>
    rcases hwait with ⟨info, rfl⟩ | rfl
    · exact advances_of_step (a := .receive) rfl
        (by simp [remaining, Proc.remaining, Handler.remaining]) rfl
    · exact advances_of_step (a := .drain) rfl (by simp [remaining, Handler.remaining]) rfl

/-- After its message `processReq` is over; the handler may still be at work. -/
theorem ended_or_advances {req : ReqMsg E} {msg : ReplyMsg} {handler : Handler} {drain : Drain}
    (hsent : Sent msg handler drain) :
    Job.Ended (⟨req, .returned msg, .done, handler, drain⟩ : Job E N) ∨
      Job.Advances rn ⟨req, .returned msg, .done, handler, drain⟩ := by
  cases hsent with
  | positive server reply => exact .inl ⟨⟨_, rfl⟩, .inr rfl, .inr ⟨server, reply, rfl⟩, by simp⟩
  | failure hleft =>
    cases hleft with
    | never => exact .inl ⟨⟨_, rfl⟩, .inr rfl, .inl rfl, by simp⟩
    | received server reply =>
      exact .inl ⟨⟨_, rfl⟩, .inr rfl, .inr ⟨server, reply, rfl⟩, by simp⟩
    | waiting hpending => exact .inr (advances_of_pending hpending (.inr rfl))
    | drained server reply =>
      exact .inl ⟨⟨_, rfl⟩, .inr rfl, .inr ⟨server, reply, rfl⟩, by simp⟩

/-- **Progress.** While a goroutine of a call is left, one can take a step. -/
theorem Ok.progress (hok : job.Ok) (hlooping : rn.looping = false → rn.done = true) :
    job.Ended ∨ job.Advances rn := by
  obtain ⟨req, caller, proc, handler, drain⟩ := job
  change Phase caller proc handler drain at hok
  cases hok with
  | called =>
    refine .inr ?_
    by_cases hloop : rn.looping = true
    · exact advances_of_step (a := .accept) (if_pos ⟨rfl, hloop⟩)
        (by simp [remaining, Caller.remaining, Proc.remaining]) rfl
    · -- nobody takes the request any more
      have hdone := hlooping (Bool.not_eq_true _ ▸ hloop)
      exact advances_of_step (a := .abandon) (if_pos ⟨rfl, hdone⟩)
        (by simp [remaining, Caller.remaining]) rfl
  | abandoned => exact .inl ⟨⟨_, rfl⟩, .inl rfl, .inl rfl, by simp⟩
  | started =>
    refine .inr ?_
    cases hinfo : rn.readEndnameInfo req.endname with
    | none =>
      have hstep : Job.step rn ⟨req, .waiting, .start, .idle, .idle⟩ .readInfo =
          some (⟨req, .waiting, .after .failure, .idle, .idle⟩, .none) := by simp [Job.step, hinfo]
      exact advances_of_step hstep (by simp [remaining, Proc.remaining]) rfl
    | some info =>
      have hstep : Job.step rn ⟨req, .waiting, .start, .idle, .idle⟩ .readInfo =
          some (⟨req, .waiting, .delay info, .idle, .idle⟩, .none) := by simp [Job.step, hinfo]
      exact advances_of_step hstep (by simp [remaining, Proc.remaining]) rfl
  | delayed info =>
    exact .inr (advances_of_step (a := .spawn) rfl
      (by simp [remaining, Proc.remaining, Handler.remaining]) rfl)
  | polling hpending => exact .inr (advances_of_pending hpending (.inl ⟨_, rfl⟩))
  | received info reply =>
    refine .inr ?_
    by_cases hdead : rn.isServerDead req.endname info.servername info.server = true
    · have hstep : Job.step rn ⟨req, .waiting, .check info (some ⟨true, reply⟩),
          .done info.server reply, .idle⟩ (.check false false) =
          some (⟨req, .waiting, .reply .failure, .done info.server reply, .idle⟩, .none) := by
        simp [Job.step, hdead]
      exact advances_of_step hstep (by simp [remaining, Proc.remaining]) rfl
    · have hstep : Job.step rn ⟨req, .waiting, .check info (some ⟨true, reply⟩),
          .done info.server reply, .idle⟩ (.check false false) =
          some (⟨req, .waiting, .reply ⟨true, reply⟩, .done info.server reply, .idle⟩,
            { Effect.none with bytes := reply.length }) := by
        simp [Job.step, hdead, answer]
      exact advances_of_step hstep (by simp [remaining, Proc.remaining]) rfl
  | givenUp info =>
    exact .inr (advances_of_step (a := .check false false) rfl
      (by simp [remaining, Proc.remaining]) rfl)
  | timed =>
    exact .inr (advances_of_step (a := .fire) rfl (by simp [remaining, Proc.remaining]) rfl)
  | replying =>
    exact .inr (advances_of_step (a := .reply) rfl
      (by simp [remaining, Caller.remaining, Proc.remaining]) rfl)
  | returned hsent => exact ended_or_advances hsent

theorem Ok.remaining_le (hok : job.Ok) : job.remaining ≤ 10 := by
  obtain ⟨req, caller, proc, handler, drain⟩ := job
  change Phase caller proc handler drain at hok
  have hhandler : handler.remaining ≤ 3 := by cases handler <;> simp [Handler.remaining]
  -- the bounds of the first phases need that there is no handler yet
  have hidle : Handler.idle.remaining = 0 := rfl
  cases hok <;> simp only [remaining, Caller.remaining, Proc.remaining, hidle] <;> omega

end Job

/-! ### Runs of one call -/

/-- What holds of all servers holds after one of them is changed. -/
theorem forall_mem_modify {α : Type*} {P : α → Prop} {f : α → α} {l : List α} {i : ℕ}
    (h : ∀ a ∈ l, P a) (hf : ∀ a, P a → P (f a)) : ∀ a ∈ l.modify i f, P a := by
  intro a ha
  obtain ⟨j, hj⟩ := List.mem_iff_getElem?.mp ha
  rw [List.getElem?_modify] at hj
  obtain ⟨b, hb, hab⟩ := Option.map_eq_some_iff.mp hj
  have hPb := h b (List.mem_of_getElem? hb)
  split at hab
  · exact hab ▸ hf b hPb
  · exact hab ▸ hPb

namespace Network

variable [DecidableEq E] [DecidableEq N] {rn : Network E N} {job : Job E N} {i : ℕ}

/-- A step of one call, with no crash if the handlers are known. -/
theorem exists_step_of_advances (hreach : rn.Reachable) (hcrashed : rn.crashed = false)
    (hjob : rn.jobs[i]? = some job) (hknows : ∀ rs ∈ rn.objects, rs.knows job.req.svcMeth = true)
    (hadvances : job.Advances rn) :
    ∃ a rn' next, rn.step (.job i a) = some rn' ∧ rn'.crashed = false ∧
      rn'.jobs[i]? = some next ∧ next.req = job.req ∧ next.remaining < job.remaining ∧
      ∀ rs ∈ rn'.objects, rs.knows job.req.svcMeth = true := by
  obtain ⟨a, next, effect, hstep, hless, hready⟩ := hadvances
  obtain ⟨hlt, -⟩ := List.getElem?_eq_some_iff.mp hjob
  have hreq : next.req = job.req := (Job.moves_of_step hstep).req
  refine ⟨a, rn.after i next effect, next, ?_, ?_, by simp [after, hlt], hreq, hless, ?_⟩
  · simp [step, hcrashed, hjob, hstep]
  · cases hdispatch : effect.dispatch with
    | none => simp [after, hdispatch]
    | some server =>
      -- the handler is looked up on a server that exists
      have hserver : server < rn.objects.length := by
        refine (placed_of_reachable hreach).targets i job hjob server (.inr ?_)
        rw [hready server hdispatch]
        rfl
      simp [after, hdispatch, hserver, hreq, hknows]
  · cases hdispatch : effect.dispatch with
    | none => simpa [after, hdispatch] using hknows
    | some server =>
      simp only [after, hdispatch, Option.elim_some]
      exact forall_mem_modify hknows fun _ h => h

/-- **Every call can return.**  In a state of a network that has not crashed, and whose servers know
    the method of a call, at most ten steps of the goroutines of that call make it return, and end
    them all: no goroutine waits for ever, whatever was disabled, deleted or cleaned up. -/
theorem call_can_return (hreach : rn.Reachable) (hcrashed : rn.crashed = false)
    (hjob : rn.jobs[i]? = some job) (hknows : ∀ rs ∈ rn.objects, rs.knows job.req.svcMeth = true) :
    ∃ acts : List JobAct, acts.length ≤ 10 ∧ ∃ rn' job',
      exec step rn (acts.map (.job i)) = some rn' ∧ rn'.crashed = false ∧
      rn'.jobs[i]? = some job' ∧ job'.Ended := by
  have hsteps : ∀ (n : ℕ) (rn : Network E N) (job : Job E N), job.remaining ≤ n → rn.Reachable →
      rn.crashed = false → rn.jobs[i]? = some job →
      (∀ rs ∈ rn.objects, rs.knows job.req.svcMeth = true) →
      ∃ acts : List JobAct, acts.length ≤ n ∧ ∃ rn' job',
        exec step rn (acts.map (.job i)) = some rn' ∧ rn'.crashed = false ∧
        rn'.jobs[i]? = some job' ∧ job'.Ended := by
    intro n
    induction n with
    | zero =>
      intro rn job hn hreach hcrashed hjob hknows
      rcases (ok_of_reachable hreach i job hjob).progress (placed_of_reachable hreach).looping with
        hended | hadvances
      · exact ⟨[], Nat.le_refl _, rn, job, rfl, hcrashed, hjob, hended⟩
      · obtain ⟨a, rn', next, -, -, -, -, hless, -⟩ :=
          exists_step_of_advances hreach hcrashed hjob hknows hadvances
        omega
    | succ n ih =>
      intro rn job hn hreach hcrashed hjob hknows
      rcases (ok_of_reachable hreach i job hjob).progress (placed_of_reachable hreach).looping with
        hended | hadvances
      · exact ⟨[], Nat.zero_le _, rn, job, rfl, hcrashed, hjob, hended⟩
      · obtain ⟨a, rn', next, hstep, hcrashed', hnext, hreq, hless, hknows'⟩ :=
          exists_step_of_advances hreach hcrashed hjob hknows hadvances
        obtain ⟨acts, hlength, last, job', hexec, hrest⟩ := ih rn' next (by omega)
          (hreach.tail _ trivial hstep) hcrashed' hnext (hreq ▸ hknows')
        refine ⟨a :: acts, by simpa using hlength, last, job', ?_, hrest⟩
        rw [List.map_cons, exec, hstep]
        exact hexec
  have hle := (ok_of_reachable hreach i job hjob).remaining_le
  exact hsteps 10 rn job hle hreach hcrashed hjob hknows

end Network

/-- The network is cleaned up and its goroutine gone while a handler is at work. -/
theorem call_can_return_cleanup :
    ∃ rn : Network ℕ (Fin 2), rn.looping = false ∧
      ∃ acts : List JobAct, acts.length ≤ 10 ∧ ∃ rn' job',
        exec Network.step rn (acts.map (.job 0)) = some rn' ∧ rn'.crashed = false ∧
        rn'.jobs[0]? = some job' ∧ job'.Ended := by
  let job : Job ℕ (Fin 2) :=
    { req := getReq, caller := .waiting, handler := .running 0, drain := .idle
      proc := .poll { servername := 1, server := 0, reliable := true, longreordering := false } }
  obtain ⟨rn, hreach, hleft, hcrashed, hjob, hknows⟩ := exists_run_of_exec Network.step .make
    (connectActs ++ workActs ++ [.deleteServer 1, .cleanup, .leave])
    (fun rn : Network ℕ (Fin 2) => rn.looping = false ∧ rn.crashed = false ∧
      rn.jobs[0]? = some job ∧ ∀ rs ∈ rn.objects, rs.knows job.req.svcMeth = true)
    (by decide +kernel)
  exact ⟨rn, hleft, Network.call_can_return hreach hcrashed hjob hknows⟩

end MitDistributed.Labrpc
