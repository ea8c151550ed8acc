import Mathlib.Algebra.Ring.Nat
import MitDistributed.Labrpc.Calls

namespace MitDistributed.Labrpc

open Transition

/-!
# The counters of the simulated network

`GetTotalCount`, `GetTotalBytes` and `GetCount` are what the tests measure the servers by.  The
counters are kept in three places (the goroutine of the network, `processReq` and its timers,
`dispatch`) and have 32 or 64 bits.  They agree with the calls: each is the sum of what every call
has contributed, modulo the size of the counter.
-/

variable {E N : Type}

/-- A sum over a list of which one member has grown. -/
theorem sum_map_set {α : Type*} (f : α → ℕ) {l : List α} {i d : ℕ} {a b : α} (ha : l[i]? = some a)
    (hb : f b = f a + d) : ((l.set i b).map f).sum = (l.map f).sum + d := by
  induction l generalizing i with
  | nil => simp at ha
  | cons x l ih =>
    cases i with
    | zero =>
      obtain rfl : x = a := by simpa using ha
      simp only [List.set_cons_zero, List.map_cons, List.sum_cons, hb]
      omega
    | succ i =>
      have hrest := ih (i := i) (by simpa using ha)
      simp only [List.set_cons_succ, List.map_cons, List.sum_cons, hrest]
      omega

/-! ### What a call has contributed -/

/-- The goroutine of the network has taken the request. -/
def Proc.taken : Proc N → Bool
  | .idle => false
  | _ => true

/-- The server whose `dispatch` has been called. -/
def Handler.dispatched : Handler → Option ℕ
  | .running server | .sending server _ | .done server _ => some server
  | _ => none

namespace Job

def requests (job : Job E N) : ℕ :=
  job.proc.taken.toNat

/-- The length of the message that has been sent, which is zero for a failure. -/
def sent (job : Job E N) : ℕ :=
  match job.caller, job.proc with
  | .returned msg, _ => msg.reply.length
  | _, .reply msg => msg.reply.length
  | _, _ => 0

def traffic (job : Job E N) : ℕ :=
  job.requests * job.req.args.length + job.sent

def dispatches (server : ℕ) (job : Job E N) : ℕ :=
  if job.handler.dispatched = some server then 1 else 0

/-- What a step adds to the counters is what it adds to the contribution of the call. -/
structure Accounts (job job' : Job E N) (effect : Effect) : Prop where
  requests : job'.requests = job.requests + effect.count
  traffic : job'.traffic = job.traffic + effect.bytes
  dispatches : ∀ server, job'.dispatches server =
    job.dispatches server + if effect.dispatch = some server then 1 else 0

variable {rn : Network E N} {job job' : Job E N} {effect : Effect}

theorem Ok.accounts (hok : job.Ok) (hmove : job.Moves rn job' effect) :
    job.Accounts job' effect := by
  obtain ⟨req, caller, proc, handler, drain⟩ := job
  change Phase caller proc handler drain at hok
  cases hmove with
  | accept hcaller =>
    cases hcaller; cases hok
    exact ⟨rfl, by simp [Job.traffic, Job.requests, Job.sent, Proc.taken], fun _ => rfl⟩
  | abandon hcaller => cases hcaller; cases hok; exact ⟨rfl, rfl, fun _ => rfl⟩
  | spawn hproc => cases hproc; cases hok; exact ⟨rfl, rfl, fun _ => rfl⟩
  | receive hproc hhandler =>
    cases hproc; cases hhandler; cases hok
    exact ⟨rfl, rfl, fun _ => rfl⟩
  | alive => exact ⟨rfl, rfl, fun _ => rfl⟩
  | refuse hproc =>
    cases hproc
    cases hok <;> exact ⟨rfl, rfl, fun _ => rfl⟩
  | reply hproc hcaller => cases hproc; cases hcaller; exact ⟨rfl, rfl, fun _ => rfl⟩
  | dispatch hhandler =>
    cases hhandler
    exact ⟨rfl, rfl, fun server => by simp [Job.dispatches, Handler.dispatched]⟩
  | finish reply hhandler => cases hhandler; exact ⟨rfl, rfl, fun _ => rfl⟩
  | drain hdrain hhandler => cases hhandler; exact ⟨rfl, rfl, fun _ => rfl⟩
  | connected hproc => cases hproc; cases hok; exact ⟨rfl, rfl, fun _ => rfl⟩
  | disconnected hproc => cases hproc; cases hok; exact ⟨rfl, rfl, fun _ => rfl⟩
  | dropRequest hproc => cases hproc; cases hok; exact ⟨rfl, rfl, fun _ => rfl⟩
  | dead hproc => cases hproc; cases hok; exact ⟨rfl, rfl, fun _ => rfl⟩
  | dropReply hproc => cases hproc; cases hok; exact ⟨rfl, rfl, fun _ => rfl⟩
  | delayReply hproc => cases hproc; cases hok; exact ⟨rfl, rfl, fun _ => rfl⟩
  | sendReply hproc =>
    cases hproc; cases hok
    exact ⟨rfl, by simp [Job.traffic, Job.requests, Job.sent, Proc.taken], fun _ => rfl⟩
  | fire hproc =>
    cases hproc; cases hok
    exact ⟨rfl, by simp [Job.traffic, Job.requests, Job.sent, Proc.taken], fun _ => rfl⟩

end Job

/-! ### The counters -/

namespace Network

def total (rn : Network E N) (f : Job E N → ℕ) : ℕ :=
  (rn.jobs.map f).sum

structure Counted (rn : Network E N) : Prop where
  count : rn.count = .ofNat 32 (rn.total Job.requests)
  bytes : rn.bytes = .ofNat 64 (rn.total Job.traffic)
  servers : ∀ (server : ℕ) (rs : Server), rn.objects[server]? = some rs →
    rs.count = .ofNat 64 (rn.total (Job.dispatches server))

variable {rn rn' : Network E N} {i : ℕ} {job job' : Job E N} {effect : Effect}

theorem total_after {f : Job E N → ℕ} {d : ℕ} (hjob : rn.jobs[i]? = some job)
    (hd : f job' = f job + d) : (rn.after i job' effect).total f = rn.total f + d :=
  sum_map_set f hjob hd

theorem total_call {f : Job E N → ℕ} {req : ReqMsg E} (h : f (.call req) = 0) :
    total { rn with jobs := rn.jobs ++ [.call req] } f = rn.total f := by
  simp [total, h]

/-- A step of one call. -/
theorem Counted.after (h : rn.Counted) (hjob : rn.jobs[i]? = some job)
    (haccounts : job.Accounts job' effect) : (rn.after i job' effect).Counted := by
  refine ⟨?_, ?_, ?_⟩
  · rw [total_after hjob haccounts.requests, BitVec.ofNat_add, ← h.count]
    rfl
  · rw [total_after hjob haccounts.traffic, BitVec.ofNat_add, ← h.bytes]
    rfl
  · intro server rs hrs
    rw [total_after hjob (haccounts.dispatches server)]
    cases hdispatch : effect.dispatch with
    | none =>
      have hold : rn.objects[server]? = some rs := by simpa [Network.after, hdispatch] using hrs
      simpa using h.servers server rs hold
    | some counted =>
      simp only [Network.after, hdispatch, Option.elim_some, List.getElem?_modify] at hrs
      obtain ⟨old, hold, rfl⟩ := Option.map_eq_some_iff.mp hrs
      have hcount := h.servers server old hold
      by_cases heq : counted = server
      · subst heq
        simp [Server.countRequest, hcount, BitVec.ofNat_add]
      · simpa [heq] using hcount

variable [DecidableEq E] [DecidableEq N] {a : Act E N}

theorem Counted.step (h : rn.Counted) (hok : rn.Ok) (hplaced : rn.Placed)
    (hstep : rn.step a = some rn') : rn'.Counted := by
  cases (moves_of_step hstep).2 with
  | call =>
    refine ⟨?_, ?_, ?_⟩
    · rw [total_call rfl]
      exact h.count
    · rw [total_call (by simp [Job.traffic, Job.requests, Job.sent, Job.call, Proc.taken])]
      exact h.bytes
    · intro server rs hrs
      rw [total_call rfl]
      exact h.servers server rs hrs
  | job hjob hmove => exact h.after hjob ((hok _ _ hjob).accounts hmove)
  | makeServer =>
    refine ⟨h.count, h.bytes, ?_⟩
    intro server rs hrs
    rw [List.getElem?_append] at hrs
    split at hrs
    next => exact h.servers server rs hrs
    next hlt =>
      -- no call has been dispatched on a server that did not exist
      have hzero : ∀ job ∈ rn.jobs, Job.dispatches server job = 0 := by
        intro job hjob
        obtain ⟨j, hj⟩ := List.mem_iff_getElem?.mp hjob
        rw [Job.dispatches, if_neg]
        intro hserver
        refine hlt (hplaced.targets j job hj server (.inr ?_))
        cases hhandler : job.handler <;> simp_all [Handler.dispatched, Handler.server]
      have hsum : rn.total (Job.dispatches server) = 0 := by
        rw [total, List.map_congr_left hzero]
        simp
      obtain ⟨-, rfl⟩ := List.getElem?_eq_some_iff.mp hrs
      change _ = BitVec.ofNat 64 (rn.total (Job.dispatches server))
      rw [hsum, List.getElem_singleton]
      rfl
  | @addService changed old svc hold =>
    refine ⟨h.count, h.bytes, ?_⟩
    intro server rs hrs
    by_cases heq : changed = server
    · subst heq
      obtain ⟨hlt, -⟩ := List.getElem?_eq_some_iff.mp hold
      obtain rfl : old.addService svc = rs := by simpa [hlt] using hrs
      exact h.servers changed old hold
    · exact h.servers server rs (by simpa [heq] using hrs)
  | _ => exact ⟨h.count, h.bytes, h.servers⟩

theorem counted_of_reachable (h : rn.Reachable) : rn.Counted := by
  have hall := Run.invariant (I := fun t : Network E N => t.Ok ∧ t.Placed ∧ t.Counted) ?_ h ?_
  · exact hall.2.2
  · intro s a t ⟨hok, hplaced, hcounted⟩ _ hstep
    exact ⟨hok.step hstep, hplaced.step hstep, hcounted.step hok hplaced hstep⟩
  · refine ⟨ok_of_reachable (.refl make), placed_of_reachable (.refl make), rfl, rfl, ?_⟩
    intro server rs hrs
    simp [make] at hrs

/-- **The counters are exact.**  In every state of the network, after any interleaving of its
    goroutines, `GetTotalCount` is the number of requests that were taken, `GetTotalBytes` the bytes
    of these requests and of the replies that were sent, and `GetCount` the number of requests that
    the server that has the name was asked to dispatch, modulo the size of the counters. -/
theorem statistics_exact (h : rn.Reachable) :
    rn.count = .ofNat 32 (rn.total Job.requests) ∧
    rn.bytes = .ofNat 64 (rn.total Job.traffic) ∧
    ∀ servername, rn.getCount servername =
      (rn.servers servername).map fun server => .ofNat 64 (rn.total (Job.dispatches server)) := by
  have hcounted := counted_of_reachable h
  refine ⟨hcounted.count, hcounted.bytes, ?_⟩
  intro servername
  rw [getCount]
  cases hserver : rn.servers servername with
  | none => rfl
  | some server =>
    have hlt := (placed_of_reachable h).registered servername server hserver
    obtain ⟨rs, hrs⟩ : ∃ rs, rn.objects[server]? = some rs := ⟨_, List.getElem?_eq_getElem hlt⟩
    simp [hrs, hcounted.servers server rs hrs]

end Network

theorem statistics_exact_get :
    ∃ rn : Network ℕ (Fin 2), rn.total Job.requests = 1 ∧ rn.total Job.traffic = 2 ∧
      rn.total (Job.dispatches 0) = 1 ∧ rn.count = 1 ∧ rn.bytes = 2 ∧ rn.getCount 1 = some 1 := by
  obtain ⟨rn, hreach, hrequests, htraffic, hdispatches, hserver⟩ := exists_run_of_exec Network.step
    .make (connectActs ++ workActs ++ returnActs)
    (fun rn : Network ℕ (Fin 2) => rn.total Job.requests = 1 ∧ rn.total Job.traffic = 2 ∧
      rn.total (Job.dispatches 0) = 1 ∧ rn.servers 1 = some 0)
    (by decide +kernel)
  obtain ⟨hcount, hbytes, hget⟩ := Network.statistics_exact hreach
  refine ⟨rn, hrequests, htraffic, hdispatches, ?_, ?_, ?_⟩
  · rw [hcount, hrequests]
    rfl
  · rw [hbytes, htraffic]
    rfl
  · rw [hget, hserver, Option.map_some, hdispatches]
    rfl

end MitDistributed.Labrpc
