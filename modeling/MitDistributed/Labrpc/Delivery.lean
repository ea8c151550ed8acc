import MitDistributed.Labrpc.Calls

namespace MitDistributed.Labrpc

open Transition

/-!
# Which calls fail

`processReq` looks at the network when it takes a request, every 100 ms while the handler is at
work, and once more before it sends the reply.

* `Lost` — a handler that is still at work when its server is deleted, or when the end of the
  caller is disabled, gets no positive reply through;
* `Served` — on a network that is reliable and left alone a call does not fail.
-/

variable {E N : Type}

/-! ### Servers that are gone -/

section Cut

variable {rn rn' : Network E N} {job job' : Job E N} {effect : Effect} {endname : E}
  {servername : N} {server : ℕ}

/-- The end is disabled, or the server is no longer there under the name. -/
def Network.Cut (rn : Network E N) (endname : E) (servername : N) (server : ℕ) : Prop :=
  rn.enabled endname = false ∨ rn.servers servername ≠ some server

theorem Network.Cut.isServerDead (h : rn.Cut endname servername server) :
    rn.isServerDead endname servername server = true := by
  rcases h with hdisabled | hgone
  · simp [Network.isServerDead, hdisabled]
  · simp [Network.isServerDead, hgone]

/-- What `processReq` goes by when it looks at the server. -/
def Proc.info : Proc N → Option (Info N)
  | .delay info | .poll info | .check info _ => some info
  | .idle | .start | .after _ | .reply _ | .done => none

/-- A call that will fail if `server` stays cut off: its reply has not passed the last look. -/
inductive Lost (servername : N) (server : ℕ) : Caller → Proc N → Prop
  | polling {info : Info N} (hname : info.servername = servername)
      (hserver : info.server = server) : Lost servername server .waiting (.poll info)
  | checking {info : Info N} {reply : Option ReplyMsg}
      (hcause : reply = none ∨ info.servername = servername ∧ info.server = server) :
      Lost servername server .waiting (.check info reply)
  | timed : Lost servername server .waiting (.after .failure)
  | replying : Lost servername server .waiting (.reply .failure)
  | returned (proc : Proc N) : Lost servername server (.returned .failure) proc

theorem Job.Ok.lost (h : job.Ok) (hpending : job.handler.Pending server)
    (hname : ∀ info ∈ job.proc.info, info.servername = servername) :
    Lost servername server job.caller job.proc := by
  obtain ⟨req, caller, proc, handler, drain⟩ := job
  change ∀ info ∈ proc.info, info.servername = servername at hname
  change Phase caller proc handler drain at h
  change handler.Pending server at hpending
  -- a positive message means that the handler has handed its reply over
  have hfailure : ∀ {msg}, Sent msg handler drain → msg = .failure := by
    intro msg hsent
    cases hsent with
    | positive => cases hpending
    | failure => rfl
  cases h with
  | called => cases hpending
  | abandoned => cases hpending
  | started => cases hpending
  | delayed => cases hpending
  | polling hhere => exact .polling (hname _ rfl) (hhere.unique hpending)
  | received => cases hpending
  | givenUp => exact .checking (.inl rfl)
  | timed hsent => obtain rfl := hfailure hsent; exact .timed
  | replying hsent => obtain rfl := hfailure hsent; exact .replying
  | returned hsent => obtain rfl := hfailure hsent; exact .returned _

theorem Job.Moves.lost (hmove : job.Moves rn job' effect)
    (hcut : rn.Cut job.req.endname servername server)
    (h : Lost servername server job.caller job.proc) :
    Lost servername server job'.caller job'.proc := by
  obtain ⟨req, caller, proc, handler, drain⟩ := job
  change Lost servername server caller proc at h
  change rn.Cut req.endname servername server at hcut
  -- the last look finds the server dead
  have hlook : ∀ {info : Info N} {msg : ReplyMsg},
      Lost servername server caller (.check info (some msg)) →
      rn.isServerDead req.endname info.servername info.server = false →
      caller = .returned .failure := by
    intro info msg hlost halive
    cases hlost with
    | checking hcause =>
      obtain ⟨rfl, rfl⟩ := hcause.resolve_left (by simp)
      rw [hcut.isServerDead] at halive
      cases halive
    | returned => rfl
  cases hmove with
  | accept hcaller => cases hcaller; cases h
  | abandon hcaller => cases hcaller; cases h
  | connected hproc => cases hproc; cases h; exact .returned _
  | disconnected hproc => cases hproc; cases h; exact .returned _
  | dropRequest hproc => cases hproc; cases h; exact .returned _
  | spawn hproc => cases hproc; cases h; exact .returned _
  | receive hproc =>
    cases hproc; cases h with
    | polling hname hserver => exact .checking (.inr ⟨hname, hserver⟩)
    | returned => exact .returned _
  | dead hproc =>
    cases hproc; cases h with
    | polling => exact .checking (.inl rfl)
    | returned => exact .returned _
  | refuse hproc =>
    cases hproc; cases h with
    | checking => exact .replying
    | returned => exact .returned _
  | dropReply hproc =>
    cases hproc; cases h with
    | checking => exact .replying
    | returned => exact .returned _
  | delayReply hproc halive => cases hproc; obtain rfl := hlook h halive; exact .returned _
  | sendReply hproc halive => cases hproc; obtain rfl := hlook h halive; exact .returned _
  | fire hproc =>
    cases hproc; cases h with
    | timed => exact .replying
    | returned => exact .returned _
  | reply hproc hcaller => cases hproc; cases hcaller; cases h; exact .returned _
  | _ => exact h

variable [DecidableEq E] [DecidableEq N] {a : Act E N} {i : ℕ} {msg : ReplyMsg}

/-- The actions that enable the end or bring the server back under the name. -/
def Act.restores (endname : E) (servername : N) (server : ℕ) : Act E N → Bool
  | .enable e yes => e = endname && yes
  | .addServer name rs => name = servername && rs = server
  | _ => false

theorem Network.Cut.step (h : rn.Cut endname servername server) (hmove : rn.Moves a rn')
    (hok : a.restores endname servername server = false) : rn'.Cut endname servername server := by
  cases hmove with
  | @makeEnd e =>
    refine h.imp_left fun hdisabled => ?_
    by_cases he : endname = e
    · subst he
      exact Function.update_self ..
    · rw [← hdisabled]
      exact Function.update_of_ne he ..
  | @addServer rs name =>
    refine h.imp_right fun hgone => ?_
    by_cases hname : servername = name
    · subst hname
      simpa [Act.restores] using hok
    · simpa [hname] using hgone
  | deleteServer name =>
    refine h.imp_right fun hgone => ?_
    by_cases hname : servername = name
    · subst hname
      simp
    · simpa [hname] using hgone
  | enable e yes =>
    refine h.imp_left fun hdisabled => ?_
    by_cases he : endname = e
    · subst he
      simpa [Act.restores] using hok
    · simpa [he] using hdisabled
  | _ => exact h

namespace Network

/-- **A server that is gone does not answer.**  If a handler has not handed its reply over when its
    server is deleted or replaced under the name of the call, or the end of the caller disabled,
    then its call never returns true, unless the server is brought back under the name or the end
    enabled. -/
theorem cut_call_fails (hreach : rn.Reachable) (hjob : rn.jobs[i]? = some job)
    (hpending : job.handler.Pending server)
    (hname : ∀ info ∈ job.proc.info, info.servername = servername)
    (hcut : rn.Cut job.req.endname servername server)
    (hrun : Run step (fun _ a => a.restores job.req.endname servername server = false) rn rn')
    (hjob' : rn'.jobs[i]? = some job') (hreturned : job'.caller = .returned msg) :
    msg.ok = false := by
  -- from here on the call is lost, and the server stays cut off
  have hinv : rn'.Cut job.req.endname servername server ∧ ∃ job' : Job E N,
      rn'.jobs[i]? = some job' ∧ job'.req = job.req ∧
        Lost servername server job'.caller job'.proc := by
    refine Run.invariant (I := fun t : Network E N => t.Cut job.req.endname servername server ∧
      ∃ job' : Job E N, t.jobs[i]? = some job' ∧ job'.req = job.req ∧
        Lost servername server job'.caller job'.proc) ?_ hrun
      ⟨hcut, job, hjob, rfl, (ok_of_reachable hreach i job hjob).lost hpending hname⟩
    intro t a u ⟨ht, old, hold, hreq, hlost⟩ hok hstep
    have hmove := (moves_of_step hstep).2
    refine ⟨ht.step hmove hok, ?_⟩
    obtain ⟨next, hnext, rfl | ⟨effect, hmoves⟩⟩ := hmove.exists_job hold
    · exact ⟨next, hnext, hreq, hlost⟩
    · exact ⟨next, hnext, hmoves.req.trans hreq, hmoves.lost (hreq ▸ ht) hlost⟩
  obtain ⟨-, last, hlast, -, hlost⟩ := hinv
  obtain rfl := Option.some.inj (hjob'.symm.trans hlast)
  rw [hreturned] at hlost
  cases hlost
  rfl

end Network

/-- The handler is at work when the server is deleted, and returns later; by then the server is
    there again under another name. -/
theorem cut_call_fails_deleted :
    ∃ (rn rn' : Network ℕ (Fin 2)) (job' : Job ℕ (Fin 2)) (msg : ReplyMsg),
      Run Network.step (fun _ _ => True) rn rn' ∧ rn'.jobs[0]? = some job' ∧
      job'.handler = .done 0 [5] ∧ job'.caller = .returned msg ∧ msg.ok = false := by
  let job : Job ℕ (Fin 2) :=
    { req := getReq, caller := .waiting, handler := .running 0, drain := .idle
      proc := .poll { servername := 1, server := 0, reliable := true, longreordering := false } }
  let job' : Job ℕ (Fin 2) :=
    { req := getReq, caller := .returned .failure, handler := .done 0 [5], drain := .idle
      proc := .done }
  obtain ⟨rn, hreach, hjob, hgone, hrest⟩ := exists_run_of_exec Network.step .make
    (connectActs ++ workActs ++ [.deleteServer 1])
    (fun rn => rn.jobs[0]? = some job ∧ rn.servers 1 ≠ some 0 ∧
      ((execOk Network.step (fun _ a => a.restores 0 1 0 = false) rn
        (.addServer 0 0 :: returnActs)).any fun rn' => rn'.jobs[0]? = some job') = true)
    (by decide +kernel)
  obtain ⟨rn', hrun, hjob'⟩ := exists_run_of_execOk _ _ _ _
    (fun rn' : Network ℕ (Fin 2) => rn'.jobs[0]? = some job') hrest
  exact ⟨rn, rn', job', .failure, hrun.mono fun _ _ _ => trivial, hjob', rfl, rfl,
    Network.cut_call_fails hreach hjob .running (by simp [job, Proc.info]) (.inr hgone) hrun hjob'
      rfl⟩

end Cut

/-! ### A network that is left alone -/

section Serves

variable {rn rn' : Network E N} {job job' : Job E N} {effect : Effect} {endname : E}
  {servername : N} {server : ℕ}

/-- The network is reliable and up, and the end enabled and connected to a server. -/
structure Network.Serves (rn : Network E N) (endname : E) (servername : N) (server : ℕ) : Prop where
  reliable : rn.reliable = true
  up : rn.done = false
  made : rn.ends endname = true
  enabled : rn.enabled endname = true
  connected : rn.connections endname = some servername
  registered : rn.servers servername = some server

theorem Network.Serves.readEndnameInfo (h : rn.Serves endname servername server) :
    rn.readEndnameInfo endname = some
      { servername := servername, server := server, reliable := true
        longreordering := rn.longReordering } := by
  simp [Network.readEndnameInfo, h.enabled, h.connected, h.registered, h.reliable]

theorem Network.Serves.isServerDead (h : rn.Serves endname servername server) :
    rn.isServerDead endname servername server = false := by
  simp [Network.isServerDead, h.enabled, h.registered]

/-- `processReq` has read of the network that it is reliable, and of the server. -/
structure Info.For (servername : N) (server : ℕ) (info : Info N) : Prop where
  servername : info.servername = servername
  server : info.server = server
  reliable : info.reliable = true

/-- A call that cannot fail while it is served by `server`. -/
inductive Served (servername : N) (server : ℕ) : Caller → Proc N → Handler → Prop
  | called (handler : Handler) : Served servername server .sending .idle handler
  | started (handler : Handler) : Served servername server .waiting .start handler
  | delayed {info : Info N} (hinfo : info.For servername server) (handler : Handler) :
      Served servername server .waiting (.delay info) handler
  | polling {info : Info N} (hinfo : info.For servername server) (handler : Handler) :
      Served servername server .waiting (.poll info) handler
  | received {info : Info N} (hinfo : info.For servername server) (reply : Bytes) :
      Served servername server .waiting (.check info (some { ok := true, reply := reply }))
        (.done server reply)
  | timed (reply : Bytes) :
      Served servername server .waiting (.after { ok := true, reply := reply })
        (.done server reply)
  | replying (reply : Bytes) :
      Served servername server .waiting (.reply { ok := true, reply := reply })
        (.done server reply)
  | returned (reply : Bytes) :
      Served servername server (.returned { ok := true, reply := reply }) .done
        (.done server reply)

/-- A handler that has not handed its reply over may work on. -/
theorem Served.work {caller : Caller} {proc : Proc N} {handler handler' : Handler}
    (h : Served servername server caller proc handler)
    (hbusy : ∀ rs reply, handler ≠ .done rs reply) :
    Served servername server caller proc handler' := by
  cases h with
  | called => exact .called _
  | started => exact .started _
  | delayed hinfo => exact .delayed hinfo _
  | polling hinfo => exact .polling hinfo _
  | received => exact (hbusy _ _ rfl).elim
  | timed => exact (hbusy _ _ rfl).elim
  | replying => exact (hbusy _ _ rfl).elim
  | returned => exact (hbusy _ _ rfl).elim

theorem Job.Moves.served (hmove : job.Moves rn job' effect) (hjob : job.Ok)
    (hrn : rn.Serves job.req.endname servername server)
    (h : Served servername server job.caller job.proc job.handler) :
    Served servername server job'.caller job'.proc job'.handler := by
  obtain ⟨req, caller, proc, handler, drain⟩ := job
  change Phase caller proc handler drain at hjob
  change rn.Serves req.endname servername server at hrn
  change Served servername server caller proc handler at h
  have halive : ∀ {info : Info N}, info.For servername server →
      rn.isServerDead req.endname info.servername info.server = false := by
    intro info hinfo
    rw [hinfo.servername, hinfo.server, hrn.isServerDead]
  cases hmove with
  | accept hcaller => cases hcaller; cases h; exact .started _
  | abandon _ hdone => exact absurd hdone (by simp [hrn.up])
  | connected hproc hinfo =>
    cases hproc; cases h
    rw [hrn.readEndnameInfo] at hinfo
    cases hinfo
    refine .delayed ?_ _
    exact ⟨rfl, rfl, rfl⟩
  | disconnected hproc hinfo =>
    rw [hrn.readEndnameInfo] at hinfo
    cases hinfo
  | dropRequest hproc hreliable =>
    cases hproc; cases h with
    | delayed hinfo => exact absurd hreliable (by simp [hinfo.reliable])
  | spawn hproc =>
    cases hproc; cases h with
    | delayed hinfo => exact .polling hinfo _
  | @receive _ _ reply hproc hhandler =>
    cases hproc; cases hhandler; cases h with
    | polling hinfo =>
      cases hjob with
      | polling hpending =>
        obtain rfl := hpending.unique (.sending reply)
        rw [hinfo.server]
        exact .received hinfo reply
  | dead hproc hdead =>
    cases hproc; cases h with
    | polling hinfo => exact absurd hdead (by simp [halive hinfo])
  | alive => exact h
  | refuse hproc hcause =>
    cases hproc; cases h with
    | received hinfo => exact absurd hcause (by simp [halive hinfo])
  | dropReply hproc _ hreliable =>
    cases hproc; cases h with
    | received hinfo => exact absurd hreliable (by simp [hinfo.reliable])
  | delayReply hproc =>
    cases hproc; cases h with
    | received _ reply => exact .timed reply
  | sendReply hproc =>
    cases hproc; cases h with
    | received _ reply => exact .replying reply
  | fire hproc =>
    cases hproc; cases h with
    | timed reply => exact .replying reply
  | reply hproc =>
    cases hproc; cases h with
    | replying reply => exact .returned reply
  | dispatch hhandler => cases hhandler; exact h.work (by simp)
  | finish reply hhandler => cases hhandler; exact h.work (by simp)
  | drain hdrain hhandler => cases hhandler; exact h.work (by simp)

variable [DecidableEq E] [DecidableEq N]

/-- The actions that end the service. -/
def Act.disturbs (endname : E) (servername : N) (server : ℕ) : Act E N → Bool
  | .reliable yes => !yes
  | .cleanup => true
  | .enable e yes => e = endname && !yes
  | .connect e name => e = endname && name ≠ servername
  | .addServer name rs => name = servername && rs ≠ server
  | .deleteServer name => name = servername
  | _ => false

variable {a : Act E N} {i : ℕ} {msg : ReplyMsg}

theorem Network.Serves.step (h : rn.Serves endname servername server) (hmove : rn.Moves a rn')
    (hok : a.disturbs endname servername server = false) :
    rn'.Serves endname servername server := by
  cases hmove with
  | reliable yes => exact { h with reliable := by simpa [Act.disturbs] using hok }
  | @makeEnd e hend =>
    -- the end exists, so it is another one that is made
    have he : endname ≠ e := by
      rintro rfl
      simp [h.made] at hend
    exact { h with
      made := by simp [he, h.made]
      enabled := by simp [he, h.enabled]
      connected := by simp [he, h.connected] }
  | @addServer rs name =>
    refine { h with registered := ?_ }
    by_cases hname : servername = name
    · subst hname
      simpa [Act.disturbs] using hok
    · simpa [hname] using h.registered
  | deleteServer name =>
    have hname : servername ≠ name := by
      rintro rfl
      simp [Act.disturbs] at hok
    exact { h with registered := by simp [hname, h.registered] }
  | connect e name =>
    refine { h with connected := ?_ }
    by_cases he : endname = e
    · subst he
      simpa [Act.disturbs] using hok
    · simpa [he] using h.connected
  | enable e yes =>
    refine { h with enabled := ?_ }
    by_cases he : endname = e
    · subst he
      simpa [Act.disturbs] using hok
    · simpa [he] using h.enabled
  | cleanup => cases hok
  | cleanupAgain => cases hok
  | _ => exact { h with }

namespace Network

/-- **Calls on a network that is left alone do not fail.**  While the network is reliable and not
    cleaned up and an end stays enabled and connected to one server, a call made over that end
    returns true, with what the handler of that server returned. -/
theorem served_call_succeeds (hreach : rn.Reachable) (hserves : rn.Serves endname servername server)
    (hrun : Run step (fun _ a => a.disturbs endname servername server = false) rn rn')
    (hnew : rn.jobs.length ≤ i) (hjob : rn'.jobs[i]? = some job) (hend : job.req.endname = endname)
    (hreturned : job.caller = .returned msg) :
    msg.ok = true ∧ job.handler = .done server msg.reply := by
  have hinv : rn'.Ok ∧ rn'.Serves endname servername server ∧
      ∀ (j : ℕ) (job : Job E N), rn.jobs.length ≤ j → rn'.jobs[j]? = some job →
        job.req.endname = endname → Served servername server job.caller job.proc job.handler := by
    refine Run.invariant (I := fun t : Network E N => t.Ok ∧ t.Serves endname servername server ∧
      ∀ (j : ℕ) (job : Job E N), rn.jobs.length ≤ j → t.jobs[j]? = some job →
        job.req.endname = endname → Served servername server job.caller job.proc job.handler)
      ?_ hrun ⟨ok_of_reachable hreach, hserves, ?_⟩
    · intro t a u ⟨hok, ht, hserved⟩ hguard hstep
      have hmove := (moves_of_step hstep).2
      refine ⟨hok.step hstep, ht.step hmove hguard, ?_⟩
      intro j next hj hnext hnextEnd
      rcases hmove.getElem?_jobs hnext with hold | ⟨old, effect, hold, hmoves⟩ | ⟨-, req, rfl⟩
      · exact hserved j next hj hold hnextEnd
      · have hend : old.req.endname = endname := hmoves.req ▸ hnextEnd
        exact hmoves.served (hok j old hold) (hend ▸ ht) (hserved j old hj hold hend)
      · exact .called _
    · intro j job hj hjob
      rw [List.getElem?_eq_none hj] at hjob
      cases hjob
  have hserved := hinv.2.2 i job hnew hjob hend
  obtain ⟨req, caller, proc, handler, drain⟩ := job
  obtain rfl := hreturned
  cases hserved
  exact ⟨rfl, rfl⟩

end Network

theorem served_call_succeeds_get :
    ∃ (rn' : Network ℕ (Fin 2)) (job : Job ℕ (Fin 2)) (msg : ReplyMsg),
      rn'.Reachable ∧ rn'.jobs[0]? = some job ∧ job.caller = .returned msg ∧
      msg.ok = true ∧ job.handler = .done 0 msg.reply := by
  let job : Job ℕ (Fin 2) :=
    { req := getReq, caller := .returned { ok := true, reply := [5] }, proc := .done
      handler := .done 0 [5], drain := .idle }
  obtain ⟨rn, hreach, hjobs, ⟨hreliable, hup, hmade, henabled, hconnected, hregistered⟩, hrest⟩ :=
    exists_run_of_exec Network.step .make connectActs
      (fun rn => rn.jobs.length = 0 ∧ (rn.reliable = true ∧ rn.done = false ∧ rn.ends 0 = true ∧
        rn.enabled 0 = true ∧ rn.connections 0 = some 1 ∧ rn.servers 1 = some 0) ∧
        ((execOk Network.step (fun _ a => a.disturbs 0 1 0 = false) rn (workActs ++ returnActs)).any
          fun rn' => rn'.jobs[0]? = some job) = true)
      (by decide +kernel)
  obtain ⟨rn', hrun, hjob⟩ := exists_run_of_execOk _ _ _ _
    (fun rn' : Network ℕ (Fin 2) => rn'.jobs[0]? = some job) hrest
  exact ⟨rn', job, _, hreach.trans (hrun.mono fun _ _ _ => trivial), hjob, rfl,
    Network.served_call_succeeds hreach
      ⟨hreliable, hup, hmade, henabled, hconnected, hregistered⟩ hrun (Nat.le_of_eq hjobs) hjob rfl
      rfl⟩

end Serves

end MitDistributed.Labrpc
