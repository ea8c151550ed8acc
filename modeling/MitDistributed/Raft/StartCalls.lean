import MitDistributed.Raft.Progress
import MitDistributed.Transition.Since

namespace MitDistributed.Raft

open Function Transition

/-!
# Raft — calls of `Start` and the initialisation of a leader

`World` lets `Start` happen at once.  In the source it is a loop: it locks `raftState`, looks at
the role, and polls `leaderInitDone`; as long as that is not set it lets go of the lock, sleeps,
and looks at the role again.  Here every call of `Start` takes these steps one by one, next to
all the other goroutines of its peer.

* `StartWorld` — the cluster with the calls of `Start` that are under way.  A call that polls or
  appends holds `raftState`, and steps that lock it have to wait (`Node.locksRaftState`);
* `StartWorld.Sound` — the peer of a call that holds the lock stays leader meanwhile, and the
  cluster is one that `World` reaches;
* `start_appends_initialised` — when a call appends, `leaderMain` has set `nextIndex` and
  `matchIndex` up since the peer became leader the last time.
-/

variable {n : ℕ} {C D : Type}

/-! ### Who locks `raftState` -/

/-- `mainLoop` locks `raftState` in its next step.  `leaderMain` begins without it. -/
def MainPc.locksRaftState : MainPc → Bool
  | .leaderInit => false
  | .leaderInitDone => false
  | .electionWait => false
  | _ => true

theorem MainPc.inLeaderMain_of_initialised {pc : MainPc} (h : pc.initialised = true) :
    pc.inLeaderMain = true := by
  cases pc <;> first | rfl | cases h

namespace Thread

/-- The goroutine locks `raftState` in its next step. -/
def locksRaftState : Thread n C D → Bool
  | .sendHeartbeatToAll _ (.check _ _) => true
  | .sendAppendEntries _ _ .check => true
  | .sendInstallSnapshot _ _ .check => true
  | .tryIncrementCommitIndex .top => true
  | _ => false

/-- The goroutine locks `raftState` for the outcome of a call.  Only an election does so before it
    looks whether the call has failed. -/
def replyLocksRaftState (ok : Bool) : Thread n C D → Bool
  | .sendRequestVoteToAll _ _ _ _ => true
  | _ => ok

end Thread

namespace Node

/-- The peer locks `raftState`, or has it locked, in a step of this kind. -/
def locksRaftState (nd : Node n C D) : Action n C D → Bool
  | .main _ => nd.main.locksRaftState
  | .thread _ k => (nd.threads[k]?).any Thread.locksRaftState
  | .reply _ k _ ok => (nd.threads[k]?).any (Thread.replyLocksRaftState ok)
  | .apply _ => false
  | .restart _ => false
  | _ => true

/-- The part of `Start` that appends the command and broadcasts it.  It does not look at the
    role again. -/
def startAppend (me : Fin n) (nd : Node n C D) (command : Option C) : Effect n C D :=
  { node := (nd.appendCommand me command).go (.sendAppendEntriesToAll nd.currentTerm none)
    events := [.started me nd.getLogLength nd.currentTerm command nd.lastIncludedIndex
      (nd.appendCommand me command).log] }

end Node

/-! ### Calls of `Start` -/

/-- Where a call of `Start` is.  `ret` is after it has returned. -/
inductive StartPc
  | enter
  | poll
  | sleep
  | append
  | ret (index term : ℕ) (isLeader : Bool)
  deriving DecidableEq, Repr

/-- The call holds `raftState`. -/
def StartPc.holds : StartPc → Bool
  | .poll => true
  | .append => true
  | _ => false

structure StartCall (C : Type) where
  command : Option C
  pc : StartPc
  deriving DecidableEq, Repr

/-- The cluster with the calls of `Start` at every peer. -/
structure StartWorld (n : ℕ) (C D : Type) where
  raft : World n C D
  starts : Fin n → List (StartCall C)

/-- A step of the cluster, a new call of `Start`, or a step of one under way. -/
inductive StartAction (n : ℕ) (C D : Type)
  | raft (a : Action n C D)
  | call (p : Fin n) (command : Option C)
  | advance (p : Fin n) (i : ℕ)
  deriving DecidableEq, Repr

namespace StartWorld

/-- A call of `Start` holds `raftState` of peer `p`. -/
def locked (x : StartWorld n C D) (p : Fin n) : Bool := (x.starts p).any fun c => c.pc.holds

/-- Call `i` of peer `p` goes on at `pc`. -/
def setCall (x : StartWorld n C D) (p : Fin n) (i : ℕ) (c : StartCall C) (pc : StartPc) :
    StartWorld n C D :=
  { x with starts := update x.starts p ((x.starts p).set i { c with pc := pc }) }

/-- A step of the cluster.  One that locks `raftState` waits for the call that holds it; a restart
    ends all calls. -/
def raftStep (x : StartWorld n C D) : Action n C D → Option (StartWorld n C D)
  | .start _ _ => none
  | .restart p => (x.raft.step (.restart p)).map fun w =>
    { raft := w, starts := update x.starts p [] }
  | a => (x.raft.effect a).bind fun (p, eff) =>
    if x.locked p && (x.raft.nodes p).locksRaftState a then none
    else some { x with raft := x.raft.after a p eff }

/-- A step of call `i` of peer `p`.  While it holds `raftState` nobody has locked the log for
    writing, so that a call that returns at once can read its length. -/
def advance (x : StartWorld n C D) (p : Fin n) (i : ℕ) (c : StartCall C) :
    Option (StartWorld n C D) :=
  let nd := x.raft.nodes p
  match c.pc with
  | .enter | .sleep =>
    if nd.raftStateFree && !x.locked p then
      some (x.setCall p i c (if nd.state = .leaderState then .poll
        else .ret (nd.getLogLength - 1) nd.currentTerm false))
    else none
  | .poll => some (x.setCall p i c (if nd.leaderInitDone then .append else .sleep))
  | .append =>
    if nd.logFree && nd.peerLogFree then
      some { x.setCall p i c (.ret nd.getLogLength nd.currentTerm true) with
        raft := x.raft.after (.start p c.command) p (nd.startAppend p c.command) }
    else none
  | .ret _ _ _ => none

def step (x : StartWorld n C D) : StartAction n C D → Option (StartWorld n C D)
  | .raft a => x.raftStep a
  | .call p command =>
    if (x.raft.nodes p).exited then none
    else some { x with starts := update x.starts p (x.starts p ++ [⟨command, .enter⟩]) }
  | .advance p i =>
    if (x.raft.nodes p).exited then none
    else ((x.starts p)[i]?).bind fun c => x.advance p i c

/-- No call has been made. -/
def init (room : Fin n → ℕ → ℕ) : StartWorld n C D :=
  { raft := World.init room, starts := fun _ => [] }

section

variable (x : StartWorld n C D)

/-- What a step can be. -/
inductive StepCase : StartAction n C D → StartWorld n C D → Prop
  | raft (heff : x.raft.effect a = some (p, eff)) (ha : a ≠ .restart p)
      (hlock : x.locked p = true → (x.raft.nodes p).locksRaftState a = false) :
      StepCase (.raft a) { x with raft := x.raft.after a p eff }
  | restart (p : Fin n) :
      StepCase (.raft (.restart p))
        { raft := x.raft.after (.restart p) p ((x.raft.nodes p).restart p)
          starts := update x.starts p [] }
  | call (p : Fin n) (command : Option C) :
      StepCase (.call p command)
        { x with starts := update x.starts p (x.starts p ++ [⟨command, .enter⟩]) }
  | lock (hc : (x.starts p)[i]? = some c) (hfree : (x.raft.nodes p).raftStateFree = true)
      (hlock : x.locked p = false) (hs : (x.raft.nodes p).state = .leaderState) :
      StepCase (.advance p i) (x.setCall p i c .poll)
  | refuse (hc : (x.starts p)[i]? = some c) :
      StepCase (.advance p i) (x.setCall p i c (.ret index term false))
  | done (hc : (x.starts p)[i]? = some c) (hpc : c.pc = .poll)
      (hdone : (x.raft.nodes p).leaderInitDone = true) :
      StepCase (.advance p i) (x.setCall p i c .append)
  | sleep (hc : (x.starts p)[i]? = some c) : StepCase (.advance p i) (x.setCall p i c .sleep)
  | append (hc : (x.starts p)[i]? = some c) (hpc : c.pc = .append)
      (hrun : (x.raft.nodes p).exited = false) (hlog : (x.raft.nodes p).logFree = true)
      (hpeer : (x.raft.nodes p).peerLogFree = true) :
      StepCase (.advance p i)
        { x.setCall p i c
            (.ret (x.raft.nodes p).getLogLength (x.raft.nodes p).currentTerm true) with
          raft := x.raft.after (.start p c.command) p
            ((x.raft.nodes p).startAppend p c.command) }

end

variable {x x' : StartWorld n C D}

theorem raftStep_cases {a : Action n C D} (h : x.raftStep a = some x') :
    x.StepCase (.raft a) x' := by
  unfold raftStep at h
  split at h
  · cases h
  · rename_i p
    cases h
    exact .restart p
  · rename_i hstart hrestart
    obtain ⟨⟨p, eff⟩, heff, h⟩ := Option.bind_eq_some_iff.mp h
    simp only at h
    split at h
    · cases h
    · rename_i hlock
      cases h
      refine .raft heff (hrestart p) fun hl => ?_
      rw [hl, Bool.true_and] at hlock
      exact Bool.eq_false_iff.mpr hlock

theorem lock_cases {p : Fin n} {i : ℕ} {c : StartCall C} (hc : (x.starts p)[i]? = some c)
    (h : (if (x.raft.nodes p).raftStateFree && !x.locked p then
      some (x.setCall p i c (if (x.raft.nodes p).state = .leaderState then .poll
        else .ret ((x.raft.nodes p).getLogLength - 1) (x.raft.nodes p).currentTerm false))
      else none) = some x') : x.StepCase (.advance p i) x' := by
  split at h
  · rename_i hfree
    rw [Bool.and_eq_true, Bool.not_eq_true'] at hfree
    split at h <;> rename_i hs <;> cases h
    · exact .lock hc hfree.1 hfree.2 hs
    · exact .refuse hc
  · cases h

theorem step_cases {a : StartAction n C D} (h : x.step a = some x') : x.StepCase a x' := by
  cases a with
  | raft a => exact raftStep_cases h
  | call p command =>
    simp only [step, Option.ite_none_left_eq_some, Option.some.injEq] at h
    obtain ⟨-, rfl⟩ := h
    exact .call p command
  | advance p i =>
    simp only [step, Option.ite_none_left_eq_some, Option.bind_eq_some_iff] at h
    obtain ⟨hrun, c, hc, h⟩ := h
    unfold advance at h
    simp only at h
    split at h
    · exact lock_cases hc h
    · exact lock_cases hc h
    · rename_i hpc
      split at h <;> rename_i hdone <;> cases h
      · exact .done hc hpc hdone
      · exact .sleep hc
    · rename_i hpc
      split at h
      · rename_i hfree
        rw [Bool.and_eq_true] at hfree
        cases h
        exact .append hc hpc (Bool.eq_false_iff.mpr hrun) hfree.1 hfree.2
      · cases h
    · cases h

end StartWorld

/-! ### Steps beside a call that holds `raftState` -/

namespace World

variable {w : World n C D} {p : Fin n} {eff : Effect n C D} {a : Action n C D}

/-- Steps without `raftState` leave the role and the lock alone, and may set `leaderInitDone` but
    do not clear it. -/
theorem local_unlocked (hl : Local w p eff a) (ha : a ≠ .restart p)
    (hlock : (w.nodes p).locksRaftState a = false) :
    eff.node.state = (w.nodes p).state ∧ eff.node.held = (w.nodes p).held ∧
      ((w.nodes p).leaderInitDone = true → eff.node.leaderInitDone = true) := by
  cases hl with
  | main h =>
    have hpc : (w.nodes p).main.locksRaftState = false := hlock
    cases Node.mainStep_cases h with
    | leaderInit | counted => exact ⟨rfl, rfl, id⟩
    -- the one step that writes the flag, from `leaderMain`, sets it
    | leaderInitDone => exact ⟨rfl, rfl, fun _ => rfl⟩
    | lead hm | stand hm | follow hm | heartbeat hm | stay hm | leave hm | elect hm | timeout hm =>
      rw [hm] at hpc
      cases hpc
  | thread k h => cases Node.threadStep_cases h <;> exact ⟨rfl, rfl, id⟩
  | reply k call ok request hc h =>
    have hth (th : Thread n C D) (hk : (w.nodes p).threads[k]? = some th) :
        th.replyLocksRaftState ok = false := by
      simpa only [Node.locksRaftState, hk, Option.any_some] using hlock
    cases Node.threadReply_cases h with
    -- an election is won with the lock
    | voteStale hk => cases hth _ hk
    | voteAgain hv | voteCounted hv | voteWon hv => cases hth _ hv.thread
    | beatLost | appendAgain | snapshotAgain => exact ⟨rfl, rfl, id⟩
    | beatMatched hb hok | beatRefused hb hok => cases hok.symm.trans (hth _ hb.thread)
    | appendStale hr | appendMatched hr | appendDeposed hr | retryZero hr | retrySnapshot hr
    | retryEntries hr | retryExit hr | snapshotStale hr | snapshotDeposed hr | followSnapshot hr
    | followEntries hr | followExit hr => cases hr.ok.symm.trans (hth _ hr.thread)
  | apply h => cases Node.applyStep_cases h <;> exact ⟨rfl, rfl, id⟩
  | deliver | resume | start | snapshot => cases hlock
  | restart => exact absurd rfl ha

/-- **Flag.** A leader with `leaderInitDone` set has been initialised: who becomes leader clears
    it, and it is set after the initialisation. -/
def FlagOk (w : World n C D) : Prop :=
  ∀ p, (w.nodes p).state = .leaderState → (w.nodes p).leaderInitDone = true →
    (w.nodes p).main.initialised = true

theorem FlagOk.local (hf : w.FlagOk) (hl : Local w p eff a) (hs : eff.node.state = .leaderState)
    (hd : eff.node.leaderInitDone = true) : eff.node.main.initialised = true := by
  cases local_tends hl with
  | steady hst =>
    rw [hst.main]
    exact hf p (hst.role hs).1 (hst.initDone ▸ hd)
  | learn hst hx hlearn =>
    have hmain : eff.node.main = (w.nodes p).main := hst.main
    rw [hmain]
    exact hf p (hst.role hs).1 (hst.initDone ▸ hd)
  | main h =>
    -- before the initialisation the flag of a leader is not set
    have hno (hs : (w.nodes p).state = .leaderState) (hd : (w.nodes p).leaderInitDone = true)
        (hm : (w.nodes p).main.initialised = false) : False := by
      rw [hf p hs hd] at hm
      cases hm
    cases Node.mainStep_cases h with
    | leaderInit | leaderInitDone | heartbeat | stay => rfl
    | lead hm | stand hm | follow hm | elect hm | counted hm =>
      exact (hno hs hd (by rw [hm]; rfl)).elim
    | leave _ hne => exact absurd hs hne
    | timeout => cases hs
  | won hc hm hi => rw [hi] at hd; cases hd
  | restart => exact absurd hs (not_leader_of_restart hl)

theorem FlagOk.step (hf : w.FlagOk) {w' : World n C D} (h : w.step a = some w') : w'.FlagOk := by
  obtain ⟨p, eff, heff, rfl⟩ := step_eq_some h
  refine forall_nodes_after (Q := fun _ nd => nd.state = .leaderState →
    nd.leaderInitDone = true → nd.main.initialised = true) ?_ fun q _ => hf q
  exact hf.local (effect_local heff)

theorem init_flagOk (room : Fin n → ℕ → ℕ) :
    (init room : World n C D).FlagOk := nofun

theorem Reachable.flagOk {ok : World n C D → Action n C D → Prop} (h : Reachable ok w) : w.FlagOk :=
  h.invariant (fun _ _ _ hf _ hstep => hf.step hstep) init_flagOk

/-- **Initialisation.** An initialised leader is initialised in this step, or was the initialised
    leader of the same term before. -/
theorem local_initialised {t : ℕ} (hd : (w.nodes p).Duty p) (hl : Local w p eff a)
    (ht : eff.node.leads t) (hm : eff.node.main.initialised = true) :
    (w.nodes p).leads t ∧ ((w.nodes p).main.initialised = true ∨
      a = .main p ∧ (w.nodes p).main = .leaderInit ∧
        (eff.node.nextIndex = fun _ => eff.node.getLogLength) ∧
        eff.node.matchIndex = fun _ => 0) := by
  obtain ⟨hterm, hs⟩ := ht
  cases local_tends hl with
  | steady hst =>
    obtain ⟨hs', ht'⟩ := hst.role hs
    exact ⟨⟨ht'.symm.trans hterm, hs'⟩, .inl (hst.main ▸ hm)⟩
  | learn hst hx hlearn =>
    obtain ⟨hs', ht'⟩ := hst.role hs
    have hmain : eff.node.main = (w.nodes p).main := hst.main
    exact ⟨⟨ht'.symm.trans hterm, hs'⟩, .inl (hmain ▸ hm)⟩
  | main h =>
    cases Node.mainStep_cases h with
    | leaderInit hpc => exact ⟨⟨hterm, hs⟩, .inr ⟨rfl, hpc, rfl, rfl⟩⟩
    | leaderInitDone hpc | heartbeat hpc | stay hpc =>
      exact ⟨⟨hterm, hs⟩, .inl (by rw [hpc]; rfl)⟩
    | lead | stand | follow | elect | counted | leave | timeout => cases hm
  | won hc hmain hi =>
    -- `mainLoop` of a candidate is not in `leaderMain`
    have hout := (hd.main_of_candidate hc).1
    rw [hmain] at hm
    cases hout.symm.trans (MainPc.inLeaderMain_of_initialised hm)
  | restart => exact absurd hs (not_leader_of_restart hl)

end World

namespace StartWorld

variable {x x' : StartWorld n C D} {p : Fin n}

/-! ### What holds in every run -/

/-- While a call holds `raftState`, nobody else does and the peer is leader; and it appends only
    with `leaderInitDone` set. -/
structure CallOk (nd : Node n C D) (pc : StartPc) : Prop where
  held : pc.holds = true → nd.held = none
  leader : pc.holds = true → nd.state = .leaderState
  initDone : pc = .append → nd.leaderInitDone = true

/-- A call that does not hold the lock promises nothing. -/
theorem CallOk.of_not_holds {nd : Node n C D} {pc : StartPc} (h : pc.holds = false) :
    CallOk nd pc where
  held hp := absurd (h.symm.trans hp) (by simp)
  leader hp := absurd (h.symm.trans hp) (by simp)
  initDone hp := by subst hp; cases h

/-- What a call is promised survives where the role and the lock do. -/
theorem CallOk.mono {nd nd' : Node n C D} {pc : StartPc} (h : CallOk nd pc)
    (hs : nd'.state = nd.state) (hh : nd'.held = nd.held)
    (hd : nd.leaderInitDone = true → nd'.leaderInitDone = true) : CallOk nd' pc where
  held hp := hh.trans (h.held hp)
  leader hp := hs.trans (h.leader hp)
  initDone hp := hd (h.initDone hp)

def CallsOk (nd : Node n C D) (calls : List (StartCall C)) : Prop := ∀ c ∈ calls, CallOk nd c.pc

/-- The invariant. -/
structure Sound (x : StartWorld n C D) : Prop where
  reachable : x.raft.Reachable (fun _ _ => True)
  calls : ∀ p, CallsOk (x.raft.nodes p) (x.starts p)

theorem holds_of_not_locked (h : x.locked p = false) {c : StartCall C} (hc : c ∈ x.starts p) :
    c.pc.holds = false := by
  rw [locked, List.any_eq_false] at h
  exact Bool.eq_false_iff.mpr (h c hc)

/-- Setting one call keeps what holds of all of them. -/
theorem calls_setCall {i : ℕ} {c : StartCall C} {pc : StartPc} {w : World n C D}
    (hold : ∀ q, CallsOk (w.nodes q) (x.starts q)) (hnew : CallOk (w.nodes p) pc) :
    ∀ q, CallsOk (w.nodes q) ((x.setCall p i c pc).starts q) := by
  refine (forall_update_iff _ fun q => CallsOk (w.nodes q)).mpr
    ⟨fun d hd => ?_, fun q _ => hold q⟩
  rcases List.mem_or_eq_of_mem_set hd with hmem | rfl
  · exact hold p d hmem
  · exact hnew

/-- A call that may append is one of `World`'s steps. -/
theorem effect_start {command : Option C} (hrun : (x.raft.nodes p).exited = false)
    (hlog : (x.raft.nodes p).logFree = true) (hpeer : (x.raft.nodes p).peerLogFree = true)
    (hs : (x.raft.nodes p).state = .leaderState) (hd : (x.raft.nodes p).leaderInitDone = true) :
    x.raft.effect (.start p command) =
      some (p, (x.raft.nodes p).startAppend p command) := by
  simp [World.effect, Node.tryStart, Node.start, Node.startAppend, hrun, hlog, hpeer, hs, hd]

/-- Every step is one of `World`, or leaves the cluster as it is. -/
theorem Sound.step_reachable {a : StartAction n C D} (hx : x.Sound) (h : x.step a = some x') :
    x'.raft.Reachable (fun _ _ => True) := by
  have hr := hx.reachable
  cases step_cases h with
  | @raft a p eff heff => exact .tail a hr trivial (by rw [World.step, heff]; rfl)
  | restart p => exact .tail (.restart p) hr trivial rfl
  | call | lock | refuse | done | sleep => exact hr
  | @append p i c hc hpc hrun hlog hpeer =>
    -- the source does not look at the role again, but it cannot have changed
    have hok := hx.calls p c (List.mem_of_getElem? hc)
    rw [hpc] at hok
    have heff : x.raft.effect (.start p c.command) =
        some (p, (x.raft.nodes p).startAppend p c.command) :=
      effect_start hrun hlog hpeer (hok.leader rfl) (hok.initDone rfl)
    exact .tail (.start p c.command) hr trivial (by rw [World.step, heff]; rfl)

theorem Sound.step_calls {a : StartAction n C D} (hx : x.Sound) (h : x.step a = some x') :
    ∀ p, CallsOk (x'.raft.nodes p) (x'.starts p) := by
  have hcalls := hx.calls
  cases step_cases h with
  | @raft a p eff heff ha hlock =>
    refine World.forall_nodes_after (Q := fun q nd => CallsOk nd (x.starts q))
      (fun c hc => ?_) fun q _ => hcalls q
    cases hl : x.locked p with
    | false => exact .of_not_holds (holds_of_not_locked hl hc)
    | true =>
      -- the step does not lock `raftState`, so that the call goes on as it was
      obtain ⟨hs, hh, hd⟩ := World.local_unlocked (World.effect_local heff) ha (hlock hl)
      exact (hcalls p c hc).mono hs hh hd
  | restart p =>
    refine (forall_update_iff _ fun q => CallsOk ((x.raft.after _ p _).nodes q)).mpr
      ⟨fun c hc => absurd hc List.not_mem_nil, fun q hne => ?_⟩
    rw [World.after_nodes_of_ne _ _ _ hne]
    exact hcalls q
  | call p command =>
    refine (forall_update_iff _ fun q => CallsOk (x.raft.nodes q)).mpr
      ⟨fun c hc => ?_, fun q _ => hcalls q⟩
    rcases List.mem_append.mp hc with hc | hc
    · exact hcalls p c hc
    · rw [List.mem_singleton.mp hc]
      exact .of_not_holds rfl
  | @lock p i c hc hfree hlock hs =>
    have hheld := Node.held_of_raftStateFree hfree
    exact calls_setCall hcalls ⟨fun _ => hheld, fun _ => hs, fun hp => by cases hp⟩
  | refuse | sleep => exact calls_setCall hcalls (.of_not_holds rfl)
  | @done p i c hc hpc hdone =>
    have hok := hcalls p c (List.mem_of_getElem? hc)
    rw [hpc] at hok
    exact calls_setCall hcalls ⟨hok.held, hok.leader, fun _ => hdone⟩
  | @append p i c =>
    refine calls_setCall ?_ (.of_not_holds rfl)
    exact World.forall_nodes_after (Q := fun q nd => CallsOk nd (x.starts q))
      (fun d hd => (hcalls p d hd).mono rfl rfl id) fun q _ => hcalls q

/-- **Step.** -/
theorem Sound.step {a : StartAction n C D} (hx : x.Sound) (h : x.step a = some x') : x'.Sound :=
  ⟨hx.step_reachable h, hx.step_calls h⟩

theorem init_sound (room : Fin n → ℕ → ℕ) : (init room : StartWorld n C D).Sound :=
  ⟨.refl room, nofun⟩

/-- **Run.** -/
theorem sound_of_run {room : Fin n → ℕ → ℕ} (h : Run step (fun _ _ => True) (init room) x) :
    x.Sound :=
  h.invariant (fun _ _ _ hx _ hstep => hx.step hstep) (init_sound room)

/-! ### Since when a leader is initialised -/

/-- `leaderMain` of peer `p`, the leader of term `t`, sets up what the leader knows of the
    others. -/
structure Initialises (p : Fin n) (t : ℕ) (x : StartWorld n C D) (a : StartAction n C D)
    (x' : StartWorld n C D) : Prop where
  action : a = .raft (.main p)
  main : (x.raft.nodes p).main = .leaderInit
  leads : (x.raft.nodes p).leads t
  nextIndex : (x'.raft.nodes p).nextIndex = fun _ => (x'.raft.nodes p).getLogLength
  matchIndex : (x'.raft.nodes p).matchIndex = fun _ => 0

/-- After these actions, peer `p` is the leader of its term, `leaderMain` has set up `nextIndex`
    and `matchIndex`, and since then the peer has been leader without a break. -/
def Initialised (room : Fin n → ℕ → ℕ) (p : Fin n) (acts : List (StartAction n C D))
    (x : StartWorld n C D) : Prop :=
  Since step (Initialises p (x.raft.nodes p).currentTerm)
    (fun y => (y.raft.nodes p).leads (x.raft.nodes p).currentTerm) (init room) acts x

/-- A step of the cluster: the peer that moves may be another one. -/
theorem effect_initialised {a : Action n C D} {q : Fin n} {eff : Effect n C D} {t : ℕ}
    (hd : x.raft.OnDuty) (heff : x.raft.effect a = some (q, eff))
    (hx' : x'.raft = x.raft.after a q eff) (ht : (x'.raft.nodes p).leads t)
    (hm : (x'.raft.nodes p).main.initialised = true) :
    Initialises p t x (.raft a) x' ∨
      (x.raft.nodes p).leads t ∧ (x.raft.nodes p).main.initialised = true := by
  rcases eq_or_ne p q with rfl | hne
  · have hself : x'.raft.nodes p = eff.node := by rw [hx', World.after_nodes_self]
    rw [hself] at ht hm
    obtain ⟨hlead, hold | ⟨rfl, hmain, hnext, hmatch⟩⟩ :=
      World.local_initialised (hd p) (World.effect_local heff) ht hm
    · exact .inr ⟨hlead, hold⟩
    · exact .inl ⟨rfl, hmain, hlead, by rw [hself, hnext], by rw [hself, hmatch]⟩
  · rw [hx', World.after_nodes_of_ne _ _ _ hne] at ht hm
    exact .inr ⟨ht, hm⟩

/-- An initialised leader is initialised in this step, or was the initialised leader of the same
    term before. -/
theorem step_initialised {a : StartAction n C D} {t : ℕ} (hx : x.Sound) (h : x.step a = some x')
    (ht : (x'.raft.nodes p).leads t) (hm : (x'.raft.nodes p).main.initialised = true) :
    Initialises p t x a x' ∨
      (x.raft.nodes p).leads t ∧ (x.raft.nodes p).main.initialised = true := by
  have hd := World.Reachable.onDuty hx.reachable
  cases step_cases h with
  | raft heff => exact effect_initialised hd heff rfl ht hm
  | restart q => exact effect_initialised hd rfl rfl ht hm
  | call | lock | refuse | done | sleep => exact .inr ⟨ht, hm⟩
  | @append q i c =>
    -- a call that appends leaves the role, the term and `mainLoop` of its peer alone
    rcases eq_or_ne p q with rfl | hne
    · rw [World.after_nodes_self] at ht hm
      exact .inr ⟨ht, hm⟩
    · rw [World.after_nodes_of_ne _ _ _ hne] at ht hm
      exact .inr ⟨ht, hm⟩

/-- A leader with `leaderInitDone` set has been initialised since it became leader. -/
theorem initialised_of_flag {room : Fin n → ℕ → ℕ} {acts : List (StartAction n C D)}
    (h : exec step (init room) acts = some x) (hs : (x.raft.nodes p).state = .leaderState)
    (hd : (x.raft.nodes p).leaderInitDone = true) : Initialised room p acts x := by
  have hx := sound_of_run (.of_exec h)
  have hm := World.Reachable.flagOk hx.reachable p hs hd
  refine Since.of_exec (R := fun y => (y.raft.nodes p).leads (x.raft.nodes p).currentTerm ∧
    (y.raft.nodes p).main.initialised = true) ?_ ?_ h ⟨⟨rfl, hs⟩, hm⟩
  · rintro ⟨⟨-, hlead⟩, -⟩
    have hfollow : ((init room : StartWorld n C D).raft.nodes p).state = .followerState :=
      Node.make_state _ _
    cases hfollow.symm.trans hlead
  · intro u a v hrun hstep ⟨ht, hinit⟩
    exact ⟨ht, step_initialised (sound_of_run hrun) hstep ht hinit⟩

/-- Only a call that appends changes the log in its step. -/
theorem flag_of_append {i : ℕ} (hx : x.Sound) (h : x.step (.advance p i) = some x')
    (hlog : (x'.raft.nodes p).log ≠ (x.raft.nodes p).log) :
    (x.raft.nodes p).state = .leaderState ∧ (x.raft.nodes p).leaderInitDone = true := by
  cases step_cases h with
  | lock | refuse | done | sleep => exact absurd rfl hlog
  | @append _ _ c hc hpc =>
    have hok := hx.calls p c (List.mem_of_getElem? hc)
    rw [hpc] at hok
    exact ⟨hok.leader rfl, hok.initDone rfl⟩

end StartWorld

/-- **Handshake.**  After any sequence of steps of the goroutines and handlers of all peers, of
    restarts and of calls of `Start`: a leader with `leaderInitDone` set has been initialised by
    `leaderMain` since it became leader the last time, and so has every peer at which a call of
    `Start` appends an entry in its next step. -/
theorem start_appends_initialised {room : Fin n → ℕ → ℕ} {acts : List (StartAction n C D)}
    {x : StartWorld n C D} (h : exec StartWorld.step (StartWorld.init room) acts = some x)
    (p : Fin n) :
    ((x.raft.nodes p).state = .leaderState → (x.raft.nodes p).leaderInitDone = true →
      StartWorld.Initialised room p acts x) ∧
    (∀ i x', x.step (.advance p i) = some x' →
      (x'.raft.nodes p).log ≠ (x.raft.nodes p).log → StartWorld.Initialised room p acts x) := by
  refine ⟨StartWorld.initialised_of_flag h, fun i x' hstep hlog => ?_⟩
  obtain ⟨hs, hd⟩ := StartWorld.flag_of_append (StartWorld.sound_of_run (.of_exec h)) hstep hlog
  exact StartWorld.initialised_of_flag h hs hd

/-- Peer 0 wins an election while its `mainLoop` is about to begin the next one.  A call of `Start`
    polls, sleeps, and locks `raftState` again before `leaderMain` comes to the initialisation. -/
def handshakeActs : List (StartAction 3 ℕ ℕ) :=
  List.replicate 4 (.raft (.main 0)) ++
  [.raft (.thread 0 0), .raft (.thread 0 0), .raft (.main 0), .raft (.main 0),
    .raft (.deliver 0), .raft (.resume 1), .raft (.reply 0 0 0 true),
    .call 0 (some 7), .advance 0 0, .advance 0 0,
    .raft (.main 0), .raft (.main 0), .raft (.main 0), .advance 0 0,
    .raft (.main 0), .raft (.main 0), .advance 0 0]

/-- The call then appends, in the term that `mainLoop` has raised after the election. -/
theorem handshakeActs_initialised : ∃ x x' : StartWorld 3 ℕ ℕ,
    exec StartWorld.step (StartWorld.init fun _ _ => 0) handshakeActs = some x ∧
      x.step (.advance 0 0) = some x' ∧ (x'.raft.nodes 0).log = [⟨0, none⟩, ⟨2, some 7⟩] ∧
      StartWorld.Initialised (fun _ _ => 0) 0 handshakeActs x := by
  have hrun : ((exec StartWorld.step (StartWorld.init fun _ _ => 0) handshakeActs).any fun x =>
      (x.raft.nodes 0).log = [⟨0, none⟩] ∧ ((x.step (.advance 0 0)).any fun x' =>
        (x'.raft.nodes 0).log = [⟨0, none⟩, ⟨2, some 7⟩]) = true) = true := by
    decide +kernel
  obtain ⟨x, hx, hend⟩ := (Option.any_eq_true _ _).mp hrun
  obtain ⟨hold, happend⟩ := of_decide_eq_true hend
  obtain ⟨x', hx', hnew⟩ := (Option.any_eq_true _ _).mp happend
  have hlog := of_decide_eq_true hnew
  refine ⟨x, x', hx, hx', hlog, (start_appends_initialised hx 0).2 0 x' hx' ?_⟩
  rw [hlog, hold]
  decide

end MitDistributed.Raft
