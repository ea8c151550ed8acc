import MitDistributed.Raft.Goroutines
import MitDistributed.Transition.Run

namespace MitDistributed.Raft

open Transition

/-!
# Raft — the cluster as a transition system

An action is one step of one peer: of one of its goroutines, of a handler, of a client that
calls `Start` or of a service that calls `Snapshot`; or the crash and restart of a peer.
The network is free: a request may be delivered at any time or never, at most once, and the
outcome of a call may be its reply or a failure, whatever became of the request.

* `effect w a` — the peer that takes action `a` in `w`, and what its step does;
* `step w a` — the cluster afterwards;
* `init` — the cluster after the first `Make` of every peer.
-/

variable {n : ℕ} {C D : Type}

/-- One step of the cluster. -/
inductive Action (n : ℕ) (C D : Type)
  | main (p : Fin n)
  | thread (p : Fin n) (k : ℕ)
  | reply (p : Fin n) (k call : ℕ) (ok : Bool)
  | apply (p : Fin n)
  | deliver (call : ℕ)
  | resume (p : Fin n)
  | start (p : Fin n) (command : Option C)
  | snapshot (p : Fin n) (index : ℕ) (snapshot : Option D)
  | restart (p : Fin n)
  deriving DecidableEq, Repr

namespace Node

/-- The first step of the handler of a request, once its locks are free. -/
def handle (nd : Node n C D) (call : ℕ) : Request n C D → Option (Effect n C D)
  | .requestVote args => if nd.raftStateFree then some (nd.requestVote call args) else none
  | .appendEntries args => if nd.logFree then some (nd.appendEntries call args) else none
  | .installSnapshot args => if nd.logFree then some (nd.installSnapshot call args) else none

/-- The next step of the handler, or of `Snapshot`, that is under way. -/
def resume (me : Fin n) (nd : Node n C D) : Option (Effect n C D) :=
  match nd.held with
  | none => none
  | some (.requestVote call args) => some (nd.resumeRequestVote me call args)
  | some (.appendLog call args) => some (nd.appendLog call args)
  | some (.appendCommit call args) =>
    if nd.commitFree then some (nd.appendCommit me call args) else none
  | some (.installLog call args) => some (nd.installLog me call args)
  | some (.installIndex call args pc) => some (nd.installIndex call args pc)
  | some (.installSave call args) => some (nd.installSave call args)
  | some (.installSend call args) => some (nd.installSend me call args)
  | some (.snapshotSave snapshot) => some (nd.snapshotSave snapshot)

/-- `Start`, once its locks are free.  A leader that is not initialised makes it wait. -/
def tryStart (me : Fin n) (nd : Node n C D) (command : Option C) : Option (Effect n C D) :=
  if nd.logFree && nd.peerLogFree && (nd.state ≠ .leaderState || nd.leaderInitDone) then
    some (nd.start me command)
  else none

/-- `Snapshot`, once its locks are free. -/
def trySnapshot (me : Fin n) (nd : Node n C D) (index : ℕ) (snapshot : Option D) :
    Option (Effect n C D) :=
  if nd.logFree then some (nd.snapshot me index snapshot) else none

/-- The peer crashes and is made again from its `Persister`. -/
def restart (me : Fin n) (nd : Node n C D) : Effect n C D :=
  let rf := make nd.persister nd.backing.room
  { node := rf, events := [.made me rf.lastIncludedIndex] }

end Node

namespace World

/-- The peer that takes an action, and what its step does.  A process that has ended takes
    no step until it is restarted. -/
def effect (w : World n C D) : Action n C D → Option (Fin n × Effect n C D)
  | .main p => if (w.nodes p).exited then none else ((w.nodes p).mainStep p).map (p, ·)
  | .thread p k =>
    if (w.nodes p).exited then none
    else ((w.nodes p).threadStep p w.calls.length k).map (p, ·)
  | .reply p k call ok =>
    if (w.nodes p).exited then none
    else (w.calls[call]?).bind fun request =>
      ((w.nodes p).threadReply p w.calls.length k call request ok).map (p, ·)
  | .apply p => if (w.nodes p).exited then none else ((w.nodes p).applyStep p).map (p, ·)
  | .deliver call => (w.calls[call]?).bind fun request =>
    if (w.nodes request.dst).exited || request.delivered then none
    else ((w.nodes request.dst).handle call request.request).map (request.dst, ·)
  | .resume p => if (w.nodes p).exited then none else ((w.nodes p).resume p).map (p, ·)
  | .start p command =>
    if (w.nodes p).exited then none else ((w.nodes p).tryStart p command).map (p, ·)
  | .snapshot p index snapshot =>
    if (w.nodes p).exited then none
    else ((w.nodes p).trySnapshot p index snapshot).map (p, ·)
  | .restart p => some (p, (w.nodes p).restart p)

/-- Call number `i` after an action: marked if it was delivered, with its reply if it was
    answered. -/
def callAfter (a : Action n C D) (eff : Effect n C D) (i : ℕ) (c : Call n C D) : Call n C D :=
  { c with
    delivered :=
      match a with
      | .deliver call => c.delivered || call == i
      | _ => c.delivered
    reply :=
      match eff.answer with
      | some (call, reply) => if call = i then some reply else c.reply
      | none => c.reply }

/-- The calls after an action; a new one is added at the end. -/
def callsAfter (calls : List (Call n C D)) (a : Action n C D) (eff : Effect n C D) :
    List (Call n C D) :=
  calls.mapIdx (callAfter a eff) ++ eff.send.toList

/-- The cluster after peer `p` took action `a`. -/
def after (w : World n C D) (a : Action n C D) (p : Fin n) (eff : Effect n C D) : World n C D :=
  { nodes := Function.update w.nodes p eff.node
    calls := callsAfter w.calls a eff
    trace := eff.events ++ w.trace }

/-- One step of the cluster. -/
def step (w : World n C D) (a : Action n C D) : Option (World n C D) :=
  (w.effect a).map fun x => w.after a x.1 x.2

/-- The cluster after the first `Make` of every peer, with empty persisters.  `room p` is how many
    free slots the runtime will give to the arrays of the log at peer `p`. -/
def init (room : Fin n → ℕ → ℕ) : World n C D :=
  { nodes := fun p => Node.make { raftstate := none, snapshot := none } (room p)
    calls := []
    trace := [] }

/-- The states that runs with every action allowed by `ok` reach, whatever the arrays are. -/
def Reachable (ok : World n C D → Action n C D → Prop) (w : World n C D) : Prop :=
  ∃ room, Run step ok (init room) w

namespace Reachable

variable {ok ok' : World n C D → Action n C D → Prop} {w w' : World n C D}

theorem refl (room : Fin n → ℕ → ℕ) : Reachable ok (init room : World n C D) :=
  ⟨room, .refl _⟩

theorem tail (a : Action n C D) (h : Reachable ok w) (ha : ok w a) (hs : step w a = some w') :
    Reachable ok w' := by
  obtain ⟨room, hrun⟩ := h
  exact ⟨room, .tail a hrun ha hs⟩

/-- A run goes on from a state that was reached. -/
theorem trans (h : Reachable ok w) (hrun : Run step ok w w') : Reachable ok w' := by
  obtain ⟨room, hrun₀⟩ := h
  exact ⟨room, hrun₀.trans hrun⟩

/-- Weakening the guard keeps every run. -/
theorem mono (hok : ∀ w a, ok w a → ok' w a) (h : Reachable ok w) : Reachable ok' w := by
  obtain ⟨room, hrun⟩ := h
  exact ⟨room, hrun.mono hok⟩

/-- A checked execution, with no room in the arrays, reaches a state with property `P`. -/
theorem exists_of_execOk (ok : World n C D → Action n C D → Prop) [∀ w a, Decidable (ok w a)]
    (acts : List (Action n C D)) (P : World n C D → Prop) [DecidablePred P]
    (h : ((execOk step ok (init fun _ _ => 0) acts).any fun w => P w) = true) :
    ∃ w, Reachable ok w ∧ P w := by
  obtain ⟨w, hrun, hP⟩ := exists_run_of_execOk step ok (init fun _ _ => 0) acts P h
  exact ⟨w, ⟨_, hrun⟩, hP⟩

/-- **Induction over a run**, whatever the arrays are. -/
@[elab_as_elim]
theorem induct {P : (w : World n C D) → Reachable ok w → Prop}
    (refl : ∀ room, P (init room) (.refl room))
    (tail : ∀ {w w'} (a) (h : Reachable ok w) (ha : ok w a) (hs : step w a = some w'),
      P w h → P w' (.tail a h ha hs)) (h : Reachable ok w) : P w h := by
  obtain ⟨room, hrun⟩ := h
  induction hrun with
  | refl => exact refl room
  | tail a hrun ha hs ih => exact tail a ⟨room, hrun⟩ ha hs ih

/-- **Invariant rule.** What holds after `Make` and is kept by every guarded action holds in every
    state that is reached. -/
theorem invariant {I : World n C D → Prop}
    (hstep : ∀ w a w', I w → ok w a → step w a = some w' → I w') (h : Reachable ok w)
    (hinit : ∀ room, I (init room)) : I w := by
  obtain ⟨room, hrun⟩ := h
  exact hrun.invariant hstep (hinit room)

end Reachable

end World

/-- The peers of a cluster of three are written `0`, `1` and `2`. -/
instance threePeers : @NeZero ℕ Zero.ofOfNat0 3 := ⟨by decide⟩

end MitDistributed.Raft
