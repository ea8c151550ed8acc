import MitDistributed.Rsm.Machine

namespace MitDistributed.Rsm

open Transition

/-!
# Replicated state machines — servers and their waiting handlers

Servers that each run a copy of a machine on top of a log that consensus makes them agree on.
Every server has a log of its own, which grows when one of its handlers starts an entry and may be
rewritten beyond the applied part; consensus is assumed to give all servers the same sequence of
applied entries, the agreed log.

A handler that has started an entry waits for a response at the *position* the entry was given.
The loop that applies entries looks only at the position when it passes a response on.

A server that exits (a handler that finds its position taken, or an entry that cannot be
applied) does nothing more until it is restarted, so that exiting needs no step of its own.
-/

/-- How far a handler is: it has started its entry; it waits on its channel, which holds at most
    one response; it has its reply and has not removed the channel yet. -/
inductive Stage (ρ : Type*)
  | started
  | waiting (inbox : Option ρ)
  | leaving (reply : Option ρ)
  deriving DecidableEq

namespace Stage

variable {ρ : Type*}

/-- Whether the channel is in the table. -/
def registered : Stage ρ → Bool
  | .started => false
  | .waiting _ => true
  | .leaving _ => true

/-- The response the handler has been given. -/
def response : Stage ρ → Option ρ
  | .started => none
  | .waiting inbox => inbox
  | .leaving reply => reply

end Stage

/-- A handler that has started `op`, at position `pos` of the server's log. -/
structure Handler (α ρ : Type*) where
  op : α
  pos : ℕ
  stage : Stage ρ
  deriving DecidableEq

/-- The reply of a handler; `none` if it timed out. -/
structure Answer (α ρ : Type*) where
  op : α
  pos : ℕ
  reply : Option ρ
  deriving DecidableEq

/-- A server.  `pending` is the response to the last applied entry, which is still to be passed
    on. -/
structure Server (σ α ρ : Type*) where
  raftLog : List α
  applied : ℕ
  state : σ
  pending : Option (ℕ × ρ)
  handlers : List (Handler α ρ)

/-- The steps of a server. -/
inductive Act (α : Type*)
  /-- start an entry that nobody waits for -/
  | propose (a : α)
  /-- a handler starts an entry -/
  | call (a : α)
  /-- a handler starts an entry and enters its channel in the table at once -/
  | await (a : α)
  /-- a handler enters its channel in the table -/
  | register (i : ℕ)
  /-- consensus replaces the log -/
  | overwrite (log : List α)
  /-- the next entry is applied -/
  | apply
  /-- the response is passed to the handler at its position -/
  | deliver
  | receive (i : ℕ)
  | timeout (i : ℕ)
  /-- the handler removes its channel and replies -/
  | finish (i : ℕ)
  /-- a snapshot of the first `k` entries replaces the state -/
  | install (k : ℕ)
  /-- a crash, and a restart from the snapshot of the first `k` entries -/
  | restart (k : ℕ)
  deriving DecidableEq

/-- The entries that a step starts. -/
def Act.starts {α : Type*} : Act α → List α
  | .propose a => [a]
  | .call a => [a]
  | .await a => [a]
  | _ => []

/-- Whether a step starts no entry. -/
def Act.internal {α : Type*} (x : Act α) : Bool := x.starts.isEmpty

/-- Whether a step changes nothing of the log, but for the entry it starts, and nothing of the
    state. -/
def Act.plain {α : Type*} : Act α → Bool
  | .overwrite _ => false
  | .apply => false
  | .install _ => false
  | .restart _ => false
  | _ => true

/-- What a step of a server does: the server after it, the entries it makes agreed, those it
    starts, and the replies that handlers give. -/
structure Effect (σ α ρ : Type*) where
  server : Server σ α ρ
  agrees : List α
  starts : List α
  answers : List (Answer α ρ)

variable {σ α ρ : Type*}

/-- A response for position `pos` goes to the handler that waits there. -/
def Handler.offer (pos : ℕ) (r : ρ) (h : Handler α ρ) : Handler α ρ :=
  match h.stage with
  | .waiting none => if h.pos = pos then { h with stage := .waiting (some r) } else h
  | _ => h

namespace Server

def init (m : Machine σ α ρ) : Server σ α ρ :=
  { raftLog := [], applied := 0, state := m.init, pending := none, handlers := [] }

/-- A step that only changes the server. -/
def quietly (sv : Server σ α ρ) : Effect σ α ρ :=
  { server := sv, agrees := [], starts := [], answers := [] }

/-- Start an entry. -/
def start (sv : Server σ α ρ) (a : α) (handlers : List (Handler α ρ)) : Effect σ α ρ :=
  { server := { sv with raftLog := sv.raftLog ++ [a], handlers := handlers }
    agrees := [], starts := [a], answers := [] }

/-- Whether some channel for the position is in the table. -/
def occupied (sv : Server σ α ρ) (pos : ℕ) : Bool :=
  sv.handlers.any fun h => h.pos == pos && h.stage.registered

/-- Move the `i`-th handler on. -/
def setStage (sv : Server σ α ρ) (i : ℕ) (h : Handler α ρ) (stage : Stage ρ) : Server σ α ρ :=
  { sv with handlers := sv.handlers.set i { h with stage := stage } }

/-- The server with the state after the first `k` entries. -/
def jump (sv : Server σ α ρ) (k : ℕ) (state : σ) : Server σ α ρ :=
  { sv with applied := k, state := state }

variable [DecidableEq α]

/-- One step of a server, given the agreed log and the entries started so far. -/
def act (m : Machine σ α ρ) (agreed started : List α) (sv : Server σ α ρ) :
    Act α → Option (Effect σ α ρ)
  | .propose a => some (sv.start a sv.handlers)
  | .call a => some (sv.start a (sv.handlers ++ [⟨a, sv.raftLog.length, .started⟩]))
  | .await a =>
    if sv.occupied sv.raftLog.length then none
    else some (sv.start a (sv.handlers ++ [⟨a, sv.raftLog.length, .waiting none⟩]))
  | .register i =>
    match sv.handlers[i]? with
    | some h =>
      match h.stage with
      | .started =>
        if sv.occupied h.pos then none else some (sv.setStage i h (.waiting none)).quietly
      | _ => none
    | none => none
  | .overwrite log =>
    if log.take sv.applied = agreed.take sv.applied ∧ ∀ a ∈ log, a ∈ started then
      some { sv with raftLog := log }.quietly
    else none
  | .apply =>
    match sv.pending, sv.raftLog[sv.applied]? with
    | none, some a =>
      -- the applied entry is the agreed one, or the first at its position
      if agreed[sv.applied]?.all (· = a) then
        (m.apply sv.state a).map fun x =>
          { server := { sv with applied := sv.applied + 1, state := x.1,
                                pending := some (sv.applied, x.2) }
            agrees := if agreed[sv.applied]?.isNone then [a] else []
            starts := [], answers := [] }
      else none
    | _, _ => none
  | .deliver =>
    match sv.pending with
    | some (pos, r) =>
      some { sv with pending := none, handlers := sv.handlers.map (Handler.offer pos r) }.quietly
    | none => none
  | .receive i =>
    match sv.handlers[i]? with
    | some h =>
      match h.stage with
      | .waiting (some r) => some (sv.setStage i h (.leaving (some r))).quietly
      | _ => none
    | none => none
  | .timeout i =>
    match sv.handlers[i]? with
    | some h =>
      match h.stage with
      | .waiting _ => some (sv.setStage i h (.leaving none)).quietly
      | _ => none
    | none => none
  | .finish i =>
    match sv.handlers[i]? with
    | some h =>
      match h.stage with
      | .leaving reply =>
        some { server := { sv with handlers := sv.handlers.eraseIdx i }
               agrees := [], starts := [], answers := [⟨h.op, h.pos, reply⟩] }
      | _ => none
    | none => none
  | .install k =>
    if sv.pending.isNone ∧ sv.applied < k ∧ k ≤ agreed.length ∧
        sv.raftLog.take k = agreed.take k then
      (m.replay (agreed.take k)).map fun state => (sv.jump k state).quietly
    else none
  | .restart k =>
    if k ≤ agreed.length ∧ sv.raftLog.take k = agreed.take k then
      (m.replay (agreed.take k)).map fun state =>
        { sv.jump k state with pending := none, handlers := [] }.quietly
    else none

section

variable (m : Machine σ α ρ) (agreed started : List α) (sv : Server σ α ρ)

/-- What the steps of a server can do. -/
inductive Acts : Act α → Effect σ α ρ → Prop
  | propose (a : α) : Acts (.propose a) (sv.start a sv.handlers)
  | call (a : α) : Acts (.call a) (sv.start a (sv.handlers ++ [⟨a, sv.raftLog.length, .started⟩]))
  | await (a : α) :
      Acts (.await a) (sv.start a (sv.handlers ++ [⟨a, sv.raftLog.length, .waiting none⟩]))
  | register (hi : sv.handlers[i]? = some h) :
      Acts (.register i) (sv.setStage i h (.waiting none)).quietly
  | overwrite (htake : log.take sv.applied = agreed.take sv.applied)
      (hstarted : ∀ a ∈ log, a ∈ started) : Acts (.overwrite log) { sv with raftLog := log }.quietly
  | apply (hlog : sv.raftLog[sv.applied]? = some a)
      (hagreed : agreed[sv.applied]?.all (· = a) = true) (hx : m.apply sv.state a = some x) :
      Acts .apply
        { server := { sv with applied := sv.applied + 1, state := x.1,
                              pending := some (sv.applied, x.2) }
          agrees := if agreed[sv.applied]?.isNone then [a] else []
          starts := [], answers := [] }
  | deliver (hp : sv.pending = some (pos, r)) :
      Acts .deliver
      { sv with pending := none, handlers := sv.handlers.map (Handler.offer pos r) }.quietly
  | receive (hi : sv.handlers[i]? = some h) (hstage : h.stage = .waiting (some r)) :
      Acts (.receive i) (sv.setStage i h (.leaving (some r))).quietly
  | timeout (hi : sv.handlers[i]? = some h) :
      Acts (.timeout i) (sv.setStage i h (.leaving none)).quietly
  | finish (hi : sv.handlers[i]? = some h) (hstage : h.stage = .leaving reply) :
      Acts (.finish i)
        { server := { sv with handlers := sv.handlers.eraseIdx i }
          agrees := [], starts := [], answers := [⟨h.op, h.pos, reply⟩] }
  | install {state : σ} (hp : sv.pending = none) (hlt : sv.applied < k) (hk : k ≤ agreed.length)
      (htake : sv.raftLog.take k = agreed.take k) (hs : m.replay (agreed.take k) = some state) :
      Acts (.install k) (sv.jump k state).quietly
  | restart {state : σ} (hk : k ≤ agreed.length) (htake : sv.raftLog.take k = agreed.take k)
      (hs : m.replay (agreed.take k) = some state) :
      Acts (.restart k) { sv.jump k state with pending := none, handlers := [] }.quietly

end

/-- **Inversion** of a step of a server. -/
theorem acts_of_act {m : Machine σ α ρ} {agreed started : List α} {sv : Server σ α ρ} {x : Act α}
    {e : Effect σ α ρ} (hact : sv.act m agreed started x = some e) :
    sv.Acts m agreed started x e := by
  cases x with
  | propose a => obtain rfl := Option.some.inj hact; exact .propose a
  | call a => obtain rfl := Option.some.inj hact; exact .call a
  | await a =>
    rw [act] at hact
    split at hact
    · cases hact
    · obtain rfl := Option.some.inj hact; exact .await a
  | register i =>
    rw [act] at hact
    split at hact
    · rename_i h hi
      split at hact
      · split at hact
        · cases hact
        · obtain rfl := Option.some.inj hact; exact .register hi
      · cases hact
    · cases hact
  | overwrite log =>
    rw [act] at hact
    split at hact
    · rename_i hcond
      obtain rfl := Option.some.inj hact; exact .overwrite hcond.1 hcond.2
    · cases hact
  | apply =>
    rw [act] at hact
    split at hact
    · rename_i hlog
      split at hact
      · rename_i hagreed
        obtain ⟨x, hx, rfl⟩ := Option.map_eq_some_iff.mp hact
        exact .apply hlog hagreed hx
      · cases hact
    · cases hact
  | deliver =>
    rw [act] at hact
    split at hact
    · rename_i hp
      obtain rfl := Option.some.inj hact; exact .deliver hp
    · cases hact
  | receive i =>
    rw [act] at hact
    split at hact
    · rename_i h hi
      split at hact
      · rename_i hstage
        obtain rfl := Option.some.inj hact; exact .receive hi hstage
      · cases hact
    · cases hact
  | timeout i =>
    rw [act] at hact
    split at hact
    · rename_i h hi
      split at hact
      · obtain rfl := Option.some.inj hact; exact .timeout hi
      · cases hact
    · cases hact
  | finish i =>
    rw [act] at hact
    split at hact
    · rename_i h hi
      split at hact
      · rename_i hstage
        obtain rfl := Option.some.inj hact; exact .finish hi hstage
      · cases hact
    · cases hact
  | install k =>
    rw [act] at hact
    split at hact
    · rename_i hcond
      obtain ⟨hp, hlt, hk, htake⟩ := hcond
      obtain ⟨s, hs, rfl⟩ := Option.map_eq_some_iff.mp hact
      exact .install (Option.isNone_iff_eq_none.mp hp) hlt hk htake hs
    · cases hact
  | restart k =>
    rw [act] at hact
    split at hact
    · rename_i hcond
      obtain ⟨s, hs, rfl⟩ := Option.map_eq_some_iff.mp hact
      exact .restart hcond.1 hcond.2 hs
    · cases hact

/-- The log is longer by `tail`, and the state is the same. -/
structure Extends (sv sv' : Server σ α ρ) (tail : List α) : Prop where
  raftLog : sv'.raftLog = sv.raftLog ++ tail
  applied : sv'.applied = sv.applied
  state : sv'.state = sv.state

theorem extends_of_act {m : Machine σ α ρ} {agreed started : List α} {sv : Server σ α ρ} {x : Act α}
    {e : Effect σ α ρ} (hact : sv.act m agreed started x = some e)
    (hx : x.plain = true) : sv.Extends e.server x.starts := by
  cases acts_of_act hact with
  | propose | call | await => exact ⟨rfl, rfl, rfl⟩
  | register | deliver | receive | timeout | finish => exact ⟨(List.append_nil _).symm, rfl, rfl⟩
  | overwrite | apply | install | restart => cases hx

end Server

/-- The servers of a service, with the agreed log.  `started` and `answers` keep the history:
    every entry that was started, and every reply. -/
structure Cluster (σ α ρ : Type*) where
  servers : ℕ → Server σ α ρ
  agreed : List α
  started : List α
  answers : List (Answer α ρ)

namespace Cluster

def init (m : Machine σ α ρ) : Cluster σ α ρ :=
  { servers := fun _ => .init m, agreed := [], started := [], answers := [] }

/-- The cluster after a step of server `s`. -/
def after (c : Cluster σ α ρ) (s : ℕ) (e : Effect σ α ρ) : Cluster σ α ρ :=
  { servers := Function.update c.servers s e.server
    agreed := c.agreed ++ e.agrees
    started := c.started ++ e.starts
    answers := c.answers ++ e.answers }

@[simp] theorem after_agreed (c : Cluster σ α ρ) (s : ℕ) (e : Effect σ α ρ) :
    (c.after s e).agreed = c.agreed ++ e.agrees := rfl

@[simp] theorem after_servers_self (c : Cluster σ α ρ) (s : ℕ) (e : Effect σ α ρ) :
    (c.after s e).servers s = e.server := Function.update_self _ _ _

theorem after_servers_of_ne (c : Cluster σ α ρ) {s s' : ℕ} (e : Effect σ α ρ) (h : s' ≠ s) :
    (c.after s e).servers s' = c.servers s' := Function.update_of_ne h _ _

/-- One step of server `x.1`. -/
def step [DecidableEq α] (m : Machine σ α ρ) (c : Cluster σ α ρ) (x : ℕ × Act α) :
    Option (Cluster σ α ρ) :=
  ((c.servers x.1).act m c.agreed c.started x.2).map (c.after x.1)

end Cluster

end MitDistributed.Rsm
