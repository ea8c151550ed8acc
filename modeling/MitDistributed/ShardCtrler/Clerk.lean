import MitDistributed.Rsm.Soundness
import MitDistributed.ShardCtrler.Server

namespace MitDistributed.ShardCtrler

open Transition

/-!
# Shard controller — a clerk and the controllers

A `Clerk` of a cluster of controllers, which also serve other clients.  A call sends its request
to the last known leader, then to each server in turn, and again, until one of them replies;
`Query` gives up after five rounds.  Requests may be lost, refused or served late; a request that
a server serves becomes an operation of the log, if the server took itself for the leader.

The clerk locks itself for the whole of a call, so that there is one call at a time.

* `World.Consistent` — what the controllers have of the clerk was sent by it;
* `World.Answered` — under `OwnReply`, the reply that a call returned with is the response to the
  operation it sent.
-/

/-! ### The clerk -/

/-- A call in progress: the rounds that have failed, and the server that was asked last, none for
    the last known leader at the start of a round. -/
structure Call (n : ℕ) where
  command : Command
  retryTime : ℕ
  server : Option (Fin (n + 1))
  deriving DecidableEq

/-- A clerk of `n + 1` controllers. -/
structure Clerk (n : ℕ) where
  lastLeader : Fin (n + 1)
  clientId : ℤ
  requestId : ℤ
  calling : Option (Call n)
  deriving DecidableEq

/-- The rounds after which `Query` gives up. -/
def retryMaxTime : ℕ := 5

namespace Clerk

variable {n : ℕ}

/-- `MakeClerk` -/
def make (n : ℕ) (clientId : ℤ) : Clerk n :=
  { lastLeader := ⟨0, Nat.succ_pos n⟩, clientId := clientId, requestId := 0, calling := none }

/-- The request of a call, the same at every attempt. -/
def op (ck : Clerk n) (call : Call n) : Op := ⟨ck.clientId, ck.requestId, call.command⟩

/-- The server that the call is waiting for. -/
def target (ck : Clerk n) (call : Call n) : Fin (n + 1) := call.server.getD ck.lastLeader

/-- A reply other than `ErrWrongLeader` ends the call. -/
def replied (ck : Clerk n) (call : Call n) : Clerk n :=
  { ck with
    requestId := ck.requestId + 1
    lastLeader := ck.target call
    calling := none }

/-- An attempt has failed: the call goes on to the next server, or to the next round. -/
def failed (ck : Clerk n) (call : Call n) : Clerk n :=
  match call.server with
  | none => { ck with calling := some { call with server := some ⟨0, Nat.succ_pos n⟩ } }
  | some k =>
    if h : k.val + 1 < n + 1 then
      { ck with calling := some { call with server := some ⟨k.val + 1, h⟩ } }
    else if call.command.isQuery ∧ call.retryTime + 1 = retryMaxTime then
      -- `return Config{}`, with the same `requestId` for the next call
      { ck with calling := none }
    else { ck with calling := some { call with retryTime := call.retryTime + 1, server := none } }

end Clerk

/-! ### The world -/

/-- The end of a call; `none` for a `Query` that gave up, and otherwise the reply with the
    position of the log it is from. -/
structure Return where
  op : Op
  reply : Option (ℕ × WaitChResponse)
  deriving DecidableEq

/-- What `Query` returns to its caller. -/
def Return.config (ret : Return) : Config := (ret.reply.map fun x => x.2.config).getD .initial

/-- The controllers, the clerk and its requests on the way.  `sent` and `returned` keep the
    history. -/
structure World (n : ℕ) where
  controllers : Rsm.Cluster State Op WaitChResponse
  clerk : Clerk n
  requests : List (ℕ × Op)
  sent : List Op
  returned : List Return

inductive Action
  /-- `Query`, `Join`, `Leave` or `Move` is called -/
  | call (command : Command)
  /-- the `i`-th request reaches its server, which takes itself for the leader -/
  | serve (i : ℕ)
  /-- the clerk gets the `j`-th reply -/
  | reply (j : ℕ)
  /-- the request or the reply is lost, or the server refuses -/
  | fail
  /-- another client's request -/
  | other (s : ℕ) (op : Op)
  /-- any other step of a controller -/
  | internal (s : ℕ) (act : Rsm.Act Op)

namespace World

variable {n : ℕ}

def init (n : ℕ) (clientId : ℤ) : World n :=
  { controllers := .init machine
    clerk := .make n clientId
    requests := []
    sent := []
    returned := [] }

/-- Send the request of the call in progress, if there is one. -/
def send (w : World n) : World n :=
  match w.clerk.calling with
  | none => w
  | some call =>
    { w with
      requests := w.requests ++ [((w.clerk.target call).val, w.clerk.op call)]
      sent := w.sent ++ [w.clerk.op call] }

/-- A step of the controllers. -/
def withControllers (w : World n) (s : ℕ) (act : Rsm.Act Op) : Option (World n) :=
  (w.controllers.step machine (s, act)).map fun c => { w with controllers := c }

def step (w : World n) : Action → Option (World n)
  | .call command =>
    match w.clerk.calling with
    | none => some { w with clerk := { w.clerk with calling := some ⟨command, 0, none⟩ } }.send
    | some _ => none
  | .serve i =>
    match w.requests[i]? with
    | some (s, op) =>
      { w with requests := w.requests.eraseIdx i }.withControllers s (.call op)
    | none => none
  | .reply j =>
    match w.clerk.calling, w.controllers.answers[j]? with
    | some call, some ⟨op, pos, some response⟩ =>
      if op = w.clerk.op call ∧ response.err ≠ .wrongLeader then
        some { w with
          clerk := w.clerk.replied call
          returned := w.returned ++ [⟨op, some (pos, response)⟩] }
      else none
    | _, _ => none
  | .fail =>
    match w.clerk.calling with
    | some call =>
      let w' : World n := { w with clerk := w.clerk.failed call }
      match w'.clerk.calling with
      | some _ => some w'.send
      | none => some { w' with returned := w.returned ++ [⟨w.clerk.op call, none⟩] }
    | none => none
  | .other s op => if op.clientId ≠ w.clerk.clientId then w.withControllers s (.call op) else none
  | .internal s act => if act.internal then w.withControllers s act else none

/-- What a step can do: the clerk sends a request, for a new call or the one in progress; `Query`
    gives up; a call returns with a reply; or a controller moves. -/
inductive Moves (w : World n) : Action → World n → Prop
  | sends {a : Action} (clerk' : Clerk n) (call : Call n) (hcall : clerk'.calling = some call)
      (hclient : clerk'.clientId = w.clerk.clientId)
      (hrequest : clerk'.requestId = w.clerk.requestId)
      (hsame : w.clerk.calling = none ∨
        ∃ old, w.clerk.calling = some old ∧ old.command = call.command) :
      Moves w a { w with
        clerk := clerk'
        requests := w.requests ++ [((clerk'.target call).val, clerk'.op call)]
        sent := w.sent ++ [clerk'.op call] }
  | givesUp (call : Call n) (hcall : w.clerk.calling = some call)
      (hquery : call.command.isQuery = true) :
      Moves w .fail { w with
        clerk := { w.clerk with calling := none }
        returned := w.returned ++ [⟨w.clerk.op call, none⟩] }
  | replies {j pos : ℕ} {r : WaitChResponse} (call : Call n) (hcall : w.clerk.calling = some call)
      (hanswer : w.controllers.answers[j]? = some ⟨w.clerk.op call, pos, some r⟩) :
      Moves w (.reply j) { w with
        clerk := w.clerk.replied call
        returned := w.returned ++ [⟨w.clerk.op call, some (pos, r)⟩] }
  | serves {a : Action} {s : ℕ} {act : Rsm.Act Op} {c : Rsm.Cluster State Op WaitChResponse}
      {requests : List (ℕ × Op)} (hstep : w.controllers.step machine (s, act) = some c)
      (hact : a = .internal s act ∨ ∃ op, act = .call op) (hreq : ∀ x ∈ requests, x ∈ w.requests)
      (hstarts : ∀ op ∈ act.starts, (∃ x ∈ w.requests, x.2 = op) ∨
        op.clientId ≠ w.clerk.clientId) :
      Moves w a { w with controllers := c, requests := requests }

/-- A failed attempt of a call that goes on. -/
theorem moves_failed {w : World n} {call : Call n} (hcall : w.clerk.calling = some call)
    {clerk' : Clerk n} {call' : Call n} (hclerk : clerk' = { w.clerk with calling := some call' })
    (hcommand : call'.command = call.command) :
    w.Moves .fail { w with clerk := clerk' : World n }.send := by
  subst hclerk
  exact .sends _ call' rfl rfl rfl (.inr ⟨call, hcall, hcommand.symm⟩)

/-- **Inversion** of a step. -/
theorem moves_of_step {w w' : World n} {a : Action} (h : w.step a = some w') : w.Moves a w' := by
  cases a with
  | call command =>
    rw [step] at h
    split at h <;> cases h
    rename_i hnone
    exact .sends _ ⟨command, 0, none⟩ rfl rfl rfl (.inl hnone)
  | serve i =>
    rw [step] at h
    split at h
    · rename_i s op hi
      obtain ⟨c, hc, rfl⟩ := Option.map_eq_some_iff.mp h
      refine .serves hc (.inr ⟨op, rfl⟩) (fun x hx => List.mem_of_mem_eraseIdx hx) ?_
      intro op' hop
      rw [List.mem_singleton.mp hop]
      exact .inl ⟨(s, op), List.mem_of_getElem? hi, rfl⟩
    · cases h
  | reply j =>
    rw [step] at h
    split at h
    · rename_i call op pos r hcall hanswer
      split at h
      · rename_i hcond
        obtain ⟨rfl, -⟩ := hcond
        cases h
        exact .replies call hcall hanswer
      · cases h
    · cases h
  | fail =>
    rw [step] at h
    split at h
    · rename_i call hcall
      unfold Clerk.failed at h
      split at h
      · cases h
        exact moves_failed hcall rfl rfl
      · split_ifs at h with hlt hquery
        · cases h
          exact moves_failed hcall rfl rfl
        · cases h
          exact .givesUp call hcall hquery.1
        · cases h
          exact moves_failed hcall rfl rfl
    · cases h
  | other s op =>
    rw [step] at h
    split at h
    · rename_i hne
      obtain ⟨c, hc, rfl⟩ := Option.map_eq_some_iff.mp h
      refine .serves hc (.inr ⟨op, rfl⟩) (fun x hx => hx) ?_
      intro op' hop
      rw [List.mem_singleton.mp hop]
      exact .inr hne
    · cases h
  | internal s act =>
    rw [step] at h
    split at h
    · rename_i hint
      obtain ⟨c, hc, rfl⟩ := Option.map_eq_some_iff.mp h
      refine .serves hc (.inl rfl) (fun x hx => hx) ?_
      intro op hop
      rw [List.isEmpty_iff.mp hint] at hop
      cases hop
    · cases h

/-- `w` is reached from the start by steps that satisfy `ok`. -/
def Reachable (ok : World n → Action → Prop) (clientId : ℤ) (w : World n) : Prop :=
  Run World.step ok (World.init n clientId) w

/-! ### What was sent, and what was answered -/

/-- The controllers are sound, and what they have of the clerk was sent by it. -/
structure Consistent (w : World n) : Prop where
  sound : w.controllers.Sound machine
  requests : ∀ x ∈ w.requests, x.2 ∈ w.sent
  started : ∀ op ∈ w.controllers.started, op.clientId = w.clerk.clientId → op ∈ w.sent

theorem Consistent.init (clientId : ℤ) : (World.init n clientId).Consistent where
  sound := .init
  requests _ hx := absurd hx List.not_mem_nil
  started _ hop := absurd hop List.not_mem_nil

theorem Consistent.step {w w' : World n} {a : Action} (h : w.Consistent)
    (hstep : w.step a = some w') : w'.Consistent := by
  cases moves_of_step hstep with
  | sends clerk' call hcall hclient hrequest hsame =>
    refine ⟨h.sound, fun x hx => ?_, fun op hop hc => ?_⟩
    · rcases List.mem_append.mp hx with hx | hx
      · exact List.mem_append_left _ (h.requests x hx)
      · rw [List.mem_singleton.mp hx]
        exact List.mem_append_right _ (List.mem_singleton.mpr rfl)
    · exact List.mem_append_left _ (h.started op hop (hc.trans hclient))
  | givesUp call hcall hquery => exact ⟨h.sound, h.requests, h.started⟩
  | replies call hcall hanswer => exact ⟨h.sound, h.requests, h.started⟩
  | serves hc hact hreq hstarts =>
    obtain ⟨-, hgrow⟩ := h.sound.agrees hc
    refine ⟨h.sound.step hc, fun x hx => h.requests x (hreq x hx), fun op hop hclient => ?_⟩
    rw [hgrow] at hop
    rcases List.mem_append.mp hop with hold | hnew
    · exact h.started op hold hclient
    · rcases hstarts op hnew with ⟨x, hx, rfl⟩ | hne
      · exact h.requests x hx
      · exact absurd hclient hne

/-- A reply that the clerk gets is from applying the operation it sent. -/
def OwnReply (w : World n) : Action → Prop
  | .reply j => ∀ y ∈ w.controllers.answers[j]?, y.reply.isSome →
      w.controllers.agreed[y.pos]? = some y.op
  | _ => True

/-- The calls that returned with a reply have the response to their own operation. -/
def Answered (w : World n) : Prop :=
  ∀ ret ∈ w.returned, ∀ x ∈ ret.reply,
    w.controllers.agreed[x.1]? = some ret.op ∧
      machine.responseAt w.controllers.agreed x.1 = some x.2

theorem Answered.init (clientId : ℤ) : (World.init n clientId).Answered :=
  fun _ hret => absurd hret List.not_mem_nil

theorem Answered.step {w w' : World n} {a : Action} (h : w.Answered) (hw : w.Consistent)
    (hown : w.OwnReply a) (hstep : w.step a = some w') : w'.Answered := by
  cases moves_of_step hstep with
  | sends clerk' call hcall hclient hrequest hsame => exact h
  | givesUp call hcall hquery =>
    intro ret hret x hx
    rcases List.mem_append.mp hret with hold | hnew
    · exact h ret hold x hx
    · rw [List.mem_singleton.mp hnew] at hx
      cases hx
  | @replies j pos r call hcall hanswer =>
    intro ret hret x hx
    rcases List.mem_append.mp hret with hold | hnew
    · exact h ret hold x hx
    · obtain rfl := List.mem_singleton.mp hnew
      cases hx
      exact ⟨hown _ hanswer rfl, hw.sound.answers _ (List.mem_of_getElem? hanswer) r rfl⟩
  | serves hc hact hreq hstarts =>
    have hpre := Rsm.Cluster.agreed_isPrefix hc
    intro ret hret x hx
    obtain ⟨hget, hresp⟩ := h ret hret x hx
    refine ⟨?_, Rsm.Machine.responseAt_of_isPrefix hpre hresp⟩
    have hlt := (List.getElem?_eq_some_iff.mp hget).1
    rw [List.prefix_iff_getElem?.mp hpre _ hlt, ← List.getElem?_eq_getElem hlt, hget]

end World

end MitDistributed.ShardCtrler
