import MitDistributed.KVRaft.Server

namespace MitDistributed.KVRaft

open Function Rsm Transition

/-!
# Key/value store — the world of servers and clerks

Any number of clerks, each with its client id.  A clerk repeats the request of a call, server
after server, until one of them replies; requests and replies may be lost or late.  A request that
a server serves becomes an entry of its log, if the server takes itself for the leader.

* `World.Ledger` — the ids of the clerks' requests: each is used for one operation, and the next
  one only when that has been applied;
* `World.Fresh` — an operation is new where it first occurs in the agreed log.
-/

/-! ### Clerks -/

/-- The arguments of a call. -/
structure Call where
  type : OpType
  key : Bytes
  value : Bytes
  deriving DecidableEq

/-- A clerk of `n + 1` servers. -/
structure Clerk (n : ℕ) where
  lastLeader : Fin (n + 1)
  requestId : ℤ
  calling : Option Call
  deriving DecidableEq

namespace Clerk

variable {n : ℕ}

/-- `MakeClerk` -/
def make (n : ℕ) : Clerk n :=
  { lastLeader := ⟨0, Nat.succ_pos n⟩, requestId := 0, calling := none }

/-- The request of a call. -/
def op (ck : Clerk n) (clientId : ℤ) (call : Call) : Op :=
  ⟨call.type, call.key, call.value, clientId, ck.requestId⟩

/-- `IncrementLastLeader` -/
def incrementLastLeader (ck : Clerk n) : Clerk n :=
  { ck with lastLeader :=
      if h : ck.lastLeader.val + 1 < n + 1 then ⟨ck.lastLeader.val + 1, h⟩ else 0 }

end Clerk

/-- Whether a reply ends the call. -/
def Call.accepts (call : Call) (err : Err) : Prop :=
  err = .ok ∨ call.type = .get ∧ err = .noKey

instance (call : Call) (err : Err) : Decidable (call.accepts err) :=
  inferInstanceAs (Decidable (_ ∨ _))

/-! ### The world -/

/-- The servers, the clerks and the requests on the way; `sent` keeps the history. -/
structure World (n : ℕ) where
  servers : Cluster State Op WaitChResponse
  clerks : ℤ → Clerk n
  requests : List (ℕ × Op)
  sent : List Op

inductive Action
  /-- `Get`, `Put` or `Append` is called -/
  | call (c : ℤ) (call : Call)
  /-- the `i`-th request reaches its server, which takes itself for the leader -/
  | serve (i : ℕ)
  /-- the clerk gets the `j`-th reply -/
  | reply (c : ℤ) (j : ℕ)
  /-- the request or the reply is lost, or the server refuses -/
  | fail (c : ℤ)
  /-- any other step of a server -/
  | internal (s : ℕ) (act : Act Op)

namespace World

variable {n : ℕ}

def init (n : ℕ) : World n :=
  { servers := .init machine, clerks := fun _ => .make n, requests := [], sent := [] }

/-- Client `c` sends the request of a call. -/
def send (w : World n) (c : ℤ) (clerk : Clerk n) (call : Call) : World n :=
  { w with
    clerks := update w.clerks c { clerk with calling := some call }
    requests := w.requests ++ [(clerk.lastLeader.val, clerk.op c call)]
    sent := w.sent ++ [clerk.op c call] }

/-- Client `c` returns from a call. -/
def close (w : World n) (c : ℤ) : World n :=
  { w with
    clerks := update w.clerks c
      { w.clerks c with requestId := (w.clerks c).requestId + 1, calling := none } }

@[simp] theorem send_clerks_self (w : World n) (c : ℤ) (clerk : Clerk n) (call : Call) :
    (w.send c clerk call).clerks c = { clerk with calling := some call } :=
  update_self _ _ _

theorem send_clerks_of_ne (w : World n) {c d : ℤ} (clerk : Clerk n) (call : Call) (h : d ≠ c) :
    (w.send c clerk call).clerks d = w.clerks d := update_of_ne h _ _

@[simp] theorem close_clerks_self (w : World n) (c : ℤ) :
    (w.close c).clerks c =
      { w.clerks c with requestId := (w.clerks c).requestId + 1, calling := none } :=
  update_self _ _ _

theorem close_clerks_of_ne (w : World n) {c d : ℤ} (h : d ≠ c) :
    (w.close c).clerks d = w.clerks d := update_of_ne h _ _

def step (w : World n) : Action → Option (World n)
  | .call c call =>
    match (w.clerks c).calling with
    | none => some (w.send c (w.clerks c) call)
    | some _ => none
  | .serve i =>
    match w.requests[i]? with
    | some (s, op) =>
      (w.servers.step machine (s, .call op)).map fun servers =>
        { w with servers := servers, requests := w.requests.eraseIdx i }
    | none => none
  | .reply c j =>
    match (w.clerks c).calling, w.servers.answers[j]? with
    | some call, some ⟨op, _, some response⟩ =>
      if op = (w.clerks c).op c call ∧ call.accepts response.err then some (w.close c) else none
    | _, _ => none
  | .fail c =>
    match (w.clerks c).calling with
    | some call => some (w.send c (w.clerks c).incrementLastLeader call)
    | none => none
  | .internal s act =>
    if act.internal then
      (w.servers.step machine (s, act)).map fun servers => { w with servers := servers }
    else none

/-- `w` is reached from the start by steps that satisfy `ok`. -/
def Reachable (ok : World n → Action → Prop) (w : World n) : Prop :=
  Run World.step ok (World.init n) w

/-- What a step can do: a clerk sends a request, for a new call or the one in progress; a call
    returns; or a server moves. -/
inductive Moves (w : World n) : Action → World n → Prop
  | sends {a : Action} (c : ℤ) {clerk : Clerk n} (call : Call)
      (hrequest : clerk.requestId = (w.clerks c).requestId)
      (hsame : (w.clerks c).calling = none ∨ (w.clerks c).calling = some call) :
      Moves w a (w.send c clerk call)
  | replies {c : ℤ} {j pos : ℕ} {r : WaitChResponse} {call : Call}
      (hcall : (w.clerks c).calling = some call)
      (hanswer : w.servers.answers[j]? = some ⟨(w.clerks c).op c call, pos, some r⟩) :
      Moves w (.reply c j) (w.close c)
  | serves {a : Action} {s : ℕ} {act : Act Op} {servers : Cluster State Op WaitChResponse}
      {requests : List (ℕ × Op)} (hstep : w.servers.step machine (s, act) = some servers)
      (hact : a = .internal s act ∨ ∃ op, act = .call op) (hreq : ∀ x ∈ requests, x ∈ w.requests)
      (hstarts : ∀ op ∈ act.starts, ∃ x ∈ w.requests, x.2 = op) :
      Moves w a { w with servers := servers, requests := requests }

/-- **Inversion** of a step. -/
theorem moves_of_step {w w' : World n} {a : Action} (h : w.step a = some w') : w.Moves a w' := by
  cases a with
  | call c call =>
    rw [step] at h
    split at h <;> cases h
    rename_i hnone
    exact .sends c call rfl (.inl hnone)
  | serve i =>
    rw [step] at h
    split at h
    · rename_i s op hi
      obtain ⟨servers, hs, rfl⟩ := Option.map_eq_some_iff.mp h
      refine .serves hs (.inr ⟨op, rfl⟩) (fun x hx => List.mem_of_mem_eraseIdx hx) ?_
      intro op' hop
      exact ⟨(s, op), List.mem_of_getElem? hi, (List.mem_singleton.mp hop).symm⟩
    · cases h
  | reply c j =>
    rw [step] at h
    split at h
    · rename_i call op pos r hcall hanswer
      split at h
      · rename_i hcond
        obtain ⟨rfl, -⟩ := hcond
        cases h
        exact .replies hcall hanswer
      · cases h
    · cases h
  | fail c =>
    rw [step] at h
    split at h <;> cases h
    rename_i call hcall
    exact .sends c call rfl (.inr hcall)
  | internal s act =>
    rw [step] at h
    split at h
    · rename_i hint
      obtain ⟨servers, hs, rfl⟩ := Option.map_eq_some_iff.mp h
      refine .serves hs (.inl rfl) (fun x hx => hx) ?_
      intro op hop
      rw [List.isEmpty_iff.mp hint] at hop
      cases hop
    · cases h

/-! ### Requests and their ids -/

/-- The servers are sound, and what they have was sent. -/
structure Consistent (w : World n) : Prop where
  sound : w.servers.Sound machine
  requests : ∀ x ∈ w.requests, x.2 ∈ w.sent
  started : ∀ op ∈ w.servers.started, op ∈ w.sent

theorem Consistent.init : (World.init n).Consistent where
  sound := .init
  requests _ hx := absurd hx List.not_mem_nil
  started _ hop := absurd hop List.not_mem_nil

theorem Consistent.step {w w' : World n} {a : Action} (h : w.Consistent)
    (hstep : w.step a = some w') : w'.Consistent := by
  cases moves_of_step hstep with
  | sends c call hrequest hsame =>
    refine ⟨h.sound, fun x hx => ?_, fun op hop => List.mem_append_left _ (h.started op hop)⟩
    rcases List.mem_append.mp hx with hx | hx
    · exact List.mem_append_left _ (h.requests x hx)
    · rw [List.mem_singleton.mp hx]
      exact List.mem_append_right _ List.mem_cons_self
  | replies hcall hanswer => exact ⟨h.sound, h.requests, h.started⟩
  | serves hs hact hreq hstarts =>
    obtain ⟨-, hgrow⟩ := h.sound.agrees hs
    refine ⟨h.sound.step hs, fun x hx => h.requests x (hreq x hx), fun op hop => ?_⟩
    rw [hgrow] at hop
    rcases List.mem_append.mp hop with hold | hnew
    · exact h.started op hold
    · obtain ⟨x, hx, rfl⟩ := hstarts op hnew
      exact h.requests x hx

/-- Each clerk keeps the ledger of its requests; those that are in the agreed log are done. -/
def Ledger (w : World n) : Prop :=
  ∀ c, Rsm.Ledger Op.requestId (fun _ => True) (w.clerks c).requestId
    ((w.clerks c).calling.map ((w.clerks c).op c)) {op | op ∈ w.sent ∧ op.clientId = c}
    {op | op ∈ w.servers.agreed}

theorem Ledger.init : (World.init n).Ledger :=
  fun _ => Rsm.Ledger.init.mono (fun _ hop => absurd hop.1 List.not_mem_nil) fun _ hop => hop

theorem Ledger.send {w : World n} (h : w.Ledger) {c : ℤ} {clerk : Clerk n} {call : Call}
    (hrequest : clerk.requestId = (w.clerks c).requestId)
    (hsame : (w.clerks c).calling = none ∨ (w.clerks c).calling = some call) :
    (w.send c clerk call).Ledger := by
  have hsent (op : Op) (hop : op ∈ (w.send c clerk call).sent) :
      op ∈ w.sent ∨ op = clerk.op c call :=
    (List.mem_append.mp hop).imp_right List.mem_singleton.mp
  intro d
  rcases eq_or_ne d c with rfl | hne
  · have hsend : Rsm.Ledger Op.requestId (fun _ => True) clerk.requestId (some (clerk.op d call))
        {op | op ∈ (w.send d clerk call).sent ∧ op.clientId = d} {op | op ∈ w.servers.agreed} := by
      rw [hrequest]
      refine (h d).send hrequest ?_ fun op hmem =>
        (hsent op hmem.1).imp_left fun hold => ⟨hold, hmem.2⟩
      rcases hsame with hnone | hsome
      · exact .inl (by rw [hnone]; rfl)
      · exact .inr (by rw [hsome, Option.map_some, Clerk.op, Clerk.op, hrequest])
    rw [send_clerks_self]
    exact hsend
  · rw [send_clerks_of_ne _ _ _ hne]
    refine (h d).mono (fun op hmem => ⟨(hsent op hmem.1).resolve_right ?_, hmem.2⟩) fun _ hop => hop
    rintro rfl
    exact hne hmem.2.symm

theorem Ledger.close {w : World n} (h : w.Ledger) {c : ℤ} {call : Call}
    (hcall : (w.clerks c).calling = some call)
    (hmem : (w.clerks c).op c call ∈ w.servers.agreed) : (w.close c).Ledger := by
  intro d
  rcases eq_or_ne d c with rfl | hne
  · rw [close_clerks_self]
    refine Rsm.Ledger.close (h d) fun op hop => ?_
    rw [hcall] at hop
    cases hop
    exact hmem
  · rw [close_clerks_of_ne _ hne]
    exact h d

/-! ### Replies -/

/-- No server replaces the log entry of a handler that waits for it. -/
def KeepsWaiting (w : World n) : Action → Prop
  | .internal s act => (w.servers.servers s).KeepsWaiting act
  | _ => True

instance (w : World n) (a : Action) : Decidable (w.KeepsWaiting a) := by
  unfold KeepsWaiting
  split <;> infer_instance

theorem kept_step {w w' : World n} {a : Action} (hkept : w.servers.Kept) (hw : w.Consistent)
    (hkeeps : w.KeepsWaiting a) (hstep : w.step a = some w') : w'.servers.Kept := by
  cases moves_of_step hstep with
  | sends | replies => exact hkept
  | @serves a s act c requests hc hact hreq hstarts =>
    have hserver : (w.servers.servers s).KeepsWaiting act := by
      rcases hact with rfl | ⟨op, rfl⟩
      · exact hkeeps
      · trivial
    exact hkept.step hw.sound hserver hc

theorem Ledger.step {w w' : World n} {a : Action} (h : w.Ledger) (hkept : w.servers.Kept)
    (hstep : w.step a = some w') : w'.Ledger := by
  cases moves_of_step hstep with
  | sends c call hrequest hsame => exact h.send hrequest hsame
  | replies hcall hanswer =>
    have hget := hkept.answers _ (List.mem_of_getElem? hanswer) _ rfl
    exact h.close hcall (List.mem_of_getElem? hget)
  | serves hs hact hreq hstarts =>
    have hpre := Cluster.agreed_isPrefix hs
    exact fun c => (h c).mono (fun _ hop => hop) hpre.subset

/-- Operations are new where they first occur in the agreed log. -/
def Fresh (w : World n) : Prop :=
  ∀ pre op st, pre ++ [op] <+: w.servers.agreed → op ∉ pre → machine.replay pre = some st →
    st.isNew op

theorem Ledger.isNew {w : World n} (h : w.Ledger) (hw : w.Consistent) {op : Op} {st : State}
    (hst : machine.replay w.servers.agreed = some st) (hstarted : op ∈ w.servers.started)
    (hnew : op ∉ w.servers.agreed) : st.isNew op := by
  refine (h op.clientId).latest_lt ⟨hw.started op hstarted, rfl⟩ trivial hnew ?_
  refine ((latest_of_replay hst).2 op.clientId).imp_right fun ⟨q, hq, hclient, hlatest⟩ => ?_
  exact ⟨q, hq, ⟨hw.started q (hw.sound.agreed q hq), hclient⟩, hlatest, fun _ => trivial⟩

theorem Fresh.step {w w' : World n} {a : Action} (hfresh : w.Fresh) (h : w.Ledger)
    (hw : w.Consistent) (hstep : w.step a = some w') : w'.Fresh := by
  cases moves_of_step hstep with
  | sends | replies => exact hfresh
  | @serves _ s act c requests hc hact hreq hstarts =>
    intro pre op st hpre hnew hst
    rcases hw.sound.concat_isPrefix hc hpre with hold | ⟨rfl, hstarted, -, -⟩
    · exact hfresh pre op st hold hnew hst
    · exact h.isNew hw hst hstarted hnew

/-- **Requests and replies, run.** -/
theorem invariants_of_reachable {w : World n} (hr : Reachable KeepsWaiting w) :
    w.Consistent ∧ w.servers.Kept ∧ w.Ledger ∧ w.Fresh := by
  have hfresh : (World.init n).Fresh := by
    intro pre op st hpre
    exact absurd (List.prefix_nil.mp hpre) (by simp)
  refine Run.invariant (I := fun w => w.Consistent ∧ w.servers.Kept ∧ w.Ledger ∧ w.Fresh) ?_ hr
    ⟨.init, .init, .init, hfresh⟩
  rintro w a w' ⟨hw, hkept, hledger, hfresh⟩ hkeeps hstep
  exact ⟨hw.step hstep, kept_step hkept hw hkeeps hstep, hledger.step hkept hstep,
    hfresh.step hledger hw hstep⟩

end World

/-- **Replies answer their own request.** A reply of a handler is the response to the operation it
    started, applied at the position its `Start` returned.  The write of a `PutAppend` is done by
    then, at the first entry with the operation; a `Get` reports the value of its key at its entry,
    or that there is none. -/
theorem reply_to_own_request {n : ℕ} {w : World n} (hr : World.Reachable World.KeepsWaiting w)
    {y : Answer Op WaitChResponse} (hy : y ∈ w.servers.answers) {r : WaitChResponse}
    (hreply : y.reply = some r) :
    w.servers.agreed[y.pos]? = some y.op ∧
      ∃ st, machine.replay (w.servers.agreed.take y.pos) = some st ∧ r = (st.applyOp y.op).2 ∧
        (∃ pre s, pre ++ [y.op] <+: w.servers.agreed.take (y.pos + 1) ∧
          machine.replay pre = some s ∧ (s.applyOp y.op).1.storage = y.op.write s.storage) ∧
        (y.op.type = .get → r.err = .ok ∧ st.storage.get? y.op.key = some r.value ∨
          r.err = .noKey ∧ st.storage.get? y.op.key = none) := by
  obtain ⟨hw, hkept, -, hfresh⟩ := World.invariants_of_reachable hr
  have hget := hkept.answers y hy r hreply
  obtain ⟨st, op, st', hst, hget', happly⟩ :=
    Machine.performs_of_responseAt (hw.sound.answers y hy r hreply)
  obtain rfl : y.op = op := Option.some.inj (hget.symm.trans hget')
  have hr : r = (st.applyOp y.op).2 := (congrArg Prod.snd (Option.some.inj happly)).symm
  refine ⟨hget, st, hst, hr, ?_, fun htype => hr ▸ State.reply_applyOp_get htype⟩
  -- the first entry with the operation
  have htake : w.servers.agreed.take (y.pos + 1) <+: w.servers.agreed := List.take_prefix _ _
  have hmem : y.op ∈ w.servers.agreed.take (y.pos + 1) := by
    rw [List.take_add_one, hget]
    exact List.mem_append_right _ List.mem_cons_self
  obtain ⟨pre, rest, hsplit, hnew⟩ := List.eq_append_cons_of_mem hmem
  have hpre : pre ++ [y.op] <+: w.servers.agreed.take (y.pos + 1) := ⟨rest, by rw [hsplit]; simp⟩
  obtain ⟨last, hlast⟩ := hw.sound.replays
  obtain ⟨s, hs⟩ := Machine.replay_of_isPrefix
    ((List.prefix_append pre [y.op]).trans (hpre.trans htake)) hlast
  exact ⟨pre, s, hpre, hs,
    State.storage_applyOp_of_isNew (hfresh pre y.op s (hpre.trans htake) hnew hs)⟩

/-- Client 5 puts a value at server 0. -/
def putCalled : List Action :=
  [.call 5 ⟨.put, [107], [1]⟩, .serve 0, .internal 0 (.register 0)]

/-- While the handler of client 5 waits, server 1 starts the `Put` of client 6 and its handler times
    out.  Consensus brings the entry to server 0, behind the one that is waited for, and takes it
    away from server 1.  A second request of client 6 comes to server 0, so that its `Put` is in the
    log twice, and both clients get their replies. -/
def putReplied : List Action :=
  putCalled ++ ([.call 6 ⟨.put, [107], [2]⟩, .fail 6, .serve 1, .internal 1 (.register 0),
    .internal 1 (.timeout 0), .internal 1 (.finish 0),
    .internal 0 (.overwrite [⟨.put, [107], [1], 5, 0⟩, ⟨.put, [107], [2], 6, 0⟩]),
    .internal 0 .apply, .internal 1 (.overwrite [⟨.put, [107], [1], 5, 0⟩]), .internal 0 .deliver,
    .internal 0 (.receive 0), .internal 0 (.finish 0), .reply 5 1, .serve 0,
    .internal 0 (.register 0), .internal 0 .apply, .internal 0 .deliver, .internal 0 .apply,
    .internal 0 .deliver, .internal 0 (.receive 0), .internal 0 (.finish 0), .reply 6 2] :
    List Action)

theorem reply_to_own_request_putReplied :
    ∃ w : World 2, World.Reachable World.KeepsWaiting w ∧
      ∀ c ∈ ([5, 6] : List ℤ), (w.clerks c).requestId = 1 ∧
        ∃ y ∈ w.servers.answers, ∃ r, y.reply = some r ∧ r.err = .ok ∧ y.op.clientId = c ∧
          w.servers.agreed[y.pos]? = some y.op := by
  obtain ⟨w, hr, hw⟩ := exists_run_of_execOk World.step World.KeepsWaiting (World.init 2) putReplied
    (fun w => ∀ c ∈ ([5, 6] : List ℤ), (w.clerks c).requestId = 1 ∧
      ∃ y ∈ w.servers.answers, y.op.clientId = c ∧ (y.reply.any fun r => r.err = .ok) = true)
    (by decide +kernel)
  refine ⟨w, hr, fun c hc => ?_⟩
  obtain ⟨hid, y, hy, hop, hsome⟩ := hw c hc
  obtain ⟨r, hreply, hok⟩ := (Option.any_eq_true _ _).mp hsome
  obtain ⟨hget, -⟩ := reply_to_own_request hr hy hreply
  exact ⟨hid, y, hy, r, hreply, of_decide_eq_true hok, hop, hget⟩

/-- Server 1 leads by now.  The `Put` of client 6, which server 0 did not serve, takes the place of
    the entry of server 0, and client 5 gets the `OK` that was meant for client 6. -/
def putLost : List Action :=
  putCalled ++
    ([.call 6 ⟨.put, [107], [2]⟩, .fail 6, .serve 1, .internal 1 .apply,
     .internal 0 (.overwrite [⟨.put, [107], [2], 6, 0⟩]), .internal 0 .apply, .internal 0 .deliver,
     .internal 0 (.receive 0), .internal 0 (.finish 0), .reply 5 0] : List Action)

/-- Without the condition, client 5 is told that its value is stored, and returns from its call,
    while no entry of the log is its `Put`. -/
theorem put_acknowledged_and_lost :
    ∃ w : World 2, World.Reachable (fun _ _ => True) w ∧
      (w.clerks 5).requestId = 1 ∧
      (∃ y ∈ w.servers.answers, ∃ r, y.reply = some r ∧ r.err = .ok ∧
        y.op = ⟨.put, [107], [1], 5, 0⟩) ∧
      ∀ op ∈ w.servers.agreed, op.clientId ≠ 5 := by
  obtain ⟨w, hr, hid, ⟨y, hy, hop, hsome⟩, hnone⟩ := exists_run_of_execOk World.step
    (fun _ _ => True) (World.init 2) putLost
    (fun w => (w.clerks 5).requestId = 1 ∧
      (∃ y ∈ w.servers.answers, y.op = ⟨.put, [107], [1], 5, 0⟩ ∧
        (y.reply.any fun r => r.err = .ok) = true) ∧
      ∀ op ∈ w.servers.agreed, op.clientId ≠ 5) (by decide +kernel)
  obtain ⟨r, hreply, hok⟩ := (Option.any_eq_true _ _).mp hsome
  exact ⟨w, hr, hid, ⟨y, hy, r, hreply, of_decide_eq_true hok, hop⟩, hnone⟩

end MitDistributed.KVRaft
