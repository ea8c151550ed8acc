import MitDistributed.ShardCtrler.Clerk

namespace MitDistributed.ShardCtrler

open Transition

/-!
# Shard controller — calls take effect exactly once

A `Join`, `Leave` or `Move` call is the only one of its clerk with its `requestId`, except for a
`Query` that gave up before it: that one leaves its id to the next call.  `call_appends_once` shows
that every call which returns has appended exactly one configuration, at the first entry with its
operation, as long as no such `Query` is applied before it; in `join_swallowed` one is, and the
`Join` returns without effect.
-/

namespace World

variable {n : ℕ} {w w' : World n} {a : Action}

/-- A `Join`, `Leave` or `Move` of the clerk that is applied for the first time does not come after
    a `Query` with the same `requestId`. -/
def NoLateQuery (w : World n) : Action → Prop
  | .internal s act =>
    act = .apply → ∀ op ∈ (w.controllers.servers s).raftLog[w.controllers.agreed.length]?,
      op.clientId = w.clerk.clientId → op.command.isQuery = false → op ∉ w.controllers.agreed →
        ∀ q ∈ w.controllers.agreed, q.clientId = op.clientId → q.requestId = op.requestId →
          q.command.isQuery = false
  | _ => True

/-- The clerk's requests, of which those other than `QUERY` count, and the calls that have
    returned: those with a reply have ids of their own, and only `Query` returns without one. -/
structure Ledger (w : World n) : Prop where
  requests : Rsm.Ledger Op.requestId (fun op => op.command.isQuery = false) w.clerk.requestId
    (w.clerk.calling.map w.clerk.op) {op | op ∈ w.sent} {op | op ∈ w.controllers.agreed}
  returned : ∀ ret ∈ w.returned, ret.op.clientId = w.clerk.clientId ∧
    (ret.op.command.isQuery = false → ret.reply.isSome) ∧
    (ret.reply.isSome → ret.op.requestId < w.clerk.requestId)
  ordered : (w.returned.filter fun ret => ret.reply.isSome).Pairwise fun x y =>
    x.op.requestId < y.op.requestId

theorem Ledger.init (clientId : ℤ) : (World.init n clientId).Ledger where
  requests := Rsm.Ledger.init.mono (fun _ hop => absurd hop List.not_mem_nil) fun _ hop => hop
  returned _ hret := absurd hret List.not_mem_nil
  ordered := List.Pairwise.nil

/-- A request is sent. -/
theorem Ledger.sends (h : w.Ledger) {clerk' : Clerk n} {call : Call n}
    (hcall : clerk'.calling = some call) (hclient : clerk'.clientId = w.clerk.clientId)
    (hrequest : clerk'.requestId = w.clerk.requestId)
    (hsame : w.clerk.calling = none ∨
      ∃ old, w.clerk.calling = some old ∧ old.command = call.command)
    (requests : List (ℕ × Op)) :
    { w with
      clerk := clerk', requests := requests, sent := w.sent ++ [clerk'.op call] }.Ledger := by
  refine ⟨?_, fun ret hret => ?_, h.ordered⟩
  · rw [hcall, hrequest]
    refine h.requests.send hrequest ?_ fun op hop =>
      (List.mem_append.mp hop).imp_right List.mem_singleton.mp
    rcases hsame with hnone | ⟨old, hold, hcommand⟩
    · exact .inl (by rw [hnone]; rfl)
    · rw [hold, Option.map_some, Clerk.op, Clerk.op, hclient, hrequest, hcommand]
      exact .inr rfl
  · rw [hclient, hrequest]
    exact h.returned ret hret

/-- `Query` gives up. -/
theorem Ledger.givesUp (h : w.Ledger) {call : Call n} (hcall : w.clerk.calling = some call)
    (hquery : call.command.isQuery = true) :
    { w with
      clerk := { w.clerk with calling := none }
      returned := w.returned ++ [Return.mk (w.clerk.op call) none] }.Ledger := by
  refine ⟨h.requests.giveUp ?_, ?_, ?_⟩
  · intro op hop hwrite
    rw [hcall] at hop
    cases hop
    cases hquery.symm.trans hwrite
  · intro ret hret
    rcases List.mem_append.mp hret with hold | hnew
    · exact h.returned ret hold
    · rw [List.mem_singleton.mp hnew]
      refine ⟨rfl, fun hwrite => ?_, fun hsome => by cases hsome⟩
      cases hquery.symm.trans hwrite
  · rw [List.filter_append]
    exact (List.append_nil _).symm ▸ h.ordered

/-- A call returns with a reply. -/
theorem Ledger.replies (h : w.Ledger) {call : Call n} (hcall : w.clerk.calling = some call)
    {x : ℕ × WaitChResponse} (hmem : w.clerk.op call ∈ w.controllers.agreed) :
    { w with
      clerk := w.clerk.replied call
      returned := w.returned ++ [Return.mk (w.clerk.op call) (some x)] }.Ledger := by
  have hlt : w.clerk.requestId < w.clerk.requestId + 1 := Int.lt_succ _
  refine ⟨h.requests.close ?_, ?_, ?_⟩
  · intro op hop
    rw [hcall] at hop
    cases hop
    exact hmem
  · intro ret hret
    rcases List.mem_append.mp hret with hold | hnew
    · obtain ⟨hclient, hsome, hid⟩ := h.returned ret hold
      exact ⟨hclient, hsome, fun hs => (hid hs).trans hlt⟩
    · rw [List.mem_singleton.mp hnew]
      exact ⟨rfl, fun _ => rfl, fun _ => hlt⟩
  · rw [List.filter_append]
    refine List.pairwise_append.mpr ⟨h.ordered, List.pairwise_singleton _ _, ?_⟩
    intro ret hret y hy
    obtain ⟨hret, hsome⟩ := List.mem_filter.mp hret
    rw [List.mem_singleton.mp (List.mem_of_mem_filter hy)]
    exact (h.returned ret hret).2.2 hsome

/-- **Ledger, step.** -/
theorem Ledger.step (h : w.Ledger) (hown : w.OwnReply a) (hstep : w.step a = some w') :
    w'.Ledger := by
  cases moves_of_step hstep with
  | sends clerk' call hcall hclient hrequest hsame =>
    exact h.sends hcall hclient hrequest hsame _
  | givesUp call hcall hquery => exact h.givesUp hcall hquery
  | replies call hcall hanswer =>
    exact h.replies hcall (List.mem_of_getElem? (hown _ hanswer rfl))
  | serves hc hact hreq hstarts =>
    have hpre := Rsm.Cluster.agreed_isPrefix hc
    exact { h with requests := h.requests.mono (fun _ hop => hop) hpre.subset }

/-! ### First entries -/

/-- Where the clerk's operations other than `QUERY` occur for the first time, they are no
    duplicates. -/
def Fresh (w : World n) : Prop :=
  ∀ pre op st, pre ++ [op] <+: w.controllers.agreed → op.clientId = w.clerk.clientId →
    op.command.isQuery = false → op ∉ pre → machine.replay pre = some st →
      st.duplicated op = false

/-- An operation that is applied for the first time is no duplicate. -/
theorem Ledger.not_duplicated (h : w.Ledger) (hw : w.Consistent) {op : Op} {st : State}
    (hst : machine.replay w.controllers.agreed = some st) (hstarted : op ∈ w.controllers.started)
    (hclient : op.clientId = w.clerk.clientId) (hwrite : op.command.isQuery = false)
    (hnew : op ∉ w.controllers.agreed)
    (hlate : ∀ q ∈ w.controllers.agreed, q.clientId = op.clientId → q.requestId = op.requestId →
      q.command.isQuery = false) : st.duplicated op = false := by
  have hfresh : st.latestAppliedRequest.latest op.clientId < op.requestId := by
    refine h.requests.latest_lt (hw.started op hstarted hclient) hwrite hnew ?_
    refine ((latest_of_replay hst).2 op.clientId).imp_right fun ⟨q, hq, hqc, hlatest⟩ => ?_
    exact ⟨q, hq, hw.started q (hw.sound.agreed q hq) (hqc.trans hclient), hlatest, hlate q hq hqc⟩
  rw [State.duplicated, decide_eq_true hfresh]
  rfl

theorem Fresh.step (hfresh : w.Fresh) (h : w.Ledger) (hw : w.Consistent) (hlate : w.NoLateQuery a)
    (hstep : w.step a = some w') : w'.Fresh := by
  cases moves_of_step hstep with
  | sends clerk' call hcall hclient hrequest hsame =>
    intro pre op st hpre hc
    exact hfresh pre op st hpre (hc.trans hclient)
  | givesUp | replies => exact hfresh
  | @serves _ s act c requests hc hact hreq hstarts =>
    intro pre op st hpre hclient hwrite hnew hst
    rcases hw.sound.concat_isPrefix hc hpre with hold | ⟨rfl, hstarted, hkind, hlog⟩
    · exact hfresh pre op st hold hclient hwrite hnew hst
    · obtain rfl : act = .apply := hkind
      obtain rfl : a = .internal s .apply := by
        rcases hact with rfl | ⟨op, hcall⟩
        · rfl
        · exact absurd hcall (by simp)
      exact h.not_duplicated hw hst hstarted hclient hwrite hnew
        (hlate rfl op hlog hclient hwrite hnew)

/-- Replies are to the clerk's own operations, and none of its abandoned queries comes late. -/
def CallsCleanly (w : World n) (a : Action) : Prop := w.OwnReply a ∧ w.NoLateQuery a

/-- **Ledger, run.** -/
theorem ledger_of_reachable {clientId : ℤ} (hr : Reachable CallsCleanly clientId w) :
    w.Consistent ∧ w.Answered ∧ w.Ledger ∧ w.Fresh := by
  have hfresh : (World.init n clientId).Fresh := by
    intro pre op st hpre
    exact absurd (List.prefix_nil.mp hpre) (by simp)
  refine Run.invariant (I := fun w => w.Consistent ∧ w.Answered ∧ w.Ledger ∧ w.Fresh) ?_ hr
    ⟨.init clientId, .init clientId, .init clientId, hfresh⟩
  rintro w a w' ⟨hw, hans, hledger, hfresh⟩ ⟨hown, hlate⟩ hstep
  exact ⟨hw.step hstep, hans.step hw hown hstep, hledger.step hown hstep,
    hfresh.step hledger hw hlate hstep⟩

end World

/-! ### Appended configurations -/

/-- A new operation other than `QUERY` appends a configuration. -/
theorem State.Applies.appends {st st' : State} {op : Op} {r : WaitChResponse}
    (h : st.Applies op st' r) (hwrite : op.command.isQuery = false)
    (hfresh : st.duplicated op = false) :
    ∃ c, st'.history.configs = st.history.configs ++ [c] := by
  cases h with
  | skip _ hdup => cases hdup.symm.trans hfresh
  | append _ _ c hc => exact ⟨c, rfl⟩
  | query num hquery =>
    rw [hquery] at hwrite
    exact absurd hwrite (by simp [Command.isQuery])

/-- A duplicate does not. -/
theorem State.Applies.history_of_duplicated {st st' : State} {op : Op} {r : WaitChResponse}
    (h : st.Applies op st' r) (hdup : st.duplicated op = true) : st'.history = st.history := by
  cases h with
  | skip | query => rfl
  | append _ hfresh => cases hdup.symm.trans hfresh

/-- After an entry with an operation, that operation is a duplicate. -/
theorem duplicated_of_mem {pre : List Op} {op : Op} {st : State} (hmem : op ∈ pre)
    (hst : machine.replay pre = some st) : st.duplicated op = true := by
  have hle := (latest_of_replay hst).1 op hmem
  rw [State.duplicated, decide_eq_false (not_lt.mpr hle)]
  rfl

/-- **Calls take effect exactly once.** The calls of a clerk that return with a reply have ids of
    their own.  Each of them other than `Query` has appended a configuration where its operation
    first occurs in the log, and none where it occurs again. -/
theorem call_appends_once {n : ℕ} {w : World n} {clientId : ℤ}
    (hr : World.Reachable World.CallsCleanly clientId w) :
    (w.returned.filter fun ret => ret.reply.isSome).Pairwise
        (fun x y => x.op.requestId < y.op.requestId) ∧
      ∀ ret ∈ w.returned, ret.op.command.isQuery = false →
        ∃ pre st st' r c, pre ++ [ret.op] <+: w.controllers.agreed ∧ ret.op ∉ pre ∧
          machine.replay pre = some st ∧ st.applyOp ret.op = some (st', r) ∧
          st'.history.configs = st.history.configs ++ [c] ∧
          ∀ pre' t t' r', pre' ++ [ret.op] <+: w.controllers.agreed → pre' ≠ pre →
            machine.replay pre' = some t → t.applyOp ret.op = some (t', r') →
              t'.history = t.history := by
  obtain ⟨hw, hans, hledger, hfresh⟩ := World.ledger_of_reachable hr
  refine ⟨hledger.ordered, fun ret hret hwrite => ?_⟩
  obtain ⟨hclient, hsome, -⟩ := hledger.returned ret hret
  obtain ⟨x, hx⟩ := Option.isSome_iff_exists.mp (hsome hwrite)
  have hmem : ret.op ∈ w.controllers.agreed := List.mem_of_getElem? (hans ret hret x hx).1
  obtain ⟨pre, rest, hsplit, hnew⟩ := List.eq_append_cons_of_mem hmem
  have hpre : pre ++ [ret.op] <+: w.controllers.agreed := ⟨rest, by rw [hsplit]; simp⟩
  obtain ⟨last, hlast⟩ := hw.sound.replays
  obtain ⟨st', hst'⟩ := Rsm.Machine.replay_of_isPrefix hpre hlast
  obtain ⟨st, r, hst, happly⟩ := Rsm.Machine.apply_of_replay_concat hst'
  have hdup := hfresh pre ret.op st hpre hclient hwrite hnew hst
  obtain ⟨c, hc⟩ := (State.applies_of_applyOp happly).appends hwrite hdup
  refine ⟨pre, st, st', r, c, hpre, hnew, hst, happly, hc, fun pre' t t' r' hpre' hne ht htap => ?_⟩
  -- another entry with the operation comes after the first one
  have hlater : ret.op ∈ pre' := by
    have hend (l : List Op) : ret.op ∈ l ++ [ret.op] := List.mem_append_right _ List.mem_cons_self
    rcases lt_trichotomy pre'.length pre.length with hlt | heq | hgt
    · have hshort : pre' ++ [ret.op] <+: pre := List.prefix_of_prefix_length_le hpre'
        ((List.prefix_append _ _).trans hpre) (by rw [List.length_append]; exact hlt)
      exact absurd (hshort.subset (hend pre')) hnew
    · have heq' := (List.prefix_of_prefix_length_le ((List.prefix_append _ _).trans hpre')
        ((List.prefix_append _ _).trans hpre) heq.le).eq_of_length heq
      exact absurd heq' hne
    · have hlong : pre ++ [ret.op] <+: pre' := List.prefix_of_prefix_length_le hpre
        ((List.prefix_append _ _).trans hpre') (by rw [List.length_append]; exact hgt)
      exact hlong.subset (hend pre)
  exact (State.applies_of_applyOp htap).history_of_duplicated (duplicated_of_mem hlater ht)

instance {n : ℕ} (w : World n) (a : Action) : Decidable (w.OwnReply a) := by
  unfold World.OwnReply
  split <;> infer_instance

instance {n : ℕ} (w : World n) (a : Action) : Decidable (w.NoLateQuery a) := by
  unfold World.NoLateQuery
  split <;> infer_instance

instance {n : ℕ} (w : World n) (a : Action) : Decidable (w.CallsCleanly a) :=
  inferInstanceAs (Decidable (_ ∧ _))

/-- Server `s` applies its next entry and passes the response on. -/
def applyAt (s : ℕ) : List Action := [.internal s .apply, .internal s .deliver]

/-- The handler of server `s` replies, and the clerk gets the `j`-th reply. -/
def replyAt (s j : ℕ) : List Action :=
  [.internal s (.receive 0), .internal s (.finish 0), .reply j]

/-- The clerk asks server 0 for the configuration and has it start a `Join`, and gets no reply.
    Server 1 leads by now, with the `Join` in its log, and starts it again; server 0 loses the entry
    of another client.  Then the clerk leaves group 1. -/
def joinReplied : List Action :=
  [.call (.query (-1)), .serve 0, .internal 0 (.register 0)] ++ applyAt 0 ++ replyAt 0 0 ++
    [.call (.join groups12), .serve 0, .other 0 ⟨6, 0, .query 0⟩,
      .internal 1 (.overwrite [⟨5, 0, .query (-1)⟩, ⟨5, 1, .join groups12⟩]), .fail, .fail,
      .serve 1, .internal 1 (.register 0)] ++ applyAt 1 ++ applyAt 1 ++ applyAt 1 ++ replyAt 1 1 ++
    [.internal 0 (.overwrite [⟨5, 0, .query (-1)⟩, ⟨5, 1, .join groups12⟩]),
      .call (.leave [1]), .serve 1, .internal 1 (.register 0)] ++ applyAt 1 ++ replyAt 1 2

theorem call_appends_once_joinReplied :
    ∃ w : World 2, World.Reachable World.CallsCleanly 5 w ∧
      w.controllers.agreed = [⟨5, 0, .query (-1)⟩, ⟨5, 1, .join groups12⟩, ⟨5, 1, .join groups12⟩,
        ⟨5, 2, .leave [1]⟩] ∧
      ∀ op ∈ ([⟨5, 1, .join groups12⟩, ⟨5, 2, .leave [1]⟩] : List Op), ∃ ret ∈ w.returned,
        ret.op = op ∧ ∃ pre st st' r c, pre ++ [ret.op] <+: w.controllers.agreed ∧
          machine.replay pre = some st ∧ st.applyOp ret.op = some (st', r) ∧
          st'.history.configs = st.history.configs ++ [c] := by
  obtain ⟨w, hr, hagreed, hw⟩ := exists_run_of_execOk World.step World.CallsCleanly
    (World.init 2 5) joinReplied
    (fun w => w.controllers.agreed = [⟨5, 0, .query (-1)⟩, ⟨5, 1, .join groups12⟩,
        ⟨5, 1, .join groups12⟩, ⟨5, 2, .leave [1]⟩] ∧
      ∀ op ∈ ([⟨5, 1, .join groups12⟩, ⟨5, 2, .leave [1]⟩] : List Op),
        op.command.isQuery = false ∧ ∃ ret ∈ w.returned, ret.op = op) (by decide +kernel)
  refine ⟨w, hr, hagreed, fun op hop => ?_⟩
  obtain ⟨hwrite, ret, hret, rfl⟩ := hw op hop
  obtain ⟨pre, st, st', r, c, hpre, -, hst, happly, hc, -⟩ :=
    (call_appends_once hr).2 ret hret hwrite
  exact ⟨ret, hret, rfl, pre, st, st', r, c, hpre, hst, happly, hc⟩

/-- A query fails at all three servers, five times over, and gives up. -/
def queryGivesUp : List Action := .call (.query (-1)) :: List.replicate 20 .fail

/-- The first request of the query is served only then, and applied; the clerk's next call is a
    `Join`, which is served and applied after it. -/
def lateQuery : List Action :=
  queryGivesUp ++
    ([.serve 0, .internal 0 .apply, .internal 0 .deliver,
     .call (.join groups12), .serve 19, .internal 0 (.register 1), .internal 0 .apply,
     .internal 0 .deliver, .internal 0 (.receive 1), .internal 0 (.finish 1),
     .reply 0] : List Action)

/-- The `Join` returns, and there is no configuration but the initial one: its operation is applied
    once, as a duplicate of the query. -/
theorem join_swallowed :
    ∃ w : World 2, World.Reachable World.OwnReply 5 w ∧
      w.controllers.agreed = [⟨5, 0, .query (-1)⟩, ⟨5, 0, .join groups12⟩] ∧
      (∃ ret ∈ w.returned, ret.op = ⟨5, 0, .join groups12⟩ ∧ ret.reply.isSome) ∧
      ∃ st, machine.replay w.controllers.agreed = some st ∧
        st.history.configs = [.initial] := by
  obtain ⟨w, hr, hagreed, hret, hst⟩ := exists_run_of_execOk World.step World.OwnReply
    (World.init 2 5) lateQuery
    (fun w => w.controllers.agreed = [⟨5, 0, .query (-1)⟩, ⟨5, 0, .join groups12⟩] ∧
      (∃ ret ∈ w.returned, ret.op = ⟨5, 0, .join groups12⟩ ∧ ret.reply.isSome) ∧
      ((machine.replay w.controllers.agreed).any fun st => st.history.configs = [.initial]) = true)
    (by decide +kernel)
  obtain ⟨st, hst, hconfigs⟩ := (Option.any_eq_true _ _).mp hst
  exact ⟨w, hr, hagreed, hret, st, hst, of_decide_eq_true hconfigs⟩

end MitDistributed.ShardCtrler
