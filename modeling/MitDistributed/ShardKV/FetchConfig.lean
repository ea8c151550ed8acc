import MitDistributed.ShardCtrler.Clerk
import MitDistributed.ShardKV.Server

namespace MitDistributed.ShardKV

open ShardCtrler Transition

/-!
# Sharded store — fetching the next configuration

`fetchNextConfig` asks the controllers for the configuration after the current one, through a
clerk, and exits if it gets a later one.  `versions_not_skipped` shows that it does not, as long as
no controller replaces the log entry of a handler that waits for it; `fetch_skips_versions` is a
run where one does, and the handler of the query gets the response to another client's.
-/

namespace CtrlerWorld

variable {n : ℕ} {w w' : ShardCtrler.World n} {a : ShardCtrler.Action}

/-- No controller replaces the log entry of a handler that waits for it. -/
def KeepsWaiting (w : ShardCtrler.World n) : ShardCtrler.Action → Prop
  | .internal s act => (w.controllers.servers s).KeepsWaiting act
  | _ => True

instance (w : ShardCtrler.World n) : (a : ShardCtrler.Action) → Decidable (KeepsWaiting w a)
  | .internal s act => inferInstanceAs (Decidable ((w.controllers.servers s).KeepsWaiting act))
  | .call _ | .serve _ | .reply _ | .fail | .other _ _ => instDecidableTrue

/-- **Own entries, step.** -/
theorem kept_step (hkept : w.controllers.Kept) (hw : w.Consistent) (hkeeps : KeepsWaiting w a)
    (hstep : w.step a = some w') : w'.controllers.Kept := by
  cases World.moves_of_step hstep with
  | sends | givesUp | replies => exact hkept
  | @serves a s act c requests hc hact hreq hstarts =>
    have hserver : (w.controllers.servers s).KeepsWaiting act := by
      rcases hact with rfl | ⟨op, rfl⟩
      · exact hkeeps
      · trivial
    exact hkept.step hw.sound hserver hc

/-- **Own replies, run.** What the clerk's calls returned with is the response to what they sent,
    in every run in which waiting handlers keep their entries. -/
theorem answered_of_reachable {clientId : ℤ} (hr : World.Reachable KeepsWaiting clientId w) :
    w.Consistent ∧ w.Answered := by
  have hinv : w.Consistent ∧ w.controllers.Kept ∧ w.Answered := by
    refine Run.invariant (I := fun w => w.Consistent ∧ w.controllers.Kept ∧ w.Answered) ?_ hr
      ⟨.init clientId, .init, .init clientId⟩
    rintro w a w' ⟨hw, hkept, hans⟩ hkeeps hstep
    have hown : w.OwnReply a := by
      cases a with
      | reply j =>
        intro y hy hsome
        obtain ⟨r, hr⟩ := Option.isSome_iff_exists.mp hsome
        exact hkept.answers y (List.mem_of_getElem? hy) r hr
      | _ => trivial
    exact ⟨hw.step hstep, kept_step hkept hw hkeeps hstep, hans.step hw hown hstep⟩
  exact ⟨hinv.1, hinv.2.2⟩

end CtrlerWorld

open CtrlerWorld

variable {n : ℕ} {w : ShardCtrler.World n} {clientId : ℤ}

/-- **Configuration versions are not skipped.** What the clerk of a server gets for the
    configuration after `st.num` is a configuration of the controllers, and no later one, so that
    `fetchNextConfig` does not exit. -/
theorem versions_not_skipped (hr : World.Reachable KeepsWaiting clientId w) {ret : Return}
    (hret : ret ∈ w.returned) {st : State} (hop : ret.op.command = .query (st.num + 1)) :
    ret.config.num ≤ st.num + 1 ∧
      (∃ s, machine.replay w.controllers.agreed = some s ∧
        s.history.configs[ret.config.num]? = some ret.config) ∧
      st.fetchNextConfig (fun _ => ret.config) ≠ .fatal := by
  obtain ⟨hw, hans⟩ := answered_of_reachable hr
  obtain ⟨last, hlast⟩ := hw.sound.replays
  have hconfig : ret.config.num ≤ st.num + 1 ∧
      last.history.configs[ret.config.num]? = some ret.config := by
    cases hreply : ret.reply with
    | none =>
      -- the call gave up, with configuration 0
      have hinit : ret.config = .initial := by rw [Return.config, hreply]; rfl
      have hpre := history_isPrefix List.nil_prefix rfl hlast
      rw [hinit]
      exact ⟨Nat.zero_le _, List.prefix_iff_getElem?.mp hpre 0 (by decide)⟩
    | some x =>
      obtain ⟨hget, hresp⟩ := hans ret hret x hreply
      obtain ⟨s, op, s', hs, hget', happly⟩ := Rsm.Machine.performs_of_responseAt hresp
      obtain rfl : ret.op = op := Option.some.inj (hget.symm.trans hget')
      have hreport : ret.config = s.history.query (st.num + 1) := by
        rw [Return.config, hreply]
        exact State.config_of_applyOp happly hop
      have htake := List.take_prefix x.1 w.controllers.agreed
      have hpre := history_isPrefix htake hs hlast
      rw [hreport]
      have hle := s.history.query_num_le (st.num + 1) (by omega)
      have hmem := s.history.query_mem (st.num + 1)
      refine ⟨by exact_mod_cast hle, ?_⟩
      have hlt := (List.getElem?_eq_some_iff.mp hmem).1
      rw [List.prefix_iff_getElem?.mp hpre _ hlt, ← List.getElem?_eq_getElem hlt, hmem]
  refine ⟨hconfig.1, ⟨last, hlast, hconfig.2⟩, ?_⟩
  intro hfatal
  unfold State.fetchNextConfig at hfatal
  dsimp only at hfatal
  have hle := hconfig.1
  split_ifs at hfatal with hall hgt hne
  omega

/-- Another client's `Join` and `Join` of a second group reach server 1, which leads. -/
def twoJoins : List ShardCtrler.Action :=
  [.other 1 ⟨9, 0, .join (.single 1 "a")⟩, .internal 1 .apply, .internal 1 .deliver,
   .other 1 ⟨9, 1, .join (.single 2 "b")⟩, .internal 1 .apply, .internal 1 .deliver]

/-- The log of server 0 after the two joins. -/
def joinedLog : List ShardCtrler.Op :=
  [⟨9, 0, .join (.single 1 "a")⟩, ⟨9, 1, .join (.single 2 "b")⟩]

/-- The clerk asks for configuration 1 at server 0, which has applied both joins. -/
def askForFirst : List ShardCtrler.Action :=
  twoJoins ++
    ([.internal 0 (.overwrite joinedLog), .internal 0 .apply, .internal 0 .deliver,
     .internal 0 .apply, .internal 0 .deliver,
     .call (.query 1), .serve 0, .internal 0 (.register 0)] : List ShardCtrler.Action)

/-- Server 0 leads: its handler gets the response to its own entry. -/
def firstReported : List ShardCtrler.Action :=
  askForFirst ++
    ([.internal 0 .apply, .internal 0 .deliver, .internal 0 (.receive 0), .internal 0 (.finish 0),
     .reply 0] : List ShardCtrler.Action)

/-- Server 1 leads, and another client's query for the latest configuration takes the place of the
    entry of server 0. -/
def latestReported : List ShardCtrler.Action :=
  askForFirst ++
    ([.other 1 ⟨9, 2, .query (-1)⟩, .internal 1 .apply,
     .internal 0 (.overwrite (joinedLog ++ [⟨9, 2, .query (-1)⟩])), .internal 0 .apply,
     .internal 0 .deliver, .internal 0 (.receive 0), .internal 0 (.finish 0),
     .reply 0] : List ShardCtrler.Action)

theorem versions_not_skipped_firstReported :
    ∃ w : ShardCtrler.World 2, World.Reachable KeepsWaiting 5 w ∧
      ∃ ret ∈ w.returned, ret.op.command = .query (State.initial.num + 1) ∧
        ret.config.num ≤ 1 ∧ State.initial.fetchNextConfig (fun _ => ret.config) ≠ .fatal := by
  obtain ⟨w, hr, hsome⟩ := exists_run_of_execOk World.step KeepsWaiting (World.init 2 5)
    firstReported (fun w => ∃ ret ∈ w.returned, ret.op.command = .query (State.initial.num + 1))
    (by decide +kernel)
  obtain ⟨ret, hret, hop⟩ := hsome
  obtain ⟨hle, -, hne⟩ := versions_not_skipped hr hret hop
  exact ⟨w, hr, ret, hret, hop, hle, hne⟩

/-- Without the condition, a server at version 0 gets configuration 2 and exits. -/
theorem fetch_skips_versions :
    ∃ w : ShardCtrler.World 2, World.Reachable (fun _ _ => True) 5 w ∧
      ∃ ret ∈ w.returned, ret.op.command = .query (State.initial.num + 1) ∧
        ret.config.num = 2 ∧ State.initial.fetchNextConfig (fun _ => ret.config) = .fatal :=
  exists_run_of_execOk World.step (fun _ _ => True) (World.init 2 5) latestReported
    (fun w => ∃ ret ∈ w.returned, ret.op.command = .query (State.initial.num + 1) ∧
      ret.config.num = 2 ∧ State.initial.fetchNextConfig (fun _ => ret.config) = .fatal)
    (by decide +kernel)

end MitDistributed.ShardKV
