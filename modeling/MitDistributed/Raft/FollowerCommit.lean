import MitDistributed.Raft.CommitIndex
import MitDistributed.Raft.LogMatching
import MitDistributed.Raft.Spawn
import MitDistributed.Raft.Windows

namespace MitDistributed.Raft

open Transition

/-!
# Raft — the commit index of a follower

`AppendEntries` lets a follower commit up to the leader's commit index or the end of its own log,
whichever comes first, although the follower may have entries that the request has not verified.
That is safe because of what the leader puts in its requests: whichever way a request is built,
it reaches to the end of the leader's log (`Node.Builds.reaches`), and its commit index lies within
that log (`Node.Builds.leaderCommit_le`).

A request that carries entries is built from a window on the log, and encoded later.
`World.Reachable.built` says under which conditions it is still the request that was built: the
log is not cut as long as a goroutine has a window that it may still encode.
-/

variable {n : ℕ} {C D : Type}

namespace Node

/-- The `AppendEntries` requests that a peer can build in a state, with the entries that their
    windows show there. -/
inductive Builds (me : Fin n) : Node n C D → AppendEntriesArgs n C → Prop
  /-- `sendHeartbeatToAll` -/
  | heartbeat {nd : Node n C D} (fresh k thisTerm : ℕ) (peer : Fin n) (todo : List (Fin n))
      (waiting : List ℕ) {call : Call n C D} {args : AppendEntriesArgs n C}
      (hsend : (nd.sendHeartbeat me fresh k thisTerm peer todo waiting).send = some call)
      (hargs : call.request = .appendEntries args) : Builds me nd args
  /-- `sendAppendEntriesToAll`, from `nextIndex` on, and the request that `sendInstallSnapshot`
      lets follow, from the snapshot on -/
  | append {nd : Node n C D} {term prevLogIndex : ℕ} {args : SenderArgs n}
      (hargs : nd.appendArgs me term prevLogIndex nd.commitIndex = some args) :
      Builds me nd (args.request (nd.readSlice args.entries))
  /-- the retry in `sendAppendEntries`, with the commit index of the first attempt -/
  | retry {first nd : Node n C D} {old : AppendEntriesArgs n C} {args : SenderArgs n}
      {prevLogIndex : ℕ} (hold : Builds me first old)
      (hlater : first.commitIndex ≤ nd.commitIndex)
      (hargs : nd.appendArgs me old.term prevLogIndex old.leaderCommit = some args) :
      Builds me nd (args.request (nd.readSlice args.entries))

/-- What `appendArgs` puts in a request. -/
theorem appendArgs_eq_some {me : Fin n} {nd : Node n C D} {term prevLogIndex leaderCommit : ℕ}
    {args : SenderArgs n} (h : nd.appendArgs me term prevLogIndex leaderCommit = some args) :
    (args.request (nd.readSlice args.entries)).SliceOf nd ∧
      args.prevLogIndex + (nd.readSlice args.entries).length + 1 = nd.getLogLength ∧
      args.leaderCommit = leaderCommit := by
  obtain ⟨-, -, rfl, hcommit, hterm, hlogs⟩ := appendArgs_fields h
  obtain ⟨hlow, hle, -, -⟩ := getLogs_eq_some hlogs
  have hlen : nd.getLogLength = nd.lastIncludedIndex + nd.log.length := rfl
  have hread : nd.readSlice args.entries =
      nd.log.drop (args.prevLogIndex + 1 - nd.lastIncludedIndex) := by
    rw [readSlice_getLogs hlogs, List.take_of_length_le (by omega)]
  refine ⟨⟨hterm, fun k e hk => ?_⟩, ?_, hcommit⟩
  · show nd.getLog (args.prevLogIndex + 1 + k) = some e
    have hk : (nd.readSlice args.entries)[k]? = some e := hk
    rw [hread, List.getElem?_drop] at hk
    refine getLog_eq_some_iff.mpr ⟨by omega, ?_⟩
    rw [← hk]
    congr 1
    omega
  · rw [hread, List.length_drop]
    omega

namespace Builds

variable {me : Fin n} {nd : Node n C D} {args : AppendEntriesArgs n C}

theorem of_getTermOfLog (thisTerm : ℕ) {prevLogTerm : ℕ}
    (h : nd.getTermOfLog (nd.getLogLength - 1) = some prevLogTerm) :
    Builds me nd ⟨thisTerm, me, [], nd.getLogLength - 1, prevLogTerm, nd.commitIndex⟩ := by
  have hsend : (nd.sendHeartbeat me 0 0 thisTerm me [] []).send = some (newCall me me
      (.appendEntries ⟨thisTerm, me, [], nd.getLogLength - 1, prevLogTerm, nd.commitIndex⟩)) := by
    unfold sendHeartbeat
    rw [h]
  exact .heartbeat 0 0 thisTerm me [] [] hsend rfl

/-- A request carries entries of the sender, up to the end of its log. -/
theorem reaches (h : Builds me nd args) :
    args.SliceOf nd ∧ args.prevLogIndex + args.entries.length + 1 = nd.getLogLength := by
  cases h with
  | heartbeat fresh k thisTerm peer todo waiting hsend hargs =>
    unfold sendHeartbeat at hsend
    split at hsend
    · cases hsend
    · rename_i prevLogTerm hterm
      cases hsend
      cases hargs
      obtain ⟨-, hlt⟩ := exists_getTermOfLog_iff.mp ⟨_, hterm⟩
      refine ⟨⟨hterm, fun k e hk => by cases hk⟩, ?_⟩
      show nd.getLogLength - 1 + 0 + 1 = nd.getLogLength
      omega
  | append hargs =>
    obtain ⟨hslice, hend, -⟩ := appendArgs_eq_some hargs
    exact ⟨hslice, hend⟩
  | retry hold hlater hargs =>
    obtain ⟨hslice, hend, -⟩ := appendArgs_eq_some hargs
    exact ⟨hslice, hend⟩

/-- Its commit index is one that the sender has, or had before. -/
theorem leaderCommit_le (h : Builds me nd args) : args.leaderCommit ≤ nd.commitIndex := by
  induction h with
  | heartbeat fresh k thisTerm peer todo waiting hsend hargs =>
    unfold sendHeartbeat at hsend
    split at hsend
    · cases hsend
    · cases hsend
      cases hargs
      exact le_rfl
  | append hargs => exact (appendArgs_eq_some hargs).2.2.le
  | retry hold hlater hargs ih => exact (appendArgs_eq_some hargs).2.2.le.trans (ih.trans hlater)

end Builds

end Node

/-! ### Every request of a run is built this way -/

namespace World

variable {w w' : World n C D} {p : Fin n} {eff : Effect n C D} {a : Action n C D}

/-- No commit index lies beyond its log. -/
def CommitsWithinLog (w : World n C D) (_ : Action n C D) : Prop :=
  ∀ p, (w.nodes p).commitIndex ≤ (w.nodes p).getLogLength - 1

/-- `AppendEntries` does not cut the log while a goroutine encodes a request, or has one of the
    current term. -/
def KeepsWindows (w : World n C D) : Action n C D → Prop
  | .resume p =>
    ∀ call args, (w.nodes p).held = some (.appendLog call args) → (w.nodes p).Accepts args →
      (∃ peer sent pc, .sendAppendEntries peer sent pc ∈ (w.nodes p).threads ∧
        ((w.nodes p).currentTerm ≤ sent.term ∨ pc.encoding = true)) →
      ¬ (w.nodes p).Cuts args
  | _ => True

/-- The commit index lies within the log and is never lowered, and what is to be sent is not
    overwritten. -/
structure BuildsSafely (w : World n C D) (a : Action n C D) : Prop where
  commits : w.CommitsWithinLog a
  raises : w.RaisesCommit a
  windows : w.KeepsWindows a

/-- `args` was built by peer `p` in a state whose commit index lies within its log and is at most
    `commitIndex`. -/
def BuiltBy (p : Fin n) (commitIndex : ℕ) (args : AppendEntriesArgs n C) : Prop :=
  ∃ nd : Node n C D, nd.commitIndex ≤ nd.getLogLength - 1 ∧ nd.commitIndex ≤ commitIndex ∧
    Node.Builds p nd args

theorem BuiltBy.mono {p : Fin n} {c c' : ℕ} {args : AppendEntriesArgs n C}
    (h : BuiltBy (D := D) p c args) (hle : c ≤ c') : BuiltBy (D := D) p c' args := by
  obtain ⟨nd, hcap, hnd, hbuilds⟩ := h
  exact ⟨nd, hcap, hnd.trans hle, hbuilds⟩

/-- The requests that are sent, or about to be sent, were built by their senders. -/
structure Built (w : World n C D) : Prop where
  threads : ∀ p peer args pc, .sendAppendEntries peer args pc ∈ (w.nodes p).threads →
    (w.nodes p).WillSend (w.nodes p).currentTerm
      (BuiltBy (D := D) p (w.nodes p).commitIndex) args pc
  calls : ∀ c ∈ w.calls, ∀ args, c.request = .appendEntries args →
    ∃ commitIndex, BuiltBy (D := D) c.src commitIndex args

/-- A request that a step is about to send. -/
theorem Built.of_spawns (hb : w.Built) (hcap : w.CommitsWithinLog a) {peer : Fin n}
    {args : SenderArgs n} {pc : AppendPc C}
    (h : (w.nodes p).Spawns p w.calls eff a (.sendAppendEntries peer args pc)) :
    (w.nodes p).WillSend (w.nodes p).currentTerm
      (BuiltBy (D := D) p (w.nodes p).commitIndex) args pc := by
  have hold {k : ℕ} {peer : Fin n} {args : SenderArgs n} {pc : AppendPc C}
      (hk : (w.nodes p).threads[k]? = some (.sendAppendEntries peer args pc)) :=
    hb.threads p _ _ _ (List.mem_of_getElem? hk)
  have hnew {term prev commit : ℕ} {args : SenderArgs n}
      (ha : (w.nodes p).appendArgs p term prev commit = some args) :
      (w.nodes p).Frames args.entries :=
    Node.within_getLogs (Node.appendArgs_fields ha).2.2.2.2.2
  cases h with
  | append ht ha => exact .inr ⟨hnew ha, w.nodes p, hcap p, le_rfl, .append ha⟩
  | retry hk ht _ ha =>
    obtain ⟨first, -, hlater, hbuilds⟩ := ((hold hk).presents ht.1.le).shows
    exact .inr ⟨hnew ha, w.nodes p, hcap p, le_rfl, .retry hbuilds hlater ha⟩
  | check hk hl => exact ⟨(hold hk).presents hl.1.le, List.nil_prefix⟩
  | encode hk hlt => exact (hold hk).encode hlt
  | call hk i => exact .inr (hold hk).1
  | resend hk =>
    have hwait := hold hk
    exact hwait

/-- A request that a step sends. -/
theorem Built.of_sends (hb : w.Built) (hw : w.Plumbed) (hcap : w.CommitsWithinLog a)
    {c : Call n C D} {args : AppendEntriesArgs n C} (h : (w.nodes p).Sends p w.calls a c)
    (hargs : c.request = .appendEntries args) :
    ∃ commitIndex, BuiltBy (D := D) c.src commitIndex args := by
  cases h with
  | vote => cases hargs
  | revote hc hsrc =>
    subst hsrc
    exact hb.calls _ (List.mem_of_getElem? hc) args hargs
  | heartbeat hk hl =>
    cases hargs
    exact ⟨(w.nodes p).commitIndex, w.nodes p, hcap p, le_rfl, .of_getTermOfLog _ hl⟩
  | append hk hlt =>
    cases hargs
    exact ⟨_, (hb.threads p _ _ _ (List.mem_of_getElem? hk)).sends hlt⟩
  | snapshot => cases hargs

theorem Built.step (hb : w.Built) (hw : w.Plumbed) (hne : ∀ p, (w.nodes p).log ≠ [])
    (hok : w.BuildsSafely a) (h : w.step a = some w') : w'.Built := by
  obtain ⟨p, eff, heff, rfl⟩ := step_eq_some h
  have hl := effect_local heff
  refine ⟨fun q peer args pc hmem => ?_, fun c hmem args hargs => ?_⟩
  · rcases eq_or_ne q p with rfl | hother
    · rw [after_nodes_self] at hmem ⊢
      by_cases ha : a = .restart q
      · -- a restarted peer has no goroutines left
        subst ha
        cases hl with
        | restart h =>
          subst h
          simp [Node.restart, Node.make_threads] at hmem
      · have hterm : (w.nodes q).currentTerm ≤ eff.node.currentTerm :=
          ((local_saves hl).resolve_left ha).currentTerm_le
        have hcommit := (local_advances hl).le ha hok.raises (hok.commits q)
        have hbefore : (w.nodes q).WillSend (w.nodes q).currentTerm
            (BuiltBy (D := D) q (w.nodes q).commitIndex) args pc := by
          rcases local_moves hl _ hmem with hold | hspawn
          · exact hb.threads q peer args pc hold
          · exact hb.of_spawns hok.commits hspawn
        refine hbefore.spared hterm (fun r hr => hr.mono hcommit) fun hlive => ?_
        refine (local_stored hl).sparesBelow ha fun call received hresume hcopy => ?_
        obtain ⟨hh, hacc, -⟩ := hcopy
        -- a handler starts no goroutine, so that this one was there when the entries came
        subst hresume
        cases hl with
        | resume h =>
          rw [Node.resume_threads h] at hmem
          have hkeep := hok.windows call received hh hacc ⟨peer, args, pc, hmem, hlive⟩
          exact Node.copyLog_spares (hne q) hacc hkeep
    · rw [after_nodes_of_ne _ _ _ hother] at hmem ⊢
      exact hb.threads q peer args pc hmem
  · obtain ⟨i, hi⟩ := List.mem_iff_getElem?.mp hmem
    rcases callsAfter_cases hi with ⟨c₀, hc₀, rfl⟩ | ⟨-, hs⟩
    · exact hb.calls c₀ (List.mem_of_getElem? hc₀) args hargs
    · exact hb.of_sends hw hok.commits (local_sends hw hl hs) hargs

/-- **In a run whose commit indices lie within the logs**, every `AppendEntries` request was built
    by its sender in one of the ways of `Node.Builds`, as long as nothing that is still to be
    encoded is overwritten. -/
theorem Reachable.built (h : Reachable BuildsSafely w) : w.Built := by
  induction h using Reachable.induct with
  | refl room =>
    refine ⟨fun p peer args pc hmem => ?_, fun c hmem => ?_⟩
    · simp [init, Node.make_threads] at hmem
    · simp [init] at hmem
  | tail a hr hok hstep ih => exact ih.step (Reachable.plumbed hr) hr.log_ne_nil hok hstep

end World

namespace Node

/-- The commit index after an `AppendEntries` that succeeds. -/
theorem commitIndex_of_passes {nd : Node n C D} {args : AppendEntriesArgs n C} (me : Fin n)
    (call : ℕ) (h : nd.Passes args) :
    (nd.serveAppendEntries me call args).node.commitIndex ≤
      max nd.commitIndex args.leaderCommit := by
  have hsame : ((nd.hear args.term).copyLog args).commitIndex = nd.commitIndex := by
    rcases copyLog_eq (nd.hear args.term) args with hcopy | ⟨log, backing, hcopy⟩ <;> rw [hcopy]
    · exact commitIndex_hear
    · exact commitIndex_hear
  rw [(serveAppendEntries_of_passes me call h).1]
  show (((nd.hear args.term).copyLog args).followCommit args.leaderCommit).commitIndex ≤ _
  unfold followCommit
  split
  · split
    · exact le_max_right _ _
    · rename_i hge
      exact (not_lt.mp hge).trans (le_max_right _ _)
  · rw [hsame]
    exact le_max_left _ _

/-- **A follower commits only what it has from the sender.** Let the commit index of the sender lie
    within its log, and let the logs match.  When a request of the sender succeeds, the follower
    holds the sender's entry at every index by which its commit index has moved on. -/
theorem follower_commits_verified (me p : Fin n) (call : ℕ) (sender follower : Node n C D)
    (args : AppendEntriesArgs n C) (hcap : sender.commitIndex ≤ sender.getLogLength - 1)
    (hargs : Builds me sender args) (hm : follower.Matches sender) :
    let after := follower.serveAppendEntries p call args
    after.Answers true → ∀ i, follower.commitIndex < i → i ≤ after.node.commitIndex →
      follower.lastIncludedIndex < i →
      ∃ e, after.node.getLog i = some e ∧
        (sender.lastIncludedIndex < i → sender.getLog i = some e) := by
  intro after hans i hlow hi hbase
  have hpass := passes_of_answers hans
  obtain ⟨hslice, hend⟩ := hargs.reaches
  have hcommit : i ≤ args.leaderCommit := by
    have hmax := hi.trans (commitIndex_of_passes p call hpass)
    omega
  have hsent := hargs.leaderCommit_le
  -- the request has verified everything up to the end of the sender's log
  obtain ⟨c, hs⟩ := hpass.exists_splices
  have hlog := keepsLog_of_passes p call hpass
  have hfollows : after.node.Follows sender (args.prevLogIndex + args.entries.length) :=
    (hs.follows hpass.2 hslice.prev hslice.entries hm).congr hlog
  have hkept : after.node.lastIncludedIndex = follower.lastIncludedIndex := by
    obtain ⟨log, backing, hcopy⟩ := copyEntries_eq follower (args.prevLogIndex + 1) args.entries
    rw [hlog.1, hcopy]
  obtain ⟨e, he, hunique⟩ := hfollows i (hkept ▸ hbase) (by omega)
  refine ⟨e, he, fun hheld => ?_⟩
  obtain ⟨e', he'⟩ := exists_getLog hheld (by omega : i < sender.getLogLength)
  rw [he', hunique e' he']

end Node

/-- The follower has two entries that the leader does not have; it commits one index more, at which
    it has taken over the entry of the leader. -/
theorem follower_commits_verified_overwrites :
    let after := (leaderAndFollower false).serveAppendEntries 1 0 allEntries
    after.Answers true ∧ (leaderAndFollower false).commitIndex = 1 ∧ after.node.commitIndex = 2 ∧
      (leaderAndFollower false).getLog 2 = some ⟨2, some 8⟩ ∧
      ∃ e, after.node.getLog 2 = some e ∧
        ((leaderAndFollower true).lastIncludedIndex < 2 →
          (leaderAndFollower true).getLog 2 = some e) := by
  intro after
  have hans : after.Answers true := ⟨0, _, rfl, rfl⟩
  have hargs : (leaderAndFollower true).appendArgs 0 3 0 2 =
      some ⟨3, 0, ⟨0, 1, 3⟩, 0, 0, 2⟩ := rfl
  refine ⟨hans, rfl, rfl, rfl, ?_⟩
  exact Node.follower_commits_verified 0 1 0 (leaderAndFollower true) (leaderAndFollower false)
    allEntries (by decide) (.append hargs) (leaderAndFollower_matching false true) hans 2
    (by decide) (by decide) (by decide)

end MitDistributed.Raft
