import MitDistributed.Raft.Calls
import MitDistributed.Raft.Safety

namespace MitDistributed.Raft

open Transition

/-!
# Raft — reads of the log with an index from before

`applyLoop` fixes the next index to apply, and `tryIncrementCommitIndex` the end of its pass,
before they lock the log.  By the time they read it the log may have been compacted or cut, and
an accessor ends the process when the index is not in the log any more.

* `applyLoop_reads_log` — in runs that commit safely, the test of `applyLoop` covers every snapshot
  except the one that ends exactly at the next index to apply.  That one may come after the index
  has been read (`applyLoop_aborts`), or the index may be read while `InstallSnapshot` has replaced
  the log and not raised `lastApplied` yet (`applyLoop_aborts_between_writes`).
* `commitScan_reads_log` — a pass of `tryIncrementCommitIndex` survives compaction, but not a
  newer leader that cuts the log below the end of the pass; `commitScan_aborts` is that case.
-/

variable {n : ℕ} {C D : Type}

/-! ### How long a log is -/

namespace Node

variable {nd : Node n C D}

theorem getLogLength_install {args : InstallSnapshotArgs n D}
    (hlt : nd.lastIncludedIndex < args.lastIncludedIndex) :
    (nd.install args).getLogLength = max nd.getLogLength (args.lastIncludedIndex + 1) := by
  show args.lastIncludedIndex + (_ :: nd.log.drop _).length = _
  rw [List.length_cons, List.length_drop]
  unfold getLogLength
  omega

theorem getLogLength_compact {index : ℕ} (term : ℕ) (hlt : nd.lastIncludedIndex < index)
    (hle : index < nd.getLogLength) : (nd.compact index term).getLogLength = nd.getLogLength := by
  show index + (nd.log.drop _).length = _
  rw [List.length_drop]
  unfold getLogLength at hle ⊢
  omega

theorem Accepts.passes {args : AppendEntriesArgs n C} (h : nd.Accepts args) : nd.Passes args :=
  ⟨h.term, h.prevLogTerm⟩

end Node

namespace World

variable {w : World n C D} {p : Fin n} {eff : Effect n C D} {a : Action n C D}

/-- Restarts apart, a log gets shorter only where `AppendEntries` copies entries. -/
theorem getLogLength_of_stored (h : Stored w p eff a) (ha : a ≠ .restart p) :
    (w.nodes p).getLogLength ≤ eff.node.getLogLength ∨
      ∃ call args, a = .resume p ∧ (w.nodes p).held = some (.appendLog call args) ∧
        (w.nodes p).Passes args ∧
        eff.node.getLogLength = ((w.nodes p).copyLog args).getLogLength := by
  cases h with
  | leave hl =>
    left
    rw [Node.getLogLength, Node.getLogLength, hl.same.log, hl.same.lastIncludedIndex]
  | @copy call args hh hacc => exact .inr ⟨call, args, rfl, hh, hacc.passes, rfl⟩
  | @accept call args hh =>
    left
    obtain ⟨hlog, hlii, -, -⟩ := Node.appendCommit_fields p (w.nodes p) call args
    rw [Node.getLogLength, Node.getLogLength, hlog, hlii]
  | install hh hi => exact .inl ((le_max_left _ _).trans (Node.getLogLength_install hi.2.1).ge)
  | installSave | snapshotSave => exact .inl le_rfl
  | @compact index term _ hfree hlt hle hle' ht =>
    exact .inl (Node.getLogLength_compact term hlt (Node.getTermOfLog_lt ht)).ge
  | @start command =>
    left
    exact (Nat.le_succ _).trans (Node.getLogLength_appendCommand p (w.nodes p) command).ge
  | restart => exact absurd rfl ha

end World

/-! ### `applyLoop` -/

/-- The index that `applyLoop` is about to read. -/
def ApplyPc.next : ApplyPc → Option ℕ
  | .take nextApplied => some nextApplied
  | _ => none

/-- `InstallSnapshot` has seen to it that `commitIndex` is not below its snapshot. -/
def InstallPc.pastCommit : InstallPc → Bool
  | .testApplied | .setApplied => true
  | .testCommit | .setCommit => false

/-- The handler has replaced the log, and is not through with the two indices yet. -/
def Held.raising : Held n C D → Bool
  | .installIndex .. => true
  | _ => false

namespace Node

/-- A handler has taken over a snapshot, and `lastApplied` may still be below it. -/
def raising (nd : Node n C D) : Bool := nd.held.any Held.raising

/-- If the handler under way is about to take over a snapshot, the snapshot does not end at the
    index that `applyLoop` is about to read. -/
def InstallsElsewhere (nd : Node n C D) : Prop :=
  match nd.held with
  | some (.installLog _ args) => nd.installs args → nd.applying.next ≠ some args.lastIncludedIndex
  | _ => True

instance (nd : Node n C D) : Decidable nd.InstallsElsewhere :=
  decidableInstallLog
    (fun args => nd.installs args → nd.applying.next ≠ some args.lastIncludedIndex) nd.held

/-- `applyLoop` does not read `lastApplied` while a handler is raising it, and does not store less
    than a handler has raised it to since `applyLoop` loaded it. -/
def AppliesSettled (nd : Node n C D) : Prop :=
  match nd.applying with
  | .needUpdate => nd.raising = false
  | .store lastApplied => nd.lastApplied ≤ lastApplied
  | _ => True

instance (nd : Node n C D) : Decidable nd.AppliesSettled := by
  unfold AppliesSettled
  split <;> infer_instance

/-- A condition on a handler that is about to copy entries. -/
def decidableAppendLog (P : AppendEntriesArgs n C → Prop) [DecidablePred P] :
    (held : Option (Held n C D)) →
      Decidable (match held with | some (.appendLog _ args) => P args | _ => True)
  | some (.appendLog _ args) => inferInstanceAs (Decidable (P args))
  | none | some (.requestVote ..) | some (.appendCommit ..) | some (.installLog ..)
  | some (.installIndex ..) | some (.installSave ..) | some (.installSend ..)
  | some (.snapshotSave _) => instDecidableTrue

end Node

/-- Where the index of `applyLoop` lies: above the snapshot and what is applied, or, if a snapshot
    has come since it was read, below that snapshot. -/
def ApplyPc.InRange (lastIncludedIndex lastApplied commitIndex : ℕ) : ApplyPc → Prop
  | .needUpdate => lastApplied ≤ commitIndex
  | .take nextApplied =>
    nextApplied ≤ commitIndex + 1 ∧
      (lastIncludedIndex < nextApplied ∧ lastApplied < nextApplied ∨
        nextApplied < lastIncludedIndex)
  | _ => True

/-- The commit index may grow. -/
theorem ApplyPc.InRange.mono {pc : ApplyPc} {lii applied commit commit' : ℕ}
    (h : pc.InRange lii applied commit) (hle : commit ≤ commit') :
    pc.InRange lii applied commit' := by
  cases pc with
  | needUpdate => exact Nat.le_trans h hle
  | take nextApplied => exact ⟨h.1.trans (Nat.succ_le_succ hle), h.2⟩
  | _ => trivial

namespace Node

/-- The index of `applyLoop`, the two indices and the snapshot of the peer.  Between the moment when
    a snapshot is taken over and the write of `lastApplied`, nothing is known of `lastApplied`. -/
structure Ranged (nd : Node n C D) : Prop where
  lastApplied : nd.raising = false → nd.lastIncludedIndex ≤ nd.lastApplied
  installing : ∀ call args pc, nd.held = some (.installIndex call args pc) →
    args.lastIncludedIndex = nd.lastIncludedIndex ∧
      (pc.pastCommit = true → args.lastIncludedIndex ≤ nd.commitIndex)
  applying : nd.applying.InRange nd.lastIncludedIndex nd.lastApplied nd.commitIndex

variable {me : Fin n} {nd nd' : Node n C D} {eff : Effect n C D}

/-- A step that leaves all but the commit index alone. -/
theorem Ranged.congr (h : nd.Ranged) (hh : nd'.held = nd.held) (ha : nd'.applying = nd.applying)
    (hl : nd'.lastApplied = nd.lastApplied) (hi : nd'.lastIncludedIndex = nd.lastIncludedIndex)
    (hle : nd.commitIndex ≤ nd'.commitIndex) : nd'.Ranged where
  lastApplied hr := by
    rw [raising, hh] at hr
    rw [hi, hl]
    exact h.lastApplied hr
  installing call args pc hheld := by
    obtain ⟨heq, hcommit⟩ := h.installing call args pc (hh ▸ hheld)
    exact ⟨heq.trans hi.symm, fun hpc => (hcommit hpc).trans hle⟩
  applying := by
    rw [ha, hi, hl]
    exact h.applying.mono hle

theorem Ranged.still (h : nd.Ranged) (hs : nd.Still nd') (hh : nd'.held = nd.held)
    (hle : nd.commitIndex ≤ nd'.commitIndex) : nd'.Ranged :=
  h.congr hh hs.applying hs.lastApplied hs.lastIncludedIndex hle

/-- A step from where no handler is raising the indices to where none is. -/
theorem Ranged.settled (h : nd.Ranged) (hr : nd.raising = false) (hr' : nd'.raising = false)
    (ha : nd'.applying = nd.applying) (hl : nd'.lastApplied = nd.lastApplied)
    (hi : nd'.lastIncludedIndex = nd.lastIncludedIndex) (hle : nd.commitIndex ≤ nd'.commitIndex) :
    nd'.Ranged where
  lastApplied _ := by
    rw [hi, hl]
    exact h.lastApplied hr
  installing call args pc hheld := by
    rw [raising, hheld] at hr'
    cases hr'
  applying := by
    rw [ha, hi, hl]
    exact h.applying.mono hle

theorem raising_of_held {held : Held n C D} (hh : nd.held = some held) :
    nd.raising = held.raising := by
  rw [raising, hh]
  rfl

theorem raising_of_none (hh : nd.held = none) : nd.raising = false := by
  rw [raising, hh]
  rfl

/-! #### The steps of `applyLoop` -/

theorem applyStep_ranged (hr : nd.Ranged) (hg : nd.AppliesSettled)
    (h : nd.applyStep me = some eff) : eff.node.Ranged := by
  obtain ⟨hlii, hinst, happ⟩ := hr
  unfold AppliesSettled at hg
  cases applyStep_cases h with
  | wake _ _ hc => exact ⟨hlii, hinst, Nat.le_of_lt hc⟩
  | next hpc =>
    rw [hpc] at happ hg
    have hle : nd.lastIncludedIndex ≤ nd.lastApplied := hlii hg
    exact ⟨hlii, hinst, Nat.succ_le_succ happ, .inl ⟨Nat.lt_succ_of_le hle, Nat.lt_succ_self _⟩⟩
  | store hpc =>
    rw [hpc] at hg
    exact ⟨fun hr => (hlii hr).trans hg, hinst, trivial⟩
  | exit => exact ⟨hlii, hinst, happ⟩
  | idle | skip | take | send | load => exact ⟨hlii, hinst, trivial⟩

/-! #### `InstallSnapshot` and `Snapshot` -/

variable {call : ℕ} {args : InstallSnapshotArgs n D}

/-- Taking over a snapshot: it ends beyond what is applied, and not at the index of `applyLoop`. -/
theorem install_ranged (hr : nd.Ranged) (hi : nd.installs args)
    (hnext : nd.applying.next ≠ some args.lastIncludedIndex) :
    { nd.install args with held := some (.installIndex call args .testCommit) }.Ranged where
  lastApplied hraise := by cases hraise
  installing _ _ _ hheld := by
    cases hheld
    exact ⟨rfl, nofun⟩
  applying := by
    have hpc := hr.applying
    obtain ⟨-, -, hlt⟩ := hi
    show nd.applying.InRange args.lastIncludedIndex nd.lastApplied nd.commitIndex
    cases happ : nd.applying with
    | needUpdate => rw [happ] at hpc; exact hpc
    | take nextApplied =>
      rw [happ] at hpc hnext
      obtain ⟨hle, hcase⟩ := hpc
      have hne : nextApplied ≠ args.lastIncludedIndex := fun heq => hnext (congrArg some heq)
      exact ⟨hle, by omega⟩
    | _ => trivial

/-- The tests before the writes of the two indices. -/
theorem installTest_ranged (hr : nd.Ranged) {pc : InstallPc} {held : Held n C D}
    (hh : nd.held = some (.installIndex call args pc)) (ht : nd.InstallTest call args pc held) :
    { nd with held := some held }.Ranged := by
  obtain ⟨heq, hcommit⟩ := hr.installing call args pc hh
  cases ht with
  | raiseCommit =>
    refine ⟨nofun, ?_, hr.applying⟩
    rintro _ _ _ ⟨⟩
    exact ⟨heq, nofun⟩
  | keepCommit hle =>
    refine ⟨nofun, ?_, hr.applying⟩
    rintro _ _ _ ⟨⟩
    exact ⟨heq, fun _ => hle⟩
  | raiseApplied =>
    refine ⟨nofun, ?_, hr.applying⟩
    rintro _ _ _ ⟨⟩
    exact ⟨heq, fun _ => hcommit rfl⟩
  | keepApplied hle => exact ⟨fun _ => heq ▸ hle, nofun, hr.applying⟩

/-- The write of `commitIndex`, which does not lower it. -/
theorem setCommit_ranged (hr : nd.Ranged) (hh : nd.held = some (.installIndex call args .setCommit))
    (hle : nd.commitIndex ≤ args.lastIncludedIndex) :
    { nd with
      commitIndex := args.lastIncludedIndex
      held := some (.installIndex call args .testApplied) }.Ranged where
  lastApplied hraise := by cases hraise
  installing _ _ _ hheld := by
    cases hheld
    exact ⟨(hr.installing call args _ hh).1, fun _ => le_rfl⟩
  applying := hr.applying.mono hle

/-- The write of `lastApplied`, to the end of the snapshot, which is committed by now. -/
theorem setApplied_ranged (hr : nd.Ranged)
    (hh : nd.held = some (.installIndex call args .setApplied)) :
    { nd with
      lastApplied := args.lastIncludedIndex
      held := some (.installSave call args) }.Ranged := by
  obtain ⟨heq, hcommit⟩ := hr.installing call args _ hh
  have hpc := hr.applying
  refine ⟨fun _ => heq.ge, nofun, ?_⟩
  show nd.applying.InRange nd.lastIncludedIndex args.lastIncludedIndex nd.commitIndex
  cases happ : nd.applying with
  | needUpdate => exact hcommit rfl
  | take nextApplied =>
    rw [happ] at hpc
    obtain ⟨hle, hcase⟩ := hpc
    exact ⟨hle, by omega⟩
  | _ => trivial

/-- Compacting the log, at most up to what is applied. -/
theorem compact_ranged (hr : nd.Ranged) {index : ℕ} (term : ℕ) (snapshot : Option D)
    (hlt : nd.lastIncludedIndex < index) (hle : index ≤ nd.lastApplied) :
    { nd.compact index term with held := some (.snapshotSave snapshot) }.Ranged := by
  have hpc := hr.applying
  refine ⟨fun _ => hle, nofun, ?_⟩
  show nd.applying.InRange index nd.lastApplied nd.commitIndex
  cases happ : nd.applying with
  | take nextApplied =>
    rw [happ] at hpc
    obtain ⟨hcommit, hcase⟩ := hpc
    exact ⟨hcommit, by omega⟩
  | needUpdate => rw [happ] at hpc; exact hpc
  | _ => trivial

theorem make_ranged (ps : Persister n C D) (room : ℕ → ℕ) : (make ps room).Ranged where
  lastApplied _ := by
    unfold make readPersist
    split
    · exact le_rfl
    · simp only [startFromSnapshot, blank]
      split <;> omega
  installing call args pc hheld := by
    rw [make_held] at hheld
    cases hheld
  applying := by
    rw [make_applying]
    trivial

theorem handle_ranged (hr : nd.Ranged) {request : Request n C D}
    (h : nd.handle call request = some eff) (hle : nd.commitIndex ≤ eff.node.commitIndex) :
    eff.node.Ranged := by
  have hs := (handle_sameApply h).still
  have hstart (hh : nd.held = none) (hr' : eff.node.raising = false) : eff.node.Ranged :=
    hr.settled (raising_of_none hh) hr' hs.applying hs.lastApplied hs.lastIncludedIndex hle
  cases handle_cases h with
  | requestVote args hfree => exact hstart (held_of_raftStateFree hfree) rfl
  | appendEntries args hfree | installSnapshot args hfree =>
    exact hstart (held_of_logFree hfree) rfl

theorem resume_ranged (hr : nd.Ranged) (hg : nd.InstallsElsewhere) (h : nd.resume me = some eff)
    (hle : nd.commitIndex ≤ eff.node.commitIndex) : eff.node.Ranged := by
  cases resume_cases h with
  | voteExit | appendExit => exact hr.congr rfl rfl rfl rfl le_rfl
  | install hh hi =>
    unfold InstallsElsewhere at hg
    rw [hh] at hg
    exact install_ranged hr hi (hg hi)
  | installTest hh ht => exact installTest_ranged hr hh ht
  | setCommit hh => exact setCommit_ranged hr hh hle
  | setApplied hh => exact setApplied_ranged hr hh
  | @copyLog _ args hh =>
    have hs := Still.copyLog nd args
    exact hr.settled (raising_of_held hh) rfl hs.applying hs.lastApplied hs.lastIncludedIndex hle
  | @appendCommit _ args hh =>
    have hs := Still.followCommit nd args.leaderCommit
    exact hr.settled (raising_of_held hh) rfl hs.applying hs.lastApplied hs.lastIncludedIndex hle
  | refuseVote hh | grantVote hh | refuseAppend hh | ignoreSnapshot hh | installSave hh
  | installSend hh | snapshotSave hh =>
    exact hr.settled (raising_of_held hh) rfl rfl rfl rfl hle

theorem trySnapshot_ranged (hr : nd.Ranged) {index : ℕ} {snapshot : Option D}
    (h : nd.trySnapshot me index snapshot = some eff) : eff.node.Ranged := by
  cases trySnapshot_cases h with
  | ignore => exact hr
  | exit => exact hr.congr rfl rfl rfl rfl le_rfl
  | @compact term _ hlt _ hle' => exact compact_ranged hr term snapshot hlt hle'

end Node

namespace World

/-- `InstallSnapshot` and `applyLoop` keep out of each other's way. -/
def KeepsApart (w : World n C D) : Action n C D → Prop
  | .resume p => (w.nodes p).InstallsElsewhere
  | .apply p => (w.nodes p).AppliesSettled
  | _ => True

instance (w : World n C D) : (a : Action n C D) → Decidable (w.KeepsApart a)
  | .resume p => inferInstanceAs (Decidable (w.nodes p).InstallsElsewhere)
  | .apply p => inferInstanceAs (Decidable (w.nodes p).AppliesSettled)
  | .main _ | .thread .. | .reply .. | .deliver _ | .start .. | .snapshot .. |
    .restart _ => isTrue trivial

/-- The conditions on a step under which `applyLoop` finds its entries. -/
def AppliesInLog (w : World n C D) (a : Action n C D) : Prop :=
  w.CommitsSafely a ∧ w.RaisesCommit a ∧ w.KeepsApart a

instance (w : World n C D) (a : Action n C D) : Decidable (w.AppliesInLog a) :=
  inferInstanceAs (Decidable (_ ∧ _ ∧ _))

variable {w w' : World n C D} {p : Fin n} {eff : Effect n C D} {a : Action n C D}

/-- In a run that commits safely the commit index of a peer lies in its log. -/
theorem Reachable.commitIndex_lt (h : Reachable CommitsSafely w) (p : Fin n) :
    (w.nodes p).commitIndex < (w.nodes p).getLogLength := by
  obtain ⟨a, ha, hc⟩ := h.commits
  rw [(ha.log p).getLogLength_eq]
  exact Nat.lt_succ_of_le (hc.known p).1

theorem ranged_of_local (h : Local w p eff a) (hg : w.AppliesInLog a) (hr : (w.nodes p).Ranged)
    (hcap : (w.nodes p).commitIndex < (w.nodes p).getLogLength) : eff.node.Ranged := by
  obtain ⟨-, hraise, hapart⟩ := hg
  have hle (ha : a ≠ .restart p) : (w.nodes p).commitIndex ≤ eff.node.commitIndex :=
    (local_advances h).le ha hraise (Nat.le_sub_one_of_lt hcap)
  cases h with
  | main h => exact hr.still (Node.mainStep_sameApply h).still (Node.mainStep_held h) (hle nofun)
  | thread k h =>
    exact hr.still (Node.threadStep_sameApply h).still (Node.threadStep_held h) (hle nofun)
  | reply k call ok request _ h =>
    exact hr.still (Node.threadReply_sameApply h).still (Node.threadReply_held h) (hle nofun)
  | apply h => exact Node.applyStep_ranged hr hapart h
  | deliver call request _ _ h => exact Node.handle_ranged hr h (hle nofun)
  | resume h => exact Node.resume_ranged hr hapart h (hle nofun)
  | start command h =>
    exact hr.still (Node.tryStart_sameApply h).still (Node.tryStart_held h) (hle nofun)
  | snapshot index snapshot h => exact Node.trySnapshot_ranged hr h
  | restart h => subst h; exact Node.make_ranged _ _

/-- A step of `applyLoop`, which only a process that has not ended takes. -/
theorem step_apply (h : w.step (.apply p) = some w') :
    (w.nodes p).exited = false ∧
      ∃ eff, (w.nodes p).applyStep p = some eff ∧ w' = w.after (.apply p) p eff := by
  obtain ⟨q, eff, heff, rfl⟩ := step_eq_some h
  obtain ⟨hlive, hstep, rfl⟩ := effect_of_live heff
  exact ⟨hlive, eff, hstep, rfl⟩

/-- **Run.** -/
theorem Reachable.ranged (h : Reachable AppliesInLog w) (p : Fin n) : (w.nodes p).Ranged := by
  induction h using Reachable.induct generalizing p with
  | refl room => exact Node.make_ranged _ _
  | @tail v v' a hr hg hstep ih =>
    obtain ⟨q, eff, heff, rfl⟩ := step_eq_some hstep
    have hcap := (hr.mono fun _ _ h => h.1).commitIndex_lt q
    exact forall_nodes_after (Q := fun _ nd => nd.Ranged)
      (ranged_of_local (effect_local heff) hg (ih q) hcap) (fun q _ => ih q) p

end World

namespace Node

variable {me : Fin n} {nd : Node n C D} {eff : Effect n C D}

theorem getLogs_ne_none {first last : ℕ} (hlow : nd.lastIncludedIndex < first) (hle : first ≤ last)
    (hlast : last ≤ nd.getLogLength) : nd.getLogs first last ≠ none := by
  unfold getLogs
  rw [if_neg (not_lt.mpr hlast), if_neg (not_le.mpr hlow), if_neg (not_lt.mpr hle)]
  exact Option.some_ne_none _

/-- The calls of `getLogs` in `applyLoop` are the only ones that can end the process. -/
theorem applyStep_exited (hlive : nd.exited = false)
    (hlogs : ∀ nextApplied, nd.applying = .take nextApplied →
      ¬ nd.lastIncludedIndex > nextApplied → nd.getLogs nextApplied (nd.commitIndex + 1) ≠ none)
    (h : nd.applyStep me = some eff) : eff.node.exited = false := by
  cases applyStep_cases h with
  | exit hpc _ hskip hnone => exact absurd hnone (hlogs _ hpc hskip)
  | _ => exact hlive

end Node

/-- **`applyLoop` reads within the log.** In every run that keeps to `AppliesInLog`: an index that
    passes the test of `applyLoop` lies above the snapshot and not beyond the commit index, which
    lies in the log; and no step of `applyLoop` ends the process. -/
theorem applyLoop_reads_log {w : World n C D} (h : World.Reachable World.AppliesInLog w)
    (p : Fin n) :
    (∀ nextApplied, (w.nodes p).applying = .take nextApplied →
      ¬ (w.nodes p).lastIncludedIndex > nextApplied →
      (w.nodes p).lastIncludedIndex < nextApplied ∧
        nextApplied ≤ (w.nodes p).commitIndex + 1 ∧
        (w.nodes p).commitIndex + 1 ≤ (w.nodes p).getLogLength) ∧
    ∀ w', w.step (.apply p) = some w' → (w'.nodes p).exited = false := by
  have happ := (h.ranged p).applying
  have hcap := (h.mono fun _ _ h => h.1).commitIndex_lt p
  have hbounds : ∀ nextApplied, (w.nodes p).applying = .take nextApplied →
      ¬ (w.nodes p).lastIncludedIndex > nextApplied →
      (w.nodes p).lastIncludedIndex < nextApplied ∧
        nextApplied ≤ (w.nodes p).commitIndex + 1 ∧
        (w.nodes p).commitIndex + 1 ≤ (w.nodes p).getLogLength := by
    intro nextApplied hpc hskip
    rw [hpc] at happ
    obtain ⟨hle, hcase⟩ := happ
    exact ⟨by omega, hle, hcap⟩
  refine ⟨hbounds, fun w' hstep => ?_⟩
  obtain ⟨hlive, eff, heff, rfl⟩ := World.step_apply hstep
  rw [World.after_nodes_self]
  refine Node.applyStep_exited hlive (fun nextApplied hpc hskip => ?_) heff
  obtain ⟨hlow, hle, hlast⟩ := hbounds nextApplied hpc hskip
  exact Node.getLogs_ne_none hlow hle hlast

/-- The leader applies its command and compacts the log there.  It has not seen yet that peer 2
    holds the command, and sends the snapshot to it; peer 2 replaces its log. -/
def snapshotAtNext : List (Action 3 ℕ ℕ) :=
  [.apply 0, .apply 0, .apply 0, .apply 0, .apply 0, .apply 0, .thread 0 3, .snapshot 0 1 (some 9),
    .resume 0, .start 0 (some 8), .thread 0 4, .thread 0 4, .thread 0 4, .thread 0 6, .deliver 6,
    .resume 2]

/-- Peer 2 goes through the tests and the writes of the two indices, saves the snapshot and
    announces it. -/
def finishInstall : List (Action 3 ℕ ℕ) := List.replicate 5 (.resume 2)

/-- Peer 2 takes over that snapshot before it looks for something to apply, and aborts nowhere;
    the leader applies its command. -/
theorem applyLoop_reads_log_snapshotAtNext :
    ∃ w : World 3 ℕ ℕ, World.Reachable World.AppliesInLog w ∧
      (w.nodes 0).lastApplied = 1 ∧ (w.nodes 2).lastIncludedIndex = 1 ∧
      ∀ p w', w.step (.apply p) = some w' → (w'.nodes p).exited = false := by
  obtain ⟨w, hr, h0, h2⟩ := World.Reachable.exists_of_execOk World.AppliesInLog
    (commitAtPeer2 ++ snapshotAtNext ++ finishInstall)
    (fun w => (w.nodes 0).lastApplied = 1 ∧ (w.nodes 2).lastIncludedIndex = 1) (by decide +kernel)
  exact ⟨w, hr, h0, h2, fun p => (applyLoop_reads_log hr p).2⟩

/-- If peer 2 has decided to apply the command before, the snapshot that ends at the command
    passes the test of `applyLoop` and not the one of `getLogs`. -/
theorem applyLoop_aborts :
    ∃ w : World 3 ℕ ℕ, World.Reachable (fun _ a => ∀ p, a ≠ .restart p) w ∧
      (w.nodes 2).applying = .take 1 ∧ ¬ (w.nodes 2).lastIncludedIndex > 1 ∧
      ¬ (w.nodes 2).lastIncludedIndex < 1 ∧
      (w.step (.apply 2)).any fun w' => (w'.nodes 2).exited := by
  exact World.Reachable.exists_of_execOk (fun _ a => ∀ p, a ≠ .restart p)
    (commitAtPeer2 ++ [.apply 2, .apply 2] ++ snapshotAtNext ++ finishInstall) _ (by decide +kernel)

/-- If it reads `lastApplied` after the log has been replaced and before `lastApplied` is raised, it
    comes to the same end, although nothing had been read when the snapshot was taken over. -/
theorem applyLoop_aborts_between_writes :
    ∃ w : World 3 ℕ ℕ, World.Reachable (fun w a => w.CommitsSafely a ∧ w.RaisesCommit a ∧
        ∀ p, a = .resume p → (w.nodes p).InstallsElsewhere) w ∧
      (w.nodes 2).applying = .take 1 ∧ (w.nodes 2).lastIncludedIndex = 1 ∧
      (w.step (.apply 2)).any fun w' => (w'.nodes 2).exited := by
  exact World.Reachable.exists_of_execOk
    (fun w a => w.CommitsSafely a ∧ w.RaisesCommit a ∧ ∀ p, a = .resume p → (w.nodes
      p).InstallsElsewhere)
    (commitAtPeer2 ++ [.apply 2] ++ snapshotAtNext ++ [.apply 2] ++ finishInstall) _
    (by decide +kernel)

/-! ### `tryIncrementCommitIndex` -/

/-- The log length that a pass counts on: its end, as long as there are indices left to look
    at. -/
def ScanPc.needs : ScanPc → ℕ
  | .top => 0
  | .scan _ thisLogLength i => if i < thisLogLength then thisLogLength else 0
  | .count _ thisLogLength i => if i + 1 < thisLogLength then thisLogLength else 0
  | .commit _ thisLogLength i _ => if i + 1 < thisLogLength then thisLogLength else 0
  | .write _ thisLogLength i => if i + 1 < thisLogLength then thisLogLength else 0

/-- The log length that a goroutine counts on. -/
def Thread.needs : Thread n C D → ℕ
  | .tryIncrementCommitIndex pc => pc.needs
  | _ => 0

namespace Node

/-- If the handler under way is about to copy entries, the log stays as long as the passes of
    `tryIncrementCommitIndex` count on. -/
def SparesPasses (nd : Node n C D) : Prop :=
  match nd.held with
  | some (.appendLog _ args) =>
    nd.Passes args → ∀ th ∈ nd.threads, th.needs ≤ (nd.copyLog args).getLogLength
  | _ => True

instance (nd : Node n C D) : Decidable nd.SparesPasses :=
  decidableAppendLog (fun args => nd.Passes args →
    ∀ th ∈ nd.threads, th.needs ≤ (nd.copyLog args).getLogLength) nd.held

variable {me : Fin n} {nd : Node n C D} {eff : Effect n C D}

/-- A pass counts on the log as it is when the pass starts, and from then on on nothing more. -/
theorem ScanCase.needs_le {pc pc' : ScanPc} (h : nd.ScanCase pc pc')
    (hle : pc.needs ≤ nd.getLogLength) : pc'.needs ≤ nd.getLogLength := by
  have hpass {m j : ℕ} {p : Prop} [Decidable p] (hle : m ≤ j) : (if p then m else 0) ≤ j := by
    split
    · exact hle
    · exact Nat.zero_le j
  cases h with
  | start => exact hpass le_rfl
  | skip hlt | found hlt | next hlt =>
    -- the pass still has an index to look at
    rw [ScanPc.needs, if_pos hlt] at hle
    exact hpass hle
  | again => exact Nat.zero_le _
  | count | commit | pass => exact hle

/-- The call of `getTermOfLog` is the only one in a pass that can end the process. -/
theorem threadStep_exited {fresh k thisTerm thisLogLength i : ℕ} (hlive : nd.exited = false)
    (hk : nd.threads[k]? = some (.tryIncrementCommitIndex (.scan thisTerm thisLogLength i)))
    (hterm : i < thisLogLength → ¬ i ≤ nd.lastIncludedIndex → nd.getTermOfLog i ≠ none)
    (h : nd.threadStep me fresh k = some eff) : eff.node.exited = false := by
  cases threadStep_cases h with
  | exit hk' hexit =>
    obtain rfl := Option.some.inj (hk.symm.trans hk')
    cases hexit with
    | scan hlt _ hlii hnone => exact absurd hnone (hterm hlt hlii)
  | _ => exact hlive

end Node

namespace World

/-- The condition on a step under which a pass finds its entries. -/
def ScansInLog (w : World n C D) : Action n C D → Prop
  | .resume p => (w.nodes p).SparesPasses
  | _ => True

instance (w : World n C D) : (a : Action n C D) → Decidable (w.ScansInLog a)
  | .resume p => inferInstanceAs (Decidable (w.nodes p).SparesPasses)
  | .main _ | .thread .. | .reply .. | .apply _ | .deliver _ | .start .. | .snapshot .. |
    .restart _ => isTrue trivial

variable {w w' : World n C D} {p : Fin n} {eff : Effect n C D} {a : Action n C D}

/-- No goroutine counts on more than the log had before the step. -/
theorem needs_le_of_local (h : Local w p eff a)
    (hall : ∀ th ∈ (w.nodes p).threads, th.needs ≤ (w.nodes p).getLogLength) :
    ∀ th ∈ eff.node.threads, th.needs ≤ (w.nodes p).getLogLength := by
  intro th hth
  rcases local_moves h th hth with hold | hspawn
  · exact hall th hold
  · cases hspawn with
    | scan hk hs => exact hs.needs_le (hall _ (List.mem_of_getElem? hk))
    | write hk => have hle := hall _ (List.mem_of_getElem? hk); exact hle
    | _ => exact Nat.zero_le _

theorem needs_of_local (h : Local w p eff a) (hg : w.ScansInLog a)
    (hall : ∀ th ∈ (w.nodes p).threads, th.needs ≤ (w.nodes p).getLogLength) :
    ∀ th ∈ eff.node.threads, th.needs ≤ eff.node.getLogLength := by
  have hold := needs_le_of_local h hall
  by_cases ha : a = .restart p
  · subst ha
    cases h with
    | restart h => subst h; simp [Node.restart, Node.make_threads]
  rcases getLogLength_of_stored (local_stored h) ha with hle | ⟨call, args, rfl, hh, hpass, heq⟩
  · exact fun th hth => (hold th hth).trans hle
  · cases h with
    | resume h =>
      have hg : (w.nodes p).SparesPasses := hg
      unfold Node.SparesPasses at hg
      rw [hh] at hg
      rw [Node.resume_threads h, heq]
      exact hg hpass

/-- **Run.** -/
theorem Reachable.needs (h : Reachable ScansInLog w) (p : Fin n) :
    ∀ th ∈ (w.nodes p).threads, th.needs ≤ (w.nodes p).getLogLength := by
  induction h using Reachable.induct generalizing p with
  | refl room => simp [init, Node.make_threads]
  | tail a hr hg hstep ih =>
    obtain ⟨q, eff, heff, rfl⟩ := step_eq_some hstep
    exact forall_nodes_after (Q := fun _ nd => ∀ th ∈ nd.threads, th.needs ≤ nd.getLogLength)
      (needs_of_local (effect_local heff) hg (ih q)) (fun q _ => ih q) p

/-- A step of a goroutine, which only a process that has not ended takes. -/
theorem step_thread {k : ℕ} (h : w.step (.thread p k) = some w') :
    (w.nodes p).exited = false ∧ ∃ eff, (w.nodes p).threadStep p w.calls.length k = some eff ∧
      w' = w.after (.thread p k) p eff := by
  obtain ⟨q, eff, heff, rfl⟩ := step_eq_some h
  obtain ⟨hlive, hstep, rfl⟩ := effect_of_live heff
  exact ⟨hlive, eff, hstep, rfl⟩

end World

/-- **A pass of `tryIncrementCommitIndex` reads within the log.** In every run that keeps to
    `ScansInLog`: an index whose term the pass asks for lies in the log, and no step of the pass
    ends the process. -/
theorem commitScan_reads_log {w : World n C D} (h : World.Reachable World.ScansInLog w) {p : Fin n}
    {k thisTerm thisLogLength i : ℕ} (hk : (w.nodes p).threads[k]? =
      some (.tryIncrementCommitIndex (.scan thisTerm thisLogLength i))) :
    (i < thisLogLength → ¬ i ≤ (w.nodes p).lastIncludedIndex →
      (w.nodes p).lastIncludedIndex ≤ i ∧ i < (w.nodes p).getLogLength) ∧
    ∀ w', w.step (.thread p k) = some w' → (w'.nodes p).exited = false := by
  have hbounds : i < thisLogLength → ¬ i ≤ (w.nodes p).lastIncludedIndex →
      (w.nodes p).lastIncludedIndex ≤ i ∧ i < (w.nodes p).getLogLength := by
    intro hi hskip
    have hneeds : ScanPc.needs (.scan thisTerm thisLogLength i) ≤ (w.nodes p).getLogLength :=
      h.needs p _ (List.mem_of_getElem? hk)
    rw [ScanPc.needs, if_pos hi] at hneeds
    exact ⟨by omega, by omega⟩
  refine ⟨hbounds, fun w' hstep => ?_⟩
  obtain ⟨hlive, eff, heff, rfl⟩ := World.step_thread hstep
  rw [World.after_nodes_self]
  refine Node.threadStep_exited hlive hk (fun hi hskip => ?_) heff
  obtain ⟨t, ht⟩ := Node.exists_getTermOfLog_iff.mpr (hbounds hi hskip)
  rw [ht]
  exact Option.some_ne_none t

/-- Leader 0 has two commands in its log that no other peer has. -/
def startTwice : List (Action 3 ℕ ℕ) :=
  electPeer0 ++ ([.main 0, .main 0, .main 0, .main 0, .start 0 (some 7), .start 0 (some 8)] :
    List (Action 3 ℕ ℕ))

/-- Peer 1 becomes leader of term 2 and replicates one command to peer 0, which cuts its log. -/
def cutAtPeer0 : List (Action 3 ℕ ℕ) :=
  [.main 1, .main 1, .main 1, .main 1, .thread 1 0, .thread 1 0, .deliver 3, .resume 2,
    .reply 1 0 3 true, .main 1, .main 1, .main 1, .main 1, .start 1 (some 9), .thread 1 2,
    .thread 1 2, .thread 1 2, .thread 1 2, .thread 1 2, .thread 1 2, .thread 1 2, .deliver 4,
    .resume 0, .resume 0]

/-- If peer 0 is between two passes, it goes on, and so does the new leader. -/
theorem commitScan_reads_log_cutAtPeer0 :
    ∃ w : World 3 ℕ ℕ, World.Reachable World.ScansInLog w ∧ (w.nodes 0).getLogLength = 2 ∧
      (w.nodes 1).threads[1]? = some (.tryIncrementCommitIndex (.scan 2 2 1)) ∧
      1 < (w.nodes 1).getLogLength ∧
      ∀ w', w.step (.thread 1 1) = some w' → (w'.nodes 1).exited = false := by
  obtain ⟨w, hr, h0, hlii, hk⟩ := World.Reachable.exists_of_execOk World.ScansInLog
    (startTwice ++ cutAtPeer0 ++ ([.thread 1 1] : List (Action 3 ℕ ℕ)))
    (fun w => (w.nodes 0).getLogLength = 2 ∧ (w.nodes 1).lastIncludedIndex = 0 ∧
      (w.nodes 1).threads[1]? = some (.tryIncrementCommitIndex (.scan 2 2 1))) (by decide +kernel)
  obtain ⟨hbounds, hgo⟩ := commitScan_reads_log hr hk
  exact ⟨w, hr, h0, hk, (hbounds (by decide) (by omega)).2, hgo⟩

/-- If peer 0 has begun a pass before, the pass comes to an index that is not there any more. -/
theorem commitScan_aborts :
    ∃ w : World 3 ℕ ℕ, World.Reachable (fun _ a => ∀ p, a ≠ .restart p) w ∧
      (w.nodes 0).threads[1]? = some (.tryIncrementCommitIndex (.scan 1 3 2)) ∧
      (w.nodes 0).lastIncludedIndex < 2 ∧ (w.nodes 0).getLogLength = 2 ∧
      (w.step (.thread 0 1)).any fun w' => (w'.nodes 0).exited := by
  exact World.Reachable.exists_of_execOk (fun _ a => ∀ p, a ≠ .restart p)
    (startTwice ++ ([.thread 0 1] : List (Action 3 ℕ ℕ)) ++ cutAtPeer0 ++ ([.thread 0 1] : List
      (Action 3 ℕ ℕ))) _ (by decide +kernel)

end MitDistributed.Raft
