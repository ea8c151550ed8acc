import MitDistributed.Raft.InstallMatching
import MitDistributed.Raft.Refinement

namespace MitDistributed.Raft

open Consensus Function Transition

/-!
# Raft — every step is a step of the abstract cluster

A step of the cluster that refines `a` is matched by a step of `a`, or by none
(`World.Refines.simulates`): adopting a term, standing for election, granting a vote, winning,
appending a command, and taking over entries or a snapshot are the steps of
`Consensus.Cluster`; everything else leaves it alone.

Three conditions on the steps are needed: a peer does not enter `doElection` as leader, does
not restart from erased state, and takes over a snapshot only if its own log fits
(`World.InstallsOwn`).
-/

variable {n : ℕ} {C D : Type}

namespace World

/-- A snapshot is taken over only by a peer whose log does not go beyond it, or holds an entry
    of its term at its index. -/
def InstallsOwn (w : World n C D) : Action n C D → Prop
  | .resume p => ∀ call args, (w.nodes p).held = some (.installLog call args) →
      (w.nodes p).KeepsOwn args
  | _ => True

instance (w : World n C D) (act : Action n C D) : Decidable (w.InstallsOwn act) :=
  match act with
  | .resume p =>
    match hh : (w.nodes p).held with
    | some (.installLog call args) =>
      decidable_of_iff ((w.nodes p).KeepsOwn args) (by simp [InstallsOwn, hh])
    | none | some (.requestVote ..) | some (.appendLog ..) | some (.appendCommit ..) |
      some (.installIndex ..) | some (.installSave ..) | some (.installSend ..) |
      some (.snapshotSave _) => isTrue (by simp [InstallsOwn, hh])
  | .main _ | .restart _ | .thread .. | .reply .. | .apply _ | .deliver _ | .start .. |
    .snapshot .. => isTrue trivial

/-- What the step of `p` does to `a`. -/
structure Simulates (w : World n C D) (p : Fin n) (eff : Effect n C D)
    (a a' : AbstractCluster n C) : Prop where
  step : a' = a ∨ a.Step LogEntry.term a'
  others : ∀ q, q ≠ p → a'.term q = a.term q ∧ a'.log q = a.log q ∧ ∀ t, a'.vote t q = a.vote t q
  term : a'.term p = eff.node.currentTerm
  votedFor : eff.node.votedFor = a'.vote eff.node.currentTerm p
  log : eff.node.Shows (a'.log p)
  voted : ∀ t v c, Voted eff.events t v c → a'.vote t v = some c
  leader : eff.node.state = .leaderState → a'.leader eff.node.currentTerm = some p
  elected : ∀ t c, a'.leader t = some c →
    a.leader t = some c ∨ (c = p ∧ eff.node.state = .leaderState)
  grown : ∀ t, a.leader t ≠ none → a'.leaderLog t = a.leaderLog t ∨
    ((w.nodes p).leaderInitDone = true ∧ t = (w.nodes p).currentTerm)
  ready : ∀ call args, eff.node.held = some (.appendCommit call args) → args.Ready a' p

variable {w : World n C D} {a : AbstractCluster n C} {p : Fin n} {eff : Effect n C D}
  {act : Action n C D}

/-! ### Terms and votes -/

/-- A step that keeps the term and the vote, and makes no leader. -/
structure Stays (w : World n C D) (p : Fin n) (eff : Effect n C D) : Prop where
  term : eff.node.currentTerm = (w.nodes p).currentTerm
  votedFor : eff.node.votedFor = (w.nodes p).votedFor
  role : eff.node.state = .leaderState → (w.nodes p).state = .leaderState
  unvoted : ∀ t v c, ¬ Voted eff.events t v c

namespace Refines

/-- In a term that a peer has not reached it has no vote. -/
theorem vote_none (h : w.Refines a) {t : ℕ} (ht : (w.nodes p).currentTerm < t) :
    a.vote t p = none := by
  cases hv : a.vote t p with
  | none => rfl
  | some c =>
    have hle := (h.sound.vote_term t p c hv).1
    rw [h.term p] at hle
    omega

/-- A step that changes neither term nor vote nor the log that the peer stands for. -/
theorem keep (h : w.Refines a) (hs : Stays w p eff) (hlog : eff.node.Shows (a.log p))
    (hready : ∀ call args, eff.node.held = some (.appendCommit call args) → args.Ready a p) :
    Simulates w p eff a a where
  step := .inl rfl
  others _ _ := ⟨rfl, rfl, fun _ => rfl⟩
  term := by rw [hs.term, h.term p]
  votedFor := by rw [hs.term, hs.votedFor, h.votedFor p]
  log := hlog
  voted t v c hv := absurd hv (hs.unvoted t v c)
  leader hl := by rw [hs.term]; exact h.leader p (hs.role hl)
  elected _ _ hl := .inl hl
  grown _ _ := .inl rfl
  ready := hready

/-- A step that adopts a higher term. -/
theorem observe (h : w.Refines a) (ht : (w.nodes p).currentTerm < eff.node.currentTerm)
    (hv : eff.node.votedFor = none) (hr : eff.node.state ≠ .leaderState)
    (hlog : eff.node.Shows (a.log p)) (he : ∀ t v c, ¬ Voted eff.events t v c)
    (hready : ∀ call args, eff.node.held = some (.appendCommit call args) →
      (w.nodes p).held = some (.appendCommit call args)) :
    Simulates w p eff a (a.observe p eff.node.currentTerm) := by
  have hle : a.term p ≤ eff.node.currentTerm := by rw [h.term p]; exact ht.le
  exact
    { step := .inr (.observe p _ hle)
      others := fun q hne => ⟨update_of_ne hne _ _, rfl, fun _ => rfl⟩
      term := update_self _ _ _
      votedFor := by rw [hv]; exact (h.vote_none ht).symm
      log := hlog
      voted := fun t v c hv => absurd hv (he t v c)
      leader := fun hl => absurd hl hr
      elected := fun _ _ hl => .inl hl
      grown := fun _ _ => .inl rfl
      ready := fun call args hh =>
        (h.ready p call args (hready call args hh)).grows (.observe a hle) rfl }

/-- A step that neither votes nor writes the log. -/
theorem calm (h : w.Refines a)
    (hb : (eff.node.currentTerm = (w.nodes p).currentTerm ∧
        eff.node.votedFor = (w.nodes p).votedFor) ∨
      ((w.nodes p).currentTerm < eff.node.currentTerm ∧ eff.node.votedFor = none))
    (hr : eff.node.state = .leaderState → (w.nodes p).state = .leaderState ∧
      eff.node.currentTerm = (w.nodes p).currentTerm)
    (he : ∀ t v c, ¬ Voted eff.events t v c) (hlog : (w.nodes p).SameStore eff.node)
    (hready : ∀ call args, eff.node.held = some (.appendCommit call args) →
      (w.nodes p).held = some (.appendCommit call args)) : ∃ a', Simulates w p eff a a' := by
  have hshows := (h.log p).congr hlog.lastIncludedIndex hlog.lastIncludedTerm hlog.log
  rcases hb with ⟨ht, hv⟩ | ⟨ht, hv⟩
  · exact ⟨_, h.keep ⟨ht, hv, fun hl => (hr hl).1, he⟩ hshows
      fun call args hh => h.ready p call args (hready call args hh)⟩
  · refine ⟨_, h.observe ht hv (fun hl => ?_) hshows he hready⟩
    exact absurd (hr hl).2 ht.ne'

/-- `doElection`, not as leader. -/
theorem stand (h : w.Refines a) (hs : (w.nodes p).state ≠ .leaderState) :
    ∃ a', Simulates w p ((w.nodes p).doElection p) a a' := by
  have hlt : a.term p < (w.nodes p).currentTerm + 1 := by rw [h.term p]; exact Nat.lt_succ_self _
  have hstep : a.Step LogEntry.term (a.cast p p ((w.nodes p).currentTerm + 1)) := .stand p _ hlt
  refine ⟨_, .inr hstep, ?_, update_self _ _ _, ?_, ?_, ?_, fun hl => absurd hl hs,
    fun _ _ hl => .inl hl, fun _ _ => .inl rfl, ?_⟩
  · intro q hne
    exact ⟨update_of_ne hne _ _, rfl, fun t => if_neg fun htq => hne htq.2⟩
  · exact (if_pos ⟨rfl, rfl⟩).symm
  · exact (h.log p).congr rfl rfl rfl
  · intro t v c hv
    simp only [Voted, Node.doElection, List.mem_singleton, Event.voted.injEq] at hv
    obtain ⟨rfl, rfl, rfl⟩ := hv
    exact if_pos ⟨rfl, rfl⟩
  · intro call args hh
    exact (h.ready p call args hh).grows (hstep.grows h.sound) rfl

variable {l : List (LogEntry C)} {call : ℕ}

variable (h : w.Refines a)

include h

/-- `isNewerThanMe` compares the own log with the one that the candidate has shown. -/
theorem upToDate {args : RequestVoteArgs n} (hi : args.lastLogIndex = l.length)
    (ht : args.lastLogTerm = lastTerm LogEntry.term l)
    (hn : (w.nodes p).isNewerThanMe args = some true) : UpToDate LogEntry.term (a.log p) l := by
  have hlen := (h.log p).getLogLength_eq
  unfold Node.isNewerThanMe at hn
  split at hn
  · -- an empty log
    have hnil : a.log p = [] := List.eq_nil_of_length_eq_zero (by omega)
    rw [hnil]
    rcases Nat.eq_zero_or_pos (lastTerm LogEntry.term l) with h0 | h0
    · exact .inr ⟨h0.symm, Nat.zero_le _⟩
    · exact .inl h0
  · have hlast : (w.nodes p).getTermOfLog ((w.nodes p).getLogLength - 1) =
        some (lastTerm LogEntry.term (a.log p)) := by
      rw [hlen, Nat.add_sub_cancel]
      exact (h.log p).getTermOfLog_eq (h.log p).le le_rfl
    rw [hlast, Option.map_some, Option.some.injEq, Bool.or_eq_true, Bool.and_eq_true,
      decide_eq_true_eq, decide_eq_true_eq, decide_eq_true_eq, ht, hi, hlen] at hn
    rcases hn with hgt | ⟨heq, hge⟩
    · exact .inl hgt
    · exact .inr ⟨heq.symm, by omega⟩

/-- A log that is up to date with a part of a log is up to date with the log. -/
theorem upToDate_of_isPrefix {q : Fin n} {x : List (LogEntry C)} (hup : UpToDate LogEntry.term x l)
    (hp : l <+: a.log q) :
    UpToDate LogEntry.term x (a.log q) := by
  have hmono : lastTerm LogEntry.term l ≤ lastTerm LogEntry.term (a.log q) := by
    unfold lastTerm
    rw [termAt_of_isPrefix hp le_rfl]
    exact (h.sound.log_rooted q).termAt_mono h.sound.leaderLog_dated hp.length_le le_rfl
  have hlen := hp.length_le
  rcases hup with hlt | ⟨heq, hle⟩
  · exact .inl (hlt.trans_le hmono)
  · rcases (heq.trans_le hmono).eq_or_lt with heq' | hlt
    · exact .inr ⟨heq', hle.trans hlen⟩
    · exact .inl hlt

/-- A vote for another peer. -/
theorem grant (hw : w.Plumbed) {args : RequestVoteArgs n}
    (hh : (w.nodes p).held = some (.requestVote call args))
    (ht : args.term ≥ (w.nodes p).currentTerm)
    (hv : (w.nodes p).votedFor = none ∨ (w.nodes p).votedFor = some args.candidateId)
    (hn : (w.nodes p).isNewerThanMe args = some true) :
    ∃ a', Simulates w p
      { node := { w.nodes p with votedFor := some args.candidateId }.persist.release
        answer := some (call, .requestVote { term := (w.nodes p).currentTerm, voteGranted := true })
        events := [.voted p args.candidateId args.term] } a a' := by
  obtain ⟨⟨c, hc, hdst, hr⟩, hle⟩ := hw.held p _ hh call (.requestVote args) rfl
  have hterm : (w.nodes p).currentTerm = args.term := le_antisymm ht hle
  have hok := hw.calls call c hc
  have hback := h.calls call c hc
  have hsender := hok.sender
  rw [hr] at hback hsender
  obtain ⟨l, hi, hlt, hst⟩ := hback
  have hsrc : c.src = args.candidateId := hsender.symm
  rw [hsrc] at hst
  have hne : p ≠ args.candidateId := by
    rw [← hsrc, ← hdst]
    exact hok.ne.symm
  have hstep : a.Step LogEntry.term (a.cast p args.candidateId args.term) := by
    refine .grant p _ _ hne ((h.term p).trans hterm) hst.1 ?_ fun hct hnone => ?_
    · rw [← hterm, ← h.votedFor p]; exact hv
    · exact h.upToDate_of_isPrefix (h.upToDate hi hlt hn) (hst.2 hct hnone)
  refine ⟨_, .inr hstep, ?_, ?_, ?_, ?_, ?_, ?_, fun _ _ hl => .inl hl, fun _ _ => .inl rfl, nofun⟩
  · intro q hne
    exact ⟨update_of_ne hne _ _, rfl, fun t => if_neg fun htq => hne htq.2⟩
  · exact (update_self _ _ _).trans hterm.symm
  · exact (if_pos ⟨hterm, rfl⟩).symm
  · exact (h.log p).congr rfl rfl rfl
  · intro t v c hv
    simp only [Voted, List.mem_singleton, Event.voted.injEq] at hv
    obtain ⟨rfl, rfl, rfl⟩ := hv
    exact if_pos ⟨rfl, rfl⟩
  · exact fun hl => h.leader p hl

/-- An election is won with the votes of a majority, the own one among them; the term has no
    leader yet. -/
theorem win {k thisTerm sum : ℕ} {waiting : List ℕ}
    (hk : (w.nodes p).threads[k]? = some (.sendRequestVoteToAll thisTerm [] sum waiting))
    (hs : (w.nodes p).state = .candidateState) (hterm : (w.nodes p).currentTerm = thisTerm)
    (hmaj : Elected (Voted w.trace thisTerm) p)
    (ht : eff.node.currentTerm = (w.nodes p).currentTerm)
    (hv : eff.node.votedFor = (w.nodes p).votedFor) (hl : eff.node.state = .leaderState)
    (hlog : (w.nodes p).SameStore eff.node) (hev : ∀ t v c, ¬ Voted eff.events t v c)
    (hready : ∀ call args, eff.node.held = some (.appendCommit call args) →
      (w.nodes p).held = some (.appendCommit call args)) : ∃ a', Simulates w p eff a a' := by
  obtain ⟨hself, hst⟩ := h.threads p _ (List.mem_of_getElem? hk)
  have hmaj' : Elected (fun v c => a.vote thisTerm v = some c) p :=
    hmaj.mono fun v hv => h.voted thisTerm v p hv
  have hap : a.term p = thisTerm := (h.term p).trans hterm
  have hnone : a.leader thisTerm = none := by
    cases hlead : a.leader thisTerm with
    | none => rfl
    | some d =>
      obtain rfl := h.sound.elected_unique hlead hmaj'
      exact absurd ((hst hap hlead).symm.trans hs) (by simp)
  have hstep : a.Step LogEntry.term (a.elect p thisTerm) := .elect p _ hap hnone hself hmaj'
  refine ⟨_, .inr hstep, fun _ _ => ⟨rfl, rfl, fun _ => rfl⟩, ?_, ?_, ?_, ?_, ?_, ?_, ?_, ?_⟩
  · exact (h.term p).trans ht.symm
  · rw [hv, ht, h.votedFor p]; rfl
  · exact (h.log p).congr hlog.lastIncludedIndex hlog.lastIncludedTerm hlog.log
  · exact fun t v c hv => absurd hv (hev t v c)
  · intro _
    rw [ht, hterm]
    exact update_self _ _ _
  · intro t c hc
    have hc' : update a.leader thisTerm (some p) t = some c := hc
    rcases eq_or_ne t thisTerm with rfl | hne
    · rw [update_self] at hc'
      exact .inr ⟨(Option.some.inj hc').symm, hl⟩
    · rw [update_of_ne hne] at hc'
      exact .inl hc'
  · intro t hled
    have hne : t ≠ thisTerm := by rintro rfl; exact hled hnone
    exact .inl (update_of_ne hne _ _)
  · intro call args hh
    exact (h.ready p call args (hready call args hh)).grows (hstep.grows h.sound) rfl

/-! ### Logs -/

/-- Taking over `l` from the leader of the current term. -/
theorem take {src : Fin n} {l' : List (LogEntry C)} (hi : a.Issued src (w.nodes p).currentTerm l)
    (ho : Overwrites (a.log p) l l') (hs : Stays w p eff) (hlog : eff.node.Shows l')
    (hready : ∀ call args, eff.node.held = some (.appendCommit call args) → args.Ready (a.accept p
      (w.nodes p).currentTerm l l') p) :
    Simulates w p eff a (a.accept p (w.nodes p).currentTerm l l') where
  step := .inr (.accept p _ l l' (h.term p) (by simp [hi.1]) hi.2 ho)
  others _ hne := ⟨rfl, update_of_ne hne _ _, fun _ => rfl⟩
  term := (h.term p).trans hs.term.symm
  votedFor := by rw [hs.votedFor, hs.term, h.votedFor p]; rfl
  log := by
    have hself : (a.accept p (w.nodes p).currentTerm l l').log p = l' := update_self _ _ _
    rw [hself]
    exact hlog
  voted t v c hv := absurd hv (hs.unvoted t v c)
  leader hl := by rw [hs.term]; exact h.leader p (hs.role hl)
  elected _ _ hl := .inl hl
  grown _ _ := .inl rfl
  ready := hready

/-- `AppendEntries` copies the entries of a request. -/
theorem copy (hw : w.Plumbed) {args : AppendEntriesArgs n C}
    (hc : Copies w p eff call args) : ∃ a', Simulates w p eff a a' := by
  obtain ⟨hh, hacc, rfl⟩ := hc
  obtain ⟨⟨c, hc, hdst, hr⟩, hle⟩ := hw.held p _ hh call (.appendEntries args) rfl
  have hterm : (w.nodes p).currentTerm = args.term := le_antisymm hacc.term hle
  have hback := h.calls call c hc
  have hsender := (hw.calls call c hc).sender
  rw [hr] at hback hsender
  obtain ⟨l, hcar, hroot, hb⟩ := hback
  have hsrc : c.src = args.leaderId := hsender.symm
  rw [hsrc] at hb
  -- the own log and the one of the request agree up to `prevLogIndex`
  have hshows := h.log p
  have hm : Matching LogEntry.term (a.log p) l := (h.sound.log_rooted p).matching hroot
  obtain ⟨hlii, hprev, hpt⟩ := hshows.of_getTermOfLog hacc.prevLogTerm
  have hpre : l.take args.prevLogIndex <+: a.log p :=
    hm.symm.take_isPrefix hcar.le hprev (hcar.term.symm.trans hpt.symm)
  have hempty (hnil : args.entries = []) : l <+: a.log p := by
    rw [hcar.entries] at hnil
    rwa [List.take_of_length_le (List.drop_eq_nil_iff.mp hnil)] at hpre
  have hnovote (t : ℕ) (v c : Fin n) : ¬ Voted ([] : List (Event n C D)) t v c := List.not_mem_nil
  -- only the log changes
  obtain ⟨hterm', hvote', hstate'⟩ :
      ((w.nodes p).copyLog args).currentTerm = (w.nodes p).currentTerm ∧
      ((w.nodes p).copyLog args).votedFor = (w.nodes p).votedFor ∧
      ((w.nodes p).copyLog args).state = (w.nodes p).state := by
    rcases Node.copyLog_eq (w.nodes p) args with heq | ⟨log, backing, heq⟩ <;> rw [heq] <;>
      exact ⟨rfl, rfl, rfl⟩
  rcases hb with hi | ⟨hnil, hpast⟩
  · obtain ⟨l', hl', ho⟩ :
        ∃ l', ((w.nodes p).copyLog args).Shows l' ∧ Overwrites (a.log p) l l' := by
      unfold Node.copyLog
      split
      · rename_i hnil
        exact ⟨_, hshows, .inl ⟨hempty hnil, rfl⟩⟩
      · obtain ⟨l', hl', ho⟩ :=
          hshows.copyEntries hlii hm (.inl ⟨hpre, rfl⟩) hcar.entries hcar.le
        exact ⟨l', hl'.congr rfl rfl rfl, ho⟩
    have hi' : a.Issued args.leaderId (w.nodes p).currentTerm l := hterm ▸ hi
    refine ⟨_, h.take hi' ho ⟨hterm', hvote', fun hl => hstate' ▸ hl, hnovote⟩
      (hl'.congr rfl rfl rfl) ?_⟩
    intro call' args' hh'
    obtain ⟨rfl, rfl⟩ : call = call' ∧ args = args' := by
      have hinj := Option.some.inj hh'
      rw [Held.appendCommit.injEq] at hinj
      exact hinj
    have hg : a.Grows (a.accept p (w.nodes p).currentTerm l l') :=
      .accept a (h.term p) (by simp [hi'.1])
    have hself : (a.accept p (w.nodes p).currentTerm l l').log p = l' := update_self _ _ _
    refine ⟨l, hcar, hself.symm ▸ ho.isPrefix, .inl ⟨hi.grows hg, ?_⟩⟩
    rw [← hterm]
    show l.length ≤ a.ack p _ (max _ l.length) p _
    rw [a.ack_self]
    exact le_max_right _ _
  · have hcopy : (w.nodes p).copyLog args = w.nodes p := if_pos hnil
    rw [hcopy]
    refine ⟨_, h.keep ⟨rfl, rfl, id, hnovote⟩ (hshows.congr rfl rfl rfl) ?_⟩
    intro call' args' hh'
    obtain ⟨rfl, rfl⟩ : call = call' ∧ args = args' := by
      have hinj := Option.some.inj hh'
      rw [Held.appendCommit.injEq] at hinj
      exact hinj
    exact ⟨l, hcar, hempty hnil, .inr hpast⟩

/-- `InstallSnapshot` takes over a snapshot that fits. -/
theorem install (hw : w.Plumbed) {args : InstallSnapshotArgs n D}
    (hh : (w.nodes p).held = some (.installLog call args)) (hi : (w.nodes p).installs args)
    (hk : (w.nodes p).KeepsOwn args) (hs : Stays w p eff)
    (hlog : ∀ l, ((w.nodes p).install args).Shows l → eff.node.Shows l)
    (hready : ∀ call args, eff.node.held ≠ some (.appendCommit call args)) :
    ∃ a', Simulates w p eff a a' := by
  obtain ⟨⟨c, hc, hdst, hreq⟩, hle⟩ := hw.held p _ hh call (.installSnapshot args) rfl
  have hterm : (w.nodes p).currentTerm = args.term := le_antisymm hi.1 hle
  have hback := h.calls call c hc
  rw [hreq] at hback
  obtain ⟨l, hlen, hlast, hiss⟩ := hback
  rw [← hterm] at hiss
  have hshows := h.log p
  have hlen' := hshows.getLogLength_eq
  have hlt : args.lastIncludedTerm = termAt LogEntry.term l args.lastIncludedIndex := by
    rw [hlast, hlen]; rfl
  obtain ⟨l', hl', ho⟩ : ∃ l', ((w.nodes p).install args).Shows l' ∧ Overwrites (a.log p) l l' := by
    rcases hk hi with hshort | hown
    · refine ⟨l, hshows.install_isPrefix hi.2.1 (by omega) hlen.symm hlt, ?_⟩
      by_cases hp : l <+: a.log p
      · exact .inl ⟨hp, hp.eq_of_length_le (by omega)⟩
      · exact .inr ⟨hp, rfl⟩
    · obtain ⟨-, hle', hown'⟩ := hshows.of_getTermOfLog hown
      refine ⟨a.log p, hshows.install_own hi.2.1 hle' hown'.symm, .inl ⟨?_, rfl⟩⟩
      have hm := (h.sound.log_rooted p).matching
        ((h.sound.leaderLog_rooted _).of_isPrefix hiss.2)
      have hp := hm.symm.take_isPrefix hlen.le hle' (hlt.symm.trans hown'.symm)
      rwa [hlen, List.take_length] at hp
  exact ⟨_, h.take hiss ho hs (hlog l' hl')
    fun call args hh => absurd hh (hready call args)⟩

/-- `Start` at a leader. -/
theorem start (hlead : (w.nodes p).state = .leaderState) (hi : (w.nodes p).leaderInitDone = true)
    {command : Option C} (hs : Stays w p eff)
    (hlog : eff.node.Shows (a.log p ++ [⟨(w.nodes p).currentTerm, command⟩]))
    (hready : ∀ call args, eff.node.held ≠ some (.appendCommit call args)) :
    ∃ a', Simulates w p eff a a' := by
  have hl := h.leader p hlead
  have hstep : a.Step LogEntry.term
      (a.append p (w.nodes p).currentTerm ⟨(w.nodes p).currentTerm, command⟩) :=
    .append p _ _ hl (h.term p) rfl
  refine ⟨_, .inr hstep, ?_, (h.term p).trans hs.term.symm, ?_, ?_,
    fun t v c hv => absurd hv (hs.unvoted t v c), fun _ => hs.term ▸ hl, fun _ _ hl => .inl hl, ?_,
    fun call args hh => absurd hh (hready call args)⟩
  · exact fun q hne => ⟨rfl, update_of_ne hne _ _, fun _ => rfl⟩
  · rw [hs.votedFor, hs.term, h.votedFor p]; rfl
  · have hself : (a.append p (w.nodes p).currentTerm ⟨(w.nodes p).currentTerm, command⟩).log p =
        a.log p ++ [⟨(w.nodes p).currentTerm, command⟩] := update_self _ _ _
    rw [hself]
    exact hlog
  · intro t _
    rcases eq_or_ne t (w.nodes p).currentTerm with rfl | hne
    · exact .inr ⟨hi, rfl⟩
    · exact .inl (update_of_ne hne _ _)

/-- A restart that does not start from erased state. -/
theorem restart (hw : w.Plumbed) (hkeep : w.KeepsState (.restart p)) :
    ∃ a', Simulates w p ((w.nodes p).restart p) a a' := by
  have hb := Node.make_bytes_eq (hw.durable p) (hw.fresh p) hkeep
  refine ⟨_, h.keep ⟨?_, ?_, ?_, ?_⟩ ?_ ?_⟩
  · exact congrArg RaftBytes.currentTerm hb
  · exact congrArg RaftBytes.votedFor hb
  · intro hl
    exact absurd ((Node.make_state _ _).symm.trans hl) (by simp)
  · intro t v c
    simp [Voted, Node.restart]
  · exact (h.log p).congr (congrArg RaftBytes.lastIncludedIndex hb)
      (congrArg RaftBytes.lastIncludedTerm hb) (congrArg RaftBytes.log hb)
  · intro call args hh
    exact absurd ((Node.make_held _ _).symm.trans hh) (by simp)

/-- **Simulation.** Under the three conditions every step of the cluster is one step of the
    abstract cluster, or none. -/
theorem simulates (hw : w.Plumbed) (he : w.Tallied) (he' : (w.after act p eff).Tallied)
    (hkeep : w.KeepsState act) (hcand : w.ElectsAsCandidate act) (hown : w.InstallsOwn act)
    (hl : Local w p eff act) :
    ∃ a', Simulates w p eff a a' := by
  by_cases hcopy : ∃ call args, Copies w p eff call args
  · obtain ⟨call, args, hcopy⟩ := hcopy
    exact h.copy hw hcopy
  have hready (call : ℕ) (args : AppendEntriesArgs n C)
      (hh : eff.node.held = some (.appendCommit call args)) :
      (w.nodes p).held = some (.appendCommit call args) :=
    (held_appendCommit hl hh).resolve_right fun hc => hcopy ⟨call, args, hc⟩
  have hst := local_stored hl
  have hb := local_ballot hl
  clear hl
  cases hst with
  | leave hleave =>
    cases hb with
    | quiet hq =>
      refine h.calm hq.calm.ballot hq.calm.role (fun t v c hv => ?_) hleave.same hready
      exact absurd (hq.events _ hv) (by simp [Event.isBallot])
    | elect hm => exact h.stand (hcand hm)
    | won hv =>
      have hthis := le_antisymm (he.threads p _ (List.mem_of_getElem? hv.thread)).1 hv.term
      have helected := (he'.won p _ _ (List.mem_append_left _ (List.mem_singleton.mpr rfl))).2
      -- the votes were cast before
      refine h.win hv.thread hv.candidate hthis.symm (helected.mono fun v hvote => ?_) rfl rfl rfl
        hleave.same (by simp [Voted]) hready
      exact (List.mem_append.mp hvote).resolve_left (by simp)
    | grant hh ht hv hn => exact h.grant hw hh ht hv hn
    | restart => exact h.restart hw hkeep
  | copy hh hacc => exact absurd ⟨_, _, hh, hacc, rfl⟩ hcopy
  | @accept call args hh =>
    refine ⟨_, h.keep ⟨?_, ?_, ?_, ?_⟩ ?_ fun _ _ hh => by cases hh⟩
    · simp only [Node.appendCommit, Node.release, Node.followCommit]; split <;> rfl
    · simp only [Node.appendCommit, Node.release, Node.followCommit]; split <;> rfl
    · simp only [Node.appendCommit, Node.release, Node.followCommit]; split <;> exact id
    · simp [Voted, Node.appendCommit]
    · obtain ⟨hlog, hlii, hlit, -⟩ := Node.appendCommit_fields p (w.nodes p) call args
      exact (h.log p).congr hlii hlit hlog
  | @install call args hh hi =>
    exact h.install hw hh hi (hown call args hh) ⟨rfl, rfl, id, by simp [Voted]⟩
      (fun l hl => hl.congr rfl rfl rfl) fun _ _ hh => by cases hh
  | installSave | snapshotSave =>
    exact ⟨_, h.keep ⟨rfl, rfl, id, fun _ _ _ => List.not_mem_nil⟩ ((h.log p).congr rfl rfl rfl)
      fun _ _ hh => by cases hh⟩
  | compact hfree hlt hle hle' ht =>
    exact ⟨_, h.keep ⟨rfl, rfl, id, by simp [Voted]⟩ (((h.log p).compact hlt ht).congr rfl rfl rfl)
      fun _ _ hh => by cases hh⟩
  | start hfree hs hi =>
    refine h.start hs hi ⟨rfl, rfl, id, by simp [Voted]⟩
      (((h.log p).appendCommand p _).congr rfl rfl rfl) fun call args hh => ?_
    cases hfree.symm.trans hh
  | restart => exact h.restart hw hkeep

end Refines

end World

end MitDistributed.Raft
