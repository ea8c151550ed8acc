import MitDistributed.Raft.FullLog
import MitDistributed.Raft.World

namespace MitDistributed.Raft

open Consensus

/-!
# Raft — `InstallSnapshot` and Log Matching

`InstallSnapshot` keeps every own entry beyond the snapshot, whatever the term of the own entry
at its index.  If that is another entry than the committed one, a suffix of a dead branch ends
up behind the committed prefix: the terms decrease, and the log agrees with others at an index
without agreeing below it (`install_breaks_matching`).

The logs stay consistent (`Consistent`) exactly if there is nothing beyond the snapshot or the
own entry at its index has its term (`install_keeps_logs_iff`): in the first case the peer ends
up with a prefix of the committed log, in the second with its own log.
-/

variable {n : ℕ} {C D : Type}

namespace Node

/-! ### The handler from start to end -/

/-- Run the handler that is under way for at most `k` more steps. -/
def finish (me : Fin n) : ℕ → Node n C D → Node n C D
  | 0, nd => nd
  | k + 1, nd =>
    match nd.resume me with
    | none => nd
    | some eff => eff.node.finish me k

/-- The peer after the whole handler: it takes at most eight steps under the locks. -/
def afterInstallSnapshot (me : Fin n) (nd : Node n C D) (call : ℕ)
    (args : InstallSnapshotArgs n D) : Node n C D :=
  (nd.installSnapshot call args).node.finish me 7

/-- The fields that a log consists of. -/
def SameLog (nd nd' : Node n C D) : Prop :=
  nd'.lastIncludedIndex = nd.lastIncludedIndex ∧ nd'.lastIncludedTerm = nd.lastIncludedTerm ∧
    nd'.log = nd.log

theorem SameLog.trans {nd nd' nd'' : Node n C D} (h : nd.SameLog nd') (h' : nd'.SameLog nd'') :
    nd.SameLog nd'' :=
  ⟨h'.1.trans h.1, h'.2.1.trans h.2.1, h'.2.2.trans h.2.2⟩

theorem observe_sameLog (nd : Node n C D) (t : ℕ) : nd.SameLog (nd.observe t) := by
  unfold observe
  split <;> exact ⟨rfl, rfl, rfl⟩

theorem observe_installs_iff (nd : Node n C D) (args : InstallSnapshotArgs n D) (held) :
    { nd.observe args.term with held := held }.installs args ↔ nd.installs args := by
  unfold observe
  split
  · rename_i hgt
    exact ⟨fun h => ⟨hgt.le, h.2⟩, fun h => ⟨le_rfl, h.2⟩⟩
  · exact Iff.rfl

/-- The steps that `InstallSnapshot` has left, at most, once it has replaced the log. -/
def installSteps : Held n C D → ℕ
  | .installIndex _ _ .testCommit => 6
  | .installIndex _ _ .setCommit => 5
  | .installIndex _ _ .testApplied => 4
  | .installIndex _ _ .setApplied => 3
  | .installSave _ _ => 2
  | .installSend _ _ => 1
  | _ => 0

/-- Each of them leaves the log alone, and there are fewer left afterwards. -/
theorem resume_installSteps (me : Fin n) {nd : Node n C D} {held : Held n C D}
    (hh : nd.held = some held) (hpos : 0 < installSteps held) :
    ∃ eff, nd.resume me = some eff ∧ nd.SameLog eff.node ∧
      (eff.node.held = none ∨ ∃ held', eff.node.held = some held' ∧ 0 < installSteps held' ∧
        installSteps held' < installSteps held) := by
  have hnone : nd.resume me ≠ none := by
    rw [resume, hh]
    cases held with
    | requestVote | appendLog | appendCommit | installLog | snapshotSave => cases hpos
    | installIndex | installSave | installSend => exact Option.some_ne_none _
  obtain ⟨eff, heff⟩ := Option.ne_none_iff_exists'.mp hnone
  refine ⟨eff, heff, ?_⟩
  cases resume_cases heff with
  | installTest hh' ht =>
    obtain rfl := Option.some.inj (hh'.symm.trans hh)
    exact ⟨⟨rfl, rfl, rfl⟩, .inr ⟨_, rfl, by cases ht <;> simp [installSteps],
      by cases ht <;> simp [installSteps]⟩⟩
  | setCommit hh' | setApplied hh' | installSave hh' =>
    obtain rfl := Option.some.inj (hh'.symm.trans hh)
    exact ⟨⟨rfl, rfl, rfl⟩, .inr ⟨_, rfl, by simp [installSteps], by simp [installSteps]⟩⟩
  | installSend => exact ⟨⟨rfl, rfl, rfl⟩, .inl rfl⟩
  | voteExit hh' | refuseVote hh' | grantVote hh' | appendExit hh' | refuseAppend hh' | copyLog hh'
  | appendCommit hh' | ignoreSnapshot hh' | install hh' | snapshotSave hh' =>
    obtain rfl := Option.some.inj (hh'.symm.trans hh)
    cases hpos

/-- So the handler returns, with the log as it has replaced it. -/
theorem finish_installSteps (me : Fin n) (nd : Node n C D) {held : Held n C D} (k : ℕ)
    (hh : nd.held = some held) (hpos : 0 < installSteps held) (hle : installSteps held ≤ k) :
    (nd.finish me k).held = none ∧ nd.SameLog (nd.finish me k) := by
  induction k generalizing nd held with
  | zero => omega
  | succ k ih =>
    obtain ⟨eff, heff, hlog, hnext⟩ := resume_installSteps me hh hpos
    have hstep : nd.finish me (k + 1) = eff.node.finish me k := by
      rw [finish, heff]
    rw [hstep]
    rcases hnext with hnone | ⟨held', hh', hpos', hlt⟩
    · have hend : eff.node.finish me k = eff.node := by
        cases k with
        | zero => rfl
        | succ k => rw [finish, resume, hnone]
      rw [hend]
      exact ⟨hnone, hlog⟩
    · obtain ⟨hend, hrest⟩ := ih _ hh' hpos' (by omega)
      exact ⟨hend, hlog.trans hrest⟩

/-- The handler ends, with the snapshot installed or the log as it was. -/
theorem afterInstallSnapshot_log (me : Fin n) (nd : Node n C D) (call : ℕ)
    (args : InstallSnapshotArgs n D) :
    (nd.afterInstallSnapshot me call args).held = none ∧
    (nd.installs args →
      (nd.install args).SameLog (nd.afterInstallSnapshot me call args)) ∧
    (¬ nd.installs args → nd.SameLog (nd.afterInstallSnapshot me call args)) := by
  have hiff := nd.observe_installs_iff args (some (.installLog call args))
  obtain ⟨hindex, hterm, hlog⟩ := nd.observe_sameLog args.term
  have hrun : nd.afterInstallSnapshot me call args =
      ({ nd.observe args.term with held := some (.installLog call args) }.installLog me call
        args).node.finish me 6 := rfl
  rw [hrun, installLog]
  by_cases hi : nd.installs args
  · rw [if_pos (hiff.mpr hi)]
    have hrest (x : Node n C D) (hx : x.held = some (.installIndex call args .testCommit)) :=
      finish_installSteps me x 6 hx (Nat.succ_pos 5) le_rfl
    refine ⟨(hrest _ rfl).1, fun _ => SameLog.trans ?_ (hrest _ rfl).2, fun h => absurd hi h⟩
    refine ⟨rfl, rfl, ?_⟩
    show _ :: (nd.observe args.term).log.drop
      (args.lastIncludedIndex + 1 - (nd.observe args.term).lastIncludedIndex) =
        (nd.install args).log
    rw [hlog, hindex]
    rfl
  · rw [if_neg (mt hiff.mp hi)]
    exact ⟨rfl, fun h => absurd h hi, fun _ => ⟨hindex, hterm, hlog⟩⟩

/-! ### Consistent logs -/

/-- The log that `nd` stands for, if its snapshot covers a prefix of `committed`. -/
def full (committed : List (LogEntry C)) (nd : Node n C D) : List (LogEntry C) :=
  committed.take nd.lastIncludedIndex ++ nd.log.tail

/-- The snapshot of `nd` stands for a prefix of `committed`. -/
@[mk_iff]
structure Stands (committed : List (LogEntry C)) (nd : Node n C D) : Prop where
  le : nd.lastIncludedIndex ≤ committed.length
  ne : nd.log ≠ []
  term : nd.lastIncludedTerm = termAt LogEntry.term committed nd.lastIncludedIndex

/-- The terms that a peer sees: that of the snapshot, and those of the entries after it. -/
def terms (nd : Node n C D) : List ℕ := nd.lastIncludedTerm :: nd.log.tail.map LogEntry.term

variable {committed : List (LogEntry C)} {nd nd' : Node n C D}

theorem SameLog.full_eq (h : nd.SameLog nd') : nd'.full committed = nd.full committed := by
  obtain ⟨hi, -, hl⟩ := h
  rw [full, full, hi, hl]

theorem SameLog.terms_eq (h : nd.SameLog nd') : nd'.terms = nd.terms := by
  obtain ⟨-, ht, hl⟩ := h
  rw [terms, terms, ht, hl]

theorem SameLog.stands (h : nd.SameLog nd') (hs : nd.Stands committed) : nd'.Stands committed := by
  obtain ⟨hi, ht, hl⟩ := h
  refine ⟨?_, ?_, ?_⟩
  · rw [hi]; exact hs.le
  · rw [hl]; exact hs.ne
  · rw [hi, ht]; exact hs.term

theorem Stands.length_take (h : nd.Stands committed) :
    (committed.take nd.lastIncludedIndex).length = nd.lastIncludedIndex := by
  rw [List.length_take, min_eq_left h.le]

theorem Stands.shows (h : nd.Stands committed) : nd.Shows (nd.full committed) where
  le := by
    have hlen := h.length_take
    unfold full
    rw [List.length_append]
    omega
  ne := h.ne
  tail := by
    have hdrop : (nd.full committed).drop (committed.take nd.lastIncludedIndex).length =
        nd.log.tail := List.drop_left
    rw [h.length_take] at hdrop
    exact hdrop.symm
  term := by
    have hpre : committed.take nd.lastIncludedIndex <+: nd.full committed := List.prefix_append _ _
    rw [h.term, ← termAt_of_isPrefix hpre h.length_take.ge, termAt_take le_rfl]

end Node

/-- The logs of the peers and the committed one satisfy Log Matching, where the snapshot of a
    peer stands for a prefix of the committed log, and the terms of every peer are
    nondecreasing. -/
@[mk_iff]
structure Consistent (committed : List (LogEntry C)) (nodes : Fin n → Node n C D) : Prop where
  stands : ∀ p, (nodes p).Stands committed
  matching : ∀ p q, Matching LogEntry.term ((nodes p).full committed) ((nodes q).full committed)
  committed : ∀ p, Matching LogEntry.term ((nodes p).full committed) committed
  nondecreasing : ∀ p, (nodes p).terms.Pairwise (· ≤ ·)

instance (committed : List (LogEntry C)) (nd : Node n C D) : Decidable (nd.Stands committed) :=
  decidable_of_iff' _ (Node.stands_iff ..)

instance (committed : List (LogEntry C)) (nodes : Fin n → Node n C D) [DecidableEq C] :
    Decidable (Consistent committed nodes) :=
  decidable_of_iff' _ (consistent_iff ..)

/-- The request carries the index and the term of a prefix of the committed log. -/
def InstallSnapshotArgs.OfCommitted (committed : List (LogEntry C))
    (args : InstallSnapshotArgs n D) : Prop :=
  args.lastIncludedIndex ≤ committed.length ∧
    args.lastIncludedTerm = termAt LogEntry.term committed args.lastIncludedIndex

instance (committed : List (LogEntry C)) (args : InstallSnapshotArgs n D) :
    Decidable (args.OfCommitted committed) :=
  inferInstanceAs (Decidable (_ ∧ _))

/-- If the peer takes the snapshot over, its log does not go beyond the snapshot, or its own
    entry at the index of the snapshot has its term. -/
def Node.KeepsOwn (nd : Node n C D) (args : InstallSnapshotArgs n D) : Prop :=
  nd.installs args → nd.getLogLength ≤ args.lastIncludedIndex + 1 ∨
    nd.getTermOfLog args.lastIncludedIndex = some args.lastIncludedTerm

instance (nd : Node n C D) (args : InstallSnapshotArgs n D) : Decidable (nd.KeepsOwn args) :=
  inferInstanceAs (Decidable (_ → _))

namespace Consistent

variable {committed : List (LogEntry C)} {nodes : Fin n → Node n C D} {p : Fin n}
  {nd : Node n C D} {args : InstallSnapshotArgs n D}

/-- Replacing one peer: the new log has to match the other ones. -/
theorem update (h : Consistent committed nodes) (hs : nd.Stands committed)
    (hm : ∀ q, Matching LogEntry.term (nd.full committed) ((nodes q).full committed))
    (hc : Matching LogEntry.term (nd.full committed) committed)
    (ht : nd.terms.Pairwise (· ≤ ·)) : Consistent committed (Function.update nodes p nd) := by
  have hcases (P : Node n C D → Prop) (hnd : P nd) (hq : ∀ q, P (nodes q)) (q : Fin n) :
      P (Function.update nodes p nd q) := by
    rcases eq_or_ne q p with rfl | hne
    · rwa [Function.update_self]
    · rw [Function.update_of_ne hne]; exact hq q
  refine ⟨hcases _ hs h.stands, ?_,
    hcases (fun nd' => Matching LogEntry.term (nd'.full committed) committed) hc h.committed,
    hcases (fun nd' => nd'.terms.Pairwise (· ≤ ·)) ht h.nondecreasing⟩
  intro q
  refine hcases (fun nd' => Matching LogEntry.term
    ((Function.update nodes p nd q).full committed) (nd'.full committed)) ?_ ?_
  · exact hcases (fun nd' => Matching LogEntry.term (nd'.full committed) (nd.full committed))
      (Matching.refl _) (fun r => (hm r).symm) q
  · intro r
    exact hcases (fun nd' => Matching LogEntry.term (nd'.full committed)
      ((nodes r).full committed)) (hm r) (fun r' => h.matching r' r) q

/-- Replacing one peer by one with the same log. -/
theorem congr (h : Consistent committed nodes) (hl : (nodes p).SameLog nd) :
    Consistent committed (Function.update nodes p nd) := by
  refine h.update (hl.stands (h.stands p)) ?_ ?_ ?_
  · rw [hl.full_eq]; exact h.matching p
  · rw [hl.full_eq]; exact h.committed p
  · rw [hl.terms_eq]; exact h.nondecreasing p

/-! ### Taking over a snapshot -/

theorem install_stands (hargs : args.OfCommitted committed) (nd : Node n C D) :
    (nd.install args).Stands committed where
  le := hargs.1
  ne := List.cons_ne_nil _ _
  term := hargs.2

variable (h : Consistent committed nodes)

include h

/-- The log after the handler. -/
theorem install_full (hlt : (nodes p).lastIncludedIndex < args.lastIncludedIndex) :
    ((nodes p).install args).full committed =
      committed.take args.lastIncludedIndex ++
        ((nodes p).full committed).drop args.lastIncludedIndex := by
  rw [← (h.stands p).shows.install_tail hlt]
  rfl

/-- If the own entry at the index of the snapshot has its term, the log stays the same. -/
theorem install_full_own (hargs : args.OfCommitted committed)
    (hlt : (nodes p).lastIncludedIndex < args.lastIncludedIndex)
    (ht : (nodes p).getTermOfLog args.lastIncludedIndex = some args.lastIncludedTerm) :
    ((nodes p).install args).full committed = (nodes p).full committed := by
  obtain ⟨-, hle, hterm⟩ := (h.stands p).shows.of_getTermOfLog ht
  have hagree := h.committed p _ hle hargs.1 (hterm.trans hargs.2)
  rw [h.install_full hlt, ← hagree, List.take_append_drop]

/-- If there is nothing beyond the snapshot, the log becomes a prefix of the committed one. -/
theorem install_full_isPrefix (hlt : (nodes p).lastIncludedIndex < args.lastIncludedIndex)
    (hle : (nodes p).getLogLength ≤ args.lastIncludedIndex + 1) :
    ((nodes p).install args).full committed = committed.take args.lastIncludedIndex := by
  have hlen := (h.stands p).shows.getLogLength_eq
  rw [h.install_full hlt, List.drop_eq_nil_of_le (by omega), List.append_nil]

/-- The terms of the kept entries stand behind that of the own entry at the index. -/
theorem install_terms_own (hlt : (nodes p).lastIncludedIndex < args.lastIncludedIndex)
    (ht : (nodes p).getTermOfLog args.lastIncludedIndex = some args.lastIncludedTerm) :
    ((nodes p).install args).terms =
      (nodes p).terms.drop (args.lastIncludedIndex - (nodes p).lastIncludedIndex) := by
  have hshows := (h.stands p).shows
  obtain ⟨k, hk⟩ : ∃ k, args.lastIncludedIndex = (nodes p).lastIncludedIndex + k + 1 :=
    ⟨args.lastIncludedIndex - (nodes p).lastIncludedIndex - 1, by omega⟩
  obtain ⟨-, hle, hterm⟩ := hshows.of_getTermOfLog ht
  have hb : (nodes p).lastIncludedIndex + k < ((nodes p).full committed).length := by omega
  have htail : ((nodes p).install args).log.tail = (nodes p).log.tail.drop (k + 1) := by
    rw [hshows.install_tail hlt, hshows.tail, List.drop_drop, hk, Nat.add_assoc]
  have hown : (nodes p).log.tail[k]? =
      some (((nodes p).full committed)[(nodes p).lastIncludedIndex + k]) := by
    rw [hshows.tail, List.getElem?_drop, List.getElem?_eq_getElem hb]
  have hcons := List.drop_eq_getElem_cons (List.getElem?_eq_some_iff.mp hown).1
  rw [(List.getElem?_eq_some_iff.mp hown).2] at hcons
  have hslot : args.lastIncludedIndex - (nodes p).lastIncludedIndex = k + 1 := by omega
  rw [Node.terms, Node.terms, hslot, List.drop_succ_cons, ← List.map_drop, hcons, List.map_cons,
    htail]
  congr 1
  show args.lastIncludedTerm = _
  rw [← hterm, hk, termAt_succ_of_getElem? (List.getElem?_eq_getElem hb)]

/-- A snapshot that is taken over in one of the two cases leaves the logs consistent. -/
theorem install (hargs : args.OfCommitted committed) (hi : (nodes p).installs args)
    (hk : (nodes p).KeepsOwn args) :
    Consistent committed (Function.update nodes p ((nodes p).install args)) := by
  have hlt := hi.2.1
  rcases hk hi with hle | ht
  · -- nothing beyond the snapshot: a prefix of the committed log, with no other term
    have hfull := h.install_full_isPrefix hlt hle
    have hpre : committed.take args.lastIncludedIndex <+: committed := List.take_prefix _ _
    refine h.update (install_stands hargs _) ?_ ?_ ?_
    · intro q
      rw [hfull]
      exact ((h.committed q).of_isPrefix hpre).symm
    · rw [hfull]
      exact ((Matching.refl committed).of_isPrefix hpre).symm
    · have hlen := (h.stands p).shows.getLogLength_eq
      have htail := (h.stands p).shows.install_tail hlt
      rw [List.drop_eq_nil_of_le (by omega)] at htail
      rw [Node.terms, htail]
      exact List.pairwise_singleton _ _
  · -- the own log
    have hfull := h.install_full_own hargs hlt ht
    refine h.update (install_stands hargs _) ?_ ?_ ?_
    · rw [hfull]; exact h.matching p
    · rw [hfull]; exact h.committed p
    · rw [h.install_terms_own hlt ht]
      exact (h.nondecreasing p).sublist (List.drop_sublist _ _)

end Consistent

/-- **`InstallSnapshot` and consistent logs.** After the handler has run on peer `p`, with a
    snapshot of a committed prefix, the logs are still consistent, and entries are kept behind
    the snapshot only if the own entry at its index had its term: exactly if `p` meets
    `KeepsOwn`. -/
theorem install_keeps_logs_iff {committed : List (LogEntry C)} {nodes : Fin n → Node n C D}
    (h : Consistent committed nodes) (p : Fin n) (call : ℕ) {args : InstallSnapshotArgs n D}
    (hargs : args.OfCommitted committed) :
    (Consistent committed
        (Function.update nodes p ((nodes p).afterInstallSnapshot p call args)) ∧
      ((nodes p).installs args → ((nodes p).afterInstallSnapshot p call args).log.tail ≠ [] →
        (nodes p).getTermOfLog args.lastIncludedIndex = some args.lastIncludedTerm)) ↔
    (nodes p).KeepsOwn args := by
  obtain ⟨-, hinst, hsame⟩ := (nodes p).afterInstallSnapshot_log p call args
  have hshows := (h.stands p).shows
  have hlen := hshows.getLogLength_eq
  constructor
  · rintro ⟨-, hkept⟩ hi
    by_cases hle : (nodes p).getLogLength ≤ args.lastIncludedIndex + 1
    · exact .inl hle
    · refine .inr (hkept hi ?_)
      rw [(hinst hi).2.2, hshows.install_tail hi.2.1]
      exact List.drop_eq_nil_iff.not.mpr (by omega)
  · intro hk
    by_cases hi : (nodes p).installs args
    · refine ⟨?_, fun _ hne => (hk hi).resolve_left fun hle => hne ?_⟩
      · have hsame : (Function.update nodes p ((nodes p).install args) p).SameLog
            ((nodes p).afterInstallSnapshot p call args) := by
          rw [Function.update_self]
          exact hinst hi
        have hc := (h.install hargs hi hk).congr hsame
        rwa [Function.update_idem] at hc
      · rw [(hinst hi).2.2, hshows.install_tail hi.2.1]
        exact List.drop_eq_nil_of_le (by omega)
    · exact ⟨h.congr (hsame hi), fun h => absurd h hi⟩

/-- A peer in term `term` with the entries `entries`, of which the first `index` are in its
    snapshot. -/
def holding (term index : ℕ) (entries : List (LogEntry ℕ)) : Node 5 ℕ ℕ :=
  { Node.blank { raftstate := none, snapshot := none } (fun _ => 0) with
    currentTerm := term
    log := .zero :: entries.drop index
    lastIncludedIndex := index
    lastIncludedTerm := termAt LogEntry.term entries index }

/-- Peers 0, 3 and 4 hold a committed entry of term 2 at index 1, which peer 0 has compacted
    away; peers 1 and 2 hold two entries of term 1. -/
def twoBranches : Fin 5 → Node 5 ℕ ℕ
  | 0 => holding 2 1 [⟨2, some 9⟩]
  | 1 => holding 1 0 [⟨1, some 7⟩, ⟨1, some 8⟩]
  | 2 => holding 1 0 [⟨1, some 7⟩, ⟨1, some 8⟩]
  | 3 => holding 2 0 [⟨2, some 9⟩]
  | 4 => holding 2 0 [⟨2, some 9⟩]

/-- The request with which peer 0 sends its snapshot. -/
def snapshotOfPeer0 : InstallSnapshotArgs 5 ℕ :=
  { term := 2, leaderId := 0, lastIncludedIndex := 1, lastIncludedTerm := 2, data := some 5 }

/-- Peer 3, which holds the committed entry, takes the snapshot over. -/
theorem install_keeps_logs_iff_peer3 :
    Consistent [⟨2, some 9⟩] twoBranches ∧ (twoBranches 3).installs snapshotOfPeer0 ∧
      Consistent [⟨2, some 9⟩] (Function.update twoBranches 3
        ((twoBranches 3).afterInstallSnapshot 3 0 snapshotOfPeer0)) := by
  have h : Consistent [⟨2, some 9⟩] twoBranches := by decide +kernel
  have hargs : snapshotOfPeer0.OfCommitted [(⟨2, some 9⟩ : LogEntry ℕ)] := by decide
  have hk : (twoBranches 3).KeepsOwn snapshotOfPeer0 := by decide
  exact ⟨h, by decide, ((install_keeps_logs_iff h 3 0 hargs).mpr hk).1⟩

/-- Peer 2 takes the snapshot over and keeps its entry at index 2, of term 1: its terms
    decrease, and it agrees with peer 1 at index 2 but not at index 1. -/
theorem install_breaks_matching :
    Consistent [⟨2, some 9⟩] twoBranches ∧
    snapshotOfPeer0.OfCommitted [(⟨2, some 9⟩ : LogEntry ℕ)] ∧
    (twoBranches 2).getTermOfLog 1 = some 1 ∧
    ((twoBranches 2).afterInstallSnapshot 2 0 snapshotOfPeer0).terms = [2, 1] ∧
    ¬ Matching LogEntry.term
      (((twoBranches 2).afterInstallSnapshot 2 0 snapshotOfPeer0).full [⟨2, some 9⟩])
      ((twoBranches 1).full [⟨2, some 9⟩]) ∧
    ¬ Consistent [⟨2, some 9⟩] (Function.update twoBranches 2
      ((twoBranches 2).afterInstallSnapshot 2 0 snapshotOfPeer0)) := by
  decide +kernel

end MitDistributed.Raft
