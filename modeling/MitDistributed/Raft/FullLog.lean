import MitDistributed.Consensus.Log
import MitDistributed.Raft.Entries

namespace MitDistributed.Raft

open Consensus Memory

/-!
# Raft — the log behind a snapshot

A peer that has compacted its log still stands for a log that starts at index 1: the part that
the snapshot covers, followed by the entries after the first slot of `log`.  `Node.Shows nd l`
says that `nd` stands for `l`; the accessors of `raft.go` then read `l`, and the functions that
write `log` are operations on `l`.
-/

variable {n : ℕ} {C D : Type}

namespace Node

/-- `nd` stands for the log `l`, of which the snapshot covers `lastIncludedIndex` entries. -/
structure Shows (nd : Node n C D) (l : List (LogEntry C)) : Prop where
  le : nd.lastIncludedIndex ≤ l.length
  ne : nd.log ≠ []
  tail : nd.log.tail = l.drop nd.lastIncludedIndex
  term : nd.lastIncludedTerm = termAt LogEntry.term l nd.lastIncludedIndex

namespace Shows

variable {nd nd' : Node n C D} {l c : List (LogEntry C)} {i : ℕ}

section

variable (h : nd.Shows l)

include h

/-- Only the log and the two fields of the snapshot matter. -/
theorem congr (hi : nd'.lastIncludedIndex = nd.lastIncludedIndex)
    (ht : nd'.lastIncludedTerm = nd.lastIncludedTerm) (hl : nd'.log = nd.log) : nd'.Shows l where
  le := hi ▸ h.le
  ne := hl ▸ h.ne
  tail := by rw [hl, hi, h.tail]
  term := by rw [ht, hi, h.term]

/-- The first slot of `log` is a placeholder. -/
theorem exists_log : ∃ e, nd.log = e :: l.drop nd.lastIncludedIndex := by
  obtain ⟨e, rest, hlog⟩ := List.exists_cons_of_ne_nil h.ne
  have htail := h.tail
  rw [hlog, List.tail_cons] at htail
  exact ⟨e, by rw [hlog, htail]⟩

theorem length_log : nd.log.length = l.length - nd.lastIncludedIndex + 1 := by
  obtain ⟨e, hlog⟩ := h.exists_log
  rw [hlog, List.length_cons, List.length_drop]

theorem getLogLength_eq : nd.getLogLength = l.length + 1 := by
  have hle := h.le
  have hlen := h.length_log
  unfold getLogLength
  omega

/-- The slots after the first one. -/
theorem getElem? (hi : nd.lastIncludedIndex < i) :
    nd.log[i - nd.lastIncludedIndex]? = l[i - 1]? := by
  obtain ⟨e, hlog⟩ := h.exists_log
  obtain ⟨k, rfl⟩ : ∃ k, i = nd.lastIncludedIndex + k + 1 :=
    ⟨i - nd.lastIncludedIndex - 1, by omega⟩
  have hslot : nd.lastIncludedIndex + k + 1 - nd.lastIncludedIndex = k + 1 := by omega
  rw [hslot, hlog, List.getElem?_cons_succ, List.getElem?_drop]
  rfl

theorem getLog_eq (hi : nd.lastIncludedIndex < i) : nd.getLog i = l[i - 1]? := by
  rw [← h.getElem? hi]
  unfold getLog
  split
  · rename_i hge
    have hlen := h.length_log
    have hlt : nd.log.length ≤ i - nd.lastIncludedIndex := by
      unfold getLogLength at hge
      omega
    exact (List.getElem?_eq_none hlt).symm
  · rw [if_neg (by omega)]

theorem getTermOfLog_eq (hi : nd.lastIncludedIndex ≤ i) (hle : i ≤ l.length) :
    nd.getTermOfLog i = some (termAt LogEntry.term l i) := by
  rcases hi.eq_or_lt with rfl | hlt
  · have hlen := h.getLogLength_eq
    unfold getTermOfLog
    rw [if_neg (by omega), if_neg (lt_irrefl _), if_pos rfl, h.term]
  · obtain ⟨k, rfl⟩ : ∃ k, i = k + 1 := ⟨i - 1, by omega⟩
    have hk : k < l.length := by omega
    rw [Node.getTermOfLog_eq hlt, h.getLog_eq hlt]
    simp [termAt, List.getElem?_eq_getElem hk]

/-- An index whose term can be read lies in the log, and not below the snapshot. -/
theorem of_getTermOfLog {t : ℕ} (ht : nd.getTermOfLog i = some t) :
    nd.lastIncludedIndex ≤ i ∧ i ≤ l.length ∧ termAt LogEntry.term l i = t := by
  have hlen := h.getLogLength_eq
  have hi : nd.lastIncludedIndex ≤ i := by
    by_contra hlt
    unfold getTermOfLog at ht
    split at ht
    · cases ht
    · rw [if_pos (not_le.mp hlt)] at ht
      cases ht
  have hle : i ≤ l.length := by
    by_contra hgt
    unfold getTermOfLog at ht
    rw [if_pos (by omega)] at ht
    cases ht
  refine ⟨hi, hle, ?_⟩
  rw [h.getTermOfLog_eq hi hle] at ht
  exact Option.some.inj ht

/-- What a window on the entries from `first` up to and without `last` shows. -/
theorem getLogs_eq {first last : ℕ} {s : Slice} (hg : nd.getLogs first last = some s) :
    nd.lastIncludedIndex < first ∧ last ≤ l.length + 1 ∧ first ≤ last ∧
      nd.readSlice s = (l.take (last - 1)).drop (first - 1) := by
  have hlen := h.getLogLength_eq
  obtain ⟨hfirst, hle, hlast, -⟩ := getLogs_eq_some hg
  refine ⟨hfirst, by omega, hle, ?_⟩
  rw [readSlice_getLogs hg]
  obtain ⟨e, hlog⟩ := h.exists_log
  obtain ⟨i, hi⟩ : ∃ i, first - nd.lastIncludedIndex = i + 1 :=
    ⟨first - nd.lastIncludedIndex - 1, by omega⟩
  obtain ⟨j, hj⟩ : ∃ j, last - nd.lastIncludedIndex = j + 1 :=
    ⟨last - nd.lastIncludedIndex - 1, by omega⟩
  rw [hlog, hi, hj, List.take_succ_cons, List.drop_succ_cons, List.take_drop, List.drop_drop]
  congr 1
  · omega
  · congr 1
    omega

/-! ### Writing the log -/

/-- A new entry at the end. -/
theorem append (e : LogEntry C) (hi : nd'.lastIncludedIndex = nd.lastIncludedIndex)
    (ht : nd'.lastIncludedTerm = nd.lastIncludedTerm) (hl : nd'.log = nd.log ++ [e]) :
    nd'.Shows (l ++ [e]) where
  le := by
    have hle := h.le
    rw [hi, List.length_append]
    omega
  ne := by simp [hl]
  tail := by
    rw [hl, hi, List.tail_append_of_ne_nil h.ne, h.tail, List.drop_append_of_le_length h.le]
  term := by rw [ht, hi, h.term, termAt_of_isPrefix (List.prefix_append _ _) h.le]

theorem appendCommand (me : Fin n) (command : Option C) :
    (nd.appendCommand me command).Shows (l ++ [⟨nd.currentTerm, command⟩]) :=
  h.append _ rfl rfl rfl

/-- `Snapshot` drops entries, and stands for the same log. -/
theorem compact {index term : ℕ} (hlt : nd.lastIncludedIndex < index)
    (ht : nd.getTermOfLog index = some term) : (nd.compact index term).Shows l := by
  obtain ⟨-, hle, hterm⟩ := h.of_getTermOfLog ht
  obtain ⟨e, hlog⟩ := h.exists_log
  have hlen := h.length_log
  refine ⟨hle, ?_, ?_, hterm.symm⟩
  · exact List.drop_eq_nil_iff.not.mpr (by omega)
  · show (nd.log.drop (index - nd.lastIncludedIndex)).tail = l.drop index
    rw [List.tail_drop, hlog, List.drop_succ_cons, List.drop_drop]
    congr 1
    omega

/-- Copying one entry. -/
theorem copyEntry {k : ℕ} (hk : nd.lastIncludedIndex ≤ k) (hle : k ≤ l.length) (e : LogEntry C) :
    (nd.copyEntry (k + 1) e).Shows (put LogEntry.term l k e) := by
  have hlen := h.getLogLength_eq
  unfold Node.copyEntry put
  by_cases hend : l.length ≤ k
  · rw [if_pos (by omega), if_pos hend]
    exact h.append e rfl rfl rfl
  rw [if_neg (by omega), if_neg hend, h.getTermOfLog_eq (by omega) (by omega)]
  by_cases hsame : termAt LogEntry.term l (k + 1) = e.term
  · rw [if_neg (not_not.mpr (congrArg some hsame)), if_neg (not_not.mpr hsame)]
    exact h
  · rw [if_pos fun heq => hsame (Option.some.inj heq), if_pos hsame]
    -- cut the log behind index `k`, and append
    have hcut : (nd.cutLog (k + 1 - nd.lastIncludedIndex)).Shows (l.take k) := by
      obtain ⟨e', hlog⟩ := h.exists_log
      have hslot : k + 1 - nd.lastIncludedIndex = k - nd.lastIncludedIndex + 1 := by omega
      refine ⟨?_, ?_, ?_, ?_⟩
      · show nd.lastIncludedIndex ≤ (l.take k).length
        rw [List.length_take]
        omega
      · show nd.log.take (k + 1 - nd.lastIncludedIndex) ≠ []
        rw [hslot, hlog, List.take_succ_cons]
        exact List.cons_ne_nil _ _
      · show (nd.log.take (k + 1 - nd.lastIncludedIndex)).tail =
          (l.take k).drop nd.lastIncludedIndex
        rw [hslot, hlog, List.take_succ_cons, List.tail_cons, List.drop_take]
      · show nd.lastIncludedTerm = termAt LogEntry.term (l.take k) nd.lastIncludedIndex
        rw [h.term, termAt_take hk]
    exact hcut.append e rfl rfl rfl

end

/-- Copying the entries of a log that matches: the own log stays as it is, or the received one
    takes its place. -/
theorem copyEntries {entries x : List (LogEntry C)} {k : ℕ} (h : nd.Shows x)
    (hk : nd.lastIncludedIndex ≤ k) (hm : Matching LogEntry.term l c)
    (hx : Overwrites l (c.take k) x) (he : entries = c.drop k) (hkc : k ≤ c.length) :
    ∃ l', (nd.copyEntries (k + 1) entries).Shows l' ∧ Overwrites l c l' := by
  induction entries generalizing nd x k with
  | nil =>
    have hlen : c.length ≤ k := List.drop_eq_nil_iff.mp he.symm
    rw [List.take_of_length_le hlen] at hx
    exact ⟨x, h, hx⟩
  | cons e entries ih =>
    obtain ⟨hlt, hdrop⟩ : k < c.length ∧ (c)[k]? = some e ∧ entries = c.drop (k + 1) := by
      have hlt : k < c.length := by
        by_contra hge
        rw [List.drop_eq_nil_of_le (not_lt.mp hge)] at he
        cases he
      rw [List.drop_eq_getElem_cons hlt] at he
      obtain ⟨rfl, rfl⟩ := List.cons.inj he
      exact ⟨hlt, List.getElem?_eq_getElem hlt, rfl⟩
    have hkx : k ≤ x.length := by
      have hp := hx.isPrefix.length_le
      rw [List.length_take] at hp
      omega
    obtain ⟨log, backing, hcopy⟩ := copyEntry_eq nd (k + 1) e
    have hsame : (nd.copyEntry (k + 1) e).lastIncludedIndex = nd.lastIncludedIndex := by rw [hcopy]
    exact ih (h.copyEntry hk hkx e) (by rw [hsame]; omega) (hx.put hm hdrop.1) hdrop.2 hlt

/-! ### Taking over a snapshot -/

section Install

variable {args : InstallSnapshotArgs n D}

theorem install_tail (h : nd.Shows l) (hlt : nd.lastIncludedIndex < args.lastIncludedIndex) :
    (nd.install args).log.tail = l.drop args.lastIncludedIndex := by
  obtain ⟨e, hlog⟩ := h.exists_log
  show nd.log.drop (args.lastIncludedIndex + 1 - nd.lastIncludedIndex) = _
  have hslot : args.lastIncludedIndex + 1 - nd.lastIncludedIndex =
      args.lastIncludedIndex - nd.lastIncludedIndex + 1 := by omega
  rw [hslot, hlog, List.drop_succ_cons, List.drop_drop]
  congr 1
  omega

/-- If the own entry at the index of the snapshot has its term, the peer keeps its log. -/
theorem install_own (h : nd.Shows l) (hlt : nd.lastIncludedIndex < args.lastIncludedIndex)
    (hle : args.lastIncludedIndex ≤ l.length)
    (ht : args.lastIncludedTerm = termAt LogEntry.term l args.lastIncludedIndex) :
    (nd.install args).Shows l where
  le := hle
  ne := List.cons_ne_nil _ _
  tail := h.install_tail hlt
  term := ht

/-- If the own log does not go beyond the snapshot, the peer takes over the log `c` that the
    snapshot stands for. -/
theorem install_isPrefix (h : nd.Shows l) (hlt : nd.lastIncludedIndex < args.lastIncludedIndex)
    (hle : l.length ≤ args.lastIncludedIndex) (hc : c.length = args.lastIncludedIndex)
    (ht : args.lastIncludedTerm = termAt LogEntry.term c args.lastIncludedIndex) :
    (nd.install args).Shows c where
  le := hc.ge
  ne := List.cons_ne_nil _ _
  tail := by
    show (nd.install args).log.tail = c.drop args.lastIncludedIndex
    rw [h.install_tail hlt, List.drop_eq_nil_of_le hle, List.drop_eq_nil_of_le hc.le]
  term := ht

end Install

end Shows

end Node

end MitDistributed.Raft
