import MitDistributed.Raft.Durable

namespace MitDistributed.Raft

open Memory

/-!
# Raft — entries of a log

What `getLog` and `getTermOfLog` say about the slots of a compacted log, what a window of `getLogs`
shows, and what copying received entries does to the log: afterwards they stand at their indices
(`Node.copyEntries_covers`), and an own entry is given up only where a received one
contradicts the own log (`Node.copyEntries_keeps`).
-/

variable {n : ℕ} {C D : Type}

/-! ### Entries of a log -/

namespace Node

variable {nd : Node n C D} {i : ℕ}

theorem getLog_eq_some_iff {e : LogEntry C} :
    nd.getLog i = some e ↔
      nd.lastIncludedIndex < i ∧ nd.log[i - nd.lastIncludedIndex]? = some e := by
  unfold getLog getLogLength
  split
  · rename_i hge
    constructor
    · exact fun h => absurd h (by simp)
    · rintro ⟨hlt, h⟩
      obtain ⟨hb, -⟩ := List.getElem?_eq_some_iff.mp h
      omega
  · split
    · rename_i hle
      exact ⟨fun h => absurd h (by simp), fun h => absurd h.1 (not_lt.mpr hle)⟩
    · rename_i hlt
      exact ⟨fun h => ⟨not_le.mp hlt, h⟩, fun h => h.2⟩

theorem getLog_lt {e : LogEntry C} (h : nd.getLog i = some e) :
    nd.lastIncludedIndex < i ∧ i < nd.getLogLength := by
  obtain ⟨hlt, hi⟩ := getLog_eq_some_iff.mp h
  obtain ⟨hb, -⟩ := List.getElem?_eq_some_iff.mp hi
  unfold getLogLength
  omega

/-- Above the snapshot the term of an index is the term of its entry. -/
theorem getTermOfLog_eq (h : nd.lastIncludedIndex < i) :
    nd.getTermOfLog i = (nd.getLog i).map LogEntry.term := by
  unfold getTermOfLog getLog
  split
  · rfl
  · rw [if_neg (by omega), if_neg (by omega), if_neg (by omega)]

theorem exists_getLog (h : nd.lastIncludedIndex < i) (hlt : i < nd.getLogLength) :
    ∃ e, nd.getLog i = some e := by
  unfold getLogLength at hlt
  have hb : i - nd.lastIncludedIndex < nd.log.length := by omega
  exact ⟨nd.log[i - nd.lastIncludedIndex], getLog_eq_some_iff.mpr ⟨h, by simp [hb]⟩⟩

theorem getLogLength_appendCommand (me : Fin n) (nd : Node n C D) (command : Option C) :
    (nd.appendCommand me command).getLogLength = nd.getLogLength + 1 := by
  show nd.lastIncludedIndex + (nd.log ++ [_]).length = nd.lastIncludedIndex + nd.log.length + 1
  rw [List.length_append, List.length_singleton, Nat.add_assoc]

/-! ### Windows on the log -/

/-- A window that `getLogs` hands out, and where it lies. -/
theorem getLogs_eq_some {first last : ℕ} {s : Slice} (h : nd.getLogs first last = some s) :
    nd.lastIncludedIndex < first ∧ first ≤ last ∧ last ≤ nd.getLogLength ∧
      s = nd.backing.slice (first - nd.lastIncludedIndex) (last - nd.lastIncludedIndex) := by
  unfold getLogs at h
  split at h
  · cases h
  split at h
  · cases h
  split at h
  · cases h
  exact ⟨by omega, by omega, by omega, (Option.some.inj h).symm⟩

section Windows

variable {nd : Node n C D} {first last : ℕ} {s : Slice} (h : nd.getLogs first last = some s)

include h

/-- It has a slot for each index. -/
theorem length_getLogs : s.length = last - first := by
  obtain ⟨hlow, hle, -, rfl⟩ := getLogs_eq_some h
  simp only [Backing.slice]
  omega

/-- It is on slots of the log. -/
theorem within_getLogs : nd.backing.Within nd.log s := by
  obtain ⟨hlow, hle, hlast, rfl⟩ := getLogs_eq_some h
  unfold getLogLength at hlast
  exact Backing.within_slice (by omega) (by omega)

/-- It shows that part of the log. -/
theorem readSlice_getLogs :
    nd.readSlice s =
      (nd.log.take (last - nd.lastIncludedIndex)).drop (first - nd.lastIncludedIndex) := by
  obtain ⟨hlow, hle, hlast, rfl⟩ := getLogs_eq_some h
  unfold getLogLength at hlast
  exact Backing.read_slice (by omega)

end Windows

/-! ### Copying entries -/

/-- The received entries stand at their indices. -/
def Covers (nd : Node n C D) (index : ℕ) (entries : List (LogEntry C)) : Prop :=
  ∀ k e, entries[k]? = some e → ∃ e', nd.getLog (index + k) = some e' ∧ e'.term = e.term

variable {nd : Node n C D}

variable {index i : ℕ} {e : LogEntry C}

theorem copyEntry_getLog_of_lt (entry : LogEntry C) (h : i < index) (hi : nd.getLog i = some e) :
    (nd.copyEntry index entry).getLog i = some e := by
  obtain ⟨hlt, he⟩ := getLog_eq_some_iff.mp hi
  obtain ⟨hb, -⟩ := List.getElem?_eq_some_iff.mp he
  unfold copyEntry
  split
  · refine getLog_eq_some_iff.mpr ⟨hlt, ?_⟩
    show (nd.log ++ [entry])[i - nd.lastIncludedIndex]? = some e
    rw [List.getElem?_append_left hb, he]
  split
  · refine getLog_eq_some_iff.mpr ⟨hlt, ?_⟩
    show (nd.log.take (index - nd.lastIncludedIndex) ++ [entry])[i - nd.lastIncludedIndex]? = some e
    rw [List.getElem?_append_left (by rw [List.length_take]; omega), List.getElem?_take,
      if_pos (by omega), he]
  · exact hi

theorem copyEntry_getLog_self (entry : LogEntry C) (hl : nd.lastIncludedIndex < index)
    (hle : index ≤ nd.getLogLength) :
    ∃ e', (nd.copyEntry index entry).getLog index = some e' ∧ e'.term = entry.term := by
  have hlen : nd.getLogLength = nd.lastIncludedIndex + nd.log.length := rfl
  unfold copyEntry
  split
  · refine ⟨entry, getLog_eq_some_iff.mpr ⟨hl, ?_⟩, rfl⟩
    show (nd.log ++ [entry])[index - nd.lastIncludedIndex]? = some entry
    have hidx : index - nd.lastIncludedIndex = nd.log.length := by omega
    simp [hidx]
  split
  · refine ⟨entry, getLog_eq_some_iff.mpr ⟨hl, ?_⟩, rfl⟩
    have hidx : (nd.log.take (index - nd.lastIncludedIndex)).length =
        index - nd.lastIncludedIndex := by rw [List.length_take]; omega
    show (nd.log.take (index - nd.lastIncludedIndex) ++ [entry])[index - nd.lastIncludedIndex]? =
      some entry
    rw [List.getElem?_append_right hidx.le, hidx]
    simp
  · rename_i hlt hterm
    obtain ⟨e', he'⟩ := exists_getLog hl (by omega)
    rw [not_not, getTermOfLog_eq hl, he'] at hterm
    exact ⟨e', he', Option.some.inj hterm⟩

theorem copyEntry_bounds (entry : LogEntry C) (hl : nd.lastIncludedIndex < index)
    (hle : index ≤ nd.getLogLength) :
    (nd.copyEntry index entry).lastIncludedIndex = nd.lastIncludedIndex ∧
      index + 1 ≤ (nd.copyEntry index entry).getLogLength := by
  obtain ⟨e', he', -⟩ := copyEntry_getLog_self entry hl hle
  refine ⟨?_, (getLog_lt he').2⟩
  obtain ⟨log, backing, h⟩ := copyEntry_eq nd index entry
  rw [h]

theorem copyEntries_getLog_of_lt (entries : List (LogEntry C)) (h : i < index)
    (hi : nd.getLog i = some e) : (nd.copyEntries index entries).getLog i = some e := by
  induction entries generalizing nd index with
  | nil => exact hi
  | cons entry entries ih => exact ih (by omega) (copyEntry_getLog_of_lt entry h hi)

/-- After copying, the received entries stand at their indices. -/
theorem copyEntries_covers (entries : List (LogEntry C)) (hl : nd.lastIncludedIndex < index)
    (hle : index ≤ nd.getLogLength) : (nd.copyEntries index entries).Covers index entries := by
  induction entries generalizing nd index with
  | nil => exact fun k e h => absurd h (by simp)
  | cons entry entries ih =>
    obtain ⟨hsame, hlen⟩ := copyEntry_bounds entry hl hle
    intro k e hk
    cases k with
    | zero =>
      obtain ⟨e', he', ht⟩ := copyEntry_getLog_self entry hl hle
      obtain rfl : entry = e := by simpa using hk
      exact ⟨e', copyEntries_getLog_of_lt entries (Nat.lt_succ_self index) he', ht⟩
    | succ k =>
      have hrest := ih (hsame ▸ Nat.lt_succ_of_lt hl) hlen k e (by simpa using hk)
      rwa [Nat.add_assoc, Nat.add_comm 1 k] at hrest

/-- An own entry stays, unless a received entry at its index or before it has another term
    than the own one there. -/
theorem copyEntries_keeps (entries : List (LogEntry C)) (hl : nd.lastIncludedIndex < index)
    (hle : index ≤ nd.getLogLength) (hi : nd.getLog i = some e) :
    (nd.copyEntries index entries).getLog i = some e ∨
      ∃ k e' own, entries[k]? = some e' ∧ index + k ≤ i ∧ nd.getLog (index + k) = some own ∧
        e'.term ≠ own.term := by
  induction entries generalizing nd index with
  | nil => exact .inl hi
  | cons entry entries ih =>
    obtain ⟨hsame, hlen⟩ := copyEntry_bounds entry hl hle
    have hrange := getLog_lt hi
    by_cases hbefore : i < index
    · exact .inl (copyEntries_getLog_of_lt (entry :: entries) hbefore hi)
    -- the entry stands at `index` or later, so there is an own entry at `index`
    obtain ⟨own, hown⟩ := exists_getLog hl (by omega)
    by_cases hterm : own.term = entry.term
    · -- the own entry at `index` is kept, and the log with it
      have hkeep : nd.copyEntry index entry = nd := by
        unfold copyEntry
        rw [if_neg (by omega), if_neg]
        rw [not_not, getTermOfLog_eq hl, hown]
        exact congrArg some hterm
      rw [copyEntries, hkeep]
      rcases ih (by omega : nd.lastIncludedIndex < index + 1) (by omega) hi with
        hk | ⟨k, e', own', hk, hki, ho, hne⟩
      · exact .inl hk
      · refine .inr ⟨k + 1, e', own', by simpa using hk, by omega, ?_, hne⟩
        rwa [Nat.add_assoc, Nat.add_comm 1 k] at ho
    · exact .inr ⟨0, entry, own, rfl, not_lt.mp hbefore, hown, fun h => hterm h.symm⟩

end Node

end MitDistributed.Raft
