import MitDistributed.Raft.Entries
import MitDistributed.Raft.Stored

namespace MitDistributed.Raft

open Memory

/-!
# Raft — windows on the log

`getLogs` hands out windows on the array of the log, and goroutines read them later without a lock:
`sendAppendEntries` while its request is encoded, `applyLoop` while it delivers a batch.  What they
then see is what was there before (`Node.Frames`, `Node.SparesBelow`) unless `AppendEntries` has cut
the log in between: the entries it appends after a cut go to the slots that were cut off.

* `Node.Cuts` — when `AppendEntries` cuts the log;
* `Node.copyLog_sparesBelow` — it spares the windows on the part of the log that it leaves as it is;
* `Stored.sparesBelow` — every other step spares all windows;
* `Node.WillSend` — what a goroutine of `sendAppendEntries` is going to send, as long as its window
  is spared.
-/

variable {n : ℕ} {C D : Type}

/-- Whether the request is being encoded. -/
def AppendPc.encoding : AppendPc C → Bool
  | .encode _ => true
  | _ => false

def Thread.encoding : Thread n C D → Bool
  | .sendAppendEntries _ _ pc => pc.encoding
  | _ => false

namespace Node

/-- Whether a goroutine is encoding a request. -/
def encoding (nd : Node n C D) : Bool := nd.threads.any Thread.encoding

theorem encoding_of_mem {nd : Node n C D} {peer : Fin n} {args : SenderArgs n} {pc : AppendPc C}
    (h : .sendAppendEntries peer args pc ∈ nd.threads) (hpc : pc.encoding = true) :
    nd.encoding = true :=
  List.any_eq_true.mpr ⟨_, h, hpc⟩

/-- No `append` at the peer writes to a slot of the window. -/
def Frames (nd : Node n C D) (s : Slice) : Prop := nd.backing.Within nd.log s

/-- The windows below slot `m` of the log, and those on arrays that the log has left, show in `nd'`
    what they show in `nd`. -/
def SparesBelow (m : ℕ) (nd nd' : Node n C D) : Prop :=
  Backing.Spares m nd.backing nd.log nd'.backing nd'.log

section

variable {nd nd' : Node n C D} {m i : ℕ} {s : Slice}

/-- A step that leaves the log alone. -/
theorem SparesBelow.of_eq (hl : nd'.log = nd.log) (hb : nd'.backing = nd.backing) (m : ℕ) :
    SparesBelow m nd nd' := by
  unfold SparesBelow
  rw [hl, hb]
  exact .refl m _ _

/-- If all of the log is spared, every window is. -/
theorem SparesBelow.frames (h : SparesBelow nd.log.length nd nd') (hs : nd.Frames s) :
    nd'.Frames s ∧ nd'.readSlice s = nd.readSlice s := by
  have hbound (ha : s.array = nd.backing.retired.length) : s.first + s.length ≤ nd.log.length := by
    rcases hs with ⟨hlt, -⟩ | ⟨-, hle⟩
    · omega
    · exact hle
  obtain ⟨hframes, hread, -⟩ := h s hs hbound
  exact ⟨hframes, hread⟩

/-- A window shows as many entries as it has slots. -/
theorem Frames.length_readSlice (h : nd.Frames s) : (nd.readSlice s).length = s.length :=
  Backing.length_read (Backing.Within.le h)

/-- What the slots of a window hold. -/
theorem Frames.getElem?_readSlice (h : nd.Frames s) (hi : i < s.length) :
    (nd.readSlice s)[i]? = some (nd.sliceEntry s i) :=
  Backing.Within.getElem?_read h hi .zero

end

/-! ### Copying entries -/

/-- Some entry of the request has another term than the own entry at its index: `AppendEntries`
    cuts the log. -/
def Cuts (nd : Node n C D) (args : AppendEntriesArgs n C) : Prop :=
  ∃ k < args.entries.length, nd.getTermOfLog (args.prevLogIndex + 1 + k) ≠ none ∧
    nd.getTermOfLog (args.prevLogIndex + 1 + k) ≠ (args.entries[k]?).map LogEntry.term

instance (nd : Node n C D) (args : AppendEntriesArgs n C) : Decidable (nd.Cuts args) :=
  inferInstanceAs (Decidable (∃ k < args.entries.length, _ ∧ _))

variable {nd : Node n C D}

/-- The loop spares what it leaves as it is: where it cuts the log, the next entry differs. -/
theorem copyEntries_sparesBelow {m index : ℕ} {entries : List (LogEntry C)}
    (hl : nd.lastIncludedIndex < index) (hle : index ≤ nd.getLogLength) (hm : m ≤ nd.log.length)
    (hkeep : ∀ i e, i < nd.lastIncludedIndex + m → nd.getLog i = some e →
      (nd.copyEntries index entries).getLog i = some e) :
    SparesBelow m nd (nd.copyEntries index entries) := by
  induction entries generalizing nd index with
  | nil => exact .refl m _ _
  | cons entry entries ih =>
    obtain ⟨hsame, hlen⟩ := copyEntry_bounds entry hl hle
    have hrest {nd' : Node n C D} (heq : nd.copyEntry index entry = nd')
        (hspare : SparesBelow m nd nd') (htake : nd'.log.take m = nd.log.take m)
        (hm' : m ≤ nd'.log.length) :
        SparesBelow m nd (nd.copyEntries index (entry :: entries)) := by
      subst heq
      refine hspare.trans (ih (hsame ▸ Nat.lt_succ_of_lt hl) hlen hm' fun i e hi he => ?_)
      rw [hsame] at hi
      -- below slot `m` the entries are still those of the log before
      obtain ⟨hlow, hslot⟩ := getLog_eq_some_iff.mp he
      rw [hsame] at hlow hslot
      refine hkeep i e hi (getLog_eq_some_iff.mpr ⟨hlow, ?_⟩)
      rw [← List.getElem?_take_of_lt (by omega : i - nd.lastIncludedIndex < m), ← htake,
        List.getElem?_take_of_lt (by omega), hslot]
    by_cases hend : index > nd.getLogLength - 1
    · -- behind the end of the log nothing is overwritten
      refine hrest (if_pos hend) (Backing.spares_append m) ?_ ?_
      · exact List.take_append_of_le_length hm
      · simp only [appendEntry, List.length_append]
        omega
    by_cases hterm : nd.getTermOfLog index ≠ some entry.term
    · have hlog : index - nd.lastIncludedIndex < nd.log.length := by
        unfold getLogLength at hend
        omega
      by_cases hcut : m ≤ index - nd.lastIncludedIndex
      · have heq : nd.copyEntry index entry =
            (nd.cutLog (index - nd.lastIncludedIndex)).appendEntry entry := by
          unfold copyEntry
          rw [if_neg hend, if_pos hterm]
        refine hrest heq ((Backing.spares_cut hcut).trans (Backing.spares_append m)) ?_ ?_
        · simp only [appendEntry, cutLog]
          rw [List.take_append_of_le_length (by rw [List.length_take]; omega), List.take_take,
            min_eq_left hcut]
        · simp only [appendEntry, cutLog, List.length_append, List.length_take]
          omega
      · -- a cut below slot `m` leaves another entry there
        obtain ⟨own, hown⟩ := exists_getLog hl (by omega)
        obtain ⟨e, he, het⟩ := copyEntry_getLog_self entry hl hle
        have hfinal := copyEntries_getLog_of_lt entries (Nat.lt_succ_self index) he
        have hsame := hkeep index own (by omega) hown
        obtain rfl : e = own := Option.some.inj (hfinal.symm.trans hsame)
        refine absurd ?_ hterm
        rw [getTermOfLog_eq hl, hown, Option.map_some, het]
    · -- the own entry has the term of the received one
      refine hrest ?_ (.refl m _ _) rfl hm
      unfold copyEntry
      rw [if_neg hend, if_neg hterm]

/-- `AppendEntries` spares what it leaves as it is. -/
theorem copyLog_sparesBelow {m : ℕ} {args : AppendEntriesArgs n C} (hne : nd.log ≠ [])
    (hacc : nd.Accepts args) (hm : m ≤ nd.log.length)
    (hkeep : ∀ i e, i < nd.lastIncludedIndex + m → nd.getLog i = some e →
      (nd.copyLog args).getLog i = some e) : SparesBelow m nd (nd.copyLog args) := by
  unfold copyLog at hkeep ⊢
  split
  · exact .refl m _ _
  · rename_i hnil
    rw [if_neg hnil] at hkeep
    exact copyEntries_sparesBelow (Nat.lt_succ_of_le hacc.lastIncluded) (hacc.prev_lt hne) hm hkeep

/-- An `AppendEntries` that does not cut the log spares all windows. -/
theorem copyLog_spares {args : AppendEntriesArgs n C} (hne : nd.log ≠ []) (hacc : nd.Accepts args)
    (h : ¬ nd.Cuts args) :
    SparesBelow nd.log.length nd (nd.copyLog args) := by
  refine copyLog_sparesBelow hne hacc le_rfl fun i e _ he => ?_
  unfold copyLog
  split
  · exact he
  have hlow := Nat.lt_succ_of_le hacc.lastIncluded
  rcases copyEntries_keeps args.entries hlow (hacc.prev_lt hne) he with
    hkept | ⟨k, e', own, hk, -, hown, hterm⟩
  · exact hkept
  · -- an own entry is given up only where a received one contradicts the own log
    refine absurd ?_ h
    have hlow' : nd.lastIncludedIndex < args.prevLogIndex + 1 + k := (getLog_lt hown).1
    refine ⟨k, (List.getElem?_eq_some_iff.mp hk).1, ?_⟩
    rw [getTermOfLog_eq hlow', hown, hk]
    exact ⟨Option.some_ne_none _, fun heq => hterm (Option.some.inj heq).symm⟩

/-- The answer of `AppendEntries` leaves the array alone. -/
theorem appendCommit_backing (me : Fin n) (nd : Node n C D) (call : ℕ)
    (args : AppendEntriesArgs n C) :
    (nd.appendCommit me call args).node.backing = nd.backing := by
  simp only [appendCommit, followCommit]
  split <;> rfl

/-! ### Requests under way -/

/-- The request that the window of `args` shows has property `P`. -/
structure Presents (nd : Node n C D) (P : AppendEntriesArgs n C → Prop) (args : SenderArgs n) :
    Prop where
  frames : nd.Frames args.entries
  shows : P (args.request (nd.readSlice args.entries))

/-- The request that a goroutine sends next has property `P`, at a peer in term `term`: if it is
    encoded already, or unless the check will end the goroutine. -/
def WillSend (nd : Node n C D) (term : ℕ) (P : AppendEntriesArgs n C → Prop)
    (args : SenderArgs n) : AppendPc C → Prop
  | .encode encoded => nd.Presents P args ∧ encoded <+: nd.readSlice args.entries
  | _ => args.term < term ∨ nd.Presents P args

section

variable {nd' : Node n C D} {term term' : ℕ} {P P' : AppendEntriesArgs n C → Prop}
  {args : SenderArgs n} {pc : AppendPc C} {encoded : List (LogEntry C)}

/-- What a window shows stays, if the window is spared. -/
theorem Presents.spared (h : nd.Presents P args) (hs : SparesBelow nd.log.length nd nd')
    (hP : ∀ r, P r → P' r) : nd'.Presents P' args := by
  obtain ⟨hframes, hread⟩ := hs.frames h.frames
  refine ⟨hframes, hP _ ?_⟩
  rw [hread]
  exact h.shows

/-- In the term of the request the check does not end the goroutine. -/
theorem WillSend.presents (h : nd.WillSend term P args pc) (ht : term ≤ args.term) :
    nd.Presents P args := by
  cases pc with
  | encode encoded => exact h.1
  | check => exact Or.resolve_left h (Nat.not_lt.mpr ht)
  | wait call => exact Or.resolve_left h (Nat.not_lt.mpr ht)

/-- A goroutine that is not encoding can go on, if the window is spared as long as the peer is in
    the term of the request; one that is encoding, if it is spared. -/
theorem WillSend.spared (h : nd.WillSend term P args pc) (ht : term ≤ term') (hP : ∀ r, P r → P' r)
    (hs : term ≤ args.term ∨ pc.encoding = true → SparesBelow nd.log.length nd nd') :
    nd'.WillSend term' P' args pc := by
  have hwait (h : args.term < term ∨ nd.Presents P args) :
      args.term < term' ∨ nd'.Presents P' args := by
    rcases Nat.lt_or_ge args.term term with hlt | hge
    · exact .inl (Nat.lt_of_lt_of_le hlt ht)
    · exact .inr ((h.resolve_left (Nat.not_lt.mpr hge)).spared (hs (.inl hge)) hP)
  cases pc with
  | encode encoded =>
    obtain ⟨hpres, hp⟩ := h
    have hspare := hs (.inr rfl)
    refine ⟨hpres.spared hspare hP, ?_⟩
    rw [(hspare.frames hpres.frames).2]
    exact hp
  | check => exact hwait h
  | wait call => exact hwait h

/-- The encoder goes on to the next entry of the window. -/
theorem WillSend.encode (h : nd.WillSend term P args (.encode encoded))
    (hlt : encoded.length < args.entries.length) :
    nd.WillSend term P args
      (.encode (encoded ++ [nd.sliceEntry args.entries encoded.length])) := by
  obtain ⟨hpres, rest, hrest⟩ := h
  refine ⟨hpres, ?_⟩
  have hentry := hpres.frames.getElem?_readSlice hlt
  rw [← hrest, List.getElem?_append_right le_rfl, Nat.sub_self] at hentry
  cases rest with
  | nil => cases hentry
  | cons e rest =>
    obtain rfl : e = nd.sliceEntry args.entries encoded.length := Option.some.inj hentry
    exact ⟨rest, by rw [List.append_assoc]; exact hrest⟩

/-- It has not gone beyond the window. -/
theorem WillSend.length_le (h : nd.WillSend term P args (.encode encoded)) :
    encoded.length ≤ args.entries.length :=
  h.2.length_le.trans h.1.frames.length_readSlice.le

/-- Once the encoder has gone through the window, it has what the window shows. -/
theorem WillSend.sends (h : nd.WillSend term P args (.encode encoded))
    (hge : ¬ encoded.length < args.entries.length) : P (args.request encoded) := by
  obtain ⟨hpres, hp⟩ := h
  have hlen := hpres.frames.length_readSlice
  rw [hp.eq_of_length_le (by omega)]
  exact hpres.shows

end

end Node

/-- **Classification.** A step other than a restart spares the windows below slot `m`, if that is so
    of the entries that `AppendEntries` copies. -/
theorem Stored.sparesBelow {w : World n C D} {p : Fin n} {eff : Effect n C D} {a : Action n C D}
    (h : Stored w p eff a) (ha : a ≠ .restart p) {m : ℕ}
    (hcopy : ∀ call args, a = .resume p → w.Copies p eff call args →
      Node.SparesBelow m (w.nodes p) ((w.nodes p).copyLog args)) :
    Node.SparesBelow m (w.nodes p) eff.node := by
  cases h with
  | leave hl => exact .of_eq hl.same.log hl.same.backing m
  | copy hh hacc => exact hcopy _ _ rfl ⟨hh, hacc, rfl⟩
  | accept =>
    exact .of_eq (Node.appendCommit_fields p _ _ _).1 (Node.appendCommit_backing p _ _ _) m
  | install => exact Backing.spares_move m
  | installSave => exact .of_eq rfl rfl m
  | compact => exact Backing.spares_move m
  | snapshotSave => exact .of_eq rfl rfl m
  | start => exact Backing.spares_append m
  | restart => exact absurd rfl ha

/-- A step that changes where the log starts moves it to a new array, which no window is on. -/
theorem Stored.lastIncludedIndex_eq {w : World n C D} {p : Fin n} {eff : Effect n C D}
    {a : Action n C D} (h : Stored w p eff a) (ha : a ≠ .restart p) {s : Slice}
    (hs : (w.nodes p).Frames s) (hcur : s.array = eff.node.backing.retired.length) :
    eff.node.lastIncludedIndex = (w.nodes p).lastIncludedIndex := by
  have hle := Backing.Within.array_le hs
  have hmoved (hlen : eff.node.backing.retired.length =
      ((w.nodes p).backing.retired ++ [(w.nodes p).log ++ (w.nodes p).backing.spare]).length) :
      eff.node.lastIncludedIndex = (w.nodes p).lastIncludedIndex := by
    rw [List.length_append, List.length_singleton] at hlen
    omega
  cases h with
  | leave hl => exact hl.same.lastIncludedIndex
  | @copy call args hh hacc =>
    rcases Node.copyLog_eq (w.nodes p) args with heq | ⟨log, backing, heq⟩ <;> rw [heq]
    rfl
  | accept => exact (Node.appendCommit_fields p _ _ _).2.1
  | install => exact hmoved rfl
  | installSave => rfl
  | compact => exact hmoved rfl
  | snapshotSave => rfl
  | start => rfl
  | restart => exact absurd rfl ha

end MitDistributed.Raft
