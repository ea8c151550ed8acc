import MitDistributed.Raft.Stored

namespace MitDistributed.Raft

open Transition

/-!
# Raft — the snapshot that belongs to the log

A peer keeps its compacted log in the raft state of its `Persister` and the snapshot beside
it, and writes the two one after the other.  As long as it does not crash in between, or while
its raft state is erased (`World.CrashesSafely`),

* the snapshot is the last one that the peer took or installed, and `lastIncludedIndex` is its
  index (`World.Paired`);
* it was taken by some service at this very index, and so was every snapshot on the wire
  (`World.Provenance`).
-/

variable {n : ℕ} {C D : Type}

/-! ### Crashes -/

namespace Node

/-- A moment at which a crash loses nothing: the peer is not between the two calls of the
    `Persister`, and its raft state is not erased. -/
def CrashSafe (nd : Node n C D) : Prop :=
  nd.saving = none ∧ (nd.persister.raftstate = none → nd.currentTerm = 0)

instance [DecidableEq D] (nd : Node n C D) : Decidable nd.CrashSafe :=
  inferInstanceAs (Decidable (_ ∧ _))

end Node

namespace World

/-- Peers crash only at such moments. -/
def CrashesSafely (w : World n C D) : Action n C D → Prop
  | .restart p => (w.nodes p).CrashSafe
  | _ => True

instance [DecidableEq D] (w : World n C D) : (a : Action n C D) → Decidable (w.CrashesSafely a)
  | .restart p => inferInstanceAs (Decidable (w.nodes p).CrashSafe)
  | .main _ | .thread .. | .reply .. | .apply _ | .deliver _ | .resume _ | .start .. |
    .snapshot .. => isTrue trivial

theorem CrashesSafely.keepsState {w : World n C D} {a : Action n C D} (h : w.CrashesSafely a) :
    w.KeepsState a := by
  cases a with
  | restart p => exact h.2
  | _ => trivial

end World

/-! ### The snapshot that belongs to the log -/

/-- The last snapshot that `p` has taken or installed, with its index. -/
def lastSnapshot (p : Fin n) : List (Event n C D) → Option (ℕ × Option D)
  | [] => none
  | .snapshotted q index snapshot :: rest =>
    if q = p then some (index, snapshot) else lastSnapshot p rest
  | .installed q index snapshot :: rest =>
    if q = p then some (index, snapshot) else lastSnapshot p rest
  | _ :: rest => lastSnapshot p rest

/-- The index of the snapshot and the snapshot of a peer, as soon as it is saved. -/
def Node.snapshotPair (nd : Node n C D) : ℕ × Option D :=
  (nd.lastIncludedIndex, nd.saving.getD nd.persister.snapshot)

theorem lastSnapshot_append {p : Fin n} {events trace : List (Event n C D)}
    (h : ∀ e ∈ events, e.isStored = false) :
    lastSnapshot p (events ++ trace) = lastSnapshot p trace := by
  induction events with
  | nil => rfl
  | cons e events ih =>
    have he := h e (by simp)
    have hrest := ih fun e' he' => h e' (by simp [he'])
    cases e <;> first | exact hrest | simp [Event.isStored] at he

/-- Events of another peer do not matter. -/
theorem lastSnapshot_append_of_ne {p q : Fin n} (hne : q ≠ p) {w : World n C D} {eff : Effect n C D}
    {a : Action n C D} (h : Stored w q eff a) (trace : List (Event n C D)) :
    lastSnapshot p (eff.events ++ trace) = lastSnapshot p trace := by
  cases h with
  | leave hl => exact lastSnapshot_append hl.events
  | install => simp [lastSnapshot, hne]
  | compact => simp [lastSnapshot, hne]
  | _ => rfl

theorem Node.SameStore.snapshotPair {nd nd' : Node n C D} (h : nd.SameStore nd') :
    nd'.snapshotPair = nd.snapshotPair := by
  rw [Node.snapshotPair, Node.snapshotPair, h.lastIncludedIndex, h.saving, h.snapshot]

/-- A restart from a safe moment keeps the log together with its snapshot. -/
theorem Node.make_snapshotPair {nd : Node n C D} (hd : nd.Durable)
    (hf : nd.currentTerm = 0 → nd.Fresh) (hs : nd.CrashSafe) :
    (make nd.persister nd.backing.room).snapshotPair = nd.snapshotPair := by
  have hb := congrArg RaftBytes.lastIncludedIndex (make_bytes_eq hd hf hs.2)
  have hheld : (make nd.persister nd.backing.room).saving = none := by rw [saving, make_held]; rfl
  have hl : (make nd.persister nd.backing.room).lastIncludedIndex = nd.lastIncludedIndex := hb
  rw [Node.snapshotPair, Node.snapshotPair, hheld, hs.1, make_persister, hl]

namespace World

variable {w w' : World n C D} {p : Fin n} {eff : Effect n C D} {a : Action n C D}

/-- Log and snapshot of every peer belong to the last snapshot that it took or installed. -/
def Paired (w : World n C D) : Prop :=
  ∀ p, (lastSnapshot p w.trace).getD (0, none) = (w.nodes p).snapshotPair

theorem paired_of_stored (hs : Stored w p eff a) (hw : w.Plumbed) (hc : w.CrashesSafely a)
    (hp : (lastSnapshot p w.trace).getD (0, none) = (w.nodes p).snapshotPair) :
    (lastSnapshot p (eff.events ++ w.trace)).getD (0, none) = eff.node.snapshotPair := by
  cases hs with
  | leave hl => rw [lastSnapshot_append hl.events, hl.same.snapshotPair, hp]
  | @copy _ args hh _ =>
    refine Eq.trans hp ?_
    rw [Node.snapshotPair, Node.snapshotPair, Node.saving_of_held hh]
    rcases Node.copyLog_eq (w.nodes p) args with h | ⟨log, backing, h⟩ <;> rw [h] <;> rfl
  | accept hh =>
    refine Eq.trans hp ?_
    rw [Node.snapshotPair, Node.snapshotPair, Node.saving_of_held hh]
    simp only [Node.appendCommit, Node.followCommit]
    split <;> rfl
  | install hh hi => simp [lastSnapshot, Node.snapshotPair, Node.saving, Held.saving, Node.install,
      Node.moveLog, Node.persist]
  | compact => simp [lastSnapshot, Node.snapshotPair, Node.saving, Held.saving, Node.compact,
      Node.moveLog, Node.persist]
  | installSave hh | snapshotSave hh =>
    refine Eq.trans hp ?_
    rw [Node.snapshotPair, Node.snapshotPair, Node.saving_of_held hh]
    rfl
  | start => exact hp
  | restart => exact hp.trans (Node.make_snapshotPair (hw.durable p) (hw.fresh p) hc).symm

theorem Paired.step (hp : w.Paired) (hw : w.Plumbed) (hc : w.CrashesSafely a)
    (h : w.step a = some w') : w'.Paired := by
  obtain ⟨q, eff, heff, rfl⟩ := step_eq_some h
  have hs := local_stored (effect_local heff)
  intro p
  rcases eq_or_ne p q with rfl | hne
  · rw [after_nodes_self]
    exact paired_of_stored hs hw hc (hp p)
  · rw [after_nodes_of_ne _ _ _ hne]
    have hsame := lastSnapshot_append_of_ne hne.symm hs w.trace
    exact (congrArg (Option.getD · (0, none)) hsame).trans (hp p)

end World

/-! ### Whose snapshot it is -/

/-- The snapshot is the initial one, or some service took it at this index. -/
def Taken (trace : List (Event n C D)) (pair : ℕ × Option D) : Prop :=
  pair = (0, none) ∨ ∃ q, .snapshotted q pair.1 pair.2 ∈ trace

theorem Taken.append {trace : List (Event n C D)} {pair : ℕ × Option D} (h : Taken trace pair)
    (events : List (Event n C D)) : Taken (events ++ trace) pair := by
  rcases h with h | ⟨q, hq⟩
  · exact .inl h
  · exact .inr ⟨q, List.mem_append_right _ hq⟩

/-- The snapshot in a request, with its index. -/
def Request.snapshotPair : Request n C D → Option (ℕ × Option D)
  | .installSnapshot args => some (args.lastIncludedIndex, args.data)
  | _ => none

/-- The snapshot that a goroutine sends, with its index. -/
def Thread.snapshotPair : Thread n C D → Option (ℕ × Option D)
  | .sendInstallSnapshot _ args _ => some (args.lastIncludedIndex, args.data)
  | _ => none

/-- While the log can be read, no snapshot is about to be saved. -/
theorem Node.saving_of_logReadable {nd : Node n C D} (h : nd.logReadable = true) :
    nd.saving = none := by
  unfold logReadable at h
  unfold saving
  split at h <;> rename_i hh
  · rw [hh]; rfl
  · rw [hh]; rfl
  · cases h

namespace World

variable {w w' : World n C D} {p : Fin n} {eff : Effect n C D} {a : Action n C D}

/-- Every snapshot that is installed, sent or about to be sent was taken by some service. -/
structure Provenance (w : World n C D) : Prop where
  installed : ∀ p i s, .installed p i s ∈ w.trace → Taken w.trace (i, s)
  threads : ∀ p, ∀ th ∈ (w.nodes p).threads, ∀ pair, th.snapshotPair = some pair →
    Taken w.trace pair
  calls : ∀ c ∈ w.calls, ∀ pair, c.request.snapshotPair = some pair → Taken w.trace pair

theorem mem_of_lastSnapshot {p : Fin n} {trace : List (Event n C D)} {i : ℕ} {s : Option D}
    (h : lastSnapshot p trace = some (i, s)) :
    .snapshotted p i s ∈ trace ∨ .installed p i s ∈ trace := by
  induction trace with
  | nil => simp [lastSnapshot] at h
  | cons e trace ih =>
    have hrest (h : lastSnapshot p trace = some (i, s)) :
        .snapshotted p i s ∈ e :: trace ∨ .installed p i s ∈ e :: trace :=
      (ih h).imp (List.mem_cons_of_mem e) (List.mem_cons_of_mem e)
    cases e with
    | snapshotted q j s' =>
      rw [lastSnapshot] at h
      split at h
      · rename_i hq
        simp only [Option.some.injEq, Prod.mk.injEq] at h
        obtain ⟨rfl, rfl⟩ := h
        exact .inl (by rw [hq]; exact List.mem_cons_self)
      · exact hrest h
    | installed q j s' =>
      rw [lastSnapshot] at h
      split at h
      · rename_i hq
        simp only [Option.some.injEq, Prod.mk.injEq] at h
        obtain ⟨rfl, rfl⟩ := h
        exact .inr (by rw [hq]; exact List.mem_cons_self)
      · exact hrest h
    | _ => exact hrest h

/-- The snapshot of a peer was taken by some service at its index. -/
theorem Provenance.taken (hpv : w.Provenance) (hp : w.Paired) (p : Fin n) :
    Taken w.trace (w.nodes p).snapshotPair := by
  rw [← hp p]
  cases h : lastSnapshot p w.trace with
  | none => exact .inl rfl
  | some pair =>
    rcases mem_of_lastSnapshot h with hs | hi
    · exact .inr ⟨p, hs⟩
    · exact hpv.installed p pair.1 pair.2 hi

/-- A snapshot that a step starts to send was taken by some service. -/
theorem Provenance.of_spawns (hpv : w.Provenance) (hp : w.Paired) (hw : w.Plumbed)
    {th : Thread n C D} (h : (w.nodes p).Spawns p w.calls eff a th) {pair : ℕ × Option D}
    (ht : th.snapshotPair = some pair) : Taken w.trace pair := by
  cases h with
  | snapshot hserves =>
    -- it reads the log, so that the snapshot is the one that belongs to the log
    have hsaving := Node.saving_of_logReadable (hserves.logReadable (hw.readers p))
    have htaken := hpv.taken hp p
    rw [Node.snapshotPair, hsaving] at htaken
    exact Option.some.inj ht ▸ htaken
  | resendSnapshot hk => exact hpv.threads p _ (List.mem_of_getElem? hk) pair ht
  | _ => cases ht

/-- An installed snapshot came in a request. -/
theorem installed_of_stored (hs : Stored w p eff a) (hw : w.Plumbed) {q : Fin n} {i : ℕ}
    {s : Option D} (h : .installed q i s ∈ eff.events) :
    ∃ c ∈ w.calls, c.request.snapshotPair = some (i, s) := by
  cases hs with
  | leave hl => exact absurd (hl.events _ h) (by simp [Event.isStored])
  | @install call args hh _ =>
    simp only [List.mem_singleton, Event.installed.injEq] at h
    obtain ⟨-, rfl, rfl⟩ := h
    obtain ⟨⟨c, hc, -, hr⟩, -⟩ := hw.held p _ hh call (.installSnapshot args) rfl
    exact ⟨c, List.mem_of_getElem? hc, by rw [hr]; rfl⟩
  | copy => simp at h
  | accept => simp [Node.appendCommit] at h
  | installSave => simp [Node.installSave] at h
  | compact => simp at h
  | snapshotSave => simp [Node.snapshotSave] at h
  | start => simp at h
  | restart => simp [Node.restart] at h

theorem Provenance.step (hpv : w.Provenance) (hp : w.Paired) (hw : w.Plumbed)
    (h : w.step a = some w') : w'.Provenance := by
  obtain ⟨p, eff, heff, rfl⟩ := step_eq_some h
  have hl := effect_local heff
  refine ⟨fun q i s hi => Taken.append ?_ _, fun q th hth pair ht => Taken.append ?_ _,
    fun c hc pair ht => Taken.append ?_ _⟩
  · rcases List.mem_append.mp hi with hnew | hold
    · obtain ⟨c, hc, hr⟩ := installed_of_stored (local_stored hl) hw hnew
      exact hpv.calls c hc _ hr
    · exact hpv.installed q i s hold
  · rcases eq_or_ne q p with rfl | hne
    · rw [after_nodes_self] at hth
      rcases local_moves hl th hth with hold | hnew
      · exact hpv.threads q th hold pair ht
      · exact hpv.of_spawns hp hw hnew ht
    · rw [after_nodes_of_ne _ _ _ hne] at hth
      exact hpv.threads q th hth pair ht
  · obtain ⟨i, hi⟩ := List.mem_iff_getElem?.mp hc
    rcases callsAfter_cases hi with ⟨c₀, hc₀, rfl⟩ | ⟨-, hs⟩
    · exact hpv.calls c₀ (List.mem_of_getElem? hc₀) pair ht
    · cases local_sends hw hl hs with
      | revote hcall => exact hpv.calls _ (List.mem_of_getElem? hcall) pair ht
      | snapshot hk => exact hpv.threads p _ (List.mem_of_getElem? hk) pair ht
      | vote | heartbeat | append => cases ht

theorem init_paired (room : Fin n → ℕ → ℕ) :
    (init room : World n C D).Paired := fun _ => rfl

theorem init_provenance (room : Fin n → ℕ → ℕ) :
    (init room : World n C D).Provenance where
  installed p i s h := by simp [init] at h
  threads p th hth := by simp [init, Node.make_threads] at hth
  calls c hc := by simp [init] at hc

/-- **Run.** In every run whose crashes are safe, log and snapshot belong together and every
    snapshot was taken by some service. -/
theorem Reachable.snapshots {ok : World n C D → Action n C D → Prop}
    (hok : ∀ w a, ok w a → w.CrashesSafely a) (h : Reachable ok w) :
    w.Paired ∧ w.Provenance := by
  induction h using Reachable.induct with
  | refl room => exact ⟨init_paired room, init_provenance room⟩
  | tail a hr hoka hstep ih =>
    have hw := Reachable.plumbed hr
    exact ⟨ih.1.step hw (hok _ a hoka) hstep, ih.2.step ih.1 hw hstep⟩

end World

end MitDistributed.Raft
