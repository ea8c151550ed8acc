import MitDistributed.Raft.Leadership
import MitDistributed.Raft.Stored

namespace MitDistributed.Raft

open Transition Consensus

/-!
# Raft — a service that never calls `Snapshot`

Without a call of `Snapshot` no log is ever compacted, so no peer sends, handles or installs
a snapshot, and the two-step writes of the `Persister` that erase its raft state never
happen (`Node.Plain`).  Terms and votes then survive every crash, and a term has at most one
winner (`votes_and_winners_unique`).
-/

variable {n : ℕ} {C D : Type}

/-- The service does not call `Snapshot`. -/
def World.NoSnapshot (_ : World n C D) : Action n C D → Prop
  | .snapshot .. => False
  | _ => True

instance (w : World n C D) : (a : Action n C D) → Decidable (w.NoSnapshot a)
  | .snapshot .. => isFalse id
  | .main _ | .thread .. | .reply .. | .apply _ | .deliver _ | .resume _ | .start .. |
    .restart _ => isTrue trivial

/-- Whether a request carries a snapshot. -/
def Request.isInstall : Request n C D → Bool
  | .installSnapshot _ => true
  | _ => false

/-- Whether a goroutine sends snapshots. -/
def Thread.isInstall : Thread n C D → Bool
  | .sendInstallSnapshot .. => true
  | _ => false

namespace Node

/-- A peer whose log was never compacted. -/
structure Plain (nd : Node n C D) : Prop where
  lastIncludedIndex : nd.lastIncludedIndex = 0
  threads : ∀ th ∈ nd.threads, th.isInstall = false
  held : ∀ held, nd.held = some held → held.call ≠ none
  saved : nd.persister.raftstate = none → nd.currentTerm = 0

variable {nd : Node n C D}

theorem make_plain (hp : nd.Plain) (hd : nd.Durable) (room : ℕ → ℕ) :
    (make nd.persister room).Plain := by
  refine ⟨?_, by simp [make_threads], by simp [make_held], fun hr => ?_⟩
  · cases hr : nd.persister.raftstate with
    | none => exact congrArg RaftBytes.lastIncludedIndex (make_fresh room (.inl hr)).bytes
    | some b =>
      have hb := (make_bytes room hr).trans (hd b hr)
      exact (congrArg RaftBytes.lastIncludedIndex hb).trans hp.lastIncludedIndex
  · rw [make_persister] at hr
    exact congrArg RaftBytes.currentTerm (make_fresh room (.inl hr)).bytes

end Node

/-! ### The invariant -/

/-- No log was ever compacted, and no request carries a snapshot. -/
structure World.Uncompacted (w : World n C D) : Prop where
  calls : ∀ c ∈ w.calls, c.request.isInstall = false
  nodes : ∀ p, (w.nodes p).Plain

namespace World

variable {w w' : World n C D} {p : Fin n} {eff : Effect n C D} {a : Action n C D}

/-- A handler that is under way answers a call, and no call carries a snapshot. -/
theorem Uncompacted.held (hu : w.Uncompacted) (hw : w.Plumbed) {held : Held n C D}
    (hh : (w.nodes p).held = some held) :
    ∃ i request, held.call = some (i, request) ∧ request.isInstall = false := by
  obtain ⟨⟨i, request⟩, hcall⟩ := Option.ne_none_iff_exists'.mp ((hu.nodes p).held held hh)
  obtain ⟨⟨c, hc, -, hr⟩, -⟩ := hw.held p held hh i request hcall
  exact ⟨i, request, hcall, hr ▸ hu.calls c (List.mem_of_getElem? hc)⟩

/-- So neither `InstallSnapshot` nor `Snapshot` is under way. -/
theorem Uncompacted.not_installs (hu : w.Uncompacted) (hw : w.Plumbed) {held : Held n C D}
    (hh : (w.nodes p).held = some held)
    (hi : ∀ i request, held.call = some (i, request) → request.isInstall = true) : False := by
  obtain ⟨i, request, hcall, hr⟩ := hu.held hw hh
  rw [hi i request hcall] at hr
  cases hr

variable (hu : w.Uncompacted) (hw : w.Plumbed) (ha : w.NoSnapshot a)

include hu hw

theorem Uncompacted.saved_of_saves (hs : (w.nodes p).Saves eff.node) :
    eff.node.persister.raftstate = none → eff.node.currentTerm = 0 := by
  cases hs with
  | keep hb hp =>
    rw [hp, show eff.node.currentTerm = (w.nodes p).currentTerm from
      congrArg RaftBytes.currentTerm hb]
    exact (hu.nodes p).saved
  | save _ hp => simp [hp]
  | wipe _ _ hh =>
    rcases hh with ⟨call, args, hh⟩ | ⟨snapshot, hh⟩
    · exact (hu.not_installs hw hh (by simp [Held.call, Request.isInstall])).elim
    · exact (hu.not_installs hw hh (by simp [Held.call])).elim

include ha

theorem Uncompacted.lastIncludedIndex_of_stored (hs : Stored w p eff a) (hr : a ≠ .restart p) :
    eff.node.lastIncludedIndex = 0 := by
  have h0 := (hu.nodes p).lastIncludedIndex
  cases hs with
  | leave hl => exact hl.same.lastIncludedIndex.trans h0
  | @copy _ args =>
    rcases Node.copyLog_eq (w.nodes p) args with h | ⟨log, backing, h⟩ <;> rw [h] <;> exact h0
  | accept => exact (Node.appendCommit_fields p _ _ _).2.1.trans h0
  | install hh | installSave hh =>
    exact (hu.not_installs hw hh (by simp [Held.call, Request.isInstall])).elim
  | snapshotSave | start => exact h0
  | compact => exact ha.elim
  | restart => exact absurd rfl hr

theorem Uncompacted.local_plain (hl : Local w p eff a) : eff.node.Plain := by
  have hp := hu.nodes p
  by_cases hr : a = .restart p
  · subst hr
    cases hl with
    | restart h => subst h; exact Node.make_plain hp (hw.durable p) _
  refine ⟨hu.lastIncludedIndex_of_stored hw ha (local_stored hl) hr, fun th hmem => ?_,
    fun held hheld => ?_, hu.saved_of_saves hw ((local_saves hl).resolve_left hr)⟩
  · rcases local_moves hl th hmem with hold | hnew
    · exact hp.threads th hold
    · cases hnew with
      | snapshot _ hlii => exact absurd hp.lastIncludedIndex hlii.ne'
      | resendSnapshot hk => cases hp.threads _ (List.mem_of_getElem? hk)
      | _ => rfl
  · cases hl with
    | main h => exact hp.held held (Node.mainStep_held h ▸ hheld)
    | thread k h => exact hp.held held (Node.threadStep_held h ▸ hheld)
    | reply k call ok request _ h => exact hp.held held (Node.threadReply_held h ▸ hheld)
    | apply h => exact hp.held held (Node.applyStep_held h ▸ hheld)
    | deliver call request _ _ h =>
      obtain ⟨held', hheld', hcall⟩ := Node.handle_held h
      obtain rfl : held' = held := Option.some.inj (hheld'.symm.trans hheld)
      simp [hcall]
    | resume h =>
      obtain ⟨held₀, hheld₀, hnone | ⟨held', hheld', hcall⟩⟩ := Node.resume_held h
      · cases hnone.symm.trans hheld
      · obtain rfl : held' = held := Option.some.inj (hheld'.symm.trans hheld)
        exact hcall ▸ hp.held held₀ hheld₀
    | start command h => exact hp.held held (Node.tryStart_held h ▸ hheld)
    | snapshot => exact ha.elim
    | restart => exact absurd rfl hr

theorem Uncompacted.step (h : w.step a = some w') : w'.Uncompacted := by
  obtain ⟨p, eff, heff, rfl⟩ := step_eq_some h
  have hl := effect_local heff
  refine ⟨fun c hc => ?_,
    forall_nodes_after (Q := fun _ nd => nd.Plain) (hu.local_plain hw ha hl) fun q _ => hu.nodes q⟩
  obtain ⟨i, hi⟩ := List.mem_iff_getElem?.mp hc
  rcases callsAfter_cases hi with ⟨c₀, hc₀, rfl⟩ | ⟨-, hs⟩
  · exact hu.calls c₀ (List.mem_of_getElem? hc₀)
  · cases local_sends hw hl hs with
    | revote hcall =>
      have hr := hu.calls _ (List.mem_of_getElem? hcall)
      exact hr
    | snapshot hk => cases (hu.nodes p).threads _ (List.mem_of_getElem? hk)
    | vote | heartbeat | append => rfl

omit hu hw ha

theorem init_uncompacted (room : Fin n → ℕ → ℕ) :
    (init room : World n C D).Uncompacted where
  calls c hc := by simp [init] at hc
  nodes p :=
    ⟨rfl, by simp [init, Node.make_threads], by simp [init, Node.make_held], fun _ => rfl⟩

theorem Reachable.uncompacted {ok : World n C D → Action n C D → Prop}
    (hok : ∀ w a, ok w a → w.NoSnapshot a) (h : Reachable ok w) : w.Uncompacted := by
  induction h using Reachable.induct with
  | refl room => exact init_uncompacted room
  | tail a hr hoka hstep ih => exact ih.step (Reachable.plumbed hr) (hok _ a hoka) hstep

/-- Where no log is compacted, the saved raft state is never erased. -/
theorem Uncompacted.keepsState (hu : w.Uncompacted) (a : Action n C D) : w.KeepsState a := by
  cases a with
  | restart p => exact (hu.nodes p).saved
  | _ => trivial

end World

/-! ### Votes and winners -/

/-- **Vote uniqueness and unique winners.** Take any run of a service that never calls
    `Snapshot`, with any crashes and restarts, and any later point of it.  The term of a peer
    has not decreased, and within a term its vote is still the one it was, unless it had not
    voted.  Whoever became leader did so in the term of its election, and the winner of a
    term is unique. -/
theorem votes_and_winners_unique {w w' : World n C D} (h : World.Reachable World.NoSnapshot w)
    (h' : Run World.step World.NoSnapshot w w') :
    (∀ p, (w.nodes p).currentTerm ≤ (w'.nodes p).currentTerm ∧
      ((w.nodes p).currentTerm = (w'.nodes p).currentTerm →
        (w.nodes p).votedFor = none ∨ (w'.nodes p).votedFor = (w.nodes p).votedFor)) ∧
    (∀ p t t', .won p t t' ∈ w'.trace → t = t') ∧
    ∀ p q t, .won p t t ∈ w'.trace → .won q t t ∈ w'.trace → p = q := by
  have hkeep (w : World n C D) (a : Action n C D) (hr : World.Reachable World.NoSnapshot w) :
      w.KeepsState a := (hr.uncompacted fun _ _ h => h).keepsState a
  have hvotes := World.Reachable.votesOnce (fun w a hr _ => hkeep w a hr) (h.trans h')
  have htally := World.Reachable.tallied (h.trans h')
  refine ⟨fun p => ?_, fun p t t' hwon => (htally.won p t t' hwon).1,
    fun p q t hp hq => World.winner_unique hvotes htally hp hq⟩
  -- one step advances the ballot of its peer and leaves the other peers alone
  refine Run.monotone (R := fun s s' => (s.nodes p).Advances (s'.nodes p))
    (fun s => Node.Advances.refl (s.nodes p)) (fun s t u => Node.Advances.trans)
    (fun s a s' hs ha hstep => World.Reachable.tail a hs ha hstep)
    (fun s a s' hs ha hstep => ?_) h' h
  obtain ⟨q, eff, heff, rfl⟩ := World.step_eq_some hstep
  rcases eq_or_ne p q with rfl | hne
  · rw [World.after_nodes_self]
    exact (World.local_ballot (World.effect_local heff)).advances
      (World.Reachable.plumbed hs) (hkeep s a hs)
  · rw [World.after_nodes_of_ne _ _ _ hne]
    exact .refl _

/-- Peer 1 votes for peer 0 and then restarts: its vote is still there, and peer 0, which
    wins term 1 with it, is the only winner. -/
theorem votes_and_winners_unique_restart :
    ∃ w w' : World 3 ℕ ℕ, World.Reachable World.NoSnapshot w ∧
      Run World.step World.NoSnapshot w w' ∧ (w'.nodes 1).votedFor = some 0 ∧
      .won 0 1 1 ∈ w'.trace ∧ ∀ q, .won q 1 1 ∈ w'.trace → q = 0 := by
  obtain ⟨w, hr, hvote, w', hrun, hterm, hwon⟩ :
      ∃ w : World 3 ℕ ℕ, World.Reachable World.NoSnapshot w ∧ (w.nodes 1).votedFor = some 0 ∧
        ∃ w', Run World.step World.NoSnapshot w w' ∧
          (w.nodes 1).currentTerm = (w'.nodes 1).currentTerm ∧ .won 0 1 1 ∈ w'.trace := by
    obtain ⟨w, hw, hvote, hrest⟩ := World.Reachable.exists_of_execOk World.NoSnapshot
      (electPeer0.take 8) (fun w => (w.nodes 1).votedFor = some 0 ∧
        ((execOk World.step World.NoSnapshot w [.restart 1, .reply 0 0 0 true]).any fun w' =>
          (w.nodes 1).currentTerm = (w'.nodes 1).currentTerm ∧ .won 0 1 1 ∈ w'.trace) = true)
      (by decide +kernel)
    obtain ⟨w', hw', h'⟩ := exists_run_of_execOk World.step World.NoSnapshot w _ _ hrest
    exact ⟨w, hw, hvote, w', hw', h'⟩
  obtain ⟨hadv, -, huniq⟩ := votes_and_winners_unique hr hrun
  refine ⟨w, w', hr, hrun, ?_, hwon, fun q hq => huniq q 0 1 hq hwon⟩
  rcases (hadv 1).2 hterm with hn | hs
  · rw [hvote] at hn; exact absurd hn (by simp)
  · rw [hs, hvote]

end MitDistributed.Raft
