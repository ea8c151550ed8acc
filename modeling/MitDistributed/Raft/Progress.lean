import MitDistributed.Raft.StaleReads

namespace MitDistributed.Raft

open Function Transition

/-!
# Raft — the progress of the other peers

A leader keeps `matchIndex` and `nextIndex` for every peer.  Three kinds of replies write them:
an accepted `AppendEntries` request or heartbeat raises both, a refused request sets `nextIndex`
back, and an answer to `InstallSnapshot` sets both to the end of the snapshot.  The first kind
checks that it brings something new; the other two do not, and when they are overtaken by a
success, `matchIndex` falls or `nextIndex` drops below it (`progress_goes_back`).

If no such reply is overtaken (`World.KeepsProgress`), then from the initialisation in
`leaderMain` until `mainLoop` leaves it, progress goes forward only
(`progress_goes_forward`).
-/

variable {n : ℕ} {C D : Type}

/-- Whether `leaderMain` has set up the progress of the peers and has not returned yet. -/
def MainPc.initialised : MainPc → Bool
  | .leaderInitDone => true
  | .leaderHeartbeat => true
  | .leaderCheck => true
  | _ => false

namespace Node

/-- What is sent next to a peer lies beyond what it is known to hold. -/
def Ahead (nd : Node n C D) : Prop := ∀ j, nd.matchIndex j < nd.nextIndex j

/-- The progress of the peers does not go back. -/
structure Gains (me : Fin n) (nd nd' : Node n C D) : Prop where
  main : nd'.main = nd.main
  matchIndex : ∀ j, j ≠ me → nd.matchIndex j ≤ nd'.matchIndex j
  ahead : nd.Ahead → nd'.Ahead

namespace Gains

variable {me : Fin n} {nd nd' nd'' : Node n C D}

theorem of_eq (hm : nd'.main = nd.main) (hx : nd'.matchIndex = nd.matchIndex)
    (hn : nd'.nextIndex = nd.nextIndex) : nd.Gains me nd' where
  main := hm
  matchIndex j _ := by rw [hx]
  ahead h j := by rw [hx, hn]; exact h j

theorem trans (h : nd.Gains me nd') (h' : nd'.Gains me nd'') : nd.Gains me nd'' where
  main := h'.main.trans h.main
  matchIndex j hj := (h.matchIndex j hj).trans (h'.matchIndex j hj)
  ahead ha := h'.ahead (h.ahead ha)

theorem observe (me : Fin n) (nd : Node n C D) (t : ℕ) : nd.Gains me (nd.observe t) := by
  unfold Node.observe
  split <;> exact .of_eq rfl rfl rfl

/-- Setting both indices of a peer forward. -/
theorem setMatch (me : Fin n) {nd : Node n C D} {peer : Fin n} {index : ℕ}
    (hle : nd.matchIndex peer ≤ index) : nd.Gains me (nd.setMatch peer index) where
  main := rfl
  matchIndex j _ := by
    show nd.matchIndex j ≤ update nd.matchIndex peer index j
    rcases eq_or_ne j peer with rfl | hne
    · rwa [update_self]
    · rw [update_of_ne hne]
  ahead h j := by
    show update nd.matchIndex peer index j <
      update nd.nextIndex peer (index + 1) j
    rcases eq_or_ne j peer with rfl | hne
    · rw [update_self, update_self]
      exact Nat.lt_succ_self index
    · rw [update_of_ne hne, update_of_ne hne]
      exact h j

theorem advanceMatch (me : Fin n) (nd : Node n C D) (peer : Fin n) (index : ℕ) :
    nd.Gains me (nd.advanceMatch peer index) := by
  unfold Node.advanceMatch
  split
  · rename_i hlt
    exact setMatch me hlt.le
  · exact .of_eq rfl rfl rfl

/-- Setting the next index of a peer back, but not down to what the peer holds. -/
theorem retry (hm : nd'.main = nd.main) (hx : nd'.matchIndex = nd.matchIndex) {peer : Fin n}
    {index : ℕ} (hn : nd'.nextIndex = update nd.nextIndex peer index)
    (hlt : nd.matchIndex peer < index) : nd.Gains me nd' where
  main := hm
  matchIndex j _ := by rw [hx]
  ahead h j := by
    rw [hx, hn]
    rcases eq_or_ne j peer with rfl | hne
    · rwa [update_self]
    · rw [update_of_ne hne]
      exact h j

/-- A leader takes itself to hold its whole log. -/
theorem appendCommand (me : Fin n) (nd : Node n C D) (command : Option C) :
    nd.Gains me (nd.appendCommand me command) where
  main := rfl
  matchIndex j hj := by
    show nd.matchIndex j ≤ update nd.matchIndex me nd.getLogLength j
    rw [update_of_ne hj]
  ahead h j := by
    show update nd.matchIndex me nd.getLogLength j <
      update nd.nextIndex me (nd.getLogLength + 1) j
    rcases eq_or_ne j me with rfl | hne
    · rw [update_self, update_self]
      exact Nat.lt_succ_self _
    · rw [update_of_ne hne, update_of_ne hne]
      exact h j

end Gains

/-! ### The steps -/

/-- If the reply is a refusal that makes the leader try again, the leader does not know more of
    the peer by now; and neither if it is the answer to a snapshot. -/
def KeepsProgress (nd : Node n C D) : Option (Thread n C D) → Option Reply → Prop
  | some (.sendAppendEntries peer args _), some (.appendEntries reply) =>
    nd.leads args.term ∧ reply.success = false ∧ reply.term ≤ nd.currentTerm ∧
      nd.lastIncludedIndex < reply.nextRetryStartIndex →
    nd.matchIndex peer < reply.nextRetryStartIndex
  | some (.sendInstallSnapshot peer args _), some (.installSnapshot reply) =>
    nd.leads args.term ∧ reply.term ≤ nd.currentTerm →
    nd.matchIndex peer ≤ args.lastIncludedIndex
  | _, _ => True

instance (nd : Node n C D) (th : Option (Thread n C D)) (reply : Option Reply) :
    Decidable (nd.KeepsProgress th reply) := by
  unfold KeepsProgress
  split <;> infer_instance

variable {me : Fin n} {nd : Node n C D} {eff : Effect n C D}

theorem threadReply_gains {fresh k call : ℕ} {request : Call n C D} {ok : Bool}
    (hg : ok = true → nd.KeepsProgress nd.threads[k]? request.reply)
    (h : nd.threadReply me fresh k call request ok = some eff) : nd.Gains me eff.node := by
  have hobs (t : ℕ) := Gains.observe me nd t
  have hadv (t : ℕ) (peer : Fin n) (index : ℕ) :
      nd.Gains me ((nd.observe t).advanceMatch peer index) :=
    (hobs t).trans (.advanceMatch me _ peer index)
  cases threadReply_cases h with
  | voteCounted | beatRefused | appendDeposed =>
    exact (hobs _).trans (.of_eq rfl rfl rfl)
  | beatMatched | appendMatched => exact (hadv _ _ _).trans (.of_eq rfl rfl rfl)
  | retryEntries hr _ hlii =>
    rw [hr.thread, hr.reply] at hg
    have hlt := hg hr.ok ⟨hr.lead, by simpa using hr.failed, not_lt.mp hr.term, not_le.mp hlii⟩
    exact .retry rfl rfl rfl hlt
  | followSnapshot hr | followEntries hr =>
    rw [hr.thread, hr.reply] at hg
    have hle := hg hr.ok ⟨hr.lead, not_lt.mp hr.term⟩
    exact (Gains.setMatch me hle).trans (.of_eq rfl rfl rfl)
  | _ => exact .of_eq rfl rfl rfl

/-! ### `mainLoop` -/

/-- Inside `leaderMain`, after the initialisation, `mainLoop` leaves the progress alone. -/
theorem mainStep_of_initialised (h : nd.mainStep me = some eff) (hi : nd.main.initialised = true) :
    eff.node.matchIndex = nd.matchIndex ∧ eff.node.nextIndex = nd.nextIndex := by
  cases mainStep_cases h with
  | leaderInit hm => rw [hm] at hi; cases hi
  | _ => exact ⟨rfl, rfl⟩

/-- The initialisation puts every peer at the end of the log, which has its slot 0. -/
theorem mainStep_ahead (hne : nd.log ≠ []) (ha : nd.main.initialised = true → nd.Ahead)
    (h : nd.mainStep me = some eff) (hi : eff.node.main.initialised = true) : eff.node.Ahead := by
  have hold (hm : nd.main.initialised = true) : eff.node.Ahead := by
    obtain ⟨hx, hn⟩ := mainStep_of_initialised h hm
    intro j
    rw [hx, hn]
    exact ha hm j
  cases mainStep_cases h with
  | leaderInit => exact fun _ => Nat.add_pos_right _ (List.length_pos_iff.mpr hne)
  | leaderInitDone hm | heartbeat hm | stay hm => exact hold (by rw [hm]; rfl)
  | _ => cases hi

end Node

namespace World

/-- No refusal and no answer to a snapshot is overtaken by a success. -/
def KeepsProgress (w : World n C D) : Action n C D → Prop
  | .reply p k call true =>
    (w.nodes p).KeepsProgress (w.nodes p).threads[k]? (w.calls[call]?.bind Call.reply)
  | _ => True

instance (w : World n C D) : (a : Action n C D) → Decidable (w.KeepsProgress a)
  | .reply p k call true => inferInstanceAs (Decidable ((w.nodes p).KeepsProgress
      (w.nodes p).threads[k]? (w.calls[call]?.bind Call.reply)))
  | .reply _ _ _ false | .main _ | .thread .. | .apply _ | .deliver _ | .resume _ | .start .. |
    .snapshot .. | .restart _ => isTrue trivial

variable {w w' : World n C D} {p : Fin n} {eff : Effect n C D} {a : Action n C D}

/-- Outside of `mainLoop`, progress goes forward until the next restart. -/
theorem local_gains (h : Local w p eff a) (hg : w.KeepsProgress a) (hm : a ≠ .main p)
    (hr : a ≠ .restart p) : (w.nodes p).Gains p eff.node := by
  cases h with
  | main h => exact absurd rfl hm
  | thread k h => cases Node.threadStep_cases h <;> exact .of_eq rfl rfl rfl
  | reply k call ok request hc h =>
    refine Node.threadReply_gains (fun hok => ?_) h
    subst hok
    have hg : (w.nodes p).KeepsProgress _ (w.calls[call]?.bind Call.reply) := hg
    rw [hc] at hg
    exact hg
  | apply h => cases Node.applyStep_cases h <;> exact .of_eq rfl rfl rfl
  | deliver call request _ _ h =>
    have hobs (t : ℕ) := Node.Gains.observe p (w.nodes p) t
    generalize request.request = r at h
    cases Node.handle_cases h with
    | requestVote args | installSnapshot args => exact (hobs args.term).trans (.of_eq rfl rfl rfl)
    | appendEntries args =>
      refine (hobs args.term).trans ?_
      simp only [Node.appendEntries, Node.stepDown]
      split <;> exact .of_eq rfl rfl rfl
  | resume h =>
    cases Node.resume_cases h with
    | @copyLog _ args =>
      rcases Node.copyLog_eq (w.nodes p) args with h | ⟨log, backing, h⟩ <;> rw [h] <;>
        exact .of_eq rfl rfl rfl
    | appendCommit =>
      unfold Node.appendCommit Node.followCommit
      split <;> exact .of_eq rfl rfl rfl
    | _ => exact .of_eq rfl rfl rfl
  | start command h =>
    cases Node.tryStart_cases h with
    | append => exact (Node.Gains.appendCommand p _ command).trans (.of_eq rfl rfl rfl)
    | ignore => exact .of_eq rfl rfl rfl
  | snapshot index snapshot h => cases Node.trySnapshot_cases h <;> exact .of_eq rfl rfl rfl
  | restart h => exact absurd rfl hr

/-- One step inside `leaderMain`, after the initialisation. -/
theorem matchIndex_le_of_local (h : Local w p eff a) (hg : w.KeepsProgress a)
    (hi : (w.nodes p).main.initialised = true) (hi' : eff.node.main.initialised = true) {j : Fin n}
    (hj : j ≠ p) : (w.nodes p).matchIndex j ≤ eff.node.matchIndex j := by
  by_cases hm : a = .main p
  · subst hm
    cases h with
    | main h => rw [(Node.mainStep_of_initialised h hi).1]
  by_cases hr : a = .restart p
  · subst hr
    cases h with
    | restart h =>
      subst h
      have hmain : ((w.nodes p).restart p).node.main = .read := Node.make_main _ _
      rw [hmain] at hi'
      cases hi'
  exact (local_gains h hg hm hr).matchIndex j hj

theorem ahead_of_local (h : Local w p eff a) (hg : w.KeepsProgress a) (hne : (w.nodes p).log ≠ [])
    (ha : (w.nodes p).main.initialised = true → (w.nodes p).Ahead)
    (hi : eff.node.main.initialised = true) : eff.node.Ahead := by
  by_cases hm : a = .main p
  · subst hm
    cases h with
    | main h => exact Node.mainStep_ahead hne ha h hi
  by_cases hr : a = .restart p
  · subst hr
    cases h with
    | restart h =>
      subst h
      have hmain : ((w.nodes p).restart p).node.main = .read := Node.make_main _ _
      rw [hmain] at hi
      cases hi
  have hgain := local_gains h hg hm hr
  rw [hgain.main] at hi
  exact hgain.ahead (ha hi)

/-- **Run.** -/
theorem Reachable.ahead (h : Reachable KeepsProgress w) (p : Fin n) :
    (w.nodes p).main.initialised = true → (w.nodes p).Ahead := by
  induction h using Reachable.induct generalizing p with
  | refl room =>
    intro hi
    have hmain : ((init room : World n C D).nodes p).main = .read := rfl
    rw [hmain] at hi
    cases hi
  | tail a hr hg hstep ih =>
    obtain ⟨q, eff, heff, rfl⟩ := step_eq_some hstep
    refine forall_nodes_after (Q := fun _ nd => nd.main.initialised = true → nd.Ahead) ?_
      (fun q _ => ih q) p
    exact ahead_of_local (effect_local heff) hg (Reachable.log_ne_nil hr q) (ih q)

end World

/-- **Progress goes forward.** In every run that keeps to `KeepsProgress`, from the initialisation
    in `leaderMain` on and as long as `mainLoop` stays there: what a peer is known to hold never
    gets less, and what is sent to it next lies beyond that. -/
theorem progress_goes_forward {w w' : World n C D} (h : World.Reachable World.KeepsProgress w)
    {p : Fin n}
    (hrun : Run World.step
      (fun v a => v.KeepsProgress a ∧ (v.nodes p).main.initialised = true) w w')
    (hend : (w'.nodes p).main.initialised = true) :
    (∀ j, j ≠ p → (w.nodes p).matchIndex j ≤ (w'.nodes p).matchIndex j) ∧
      ∀ j, (w'.nodes p).matchIndex j < (w'.nodes p).nextIndex j := by
  have hreach : World.Reachable World.KeepsProgress w' :=
    h.trans (Run.mono (fun _ _ hok => hok.1) hrun)
  refine ⟨fun j hj => ?_, hreach.ahead p hend⟩
  clear h hreach
  induction hrun with
  | refl => exact le_rfl
  | tail a hr hok hstep ih =>
    obtain ⟨q, eff, heff, rfl⟩ := World.step_eq_some hstep
    refine (ih hok.2).trans ?_
    rcases eq_or_ne p q with rfl | hne
    · rw [World.after_nodes_self] at hend ⊢
      exact World.matchIndex_le_of_local (World.effect_local heff) hok.1 hok.2 hend hj
    · rw [World.after_nodes_of_ne _ _ _ hne]

/-- Leader 0 replicates a command and learns that peer 1 holds it. -/
theorem progress_goes_forward_commitAtPeer2 :
    ∃ w w' : World 3 ℕ ℕ, World.Reachable World.KeepsProgress w ∧
      Run World.step (fun v a => v.KeepsProgress a ∧ (v.nodes 0).main.initialised = true) w w' ∧
      (w.nodes 0).matchIndex 1 = 0 ∧ (w'.nodes 0).matchIndex 1 = 1 ∧
      (∀ j, j ≠ 0 → (w.nodes 0).matchIndex j ≤ (w'.nodes 0).matchIndex j) ∧
      ∀ j, (w'.nodes 0).matchIndex j < (w'.nodes 0).nextIndex j := by
  obtain ⟨w, hr, h0, hlater⟩ := World.Reachable.exists_of_execOk World.KeepsProgress
    (commitAtPeer2.take 12)
    (fun w => (w.nodes 0).matchIndex 1 = 0 ∧
      ((execOk World.step
        (fun v a => v.KeepsProgress a ∧ (v.nodes 0).main.initialised = true) w
        (commitAtPeer2.drop 12)).any fun w' =>
          decide ((w'.nodes 0).matchIndex 1 = 1 ∧ (w'.nodes 0).main.initialised = true)) = true)
    (by decide +kernel)
  obtain ⟨w', hrun, h1, hend⟩ := exists_run_of_execOk World.step
    (fun v a => v.KeepsProgress a ∧ (v.nodes 0).main.initialised = true) w
    (commitAtPeer2.drop 12)
    (fun w' => (w'.nodes 0).matchIndex 1 = 1 ∧ (w'.nodes 0).main.initialised = true) hlater
  exact ⟨w, w', hr, hrun, h0, h1, progress_goes_forward hr hrun hend⟩

/-- Peer 2 has taken over the snapshot that ends at index 1.  Before its answer arrives, the
    leader sends it two more commands, which it accepts. -/
def successFirst : List (Action 3 ℕ ℕ) :=
  commitAtPeer2 ++ snapshotAtNext ++ finishInstall ++ ([.thread 0 4, .reply 0 2 3 true,
    .start 0 (some 5), .thread 0 5, .thread 0 5, .thread 0 5, .thread 0 5, .thread 0 6,
    .thread 0 6, .thread 0 6, .thread 0 6, .deliver 7, .resume 2, .resume 2,
    .reply 0 6 7 true] : List (Action 3 ℕ ℕ))

/-- Peer 1 leads term 2 and holds one command that peer 2 misses.  It sends two requests for two
    new commands, and peer 2 refuses both; after the first refusal the leader goes back, and
    peer 2 accepts everything. -/
def refusedTwice : List (Action 3 ℕ ℕ) :=
  electPeer0 ++ ([.main 0, .main 0, .main 0, .main 0, .start 0 (some 7), .thread 0 2, .thread 0 2,
    .thread 0 2, .thread 0 2, .thread 0 2, .thread 0 2, .thread 0 2, .deliver 2, .resume 1,
    .resume 1, .main 1, .main 1, .main 1, .main 1, .thread 1 0, .thread 1 0, .deliver 4, .resume 2,
    .reply 1 0 4 true, .main 1, .main 1, .main 1, .main 1, .start 1 (some 8), .start 1 (some 9),
    .thread 1 2, .thread 1 2, .thread 1 2, .thread 1 2, .thread 1 2, .thread 1 2, .thread 1 2,
    .thread 1 2, .thread 1 3, .thread 1 3, .thread 1 3, .thread 1 3, .thread 1 5, .thread 1 5,
    .thread 1 5, .thread 1 5, .deliver 5, .resume 2, .deliver 6, .resume 2, .reply 1 3 5 true,
    .thread 1 3, .thread 1 3, .thread 1 3, .thread 1 3, .thread 1 3, .deliver 7, .resume 2,
    .resume 2, .reply 1 3 7 true] : List (Action 3 ℕ ℕ))

/-- Without the condition, and with no crash at all: the answer to the snapshot sets `matchIndex`
    back from 3 to 1, and the second refusal sets `nextIndex` to 1 where `matchIndex` is 3. -/
theorem progress_goes_back :
    (∃ w : World 3 ℕ ℕ, World.Reachable (fun _ a => ∀ p, a ≠ .restart p) w ∧
      (w.nodes 0).leads 1 ∧ (w.nodes 0).main.initialised = true ∧ (w.nodes 0).matchIndex 2 = 3 ∧
      (w.step (.reply 0 4 6 true)).any fun w' => decide ((w'.nodes 0).leads 1 ∧
        (w'.nodes 0).main.initialised = true ∧ (w'.nodes 0).matchIndex 2 = 1)) ∧
    ∃ w : World 3 ℕ ℕ, World.Reachable (fun _ a => ∀ p, a ≠ .restart p) w ∧
      (w.nodes 1).leads 2 ∧ (w.nodes 1).main.initialised = true ∧ (w.nodes 1).matchIndex 2 = 3 ∧
      (w.nodes 1).nextIndex 2 = 1 := by
  constructor
  · exact World.Reachable.exists_of_execOk (fun _ a => ∀ p, a ≠ .restart p)
      successFirst _ (by decide +kernel)
  · exact World.Reachable.exists_of_execOk (fun _ a => ∀ p, a ≠ .restart p)
      (refusedTwice ++ ([.reply 1 4 6 true] : List (Action 3 ℕ ℕ))) _ (by decide +kernel)

end MitDistributed.Raft
