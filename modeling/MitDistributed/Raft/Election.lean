import MitDistributed.Consensus.Quorum
import MitDistributed.Raft.Ballot

namespace MitDistributed.Raft

open Transition Consensus

/-!
# Raft — elections

The history of votes and won elections in the trace of a run.  In every run a goroutine that
counts votes has counted every voter once, and each of them did vote (`Thread.Counts`), so
that every election won was won with the votes of a majority (`World.Tallied`).

As long as no peer restarts from an erased raft state (`World.KeepsState`), a peer votes at
most once in a term (`World.VotesOnce`), and so at most one peer wins a term
(`winner_unique`).
-/

variable {n : ℕ} {C D : Type}

/-- `v` voted for `c` in `term`. -/
def Voted (trace : List (Event n C D)) (term : ℕ) (v c : Fin n) : Prop :=
  .voted v c term ∈ trace

instance [DecidableEq C] [DecidableEq D] (trace : List (Event n C D)) (term : ℕ) (v c : Fin n) :
    Decidable (Voted trace term v c) :=
  inferInstanceAs (Decidable (_ ∈ _))

/-- The peers that the calls in `waiting` go to. -/
def callees (calls : List (Call n C D)) (waiting : List ℕ) : List (Fin n) :=
  waiting.filterMap fun i => (calls[i]?).map Call.dst

/-- A goroutine that counts votes: the votes counted come from different peers, none of
    which is asked again or still expected to answer. -/
def Thread.Counts (calls : List (Call n C D)) (trace : List (Event n C D)) (p : Fin n)
    (currentTerm : ℕ) : Thread n C D → Prop
  | .sendRequestVoteToAll thisTerm todo grantedVoteSum waiting =>
    thisTerm ≤ currentTerm ∧ ∃ voters : List (Fin n), voters.length = grantedVoteSum ∧
      (∀ v ∈ voters, Voted trace thisTerm v p) ∧
      (voters ++ (todo ++ callees calls waiting)).Nodup
  | _ => True

/-- No restart from an erased raft state, unless nothing was ever saved. -/
def World.KeepsState (w : World n C D) : Action n C D → Prop
  | .restart p => (w.nodes p).persister.raftstate = none → (w.nodes p).currentTerm = 0
  | _ => True

instance (w : World n C D) : (a : Action n C D) → Decidable (w.KeepsState a)
  | .restart _ => inferInstanceAs (Decidable (_ → _))
  | .main _ | .thread .. | .reply .. | .apply _ | .deliver _ | .resume _ | .start .. |
    .snapshot .. => isTrue trivial

/-- A vote cast is the one the peer remembers as long as it stays in the term, and it is the
    only one of the term. -/
structure World.VotesOnce (w : World n C D) : Prop where
  voted : ∀ t v c, Voted w.trace t v c → t ≤ (w.nodes v).currentTerm ∧
    (t = (w.nodes v).currentTerm → (w.nodes v).votedFor = some c)
  once : ∀ t v c c', Voted w.trace t v c → Voted w.trace t v c' → c = c'

/-- Granted replies, counted votes and won elections are backed by votes cast. -/
structure World.Tallied (w : World n C D) : Prop where
  granted : ∀ (i : ℕ) (c : Call n C D) args reply, w.calls[i]? = some c →
    c.request = .requestVote args → c.reply = some (.requestVote reply) →
    reply.voteGranted = true → Voted w.trace args.term c.dst args.candidateId
  threads : ∀ p, ∀ th ∈ (w.nodes p).threads,
    th.Counts w.calls w.trace p (w.nodes p).currentTerm
  won : ∀ p t t', .won p t t' ∈ w.trace → t = t' ∧ Elected (Voted w.trace t) p

/-! ### Counting votes -/

theorem Voted.append {trace : List (Event n C D)} {t : ℕ} {v c : Fin n} (h : Voted trace t v c)
    (events : List (Event n C D)) : Voted (events ++ trace) t v c :=
  List.mem_append_right _ h

/-- The calls waited for keep their callees. -/
theorem callees_after {calls : List (Call n C D)} {p : Fin n} {waiting : List ℕ}
    {P : Fin n → Request n C D → Prop} (h : ∀ i ∈ waiting, IsCall calls p i P) (a : Action n C D)
    (eff : Effect n C D) :
    callees (World.callsAfter calls a eff) waiting = callees calls waiting := by
  refine List.filterMap_congr fun i hi => ?_
  obtain ⟨c, hc, -⟩ := h i hi
  rw [World.callsAfter_of_getElem? a eff hc, hc]
  rfl

theorem callees_append (calls : List (Call n C D)) (l l' : List ℕ) :
    callees calls (l ++ l') = callees calls l ++ callees calls l' :=
  List.filterMap_append

/-- A call made in this step goes to the peer it is for. -/
theorem callees_new {calls : List (Call n C D)} {a : Action n C D} {eff : Effect n C D}
    {c : Call n C D} (hs : eff.send = some c) :
    callees (World.callsAfter calls a eff) [calls.length] = [c.dst] := by
  simp [callees, World.callsAfter_new hs]

/-- One call taken out of those waited for. -/
theorem callees_erase {calls : List (Call n C D)} {waiting : List ℕ} {call : ℕ} {c : Call n C D}
    (hw : call ∈ waiting) (hc : calls[call]? = some c) :
    (callees calls waiting).Perm (c.dst :: callees calls (waiting.erase call)) := by
  have hperm := (List.perm_cons_erase hw).filterMap fun i => (calls[i]?).map Call.dst
  rwa [List.filterMap_cons_some (b := c.dst) (by rw [hc]; rfl)] at hperm

theorem Thread.Counts.after {calls : List (Call n C D)} {trace : List (Event n C D)} {p : Fin n}
    {t t' : ℕ} {th : Thread n C D} (h : th.Counts calls trace p t) (hok : th.Ok calls p)
    (ht : t ≤ t') (a : Action n C D) (eff : Effect n C D) :
    th.Counts (World.callsAfter calls a eff) (eff.events ++ trace) p t' := by
  cases th with
  | sendRequestVoteToAll thisTerm todo sum waiting =>
    obtain ⟨hterm, voters, hlen, hvoted, hnodup⟩ := h
    refine ⟨hterm.trans ht, voters, hlen, fun v hv => (hvoted v hv).append _, ?_⟩
    rw [callees_after hok.2.2 a eff]
    exact hnodup
  | _ => trivial

theorem nodup_cons_others (p : Fin n) : (p :: others p).Nodup := by
  refine List.nodup_cons.mpr ⟨fun h => ne_of_mem_others h rfl, ?_⟩
  exact (List.nodup_finRange n).filter _

/-- As many different voters as a majority needs. -/
theorem elected_of_voters {vote : Fin n → Fin n → Prop} {p : Fin n} {voters : List (Fin n)}
    (hnodup : voters.Nodup) (hlen : voters.length > n / 2) (hvote : ∀ v ∈ voters, vote v p) :
    Elected vote p := by
  refine ⟨voters.toFinset, ?_, fun v hv => hvote v (List.mem_toFinset.mp hv)⟩
  rw [Majority, List.toFinset_card_of_nodup hnodup, Fintype.card_fin]
  omega

/-! ### What a step shows -/

namespace Node

/-- Terms do not decrease, and a vote once cast stays for the term. -/
def Advances (nd nd' : Node n C D) : Prop :=
  nd.currentTerm ≤ nd'.currentTerm ∧
    (nd.currentTerm = nd'.currentTerm → nd.votedFor = none ∨ nd'.votedFor = nd.votedFor)

theorem Calm.advances {nd nd' : Node n C D} (h : nd.Calm nd') : nd.Advances nd' := by
  rcases h.ballot with ⟨ht, hv⟩ | ⟨ht, -⟩
  · exact ⟨ht.ge, fun _ => .inr hv⟩
  · exact ⟨ht.le, fun heq => absurd heq ht.ne⟩

theorem Advances.of_eq {nd nd' : Node n C D} (ht : nd'.currentTerm = nd.currentTerm)
    (hv : nd'.votedFor = nd.votedFor) : nd.Advances nd' :=
  ⟨ht.ge, fun _ => .inr hv⟩

theorem Advances.refl (nd : Node n C D) : nd.Advances nd := .of_eq rfl rfl

theorem Advances.trans {nd nd' nd'' : Node n C D} (h : nd.Advances nd')
    (h' : nd'.Advances nd'') : nd.Advances nd'' := by
  refine ⟨h.1.trans h'.1, fun heq => ?_⟩
  have ht : nd.currentTerm = nd'.currentTerm := le_antisymm h.1 (heq ▸ h'.1)
  rcases h.2 ht with hn | hv
  · exact .inl hn
  · rcases h'.2 (ht ▸ heq) with hn | hv'
    · exact .inl (hv ▸ hn)
    · exact .inr (hv'.trans hv)

/-- A restart that does not start from erased state keeps what was durable. -/
theorem make_bytes_eq {nd : Node n C D} (hd : nd.Durable) (hf : nd.currentTerm = 0 → nd.Fresh)
    (hkeep : nd.persister.raftstate = none → nd.currentTerm = 0) :
    (make nd.persister nd.backing.room).bytes = nd.bytes := by
  cases hr : nd.persister.raftstate with
  | none =>
    rw [(hf (hkeep hr)).bytes]
    exact (make_fresh _ (.inl hr)).bytes
  | some b => rw [make_bytes _ hr, hd b hr]

end Node

namespace Ballot

variable {w : World n C D} {p : Fin n} {eff : Effect n C D} {a : Action n C D}

/-- The term of a request that is being answered has been adopted. -/
theorem term_le (hw : w.Plumbed) {call : ℕ} {args : RequestVoteArgs n}
    (hh : (w.nodes p).held = some (.requestVote call args)) :
    args.term ≤ (w.nodes p).currentTerm :=
  (hw.held p _ hh call (.requestVote args) rfl).2

/-- **Step.** Terms and votes of the peer advance. -/
theorem advances (h : Ballot w p eff a) (hw : w.Plumbed) (hk : w.KeepsState a) :
    (w.nodes p).Advances eff.node := by
  cases h with
  | quiet hq => exact hq.calm.advances
  | elect hm =>
    exact ⟨Nat.le_succ _, fun heq => absurd heq (Nat.lt_succ_self _).ne⟩
  | won => exact .of_eq rfl rfl
  | grant _ ht hv hn =>
    refine ⟨le_rfl, fun _ => ?_⟩
    rcases hv with hv | hv
    · exact .inl hv
    · exact .inr hv.symm
  | restart =>
    have hb := Node.make_bytes_eq (hw.durable p) (hw.fresh p) hk
    exact .of_eq (congrArg RaftBytes.currentTerm hb) (congrArg RaftBytes.votedFor hb)

/-- A vote that a step shows is the peer's own, in the term it then is in, and its first one
    or a repetition. -/
theorem voted (h : Ballot w p eff a) (hw : w.Plumbed) {t : ℕ} {v c : Fin n}
    (hv : Voted eff.events t v c) :
    v = p ∧ t = eff.node.currentTerm ∧ eff.node.votedFor = some c ∧
      ((w.nodes p).currentTerm < t ∨ (w.nodes p).currentTerm = t ∧
        ((w.nodes p).votedFor = none ∨ (w.nodes p).votedFor = some c)) := by
  unfold Voted at hv
  cases h with
  | quiet hq => exact absurd (hq.events _ hv) (by simp [Event.isBallot])
  | elect hm =>
    simp only [Node.doElection, List.mem_singleton, Event.voted.injEq] at hv
    obtain ⟨rfl, rfl, rfl⟩ := hv
    exact ⟨rfl, rfl, rfl, .inl (Nat.lt_succ_self _)⟩
  | won => simp at hv
  | grant hh ht hv' hn =>
    simp only [List.mem_singleton, Event.voted.injEq] at hv
    obtain ⟨rfl, rfl, rfl⟩ := hv
    have hle := term_le hw hh
    have heq := le_antisymm hle ht
    exact ⟨rfl, heq, rfl, .inr ⟨heq.symm, hv'⟩⟩
  | restart => simp [Node.restart] at hv

/-- A granted vote that a step puts on the wire is shown as a vote. -/
theorem answer (h : Ballot w p eff a) {i : ℕ} {reply : RequestVoteReply}
    (ha : eff.answer = some (i, .requestVote reply)) (hg : reply.voteGranted = true) :
    ∃ args, (w.nodes p).held = some (.requestVote i args) ∧
      Voted eff.events args.term p args.candidateId := by
  cases h with
  | quiet hq => exact absurd (hq.answer i reply ha) (by simp [hg])
  | elect hm => simp [Node.doElection] at ha
  | won => simp at ha
  | grant hh ht hv hn =>
    simp only [Option.some.injEq, Prod.mk.injEq] at ha
    obtain ⟨rfl, -⟩ := ha
    exact ⟨_, hh, by simp [Voted]⟩
  | restart => simp [Node.restart] at ha

/-- A transition to leader that a step shows: an open election of the peer's own term has
    reached a majority. -/
theorem won_of_mem (h : Ballot w p eff a) (he : w.Tallied) {q : Fin n} {t t' : ℕ}
    (hwon : .won q t t' ∈ eff.events) :
    q = p ∧ t = t' ∧ t = eff.node.currentTerm ∧ ∃ sum waiting, sum > n / 2 ∧
      .sendRequestVoteToAll t [] sum waiting ∈ eff.node.threads := by
  cases h with
  | quiet hq => exact absurd (hq.events _ hwon) (by simp [Event.isBallot])
  | elect hm => simp [Node.doElection] at hwon
  | @won k call _ sum waiting _ _ hv hc hmaj =>
    rw [List.mem_singleton, Event.won.injEq] at hwon
    obtain ⟨rfl, rfl, rfl⟩ := hwon
    have heq : t = (w.nodes q).currentTerm :=
      le_antisymm (he.threads q _ (List.mem_of_getElem? hv.thread)).1 hv.term
    obtain ⟨hlt, -⟩ := List.getElem?_eq_some_iff.mp hv.thread
    exact ⟨rfl, heq, heq, sum + 1, waiting.erase call, hmaj, List.mem_set hlt _⟩
  | grant => simp at hwon
  | restart => simp [Node.restart] at hwon

end Ballot

namespace World

variable {w : World n C D} {p : Fin n} {eff : Effect n C D} {a : Action n C D}

/-- A granted reply to a call of the goroutine is a vote for its peer in its term. -/
theorem Tallied.voted_of_reply (he : w.Tallied) (hw : w.Plumbed) {k call thisTerm sum : ℕ}
    {waiting : List ℕ} {request : Call n C D} {reply : RequestVoteReply}
    (hv : (w.nodes p).Polled k call thisTerm sum waiting) (hc : w.calls[call]? = some request)
    (hr : request.reply = some (.requestVote reply)) (hg : reply.voteGranted = true) :
    Voted w.trace thisTerm request.dst p := by
  obtain ⟨c, hc', hsrc, hreq⟩ := ((hw.threads p).get hv.thread).2.2 call hv.waits
  obtain rfl : c = request := Option.some.inj (hc'.symm.trans hc)
  cases hrq : c.request with
  | requestVote args =>
    rw [hrq] at hreq
    have hvoted := he.granted call c args reply hc hrq hr hg
    have hsender := (hw.calls call c hc).sender
    rw [hrq] at hsender
    obtain rfl : args.term = thisTerm := hreq
    rwa [← hsrc, ← hsender]
  | _ => rw [hrq] at hreq; exact hreq.elim

/-- **Step.** Goroutines that count votes keep counting each voter once. -/
theorem Tallied.counts (he : w.Tallied) (hw : w.Plumbed) (hl : Local w p eff a) :
    ∀ th ∈ eff.node.threads, th.Counts (callsAfter w.calls a eff) (eff.events ++ w.trace) p
      eff.node.currentTerm := by
  intro th hmem
  have hterm : (w.nodes p).currentTerm ≤ eff.node.currentTerm := by
    rcases local_saves hl with rfl | hs
    · cases hl with
      | restart h => subst h; simp [Node.restart, Node.make_threads] at hmem
    · exact hs.currentTerm_le
  rcases local_moves hl th hmem with hold | hspawn
  · exact (he.threads p th hold).after (hw.threads p th hold) hterm a eff
  cases hspawn with
  | elect hdo =>
    subst hdo
    refine ⟨le_rfl, [p], rfl, fun v hv => ?_, ?_⟩
    · rw [List.mem_singleton.mp hv]
      exact List.mem_append_left _ (List.mem_singleton.mpr rfl)
    · simpa [callees] using nodup_cons_others p
  | vote hk hs hd =>
    obtain ⟨ht, voters, hlen, hvoted, hnodup⟩ := he.threads p _ (List.mem_of_getElem? hk)
    have hwait := ((hw.threads p).get hk).2.2
    refine ⟨ht.trans hterm, voters, hlen, fun v hv => (hvoted v hv).append _, ?_⟩
    -- the peer asked moves from those to be asked to those waited for
    rw [callees_append, callees_after hwait, callees_new hs, hd]
    refine (List.Perm.append_left voters ?_).nodup hnodup
    rw [← List.append_assoc]
    exact (List.perm_append_singleton _ _).symm
  | @revote _ _ _ waiting _ _ _ call hv hc hs hd =>
    obtain ⟨ht, voters, hlen, hvoted, hnodup⟩ := he.threads p _ (List.mem_of_getElem? hv.thread)
    have hwait : ∀ i ∈ waiting.erase call, _ := fun i hi =>
      ((hw.threads p).get hv.thread).2.2 i (List.mem_of_mem_erase hi)
    refine ⟨ht.trans hterm, voters, hlen, fun v hv => (hvoted v hv).append _, ?_⟩
    rw [callees_append, callees_after hwait, callees_new hs, hd]
    refine (List.Perm.append_left voters ?_).nodup hnodup
    exact (callees_erase hv.waits hc).trans (List.perm_append_singleton _ _).symm
  | @count _ _ _ waiting request reply _ _ call hv hc hr hsum =>
    obtain ⟨ht, voters, hlen, hvoted, hnodup⟩ := he.threads p _ (List.mem_of_getElem? hv.thread)
    have hwait : ∀ i ∈ waiting.erase call, _ := fun i hi =>
      ((hw.threads p).get hv.thread).2.2 i (List.mem_of_mem_erase hi)
    refine ⟨ht.trans hterm, ?_⟩
    rw [callees_after hwait, List.nil_append]
    have hnodup' := ((callees_erase hv.waits hc).append_left voters).nodup hnodup
    cases hg : reply.voteGranted with
    | false =>
      rw [hg] at hsum
      refine ⟨voters, hlen.trans hsum.symm, fun v hv => (hvoted v hv).append _, ?_⟩
      exact hnodup'.sublist ((List.sublist_cons_self _ _).append_left voters)
    | true =>
      rw [hg] at hsum
      have hnew := he.voted_of_reply hw hv hc hr hg
      refine ⟨request.dst :: voters, by simp [hlen, hsum], fun v hv => ?_, ?_⟩
      · rcases List.mem_cons.mp hv with rfl | hv
        · exact hnew.append _
        · exact (hvoted v hv).append _
      · exact List.perm_middle.nodup hnodup'
  | _ => trivial

end World

/-! ### The invariant -/

namespace World

variable {w w' : World n C D} {p : Fin n} {eff : Effect n C D} {a : Action n C D}

theorem VotesOnce.voted_after (he : w.VotesOnce) (hw : w.Plumbed) (hb : Ballot w p eff a)
    (hk : w.KeepsState a) {t : ℕ} {v c : Fin n} (hv : Voted (w.after a p eff).trace t v c) :
    t ≤ ((w.after a p eff).nodes v).currentTerm ∧
      (t = ((w.after a p eff).nodes v).currentTerm →
        ((w.after a p eff).nodes v).votedFor = some c) := by
  rcases List.mem_append.mp hv with hnew | hold
  · obtain ⟨rfl, rfl, hvote, -⟩ := hb.voted hw hnew
    rw [after_nodes_self]
    exact ⟨le_rfl, fun _ => hvote⟩
  · obtain ⟨hle, heq⟩ := he.voted t v c hold
    rcases eq_or_ne v p with rfl | hne
    · obtain ⟨hterm, hsame⟩ := hb.advances hw hk
      rw [after_nodes_self]
      refine ⟨hle.trans hterm, fun ht => ?_⟩
      have hcur : t = (w.nodes v).currentTerm := le_antisymm hle (ht ▸ hterm)
      rcases hsame (hcur.symm.trans ht) with hn | hs
      · rw [heq hcur] at hn; exact absurd hn (by simp)
      · rw [hs, heq hcur]
    · rw [after_nodes_of_ne _ _ _ hne]
      exact ⟨hle, heq⟩

theorem VotesOnce.once_after (he : w.VotesOnce) (hw : w.Plumbed) (hb : Ballot w p eff a) {t : ℕ}
    {v c c' : Fin n} (hv : Voted (w.after a p eff).trace t v c)
    (hv' : Voted (w.after a p eff).trace t v c') : c = c' := by
  -- an old vote and a new one of the same term are for the same candidate
  have hmix {c c' : Fin n} (hold : Voted w.trace t v c) (hnew : Voted eff.events t v c') :
      c = c' := by
    obtain ⟨rfl, -, -, hlt | ⟨ht, hvote⟩⟩ := hb.voted hw hnew
    · exact absurd (he.voted t v c hold).1 (not_le.mpr hlt)
    · have hcur := (he.voted t v c hold).2 ht.symm
      rcases hvote with hvote | hvote <;> rw [hcur] at hvote
      · exact absurd hvote (by simp)
      · exact Option.some.inj hvote
  rcases List.mem_append.mp hv with hnew | hold <;>
    rcases List.mem_append.mp hv' with hnew' | hold'
  · obtain ⟨-, -, hvote, -⟩ := hb.voted hw hnew
    obtain ⟨-, -, hvote', -⟩ := hb.voted hw hnew'
    exact Option.some.inj (hvote.symm.trans hvote')
  · exact (hmix hold' hnew).symm
  · exact hmix hold hnew'
  · exact he.once t v c c' hold hold'

theorem Tallied.granted_after (he : w.Tallied) (hw : w.Plumbed) (hl : Local w p eff a) {i : ℕ}
    {c : Call n C D} {args : RequestVoteArgs n} {reply : RequestVoteReply}
    (hc : (w.after a p eff).calls[i]? = some c) (hrq : c.request = .requestVote args)
    (hr : c.reply = some (.requestVote reply)) (hg : reply.voteGranted = true) :
    Voted (w.after a p eff).trace args.term c.dst args.candidateId := by
  rcases callsAfter_cases hc with ⟨c₀, hc₀, rfl⟩ | ⟨-, hs⟩
  · rcases callAfter_reply hr with hr | ha
    · exact (he.granted i c₀ args reply hc₀ hrq hr hg).append _
    · obtain ⟨args', hheld, hvoted⟩ := (local_ballot hl).answer ha hg
      obtain ⟨⟨c₁, hc₁, hdst, hrq₁⟩, -⟩ := hw.held p _ hheld i (.requestVote args') rfl
      obtain rfl : c₁ = c₀ := Option.some.inj (hc₁.symm.trans hc₀)
      obtain rfl : args' = args := by
        rw [callAfter_request, hrq₁] at hrq
        exact Request.requestVote.inj hrq
      rw [callAfter_dst, hdst]
      exact List.mem_append_left _ hvoted
  · rw [((hw.local_ok hl).send c hs).2.2] at hr
    exact absurd hr (by simp)

/-- **Step.** The count of votes stays sound, whatever the action. -/
theorem Tallied.step (he : w.Tallied) (hw : w.Plumbed) (h : w.step a = some w') :
    w'.Tallied := by
  obtain ⟨p, eff, heff, rfl⟩ := step_eq_some h
  have hl := effect_local heff
  have hb := local_ballot hl
  have hcounts : ∀ q, ∀ th ∈ ((w.after a p eff).nodes q).threads,
      th.Counts (w.after a p eff).calls (w.after a p eff).trace q
        ((w.after a p eff).nodes q).currentTerm := by
    intro q th hth
    rcases eq_or_ne q p with rfl | hne
    · rw [after_nodes_self] at hth ⊢
      exact he.counts hw hl th hth
    · rw [after_nodes_of_ne _ _ _ hne] at hth ⊢
      exact (he.threads q th hth).after (hw.threads q th hth) le_rfl a eff
  refine ⟨fun i c args reply => he.granted_after hw hl, hcounts, fun q t t' hwon => ?_⟩
  rcases List.mem_append.mp hwon with hnew | hold
  · obtain ⟨rfl, rfl, -, sum, waiting, hsum, hth⟩ := hb.won_of_mem he hnew
    obtain ⟨-, voters, rfl, hvoted, hnodup⟩ :=
      hcounts q _ (by rw [after_nodes_self]; exact hth)
    exact ⟨rfl, elected_of_voters (List.nodup_append.mp hnodup).1 hsum hvoted⟩
  · obtain ⟨rfl, hel⟩ := he.won q t t' hold
    exact ⟨rfl, hel.mono fun v hv => hv.append _⟩

theorem init_tallied (room : Fin n → ℕ → ℕ) :
    (init room : World n C D).Tallied where
  granted i c args reply h := by simp [init] at h
  threads p th hth := by simp [init, Node.make_threads] at hth
  won p t t' h := by simp [init] at h

/-- **Run.** In every run, whatever its actions, the count of votes is sound. -/
theorem Reachable.tallied {ok : World n C D → Action n C D → Prop} (h : Reachable ok w) :
    w.Tallied := by
  induction h using Reachable.induct with
  | refl room => exact init_tallied room
  | tail a hr _ hstep ih => exact ih.step (Reachable.plumbed hr) hstep

/-- **Step.** Votes stay unique as long as no peer restarts from erased state. -/
theorem VotesOnce.step (he : w.VotesOnce) (hw : w.Plumbed) (hk : w.KeepsState a)
    (h : w.step a = some w') : w'.VotesOnce := by
  obtain ⟨p, eff, heff, rfl⟩ := step_eq_some h
  have hb := local_ballot (effect_local heff)
  exact ⟨fun t v c => he.voted_after hw hb hk, fun t v c c' => he.once_after hw hb⟩

theorem init_votesOnce (room : Fin n → ℕ → ℕ) :
    (init room : World n C D).VotesOnce where
  voted t v c h := by simp [Voted, init] at h
  once t v c c' h := by simp [Voted, init] at h

/-- **Run.** In every run without restarts from erased state, votes are unique. -/
theorem Reachable.votesOnce {ok : World n C D → Action n C D → Prop}
    (hok : ∀ w a, Reachable ok w → ok w a → w.KeepsState a) (h : Reachable ok w) :
    w.VotesOnce := by
  induction h using Reachable.induct with
  | refl room => exact init_votesOnce room
  | tail a hr hoka hstep ih => exact ih.step (Reachable.plumbed hr) (hok _ a hr hoka) hstep

/-- At most one peer wins an election of a term. -/
theorem winner_unique (hv : w.VotesOnce) (he : w.Tallied) {p q : Fin n} {t : ℕ}
    (hp : .won p t t ∈ w.trace) (hq : .won q t t ∈ w.trace) : p = q :=
  Elected.unique (fun v c c' => hv.once t v c c') (he.won p t t hp).2 (he.won q t t hq).2

end World

end MitDistributed.Raft
