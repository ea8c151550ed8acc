import MitDistributed.Raft.Spawn

namespace MitDistributed.Raft

open Transition

/-!
# Raft — goroutines, handlers and calls fit together

The bookkeeping that every later invariant rests on, and that holds in every run:

* a request names its sender, goes to another peer, and carries a term of at least 1
  (`Call.Ok`);
* a goroutine that waits for a call waits for one it made itself (`Thread.Ok`);
* a handler that is under way handles a call made to its peer, whose term the peer has
  already adopted if it was higher (`Held.Ok`);
* nobody writes the log while a goroutine reads it (`Node.ReadersOk`);
* in term 0 nothing has happened yet at a peer (`Node.Fresh`).
-/

variable {n : ℕ} {C D : Type}

/-! ### Requests -/

/-- The `Term` field of a request. -/
def Request.term : Request n C D → ℕ
  | .requestVote args => args.term
  | .appendEntries args => args.term
  | .installSnapshot args => args.term

/-- The peer a request names as its sender. -/
def Request.sender : Request n C D → Fin n
  | .requestVote args => args.candidateId
  | .appendEntries args => args.leaderId
  | .installSnapshot args => args.leaderId

/-- A call that names its sender, goes to another peer, and has a positive term. -/
structure Call.Ok (c : Call n C D) : Prop where
  ne : c.src ≠ c.dst
  sender : c.request.sender = c.src
  term : 1 ≤ c.request.term

/-- `i` is a call of `p` whose request satisfies `P`. -/
def IsCall (calls : List (Call n C D)) (p : Fin n) (i : ℕ)
    (P : Fin n → Request n C D → Prop) : Prop :=
  ∃ c, calls[i]? = some c ∧ c.src = p ∧ P c.dst c.request

/-- `i` is a call to `p` with the given request. -/
def IsCallTo (calls : List (Call n C D)) (p : Fin n) (i : ℕ) (request : Request n C D) : Prop :=
  ∃ c, calls[i]? = some c ∧ c.dst = p ∧ c.request = request

theorem IsCall.after {calls : List (Call n C D)} {p : Fin n} {i : ℕ}
    {P : Fin n → Request n C D → Prop} (h : IsCall calls p i P) (a : Action n C D)
    (eff : Effect n C D) : IsCall (World.callsAfter calls a eff) p i P := by
  obtain ⟨c, hc, hsrc, hP⟩ := h
  exact ⟨_, World.callsAfter_of_getElem? a eff hc, hsrc, hP⟩

theorem IsCallTo.after {calls : List (Call n C D)} {p : Fin n} {i : ℕ} {request : Request n C D}
    (h : IsCallTo calls p i request) (a : Action n C D) (eff : Effect n C D) :
    IsCallTo (World.callsAfter calls a eff) p i request := by
  obtain ⟨c, hc, hdst, hr⟩ := h
  exact ⟨_, World.callsAfter_of_getElem? a eff hc, hdst, hr⟩

/-- The call that a step makes is a call of its peer. -/
theorem isCall_new {calls : List (Call n C D)} {p : Fin n} {a : Action n C D} {eff : Effect n C D}
    {c : Call n C D} {P : Fin n → Request n C D → Prop} (hs : eff.send = some c) (hsrc : c.src = p)
    (hP : P c.dst c.request) :
    IsCall (World.callsAfter calls a eff) p calls.length P :=
  ⟨c, World.callsAfter_new hs, hsrc, hP⟩

/-- The calls waited for, with the new one. -/
theorem isCall_append {calls : List (Call n C D)} {p : Fin n} {a : Action n C D}
    {eff : Effect n C D} {c : Call n C D} {P : Fin n → Request n C D → Prop} {waiting : List ℕ}
    (h : ∀ i ∈ waiting, IsCall calls p i P) (hs : eff.send = some c) (hsrc : c.src = p)
    (hP : P c.dst c.request) :
    ∀ i ∈ waiting ++ [calls.length], IsCall (World.callsAfter calls a eff) p i P := by
  intro i hi
  rcases List.mem_append.mp hi with hi | hi
  · exact (h i hi).after a eff
  · rw [List.mem_singleton.mp hi]
    exact isCall_new hs hsrc hP

/-! ### Goroutines -/

/-- A request for a vote in `term`. -/
def IsVoteRequest (term : ℕ) (_ : Fin n) : Request n C D → Prop
  | .requestVote args => args.term = term
  | _ => False

/-- A heartbeat of `term`. -/
def IsHeartbeat (term : ℕ) (_ : Fin n) : Request n C D → Prop
  | .appendEntries args => args.term = term ∧ args.entries = []
  | _ => False

/-- The peers still to be served, and the calls waited for. -/
def HeartbeatPc.todo : HeartbeatPc n → List (Fin n)
  | .send todo _ => todo
  | _ => []

def HeartbeatPc.waiting : HeartbeatPc n → List ℕ
  | .start => []
  | .send _ waiting => waiting
  | .check _ waiting => waiting
  | .receive _ waiting => waiting

/-- A request that `args` stands for: with as many entries as its window has slots. -/
def SenderArgs.Encodes (args : SenderArgs n) (r : Request n C D) : Prop :=
  ∃ entries : List (LogEntry C),
    entries.length = args.entries.length ∧ r = .appendEntries (args.request entries)

/-- `sendAppendEntries` has encoded no more entries than there are, and waits for a call that it
    made. -/
def AppendPc.Ok (calls : List (Call n C D)) (p peer : Fin n) (args : SenderArgs n) :
    AppendPc C → Prop
  | .check => True
  | .encode encoded => encoded.length ≤ args.entries.length
  | .wait i => IsCall calls p i fun dst r => dst = peer ∧ args.Encodes r

theorem AppendPc.Ok.after {calls : List (Call n C D)} {p peer : Fin n} {args : SenderArgs n}
    {pc : AppendPc C} (h : pc.Ok calls p peer args) (a : Action n C D) (eff : Effect n C D) :
    pc.Ok (World.callsAfter calls a eff) p peer args := by
  cases pc with
  | check => trivial
  | encode encoded => exact h
  | wait i =>
    have hcall : IsCall calls p i fun dst r => dst = peer ∧ args.Encodes r := h
    exact hcall.after a eff

/-- A goroutine of `p` serves other peers and waits only for calls that it made. -/
def Thread.Ok (calls : List (Call n C D)) (p : Fin n) : Thread n C D → Prop
  | .sendRequestVoteToAll thisTerm todo _ waiting =>
    1 ≤ thisTerm ∧ (∀ q ∈ todo, q ≠ p) ∧
      ∀ i ∈ waiting, IsCall calls p i (IsVoteRequest thisTerm)
  | .sendHeartbeatToAll thisTerm pc =>
    1 ≤ thisTerm ∧ (∀ q ∈ pc.todo, q ≠ p) ∧
      ∀ i ∈ pc.waiting, IsCall calls p i (IsHeartbeat thisTerm)
  | .sendAppendEntriesToAll thisTerm todo => 1 ≤ thisTerm ∧ ∀ q ∈ todo.getD [], q ≠ p
  | .sendAppendEntries peer args pc =>
    1 ≤ args.term ∧ peer ≠ p ∧ args.leaderId = p ∧ pc.Ok calls p peer args
  | .sendInstallSnapshot peer args pc =>
    1 ≤ args.term ∧ peer ≠ p ∧ args.leaderId = p ∧
      ∀ i, pc = .wait i → IsCall calls p i fun dst r => dst = peer ∧ r = .installSnapshot args
  | .tryIncrementCommitIndex _ => True

theorem Thread.Ok.after {calls : List (Call n C D)} {p : Fin n} {th : Thread n C D}
    (h : th.Ok calls p) (a : Action n C D) (eff : Effect n C D) :
    th.Ok (World.callsAfter calls a eff) p := by
  cases th with
  | sendRequestVoteToAll => exact ⟨h.1, h.2.1, fun i hi => (h.2.2 i hi).after a eff⟩
  | sendHeartbeatToAll => exact ⟨h.1, h.2.1, fun i hi => (h.2.2 i hi).after a eff⟩
  | sendAppendEntriesToAll => exact h
  | sendAppendEntries => exact ⟨h.1, h.2.1, h.2.2.1, h.2.2.2.after a eff⟩
  | sendInstallSnapshot => exact ⟨h.1, h.2.1, h.2.2.1, fun i hi => (h.2.2.2 i hi).after a eff⟩
  | tryIncrementCommitIndex => trivial

theorem ne_of_mem_others {p q : Fin n} (h : q ∈ others p) : q ≠ p := by
  simpa [others] using h

/-! ### Handlers -/

/-- The call that a handler under way answers, and its request. -/
def Held.call : Held n C D → Option (ℕ × Request n C D)
  | .requestVote call args => some (call, .requestVote args)
  | .appendLog call args => some (call, .appendEntries args)
  | .appendCommit call args => some (call, .appendEntries args)
  | .installLog call args => some (call, .installSnapshot args)
  | .installIndex call args _ => some (call, .installSnapshot args)
  | .installSave call args => some (call, .installSnapshot args)
  | .installSend call args => some (call, .installSnapshot args)
  | .snapshotSave _ => none

/-- A handler of `p` under way handles a call to `p`, and the term of the request has been
    seen. -/
def Held.Ok (calls : List (Call n C D)) (p : Fin n) (currentTerm : ℕ) (held : Held n C D) : Prop :=
  ∀ i request, held.call = some (i, request) →
    IsCallTo calls p i request ∧ request.term ≤ currentTerm

theorem Held.Ok.after {calls : List (Call n C D)} {p : Fin n} {t t' : ℕ} {held : Held n C D}
    (h : held.Ok calls p t) (ht : t ≤ t') (a : Action n C D) (eff : Effect n C D) :
    held.Ok (World.callsAfter calls a eff) p t' := fun i request hi =>
  ⟨(h i request hi).1.after a eff, (h i request hi).2.trans ht⟩

/-! ### Term 0 -/

/-- The durable part of a peer that has never saved anything. -/
def RaftBytes.initial : RaftBytes n C :=
  { currentTerm := 0
    votedFor := none
    lastIncludedIndex := 0
    lastIncludedTerm := 0
    log := [.zero] }

namespace Node

/-- A peer at which nothing has happened yet. -/
structure Fresh (nd : Node n C D) : Prop where
  threads : nd.threads = []
  held : nd.held = none
  bytes : nd.bytes = .initial
  commitIndex : nd.commitIndex = 0
  state : nd.state ≠ .leaderState
  main : nd.main = .read ∨ nd.main = .doElection ∨ nd.main = .followerWait

/-! What `Make` sets, whatever the persister holds. -/

section

variable (ps : Persister n C D) (room : ℕ → ℕ)

theorem make_persister : (make ps room).persister = ps := by
  unfold make readPersist
  split <;> rfl

theorem make_state : (make ps room).state = .followerState := by
  unfold make readPersist
  split <;> rfl

theorem make_main : (make ps room).main = .read := by
  unfold make readPersist
  split <;> rfl

theorem make_held : (make ps room).held = none := by
  unfold make readPersist
  split <;> rfl

/-- A restart brings back what was saved. -/
theorem make_bytes {ps : Persister n C D} {b : RaftBytes n C} (h : ps.raftstate = some b) :
    (make ps room).bytes = b := by
  obtain ⟨raftstate, snapshot⟩ := ps
  cases h
  rfl

/-- If nothing was saved, or nothing has happened before, a restart leads to a fresh peer. -/
theorem make_fresh {ps : Persister n C D}
    (h : ps.raftstate = none ∨ ps.raftstate = some .initial) : (make ps room).Fresh := by
  obtain ⟨raftstate, snapshot⟩ := ps
  rcases h with h | h <;> cases h <;>
    exact ⟨rfl, rfl, rfl, rfl, Role.noConfusion, .inl rfl⟩

end

variable {me : Fin n} {nd : Node n C D} {eff : Effect n C D}

/-- A step that stays in term 0 finds a fresh peer and leaves it fresh. -/
theorem Fresh.mainStep (hf : nd.Fresh) (h : nd.mainStep me = some eff)
    (ht : eff.node.currentTerm = 0) : eff.node.Fresh := by
  obtain ⟨hth, hh, hb, hc, hs, hm⟩ := hf
  cases mainStep_cases h with
  | lead _ hstate => exact absurd hstate hs
  | stand => exact ⟨hth, hh, hb, hc, hs, .inr (.inl rfl)⟩
  | follow => exact ⟨hth, hh, hb, hc, hs, .inr (.inr rfl)⟩
  | elect => exact absurd ht (Nat.succ_ne_zero _)
  | timeout => exact ⟨hth, hh, hb, hc, Role.noConfusion, .inl rfl⟩
  | leaderInit hm' | leaderInitDone hm' | heartbeat hm' | stay hm' | leave hm' | counted hm' =>
    rw [hm'] at hm
    simp at hm

/-- A request of a positive term ends term 0. -/
theorem handle_currentTerm {call : ℕ} {request : Request n C D}
    (h : nd.handle call request = some eff) : request.term ≤ eff.node.currentTerm := by
  have hobs (t : ℕ) : t ≤ (nd.observe t).currentTerm := by
    unfold observe
    split
    · exact le_rfl
    · omega
  have hdown (t : ℕ) : ((nd.observe t).stepDown t).currentTerm = (nd.observe t).currentTerm := by
    unfold stepDown
    split <;> rfl
  cases handle_cases h with
  | requestVote args => exact hobs args.term
  | appendEntries args => exact (hobs args.term).trans (hdown args.term).ge
  | installSnapshot args => exact hobs args.term

end Node

namespace World

theorem Local.fresh {w : World n C D} {p : Fin n} {eff : Effect n C D} {a : Action n C D}
    (h : Local w p eff a) (hcalls : ∀ (i : ℕ) (c : Call n C D), w.calls[i]? = some c → c.Ok)
    (hd : (w.nodes p).Durable) (hf : (w.nodes p).currentTerm = 0 → (w.nodes p).Fresh)
    (ht : eff.node.currentTerm = 0) : eff.node.Fresh := by
  have hold (ha : a ≠ .restart p) : (w.nodes p).Fresh := by
    have hle := ((local_saves h).resolve_left ha).currentTerm_le
    exact hf (by omega)
  cases h with
  | main h => exact (hold (by simp)).mainStep h ht
  | thread k h =>
    have hth := (hold (by simp)).threads
    simp [Node.threadStep, hth] at h
  | reply k call ok request _ h =>
    have hth := (hold (by simp)).threads
    simp [Node.threadReply, hth] at h
  | apply h =>
    obtain ⟨hth, hh, hb, hc, hs, hm⟩ := hold (by simp)
    cases Node.applyStep_cases h <;> exact ⟨hth, hh, hb, hc, hs, hm⟩
  | deliver call request hc _ h =>
    have hpos := (hcalls call request hc).term
    have := Node.handle_currentTerm h
    omega
  | resume h =>
    have hh := (hold (by simp)).held
    simp [Node.resume, hh] at h
  | start command h =>
    have hfresh := hold (by simp)
    cases Node.tryStart_cases h with
    | append hs => exact absurd hs hfresh.state
    | ignore => exact hfresh
  | snapshot index snapshot h =>
    have hfresh := hold (by simp)
    cases Node.trySnapshot_cases h with
    | ignore => exact hfresh
    | exit _ hlt hle | compact _ hlt hle =>
      have hc := hfresh.commitIndex
      omega
  | restart h =>
    subst h
    refine Node.make_fresh _ ?_
    cases hr : (w.nodes p).persister.raftstate with
    | none => exact .inl rfl
    | some b =>
      -- what was saved is what the peer held, which is the initial state in term 0
      have hb := Node.make_bytes (w.nodes p).backing.room hr
      have hbt : b.currentTerm = 0 := (congrArg RaftBytes.currentTerm hb).symm.trans ht
      have hnd := hd b hr
      rw [hnd] at hbt ⊢
      exact .inr (by rw [(hf hbt).bytes])

end World

/-! ### The steps keep goroutines and calls in order -/

/-- Every goroutine of a peer is in order. -/
def Node.ThreadsOk (calls : List (Call n C D)) (p : Fin n) (nd : Node n C D) : Prop :=
  ∀ th ∈ nd.threads, th.Ok calls p

/-- What a step does to goroutines and calls is in order. -/
structure Effect.Ok (calls : List (Call n C D)) (p : Fin n) (a : Action n C D)
    (eff : Effect n C D) : Prop where
  send : ∀ c, eff.send = some c → c.Ok ∧ c.src = p ∧ c.reply = none
  threads : eff.node.ThreadsOk (World.callsAfter calls a eff) p

namespace Node

section

variable {calls : List (Call n C D)} {p : Fin n} {nd : Node n C D}

theorem ThreadsOk.after (h : nd.ThreadsOk calls p) (a : Action n C D) (eff : Effect n C D) :
    nd.ThreadsOk (World.callsAfter calls a eff) p := fun th hth => (h th hth).after a eff

theorem ThreadsOk.congr {nd' : Node n C D} (h : nd.ThreadsOk calls p)
    (heq : nd'.threads = nd.threads) : nd'.ThreadsOk calls p := fun th hth =>
  h th (heq ▸ hth)

variable {th : Thread n C D}

theorem ThreadsOk.setThread (h : nd.ThreadsOk calls p) (hth : th.Ok calls p) (k : ℕ) :
    (nd.setThread k th).ThreadsOk calls p := by
  intro th' hmem
  rcases mem_setThread hmem with hmem | rfl
  · exact h th' hmem
  · exact hth

theorem ThreadsOk.endThread (h : nd.ThreadsOk calls p) (k : ℕ) :
    (nd.endThread k).ThreadsOk calls p := fun th hmem => h th (mem_endThread hmem)

theorem ThreadsOk.go (h : nd.ThreadsOk calls p) (hth : th.Ok calls p) :
    (nd.go th).ThreadsOk calls p := by
  intro th' hmem
  rcases (mem_go nd th th').mp hmem with hmem | rfl
  · exact h th' hmem
  · exact hth

theorem ThreadsOk.get (h : nd.ThreadsOk calls p) {k : ℕ} (hk : nd.threads[k]? = some th) :
    th.Ok calls p :=
  h th (List.mem_of_getElem? hk)

/-- A step that makes no call and ends in order. -/
theorem effectOk_of_threads {a : Action n C D} {eff : Effect n C D} (hs : eff.send = none)
    (h : eff.node.ThreadsOk calls p) : eff.Ok calls p a where
  send c hc := absurd hc (by simp [hs])
  threads := h.after a eff

/-- A step that leaves the goroutines alone. -/
theorem effectOk_of_eq {a : Action n C D} {eff : Effect n C D} (h : nd.ThreadsOk calls p)
    (hs : eff.send = none) (heq : eff.node.threads = nd.threads) : eff.Ok calls p a :=
  effectOk_of_threads hs (h.congr heq)

end

section

variable {w : World n C D} {p : Fin n} {nd : Node n C D} {a : Action n C D}
  {eff : Effect n C D}

theorem mainStep_ok (hok : nd.ThreadsOk w.calls p) (hf : nd.currentTerm = 0 → nd.Fresh)
    (h : nd.mainStep p = some eff) : eff.Ok w.calls p a := by
  cases mainStep_cases h with
  | leaderInitDone =>
    exact effectOk_of_threads rfl (ThreadsOk.go (hok.congr rfl) trivial)
  | heartbeat hm =>
    -- a peer whose main loop is in `leaderMain` has left term 0
    have hterm : 1 ≤ nd.currentTerm := by
      by_contra h0
      rcases (hf (by omega)).main with h | h | h <;> rw [hm] at h <;> cases h
    refine effectOk_of_threads rfl (ThreadsOk.go (hok.congr rfl) ?_)
    exact ⟨hterm, by simp [HeartbeatPc.todo], by simp [HeartbeatPc.waiting]⟩
  | elect =>
    refine effectOk_of_threads rfl (ThreadsOk.go (hok.congr rfl) ?_)
    exact ⟨by omega, fun q hq => ne_of_mem_others hq, by simp⟩
  | _ => exact effectOk_of_eq hok rfl rfl

/-- A request built from the log keeps the term and the sender it is built for. -/
theorem appendArgs_fields {term prev commit : ℕ} {args : SenderArgs n}
    (h : nd.appendArgs p term prev commit = some args) :
    args.term = term ∧ args.leaderId = p ∧ args.prevLogIndex = prev ∧
      args.leaderCommit = commit ∧ nd.getTermOfLog prev = some args.prevLogTerm ∧
      nd.getLogsFrom (prev + 1) = some args.entries := by
  unfold appendArgs at h
  split at h <;> cases h
  exact ⟨rfl, rfl, rfl, rfl, by assumption, by assumption⟩

variable {k call : ℕ}

/-- `sendAppendEntriesToAll` turns to the next peer. -/
theorem ThreadsOk.broadcast (hok : nd.ThreadsOk w.calls p) {thisTerm : ℕ} {peer : Fin n}
    {todo : List (Fin n)}
    (hk : nd.threads[k]? = some (.sendAppendEntriesToAll thisTerm (some (peer :: todo)))) :
    1 ≤ thisTerm ∧ peer ≠ p ∧
      (nd.setThread k (.sendAppendEntriesToAll thisTerm (some todo))).ThreadsOk w.calls p := by
  obtain ⟨hterm, htodo⟩ := hok.get hk
  refine ⟨hterm, htodo peer (by simp), hok.setThread ?_ k⟩
  exact ⟨hterm, fun q hq => htodo q (by simp_all)⟩

theorem threadStep_ok (hok : nd.ThreadsOk w.calls p)
    (h : nd.threadStep p w.calls.length k = some eff) : eff.Ok w.calls p a := by
  have hset {th : Thread n C D} (hth : th.Ok w.calls p) :
      Effect.Ok w.calls p a { node := nd.setThread k th } :=
    effectOk_of_threads rfl (hok.setThread hth k)
  cases threadStep_cases h with
  | @vote _ peer _ _ _ _ hk =>
    obtain ⟨hterm, htodo, hwait⟩ := hok.get hk
    refine ⟨?_, (hok.after a _).setThread ?_ k⟩
    · rintro c ⟨⟩
      exact ⟨⟨(htodo peer (by simp)).symm, rfl, hterm⟩, rfl, rfl⟩
    · exact ⟨hterm, fun q hq => htodo q (by simp [hq]), isCall_append hwait rfl rfl rfl⟩
  | beatStart hk =>
    exact hset ⟨(hok.get hk).1, fun q hq => ne_of_mem_others hq, by simp [HeartbeatPc.waiting]⟩
  | @beat _ peer _ _ _ hk =>
    obtain ⟨hterm, htodo, hwait⟩ := hok.get hk
    refine ⟨?_, (hok.after a _).setThread ?_ k⟩
    · rintro c ⟨⟩
      exact ⟨⟨(htodo peer (by simp [HeartbeatPc.todo])).symm, rfl, hterm⟩, rfl, rfl⟩
    · refine ⟨hterm, fun q hq => htodo q (by simp_all [HeartbeatPc.todo]), ?_⟩
      exact isCall_append hwait rfl rfl ⟨rfl, rfl⟩
  | beatSent hk | beatWait hk =>
    obtain ⟨hterm, htodo, hwait⟩ := hok.get hk
    exact hset ⟨hterm, htodo, hwait⟩
  | broadcastStart hk => exact hset ⟨(hok.get hk).1, fun q hq => ne_of_mem_others hq⟩
  | broadcastSnapshot hk =>
    obtain ⟨hterm, hpeer, hthreads⟩ := hok.broadcast hk
    refine effectOk_of_threads rfl (hthreads.go ?_)
    exact ⟨hterm, hpeer, rfl, nofun⟩
  | broadcastEntries hk _ _ hargs =>
    obtain ⟨hterm, hpeer, hthreads⟩ := hok.broadcast hk
    obtain ⟨ht, hl, -⟩ := appendArgs_fields hargs
    refine effectOk_of_threads rfl (hthreads.go ?_)
    exact ⟨ht ▸ hterm, hpeer, hl, trivial⟩
  | broadcastSkip hk => exact effectOk_of_threads rfl (hok.broadcast hk).2.2
  | append hk =>
    obtain ⟨hterm, hpeer, hl, -⟩ := hok.get hk
    exact hset ⟨hterm, hpeer, hl, Nat.zero_le _⟩
  | @encode _ _ encoded hk hlt =>
    obtain ⟨hterm, hpeer, hl, -⟩ := hok.get hk
    refine hset ⟨hterm, hpeer, hl, ?_⟩
    simp only [AppendPc.Ok, List.length_append, List.length_singleton]
    omega
  | @call peer args encoded hk hlt =>
    obtain ⟨hterm, hpeer, hl, hle⟩ := hok.get hk
    have henc : args.Encodes (D := D) (.appendEntries (args.request encoded)) :=
      ⟨encoded, Nat.le_antisymm hle (Nat.not_lt.mp hlt), rfl⟩
    refine ⟨?_, (hok.after a _).setThread ?_ k⟩
    · rintro c ⟨⟩
      exact ⟨⟨hpeer.symm, hl, hterm⟩, rfl, rfl⟩
    · exact ⟨hterm, hpeer, hl,
        isCall_new (P := fun dst r => dst = peer ∧ args.Encodes r) rfl rfl ⟨rfl, henc⟩⟩
  | snapshot hk =>
    obtain ⟨hterm, hpeer, hl, -⟩ := hok.get hk
    refine ⟨?_, (hok.after a _).setThread ?_ k⟩
    · rintro c ⟨⟩
      exact ⟨⟨hpeer.symm, hl, hterm⟩, rfl, rfl⟩
    · refine ⟨hterm, hpeer, hl, ?_⟩
      rintro i ⟨⟩
      exact isCall_new rfl rfl ⟨rfl, rfl⟩
  | write =>
    exact effectOk_of_threads rfl (ThreadsOk.setThread (hok.congr rfl) (by trivial) k)
  | scan => exact hset trivial
  | exit => exact effectOk_of_eq hok rfl rfl
  | done => exact effectOk_of_threads rfl (hok.endThread k)

theorem threadReply_ok (hok : nd.ThreadsOk w.calls p) {request : Call n C D} {ok : Bool}
    (hcalls : ∀ (i : ℕ) (c : Call n C D), w.calls[i]? = some c → c.Ok)
    (hc : w.calls[call]? = some request)
    (h : nd.threadReply p w.calls.length k call request ok = some eff) : eff.Ok w.calls p a := by
  have hend : Effect.Ok w.calls p a { node := nd.endThread k } :=
    effectOk_of_threads rfl (hok.endThread k)
  have hobs (t : ℕ) : (nd.observe t).ThreadsOk w.calls p := hok.congr (observe_threads nd t)
  have hadv (t : ℕ) (peer : Fin n) (index : ℕ) :
      ((nd.observe t).advanceMatch peer index).ThreadsOk w.calls p :=
    (hobs t).congr (advanceMatch_threads _ _ _)
  -- what a goroutine still waits for, it has waited for
  have herase {waiting : List ℕ} {P : Fin n → Request n C D → Prop}
      (hwait : ∀ i ∈ waiting, IsCall w.calls p i P) :
      ∀ i ∈ waiting.erase call, IsCall w.calls p i P :=
    fun i hi => hwait i (List.mem_of_mem_erase hi)
  cases threadReply_cases h with
  | voteAgain hv =>
    obtain ⟨hterm, -, hwait⟩ := hok.get hv.thread
    obtain ⟨c, hc', hsrc, hreq⟩ := hwait call hv.waits
    obtain rfl : c = request := Option.some.inj (hc'.symm.trans hc)
    have hcok := hcalls call c hc
    refine ⟨?_, (hok.after a _).setThread ?_ k⟩
    · rintro c' ⟨⟩
      exact ⟨⟨hsrc ▸ hcok.ne, hsrc ▸ hcok.sender, hcok.term⟩, rfl, rfl⟩
    · exact ⟨hterm, by simp, isCall_append (herase hwait) rfl rfl hreq⟩
  | voteCounted hv =>
    obtain ⟨hterm, -, hwait⟩ := hok.get hv.thread
    refine effectOk_of_threads rfl ((hobs _).setThread ?_ k)
    exact ⟨hterm, by simp, herase hwait⟩
  | voteWon hv =>
    obtain ⟨hterm, -, hwait⟩ := hok.get hv.thread
    refine effectOk_of_threads rfl (ThreadsOk.setThread (hok.congr rfl) ?_ k)
    exact ⟨hterm, by simp, herase hwait⟩
  | beatLost hb =>
    obtain ⟨hterm, -, hwait⟩ := hok.get hb.thread
    refine effectOk_of_threads rfl (hok.setThread ?_ k)
    exact ⟨hterm, by simp [HeartbeatPc.todo], herase hwait⟩
  | beatMatched hb =>
    obtain ⟨hterm, -, hwait⟩ := hok.get hb.thread
    refine effectOk_of_threads rfl ((hadv _ _ _).setThread ?_ k)
    exact ⟨hterm, by simp [HeartbeatPc.todo], herase hwait⟩
  | beatRefused hb =>
    obtain ⟨hterm, -, hwait⟩ := hok.get hb.thread
    refine effectOk_of_threads rfl ((hobs _).setThread ?_ k)
    exact ⟨hterm, by simp [HeartbeatPc.todo], herase hwait⟩
  | appendAgain hk =>
    obtain ⟨hterm, hpeer, hl, -⟩ := hok.get hk
    refine effectOk_of_threads rfl (hok.setThread ?_ k)
    exact ⟨hterm, hpeer, hl, trivial⟩
  | snapshotAgain hk =>
    obtain ⟨hterm, hpeer, hl, -⟩ := hok.get hk
    refine effectOk_of_threads rfl (hok.setThread ?_ k)
    exact ⟨hterm, hpeer, hl, nofun⟩
  | appendMatched => exact effectOk_of_threads rfl ((hadv _ _ _).endThread k)
  | appendDeposed => exact effectOk_of_threads rfl ((hobs _).endThread k)
  | retrySnapshot hr =>
    obtain ⟨hterm, hpeer, -⟩ := hok.get hr.thread
    refine effectOk_of_threads rfl ((hok.endThread k).go ?_)
    exact ⟨hr.lead.1 ▸ hterm, hpeer, rfl, nofun⟩
  | retryEntries hr _ _ hargs =>
    obtain ⟨hterm, hpeer, -⟩ := hok.get hr.thread
    obtain ⟨ht, hl, -⟩ := appendArgs_fields hargs
    refine effectOk_of_threads rfl (ThreadsOk.setThread (hok.congr rfl) ?_ k)
    exact ⟨ht ▸ hterm, hpeer, hl, trivial⟩
  | snapshotDeposed => exact effectOk_of_threads rfl (ThreadsOk.endThread (hok.congr rfl) k)
  | followSnapshot hr =>
    obtain ⟨hterm, hpeer, -⟩ := hok.get hr.thread
    refine effectOk_of_threads rfl (ThreadsOk.go (ThreadsOk.endThread (hok.congr rfl) k) ?_)
    exact ⟨hterm, hpeer, rfl, nofun⟩
  | followEntries hr _ hargs =>
    obtain ⟨hterm, hpeer, -⟩ := hok.get hr.thread
    obtain ⟨ht, hl, -⟩ := appendArgs_fields hargs
    refine effectOk_of_threads rfl (ThreadsOk.go (ThreadsOk.endThread (hok.congr rfl) k) ?_)
    exact ⟨ht ▸ hterm, hpeer, hl, trivial⟩
  | voteStale | appendStale | snapshotStale => exact hend
  | retryZero | retryExit | followExit => exact effectOk_of_eq hok rfl rfl

theorem tryStart_ok (hok : nd.ThreadsOk w.calls p) (hf : nd.currentTerm = 0 → nd.Fresh)
    {command : Option C} (h : nd.tryStart p command = some eff) : eff.Ok w.calls p a := by
  cases tryStart_cases h with
  | append hs =>
    have hterm : 1 ≤ nd.currentTerm := by
      by_contra h0
      exact (hf (by omega)).state hs
    refine effectOk_of_threads rfl (ThreadsOk.go (hok.congr rfl) ?_)
    exact ⟨hterm, by simp⟩
  | ignore => exact effectOk_of_eq hok rfl rfl

end

/-! ### The steps keep handlers in order -/

section

variable {nd : Node n C D} {p : Fin n} {eff : Effect n C D}

/-- A step of a goroutine leaves the handler under way alone. -/
theorem mainStep_held (h : nd.mainStep p = some eff) : eff.node.held = nd.held := by
  cases mainStep_cases h <;> rfl

theorem threadStep_held {fresh k : ℕ} (h : nd.threadStep p fresh k = some eff) :
    eff.node.held = nd.held := by
  cases threadStep_cases h <;> rfl

theorem threadReply_held {fresh k call : ℕ} {request : Call n C D} {ok : Bool}
    (h : nd.threadReply p fresh k call request ok = some eff) : eff.node.held = nd.held := by
  have hobs (t : ℕ) : (nd.observe t).held = nd.held := by
    unfold observe
    split <;> rfl
  have hadv (t : ℕ) (peer : Fin n) (index : ℕ) :
      ((nd.observe t).advanceMatch peer index).held = nd.held := by
    unfold advanceMatch
    split <;> exact hobs t
  cases threadReply_cases h with
  | voteCounted | beatRefused | appendDeposed => exact hobs _
  | beatMatched | appendMatched => exact hadv _ _ _
  | _ => rfl

theorem applyStep_held (h : nd.applyStep p = some eff) : eff.node.held = nd.held := by
  cases applyStep_cases h <;> rfl

/-- A handler starts with the call delivered to it. -/
theorem handle_held {call : ℕ} {request : Request n C D} (h : nd.handle call request = some eff) :
    ∃ held, eff.node.held = some held ∧ held.call = some (call, request) := by
  cases handle_cases h <;> exact ⟨_, rfl, rfl⟩

/-- A handler under way ends, or goes on with the same call. -/
theorem resume_held (h : nd.resume p = some eff) :
    ∃ held, nd.held = some held ∧
      (eff.node.held = none ∨ ∃ held', eff.node.held = some held' ∧ held'.call = held.call) := by
  cases resume_cases h with
  | voteExit hh | appendExit hh => exact ⟨_, hh, .inr ⟨_, hh, rfl⟩⟩
  | copyLog hh | install hh | setCommit hh | setApplied hh | installSave hh =>
    exact ⟨_, hh, .inr ⟨_, rfl, rfl⟩⟩
  | installTest hh ht => exact ⟨_, hh, .inr ⟨_, rfl, by cases ht <;> rfl⟩⟩
  | refuseVote hh | grantVote hh | refuseAppend hh | appendCommit hh | ignoreSnapshot hh
  | installSend hh | snapshotSave hh => exact ⟨_, hh, .inl rfl⟩

theorem tryStart_held {command : Option C} (h : nd.tryStart p command = some eff) :
    eff.node.held = nd.held := by
  cases tryStart_cases h <;> rfl

theorem trySnapshot_held {index : ℕ} {snapshot : Option D}
    (h : nd.trySnapshot p index snapshot = some eff) :
    eff.node.held = nd.held ∨ eff.node.held = some (.snapshotSave snapshot) := by
  cases trySnapshot_cases h with
  | ignore | exit => exact .inl rfl
  | compact => exact .inr rfl

end

end Node

/-! ### Readers of the log -/

section

variable {nd : Node n C D} {p : Fin n} {eff : Effect n C D}

/-- While a goroutine holds `logMutex` for reading, no handler holds it for writing. -/
def Node.ReadersOk (nd : Node n C D) : Prop :=
  ∀ th ∈ nd.threads, th.readsLog = true → nd.logReadable = true

namespace Node

theorem logReadable_congr {nd nd' : Node n C D} (h : nd'.held = nd.held) :
    nd'.logReadable = nd.logReadable := by
  rw [logReadable, h]
  rfl

/-- A goroutine that reads the log after a step could read it before. -/
theorem ReadersOk.of_moves {calls : List (Call n C D)} {a : Action n C D} {th : Thread n C D}
    (hr : nd.ReadersOk) (hm : th ∈ nd.threads ∨ nd.Spawns p calls eff a th)
    (hread : th.readsLog = true) : nd.logReadable = true := by
  have hmay (h : nd.MayRead th) : nd.logReadable = true := by
    rcases h hread with hlog | ⟨th', hmem', hread'⟩
    · exact hlog
    · exact hr th' hmem' hread'
  rcases hm with hold | hnew
  · exact hr th hold hread
  · cases hnew with
    | beat _ _ h | broadcast _ _ h => exact hmay h
    | _ => cases hread

/-- A peer that builds a request reads its log. -/
theorem Serves.logReadable (hr : nd.ReadersOk) {t : ℕ} (h : nd.Serves t) :
    nd.logReadable = true := by
  rcases h with ⟨k, todo, hk⟩ | ⟨-, hfree⟩
  · exact hr _ (List.mem_of_getElem? hk) rfl
  · simp only [raftStateFree, Option.isNone_iff_eq_none] at hfree
    rw [Node.logReadable, hfree]

/-- Where the log can be locked for writing, nobody reads it. -/
theorem readersOk_of_logFree (h : nd.logFree = true) (hth : eff.node.threads = nd.threads) :
    eff.node.ReadersOk := by
  simp only [logFree, Bool.and_eq_true, List.all_eq_true, Bool.not_eq_true'] at h
  intro th hmem hr
  rw [hth] at hmem
  exact absurd (h.2 th hmem) (by simp [hr])

theorem resume_readers (hr : nd.ReadersOk) (h : nd.resume p = some eff) :
    eff.node.ReadersOk := by
  have hth := resume_threads h
  intro th hmem hread
  have hlog := hr th (hth ▸ hmem) hread
  cases resume_cases h with
  | voteExit | appendExit => exact hlog
  | refuseVote | grantVote | refuseAppend | appendCommit | ignoreSnapshot | installSend
  | snapshotSave => rfl
  | copyLog hh | install hh | installTest hh | setCommit hh | setApplied hh | installSave hh =>
    -- the log is readable, so the handler under way is `RequestVote`
    rw [logReadable, hh] at hlog
    cases hlog

end Node

end

/-! ### The invariant -/

/-- Calls, goroutines and handlers are in order, what is saved is what is in memory, and in
    term 0 nothing has happened. -/
structure World.Plumbed (w : World n C D) : Prop where
  calls : ∀ (i : ℕ) (c : Call n C D), w.calls[i]? = some c → c.Ok
  threads : ∀ p, (w.nodes p).ThreadsOk w.calls p
  held : ∀ p held, (w.nodes p).held = some held →
    held.Ok w.calls p (w.nodes p).currentTerm
  readers : ∀ p, (w.nodes p).ReadersOk
  durable : ∀ p, (w.nodes p).Durable
  fresh : ∀ p, (w.nodes p).currentTerm = 0 → (w.nodes p).Fresh

namespace World

variable {w w' : World n C D} {a : Action n C D} {p : Fin n} {eff : Effect n C D}

theorem Plumbed.local_ok (hw : w.Plumbed) (h : Local w p eff a) : eff.Ok w.calls p a := by
  have hok := hw.threads p
  cases h with
  | main h => exact Node.mainStep_ok hok (hw.fresh p) h
  | thread k h => exact Node.threadStep_ok hok h
  | reply k call ok request hc h => exact Node.threadReply_ok hok hw.calls hc h
  | apply h => exact Node.effectOk_of_eq hok (Node.applyStep_send h) (Node.applyStep_threads h)
  | deliver call request hc _ h =>
    exact Node.effectOk_of_eq hok (Node.handle_send h) (Node.handle_threads h)
  | resume h => exact Node.effectOk_of_eq hok (Node.resume_send h) (Node.resume_threads h)
  | start command h => exact Node.tryStart_ok hok (hw.fresh p) h
  | snapshot index snapshot h =>
    exact Node.effectOk_of_eq hok (Node.trySnapshot_send h) (Node.trySnapshot_threads h)
  | restart h =>
    subst h
    exact ⟨nofun, fun th hth => absurd hth (by simp [Node.restart, Node.make_threads])⟩

theorem Plumbed.local_held (hw : w.Plumbed) (h : Local w p eff a) {held : Held n C D}
    (hheld : eff.node.held = some held) :
    held.Ok (callsAfter w.calls a eff) p eff.node.currentTerm := by
  -- what was under way before stays in order, since the term does not decrease
  have hterm (ha : a ≠ .restart p) : (w.nodes p).currentTerm ≤ eff.node.currentTerm :=
    ((local_saves h).resolve_left ha).currentTerm_le
  have hold (ha : a ≠ .restart p) (hkeep : (w.nodes p).held = some held) :
      held.Ok (callsAfter w.calls a eff) p eff.node.currentTerm :=
    (hw.held p held hkeep).after (hterm ha) a eff
  cases h with
  | main h => exact hold nofun (Node.mainStep_held h ▸ hheld)
  | thread k h => exact hold nofun (Node.threadStep_held h ▸ hheld)
  | reply k call ok request _ h => exact hold nofun (Node.threadReply_held h ▸ hheld)
  | apply h => exact hold nofun (Node.applyStep_held h ▸ hheld)
  | deliver call request hc hp h =>
    obtain ⟨held', hheld', hcall⟩ := Node.handle_held h
    obtain rfl : held' = held := Option.some.inj (hheld'.symm.trans hheld)
    intro i request' hi
    obtain ⟨rfl, rfl⟩ : call = i ∧ request.request = request' := by
      rw [hcall] at hi
      simpa using hi
    exact ⟨IsCallTo.after ⟨request, hc, hp, rfl⟩ _ eff, Node.handle_currentTerm h⟩
  | resume h =>
    obtain ⟨held₀, hheld₀, hnone | ⟨held', hheld', hcall⟩⟩ := Node.resume_held h
    · rw [hnone] at hheld; exact absurd hheld (by simp)
    · obtain rfl : held' = held := Option.some.inj (hheld'.symm.trans hheld)
      have hok := (hw.held p held₀ hheld₀).after (hterm nofun) (.resume p) eff
      exact fun i request hi => hok i request (hcall ▸ hi)
  | start command h => exact hold nofun (Node.tryStart_held h ▸ hheld)
  | snapshot index snapshot h =>
    rcases Node.trySnapshot_held h with hk | hk
    · exact hold nofun (hk ▸ hheld)
    · rw [hk, Option.some.injEq] at hheld
      subst hheld
      exact fun i request hi => absurd hi (by simp [Held.call])
  | restart h =>
    subst h
    simp [Node.restart, Node.make_held] at hheld

theorem Plumbed.local_readers (hw : w.Plumbed) (h : Local w p eff a) : eff.node.ReadersOk := by
  have hr := hw.readers p
  have hm := local_moves h
  -- a step that leaves the handler under way alone
  have hkeep (hh : eff.node.held = (w.nodes p).held) : eff.node.ReadersOk :=
    fun th hmem hread => (Node.logReadable_congr hh).trans (hr.of_moves (hm th hmem) hread)
  cases h with
  | main h => exact hkeep (Node.mainStep_held h)
  | thread k h => exact hkeep (Node.threadStep_held h)
  | reply k call ok request _ h => exact hkeep (Node.threadReply_held h)
  | apply h => exact hkeep (Node.applyStep_held h)
  | deliver call request _ _ h =>
    have hth := Node.handle_threads h
    generalize request.request = r at h
    cases Node.handle_cases h with
    | requestVote => exact fun _ _ _ => rfl
    | appendEntries _ hfree | installSnapshot _ hfree => exact Node.readersOk_of_logFree hfree hth
  | resume h => exact Node.resume_readers hr h
  | start command h => exact hkeep (Node.tryStart_held h)
  | snapshot index snapshot h =>
    have hth := Node.trySnapshot_threads h
    cases Node.trySnapshot_cases h with
    | ignore hfree | exit hfree | compact hfree => exact Node.readersOk_of_logFree hfree hth
  | restart h =>
    subst h
    exact fun th hmem => absurd hmem (by simp [Node.restart, Node.make_threads])

/-- **Step.** Every action keeps the bookkeeping in order. -/
theorem Plumbed.step (hw : w.Plumbed) (h : w.step a = some w') : w'.Plumbed := by
  obtain ⟨p, eff, heff, rfl⟩ := step_eq_some h
  have hl := effect_local heff
  have hok := hw.local_ok hl
  refine ⟨fun i c hc => ?_, forall_nodes_after hok.threads fun q _ => (hw.threads q).after a eff,
    forall_nodes_after (Q := fun q nd => ∀ held, nd.held = some held → held.Ok _ q nd.currentTerm)
      (fun _ => hw.local_held hl) fun q _ held h => (hw.held q held h).after le_rfl a eff,
    forall_nodes_after (hw.local_readers hl) fun q _ => hw.readers q,
    forall_nodes_after ?_ fun q _ => hw.durable q,
    forall_nodes_after (Q := fun _ nd => nd.currentTerm = 0 → nd.Fresh)
      (hl.fresh hw.calls (hw.durable p) (hw.fresh p)) fun q _ => hw.fresh q⟩
  · rcases callsAfter_cases hc with ⟨c₀, hc₀, rfl⟩ | ⟨-, hs⟩
    · obtain ⟨hne, hsender, hterm⟩ := hw.calls i c₀ hc₀
      exact ⟨hne, hsender, hterm⟩
    · exact (hok.send c hs).1
  · rcases local_saves hl with rfl | hs
    · cases hl with
      | restart h =>
        subst h
        intro b hb
        have hp : ((w.nodes p).restart p).node.persister = (w.nodes p).persister :=
          Node.make_persister _ _
        rw [hp] at hb
        exact (Node.make_bytes _ hb).symm
    · exact hs.durable (hw.durable p)

theorem init_plumbed (room : Fin n → ℕ → ℕ) : (init room : World n C D).Plumbed where
  calls i c h := by simp [init] at h
  threads p th hth := by simp [init, Node.make_threads] at hth
  held p held h := by simp [init, Node.make_held] at h
  readers p th hth := by simp [init, Node.make_threads] at hth
  durable p b h := by simp [init, Node.make_persister] at h
  fresh p _ := Node.make_fresh _ (.inl rfl)

/-- **Run.** In every run, whatever its actions, the bookkeeping is in order. -/
theorem Reachable.plumbed {ok : World n C D → Action n C D → Prop} (h : Reachable ok w) :
    w.Plumbed :=
  h.invariant (fun _ _ _ hw _ hstep => Plumbed.step hw hstep) init_plumbed

end World

/-! ### Calls -/

namespace Node

section

variable (me : Fin n) (nd : Node n C D) (calls : List (Call n C D))

/-- The calls that a step of `me` makes. -/
inductive Sends : Action n C D → Call n C D → Prop
  | vote {k : ℕ}
      (hk : nd.threads[k]? = some (.sendRequestVoteToAll thisTerm (peer :: todo) sum waiting))
      (hl : nd.getTermOfLog (nd.getLogLength - 1) = some lastLogTerm) :
      Sends (.thread me k) (newCall me peer (.requestVote
        { term := thisTerm
          candidateId := me
          lastLogIndex := nd.getLogLength - 1
          lastLogTerm := lastLogTerm }))
  /-- a request for a vote that is made again -/
  | revote {call : ℕ} (hc : calls[call]? = some request) (hsrc : request.src = me) :
      Sends a (newCall me request.dst request.request)
  | heartbeat
      (hk : nd.threads[k]? = some (.sendHeartbeatToAll thisTerm (.send (peer :: todo) waiting)))
      (hl : nd.getTermOfLog (nd.getLogLength - 1) = some prevLogTerm) :
      Sends (.thread me k) (newCall me peer (.appendEntries
        { term := thisTerm
          leaderId := me
          entries := []
          prevLogIndex := nd.getLogLength - 1
          prevLogTerm := prevLogTerm
          leaderCommit := nd.commitIndex }))
  /-- the encoder has gone through the entries -/
  | append {k : ℕ} (hk : nd.threads[k]? = some (.sendAppendEntries peer args (.encode encoded)))
      (hlt : ¬ encoded.length < args.entries.length) :
      Sends (.thread me k) (newCall me peer (.appendEntries (args.request encoded)))
  | snapshot {k : ℕ} (hk : nd.threads[k]? = some (.sendInstallSnapshot peer args .check))
      (hl : nd.leads args.term) : Sends (.thread me k) (newCall me peer (.installSnapshot args))

end

end Node

/-- **Classification.** The call that a step makes is one of the list. -/
theorem World.local_sends {w : World n C D} {p : Fin n} {eff : Effect n C D} {a : Action n C D}
    {c : Call n C D} (hw : w.Plumbed) (h : Local w p eff a) (hs : eff.send = some c) :
    (w.nodes p).Sends p w.calls a c := by
  have hno (heq : eff.send = none) : (w.nodes p).Sends p w.calls a c := by
    rw [heq] at hs
    cases hs
  cases h with
  | main h => exact hno (Node.mainStep_send h)
  | thread k h =>
    cases Node.threadStep_cases h with
    | vote hk _ hl => cases hs; exact .vote hk hl
    | beat hk hl => cases hs; exact .heartbeat hk hl
    | call hk hlt => cases hs; exact .append hk hlt
    | snapshot hk _ hlead => cases hs; exact .snapshot hk hlead
    | _ => cases hs
  | reply k call ok request hc h =>
    cases Node.threadReply_cases h with
    | voteAgain hv =>
      cases hs
      obtain ⟨c', hc', hsrc, -⟩ := ((hw.threads p).get hv.thread).2.2 call hv.waits
      obtain rfl : c' = request := Option.some.inj (hc'.symm.trans hc)
      exact .revote hc hsrc
    | _ => cases hs
  | apply h => exact hno (Node.applyStep_send h)
  | deliver call request hc hp h => exact hno (Node.handle_send h)
  | resume h => exact hno (Node.resume_send h)
  | start command h => exact hno (Node.tryStart_send h)
  | snapshot index snapshot h => exact hno (Node.trySnapshot_send h)
  | restart h => subst h; exact hno rfl

end MitDistributed.Raft
