import MitDistributed.Concurrency.Waits
import MitDistributed.Transition.Run

namespace MitDistributed.Raft.WaitCycle

open Concurrency Transition

/-!
# Raft and its service waiting for each other

The locks and channels of one peer: the handlers of `InstallSnapshot` and `AppendEntries` and the
goroutine of `tryIncrementCommitIndex`, any number of them, Raft's `applyLoop`, and the service's
`applyLoop`, which alone receives from `applyCh` and calls `Snapshot`.

Each party is its lock and channel operations in the order of the source; what it decides by the
data is a choice of code.  `raftState` is one exclusive lock: `rLock` and `wLock` both call
`rwmutex.Lock`.

`applyCh` is unbuffered, so a snapshot that `InstallSnapshot` hands over while it holds `raftState`
waits for a service that may be waiting for `raftState` in `Snapshot` (`install_snapshot_cycle`).
`applyNotifyCh` is bounded, and a notification that finds it full waits under `commitMutex` for an
`applyLoop` that needs it (`notify_cycle`).
-/

inductive Lock
  | raftState | log | commit | peerLog | mu
  deriving DecidableEq, Repr

inductive Chan
  | apply | notify
  deriving DecidableEq, Repr

inductive Party
  | applyLoop
  | service
  | handler (n : ℕ)
  deriving DecidableEq, Repr

abbrev Code := List (Instr Lock Chan)

/-- `make(chan int, 500)` -/
def notifyCap : ℕ := 500

/-! ### The code -/

/-- The operations between taking and giving back a lock. -/
def locked (l : Lock) (m : Mode) (inner : Code) : Code :=
  .acquire l m :: inner ++ [.release l m]

/-- A step that is only taken in some cases. -/
def opt (b : Bool) (code : Code) : Code := if b then code else []

/-- `newer`: the snapshot is newer than ours. -/
def installSnapshot (newer : Bool) : Code :=
  .call :: locked .raftState .write (locked .log .write (opt newer [.send .apply])) ++ [.ret]

/-- `ok`: the term and the previous entry match; `commits`: `commitIndex` moves. -/
def appendEntries (ok commits : Bool) : Code :=
  locked .raftState .write (locked .log .write
    (opt ok (locked .commit .write (opt commits [.send .notify]))))

/-- One round of the scan.  `sameTerm`: the entry is of the leader's term; `commits`: it is on a
    majority. -/
def scanRound (round : Bool × Bool) : Code :=
  locked .log .read (locked .commit .read []) ++
    opt round.1 (locked .peerLog .read [] ++ locked .commit .write (opt round.2 [.send .notify]))

/-- One turn of the loop, with the rounds of its scan; a peer that does not lead leaves at once. -/
def tryIncrementCommitIndex (leads : Bool) (rounds : List (Bool × Bool)) : Code :=
  locked .raftState .write (opt leads (locked .log .read (locked .commit .read []))) ++
    opt leads (rounds.flatMap scanRound)

/-- One turn of Raft's loop.  `needUpdate` and `entries`: how many entries are handed over. -/
def applyLoop (needUpdate : Bool) (entries : ℕ) : Code :=
  .recv .notify :: locked .commit .read [] ++
    opt needUpdate (locked .log .read (locked .commit .read []) ++
      List.replicate entries (.send .apply))

/-- `rf.Snapshot`; `alive`: the peer was not killed. -/
def snapshot (alive : Bool) : Code :=
  .call :: opt alive
    (locked .raftState .write (locked .log .write (locked .commit .read []))) ++ [.ret]

/-- One turn of the service's loop for a command that is new.  `large`: Raft's state has reached
    `maxraftstate`. -/
def applyCommand (large alive : Bool) : Code :=
  .recv .apply :: locked .mu .write [] ++ opt large (locked .mu .write [] ++ snapshot alive) ++
    locked .mu .write []

/-- One turn of the service's loop for an old command or a snapshot; `newer`: the snapshot is
    newer than the state machine. -/
def applyOther (newer : Bool) : Code := .recv .apply :: opt newer (locked .mu .write [])

inductive Program
  | installSnapshot (newer : Bool)
  | appendEntries (ok commits : Bool)
  | tryIncrementCommitIndex (leads : Bool) (rounds : List (Bool × Bool))
  | applyLoop (needUpdate : Bool) (entries : ℕ)
  | applyCommand (large alive : Bool)
  | applyOther (newer : Bool)
  deriving DecidableEq, Repr

def Program.code : Program → Code
  | .installSnapshot newer => WaitCycle.installSnapshot newer
  | .appendEntries ok commits => WaitCycle.appendEntries ok commits
  | .tryIncrementCommitIndex leads rounds => WaitCycle.tryIncrementCommitIndex leads rounds
  | .applyLoop needUpdate entries => WaitCycle.applyLoop needUpdate entries
  | .applyCommand large alive => WaitCycle.applyCommand large alive
  | .applyOther newer => WaitCycle.applyOther newer

def Party.may : Party → Program → Bool
  | .handler _, .installSnapshot _ | .handler _, .appendEntries _ _
  | .handler _, .tryIncrementCommitIndex _ _ => true
  | .applyLoop, .applyLoop _ _ => true
  | .service, .applyCommand _ _ | .service, .applyOther _ => true
  | _, _ => false

def peer : System Party Lock Chan Program where
  code := Program.code
  may := Party.may
  receiver
    | .apply => .service
    | .notify => .applyLoop
  cap
    | .apply => 0
    | .notify => notifyCap

abbrev PeerState := State Party Lock Chan

def Reachable (s : PeerState) : Prop := Run peer.step (fun _ _ => True) .init s

/-! ### The cycle -/

abbrev Schedule := List (Action Party Program)

/-- The next `n` instructions of a party. -/
def steps (t : Party) (n : ℕ) : Schedule := List.replicate n (.next t)

/-- The first `n` instructions of a program. -/
def begin (t : Party) (p : Program) (n : ℕ) : Schedule := .start t p :: steps t n

/-- `AppendEntries` moves `commitIndex` and notifies, and `applyLoop` takes the entry out of the
    log. -/
def committed : Schedule :=
  begin (.handler 0) (.appendEntries true true) 7 ++ begin .applyLoop (.applyLoop true 1) 7

/-- The service receives and applies the entry and calls `Snapshot`; a snapshot of the leader
    arrives, and `InstallSnapshot` takes both locks first. -/
def installWhileSnapshotting : Schedule :=
  committed ++ begin .service (.applyCommand true true) 0 ++ [.meet .applyLoop] ++
    steps .service 5 ++ begin (.handler 1) (.installSnapshot true) 3

/-- `InstallSnapshot` waits for the service, and the service in `Snapshot` for `raftState`. -/
theorem install_snapshot_cycle :
    ∃ s, Reachable s ∧ ¬ Acyclic peer s := by
  obtain ⟨s, hr, ⟨⟨rest, hsend⟩, rest', hacquire⟩, hholds⟩ :
      ∃ s, Reachable s ∧ ((∃ rest, s.todo (.handler 1) = .send .apply :: rest) ∧
        ∃ rest, s.todo .service = .acquire .raftState .write :: rest) ∧
        (.handler 1, .write) ∈ s.holders .raftState := by
    obtain ⟨s, hr, hsend, hacquire, hholds⟩ :=
      exists_run_of_exec peer.step .init installWhileSnapshotting
        (fun s => (s.todo (.handler 1)).head? = some (.send .apply) ∧
          (s.todo .service).head? = some (.acquire .raftState .write) ∧
          (.handler 1, .write) ∈ s.holders .raftState) (by decide +kernel)
    exact ⟨s, hr, ⟨⟨_, List.eq_cons_of_mem_head? hsend⟩, _, List.eq_cons_of_mem_head? hacquire⟩,
      hholds⟩
  refine ⟨s, hr, fun hacyclic => hacyclic (.handler 1) ?_⟩
  have hforward : Waits peer s (.handler 1) .service :=
    .inr ⟨.apply, rest, hsend, rfl, Nat.zero_le _, fun rest'' h => by
      rw [hacquire] at h
      cases h⟩
  have hback : Waits peer s .service (.handler 1) :=
    .inl ⟨.raftState, .write, rest', hacquire, .inl ⟨.write, hholds, .inl rfl⟩⟩
  exact .tail (.single hforward) hback

/-- One `AppendEntries` that moves `commitIndex`, from beginning to end. -/
def notifying : Schedule := begin (.handler 0) (.appendEntries true true) 7

/-- Nobody is at anything, and `n` notifications are queued. -/
def queued (n : ℕ) : PeerState := State.init.setCount .notify n

theorem exec_notifying {n : ℕ} (hn : n < notifyCap) :
    exec peer.step (queued n) notifying = some (queued (n + 1)) := by
  simp only [notifying, begin, steps, List.replicate, queued, State.init, State.setCount, peer,
    exec, System.step, Party.may, and_self, ↓reduceIte, State.setTodo, Program.code,
    appendEntries, locked, opt, List.cons_append, List.nil_append, System.next, State.Free,
    Conflict, not_or, Prod.forall, State.grant, State.free, ne_eq, decide_not,
    Option.bind_fun_some, Option.bind_some, Function.update_self, List.not_mem_nil, true_or,
    not_true_eq_false, imp_self, implies_true, Function.update_idem, reduceCtorEq,
    not_false_eq_true, Function.update_of_ne, hn, decide_true, Bool.not_true,
    Bool.false_eq_true, List.filter_cons_of_neg, List.filter_nil, Function.update_eq_self,
    Option.some.injEq, State.mk.injEq, and_true, true_and]
  -- all locks are given back
  funext l
  cases l <;> rfl

theorem reachable_queued {n : ℕ} (hn : n ≤ notifyCap) : Reachable (queued n) := by
  induction n with
  | zero =>
    have hinit : queued 0 = State.init := by simp [queued, State.init, State.setCount]
    rw [hinit]
    exact .refl _
  | succ n ih => exact (ih (Nat.le_of_succ_le hn)).trans (Run.of_exec (exec_notifying hn))

/-- With `applyNotifyCh` full, `AppendEntries` waits for `applyLoop` under `commitMutex`, and
    `applyLoop` for `commitMutex`. -/
theorem notify_cycle : ∃ s, Reachable s ∧ ¬ Acyclic peer s := by
  -- `applyLoop` has taken one of the notifications, and another one has come in its place
  obtain ⟨s, hr, ⟨hsend, hacquire⟩, hholds, hfull⟩ :=
    exists_run_of_exec peer.step (queued notifyCap)
      (begin .applyLoop (.applyLoop false 0) 1 ++ notifying ++
        begin (.handler 0) (.appendEntries true true) 3)
      (fun s => ((s.todo (.handler 0)).head? = some (.send .notify) ∧
        (s.todo .applyLoop).head? = some (.acquire .commit .read)) ∧
        (.handler 0, .write) ∈ s.holders .commit ∧ notifyCap ≤ s.count .notify)
      (by decide +kernel)
  refine ⟨s, (reachable_queued (Nat.le_refl _)).trans hr, fun hacyclic => hacyclic (.handler 0) ?_⟩
  have hacquire := List.eq_cons_of_mem_head? hacquire
  have hforward : Waits peer s (.handler 0) .applyLoop :=
    .inr ⟨.notify, _, List.eq_cons_of_mem_head? hsend, rfl, hfull, fun rest h => by
      rw [hacquire] at h
      cases h⟩
  have hback : Waits peer s .applyLoop (.handler 0) :=
    .inl ⟨.commit, .read, _, hacquire, .inl ⟨.write, hholds, .inr rfl⟩⟩
  exact .tail (.single hforward) hback

/-! ### What the code keeps to -/

/-- The order in which locks are taken. -/
def level : Lock → ℕ
  | .raftState => 1
  | .log => 2
  | .commit => 3
  | .peerLog => 4
  | .mu => 5

/-- The rest of a party's code is in order, with the locks it holds and whether it is in a call:
    locks go up in their level, `mu` is the service's, and the service takes other locks only in
    `Snapshot`; `applyLoop` hands over entries with no lock in hand, and others hand over in a
    call; notifications are sent under `commitMutex`, one at a time, and messages are awaited
    without locks. -/
def Ok (t : Party) : List (Lock × Mode) → Bool → Code → Prop
  | held, inCall, [] => held = [] ∧ inCall = false
  | held, inCall, .acquire l m :: rest =>
    (∀ h ∈ held, level h.1 < level l) ∧ (l = .mu → t = .service) ∧
      (t = .service → l ≠ .mu → inCall = true) ∧ Ok t ((l, m) :: held) inCall rest
  | held, inCall, .release l m :: rest => Ok t (held.filter (· ≠ (l, m))) inCall rest
  | held, inCall, .send .apply :: rest =>
    (t = .applyLoop ∧ held = [] ∨ t ≠ .applyLoop ∧ t ≠ .service ∧ inCall = true) ∧
      (.commit, .write) ∉ held ∧ Ok t held inCall rest
  | held, inCall, .send .notify :: rest =>
    (.commit, .write) ∈ held ∧ rest.head? ≠ some (.send .notify) ∧ Ok t held inCall rest
  | held, inCall, .recv _ :: rest => held = [] ∧ Ok t held inCall rest
  | held, _, .call :: rest => Ok t held true rest
  | held, _, .ret :: rest => Ok t held false rest

theorem ok_scanRounds (n : ℕ) (rounds : List (Bool × Bool)) :
    Ok (.handler n) [] false (rounds.flatMap scanRound) := by
  induction rounds with
  | nil => exact ⟨rfl, rfl⟩
  | cons round rounds ih =>
    obtain ⟨sameTerm, commits⟩ := round
    rw [List.flatMap_cons]
    -- a round takes and gives back its locks, whatever it decides
    cases sameTerm <;> cases commits <;> simp [scanRound, locked, opt, Ok, level, ih]

theorem ok_sends (entries : ℕ) :
    Ok .applyLoop [] false (List.replicate entries (.send .apply)) := by
  induction entries with
  | zero => exact ⟨rfl, rfl⟩
  | succ n ih => exact ⟨.inl ⟨rfl, rfl⟩, List.not_mem_nil, ih⟩

/-- All code is in order from its beginning. -/
theorem ok_code {t : Party} {p : Program} (h : t.may p = true) : Ok t [] false p.code := by
  cases p with
  | installSnapshot newer =>
    cases t <;> cases newer <;>
      simp [Party.may, Program.code, installSnapshot, locked, opt, Ok, level] at h ⊢
  | appendEntries ok commits =>
    cases t <;> cases ok <;> cases commits <;>
      simp [Party.may, Program.code, appendEntries, locked, opt, Ok, level] at h ⊢
  | tryIncrementCommitIndex leads rounds =>
    cases t <;> cases leads <;>
      simp [Party.may, Program.code, tryIncrementCommitIndex, locked, opt, Ok, level,
        ok_scanRounds] at h ⊢
  | applyLoop needUpdate entries =>
    cases t <;> cases needUpdate <;>
      simp [Party.may, Program.code, applyLoop, locked, opt, Ok, level, ok_sends] at h ⊢
  | applyCommand large alive =>
    cases t <;> cases large <;> cases alive <;>
      simp [Party.may, Program.code, applyCommand, snapshot, locked, opt, Ok, level] at h ⊢
  | applyOther newer =>
    cases t <;> cases newer <;>
      simp [Party.may, Program.code, applyOther, locked, opt, Ok, level] at h ⊢

/-! ### Runs without overlap -/

/-- `Snapshot` is called while no `InstallSnapshot` is under way and the other way round, and
    `commitMutex` is taken for a notification while `applyNotifyCh` has room. -/
def Apart (s : PeerState) : Action Party Program → Prop
  | .next t =>
    ((s.todo t).head? = some .call → ∀ u ∈ s.calls, t = .service ↔ u = .service) ∧
    ((s.todo t)[1]? = some (.send .notify) → s.count .notify < notifyCap)
  | .start _ _ | .meet _ => True

instance (s : PeerState) (action : Action Party Program) : Decidable (Apart s action) := by
  unfold Apart
  split <;> infer_instance

/-- A party is in order, with the locks it holds. -/
def PartyOk (s : PeerState) (t : Party) : Prop :=
  ∃ held, (∀ l m, (t, m) ∈ s.holders l ↔ (l, m) ∈ held) ∧
    (∀ m, (.mu, m) ∈ held → t = .service) ∧ Ok t held (decide (t ∈ s.calls)) (s.todo t)

/-- If a notification comes next, it has room. -/
def Room (s : PeerState) (code : Code) : Prop :=
  ∀ rest, code = .send .notify :: rest → s.count .notify < notifyCap

structure Inv (s : PeerState) : Prop where
  parties : ∀ t, PartyOk s t
  /-- A writer holds a lock alone. -/
  exclusive : ∀ l t, (t, .write) ∈ s.holders l → ∀ h ∈ s.holders l, h = (t, .write)
  room : ∀ t, Room s (s.todo t)
  /-- The service is in no call together with a handler. -/
  apart : .service ∈ s.calls → ∀ u ∈ s.calls, u = .service

/-- A party that a step leaves alone. -/
theorem PartyOk.congr {s s' : PeerState} {u : Party} (h : PartyOk s u)
    (htodo : s'.todo u = s.todo u) (hholders : ∀ l m, (u, m) ∈ s'.holders l ↔ (u, m) ∈ s.holders l)
    (hcalls : u ∈ s'.calls ↔ u ∈ s.calls) : PartyOk s' u := by
  obtain ⟨held, hheld, hmu, hok⟩ := h
  refine ⟨held, fun l m => (hholders l m).trans (hheld l m), hmu, ?_⟩
  rwa [htodo, decide_eq_decide.mpr hcalls]

namespace Inv

variable {s : PeerState}

/-- **No cycle of waits** in a state of the invariant. -/
theorem acyclic (h : Inv s) : Acyclic peer s := by
  refine acyclic_of_levels level ?_ ?_
  · intro t l m rest htodo l' m' hholds
    obtain ⟨held, hheld, -, hok⟩ := h.parties t
    rw [htodo] at hok
    exact hok.1 (l', m') ((hheld l' m').mp hholds)
  · rintro t u ⟨c, rest, htodo, rfl, hfull, -⟩
    obtain ⟨held, hheld, -, hok⟩ := h.parties t
    rw [htodo] at hok
    have hnotify : ∀ v w, ¬ (WaitsChan peer s v w ∧ w = .applyLoop) := by
      rintro v _ ⟨⟨c', rest', hv, rfl, hfull', -⟩, hw⟩
      cases c' with
      | apply => cases hw
      | notify => exact absurd (h.room v rest' hv) (Nat.not_lt.mpr hfull')
    cases c with
    | notify => exact absurd (h.room t rest htodo) (Nat.not_lt.mpr hfull)
    | apply =>
      rcases hok.1 with ⟨rfl, rfl⟩ | ⟨-, hservice, hcall⟩
      · -- `applyLoop` holds no lock, and nobody waits for it to take a notification
        left
        rintro v (⟨l, m, rest', -, ⟨m', hholds, -⟩ | ⟨-, rest'', hpending⟩⟩ | hchan)
        · exact absurd ((hheld l m').mp hholds) List.not_mem_nil
        · rw [htodo] at hpending
          cases hpending
        · exact hnotify v .applyLoop ⟨hchan, rfl⟩
      · -- a snapshot is handed over, so the service is not in `Snapshot`
        right
        have hcall : t ∈ s.calls := of_decide_eq_true hcall
        have hout : Party.service ∉ s.calls := fun hin => hservice (h.apart hin t hcall)
        obtain ⟨heldS, hheldS, -, hokS⟩ := h.parties .service
        rintro v (⟨l, m, rest', hacquire, hwhy⟩ | ⟨c', rest', hsend, -, hfull', -⟩)
        · have hacquire : s.todo .service = .acquire l m :: rest' := hacquire
          rw [hacquire] at hokS
          obtain ⟨hlevel, -, hinCall, -⟩ := hokS
          obtain rfl : l = .mu := by
            by_contra hne
            exact hout (of_decide_eq_true (hinCall rfl hne))
          rcases hwhy with ⟨m', hholds, -⟩ | ⟨rfl, rest'', hpending⟩
          · obtain ⟨heldV, hheldV, hmuV, -⟩ := h.parties v
            obtain rfl := hmuV m' ((hheldV .mu m').mp hholds)
            exact absurd (hlevel (.mu, m') ((hheldS .mu m').mp hholds)) (Nat.lt_irrefl _)
          · obtain ⟨heldV, -, -, hokV⟩ := h.parties v
            rw [hpending] at hokV
            obtain rfl := hokV.2.1 rfl
            rw [hpending] at hacquire
            cases hacquire
        · have hsend : s.todo .service = .send c' :: rest' := hsend
          rw [hsend] at hokS
          cases c' with
          | apply =>
            rcases hokS.1 with ⟨hne, -⟩ | ⟨-, hne, -⟩
            · cases hne
            · exact hne rfl
          | notify => exact absurd (h.room .service rest' hsend) (Nat.not_lt.mpr hfull')

theorem init : Inv State.init where
  parties t :=
    ⟨[], fun l m => ⟨fun h => absurd h List.not_mem_nil, fun h => absurd h List.not_mem_nil⟩,
      fun m hm => absurd hm List.not_mem_nil, rfl, rfl⟩
  exclusive l t ht := absurd ht List.not_mem_nil
  room t rest h := by cases h
  apart h := absurd h List.not_mem_nil

variable {t : Party} {rest : Code} {s' : PeerState}

/-- Where the room for a notification is known from, after a step of `t`. -/
theorem room_next {i : Instr Lock Chan} (htodo : s.todo t = i :: rest)
    (hroom : (s.todo t)[1]? = some (.send .notify) → s.count .notify < notifyCap) :
    Room s rest := by
  rintro rest' rfl
  exact hroom (by rw [htodo]; rfl)

variable (h : Inv s)

include h

/-- **A step of one party.**  It is in order itself, and leaves the others their code, their locks
    and their calls. -/
theorem of_party {code : Code} (hparty : PartyOk (s'.setTodo t code) t) (htodo : s'.todo = s.todo)
    (hholders : ∀ u ≠ t, ∀ l m, (u, m) ∈ s'.holders l ↔ (u, m) ∈ s.holders l)
    (hcalls : ∀ u ≠ t, u ∈ s'.calls ↔ u ∈ s.calls)
    (hexclusive : ∀ l u, (u, .write) ∈ s'.holders l → ∀ h ∈ s'.holders l, h = (u, .write))
    (hroom : Room s' code) (hothers : ∀ u ≠ t, Room s' (s.todo u))
    (hapart : .service ∈ s'.calls → ∀ u ∈ s'.calls, u = .service) :
    Inv (s'.setTodo t code) where
  parties u := by
    by_cases hu : u = t
    · exact hu ▸ hparty
    · refine (h.parties u).congr ?_ (hholders u hu) (hcalls u hu)
      rw [State.todo_setTodo_of_ne hu, htodo]
  exclusive := hexclusive
  room u rest hu := by
    by_cases hut : u = t
    · subst hut
      rw [State.todo_setTodo_self] at hu
      exact hroom rest hu
    · rw [State.todo_setTodo_of_ne hut, htodo] at hu
      exact hothers u hut rest hu
  apart := hapart

/-- The party `t` goes on with other code; locks, channels and calls stay as they are. -/
theorem setTodo {code : Code}
    (hok : ∀ held, Ok t held (decide (t ∈ s.calls)) (s.todo t) → Ok t held (decide (t ∈ s.calls))
      code) (hroom : Room s code) : Inv (s.setTodo t code) := by
  obtain ⟨held, hheld, hmu, hold⟩ := h.parties t
  refine h.of_party ⟨held, hheld, hmu, ?_⟩ rfl (fun _ _ _ _ => Iff.rfl) (fun _ _ => Iff.rfl)
    h.exclusive hroom (fun u _ => h.room u) h.apart
  rw [State.todo_setTodo_self]
  exact hok held hold

theorem start {p : Program} (htodo : s.todo t = []) (hmay : t.may p = true) :
    Inv (s.setTodo t p.code) := by
  have hcode := ok_code hmay
  refine h.setTodo (fun held hold => ?_) fun rest hrest => ?_
  · rw [htodo] at hold
    obtain ⟨rfl, hcalls⟩ := hold
    rwa [hcalls]
  · rw [hrest] at hcode
    exact absurd hcode.1 List.not_mem_nil

theorem acquire {l : Lock} {m : Mode} (htodo : s.todo t = .acquire l m :: rest) (hfree : s.Free l m)
    (hroom : Room s rest) :
    Inv ((s.grant t l m).setTodo t rest) := by
  obtain ⟨held, hheld, hmu, hok⟩ := h.parties t
  rw [htodo] at hok
  refine h.of_party ⟨(l, m) :: held, fun l' m' => ?_, fun m' hm' => ?_, ?_⟩ rfl
    (fun u hu l' m' => ?_) (fun _ _ => Iff.rfl) (fun l' u hu h' hh' => ?_) hroom
    (fun u _ => h.room u) h.apart
  · rw [List.mem_cons, Prod.mk.injEq, ← hheld l' m']
    exact State.mem_holders_grant.trans (or_congr_left (and_iff_right rfl))
  · rcases List.mem_cons.mp hm' with heq | hm'
    · exact hok.2.1 (Prod.mk.inj heq).1.symm
    · exact hmu m' hm'
  · rw [State.todo_setTodo_self]
    exact hok.2.2.2
  · exact State.mem_holders_grant.trans (or_iff_right fun hsame => hu hsame.1)
  · -- a lock granted for writing had no holder, and one granted for reading has no writer
    obtain ⟨v, mv⟩ := h'
    rcases State.mem_holders_grant.mp hu with ⟨rfl, rfl, rfl⟩ | hwrites <;>
      rcases State.mem_holders_grant.mp hh' with ⟨rfl, hl, rfl⟩ | hholds
    · rfl
    · exact absurd (Or.inl rfl) (hfree _ hholds)
    · subst hl
      exact absurd (Or.inr rfl) (hfree (u, .write) hwrites)
    · exact h.exclusive l' u hwrites _ hholds

theorem release {l : Lock} {m : Mode} (htodo : s.todo t = .release l m :: rest)
    (hroom : Room s rest) :
    Inv ((s.free t l m).setTodo t rest) := by
  obtain ⟨held, hheld, hmu, hok⟩ := h.parties t
  rw [htodo] at hok
  refine h.of_party
    ⟨held.filter (· ≠ (l, m)), fun l' m' => ?_,
      fun m' hm' => hmu m' (List.mem_of_mem_filter hm'), ?_⟩
    rfl (fun u hu l' m' => ?_) (fun _ _ => Iff.rfl) (fun l' u hu h' hh' => ?_) hroom
    (fun u _ => h.room u) h.apart
  · rw [List.mem_filter, decide_eq_true_eq, ne_eq, Prod.mk.injEq, ← hheld l' m']
    exact State.mem_holders_free.trans (and_congr_right fun _ => not_congr (and_iff_right rfl))
  · rw [State.todo_setTodo_self]
    exact hok
  · exact State.mem_holders_free.trans (and_iff_left fun hsame => hu hsame.1)
  · obtain ⟨v, mv⟩ := h'
    exact h.exclusive l' u (State.mem_holders_free.mp hu).1 _ (State.mem_holders_free.mp hh').1

/-- A notification: the sender holds `commitMutex`, so no other one is being sent. -/
theorem notify (htodo : s.todo t = .send .notify :: rest) :
    Inv ((s.setCount .notify (s.count .notify + 1)).setTodo t rest) := by
  obtain ⟨held, hheld, hmu, hok⟩ := h.parties t
  rw [htodo] at hok
  have hmine := (hheld .commit .write).mpr hok.1
  refine h.of_party ⟨held, hheld, hmu, ?_⟩ rfl (fun _ _ _ _ => Iff.rfl) (fun _ _ => Iff.rfl)
    h.exclusive (fun rest' hrest => ?_) (fun u hu rest' hsend => ?_) h.apart
  · rw [State.todo_setTodo_self]
    exact hok.2.2
  · exact absurd (by rw [hrest]; rfl) hok.2.1
  · obtain ⟨heldU, hheldU, -, hokU⟩ := h.parties u
    rw [hsend] at hokU
    have hholds := (hheldU .commit .write).mpr hokU.1
    exact absurd (Prod.mk.inj (h.exclusive .commit t hmine _ hholds)).1 hu

/-- A notification is taken out of the channel. -/
theorem recv {c : Chan} (htodo : s.todo t = .recv c :: rest) :
    Inv ((s.setCount c (s.count c - 1)).setTodo t rest) := by
  obtain ⟨held, hheld, hmu, hok⟩ := h.parties t
  rw [htodo] at hok
  obtain ⟨rfl, hok⟩ := hok
  have hless : ∀ n, s.count .notify < n → (s.setCount c (s.count c - 1)).count .notify < n := by
    intro n hn
    cases c with
    | apply => exact hn
    | notify => exact Nat.lt_of_le_of_lt (Nat.sub_le _ _) hn
  refine h.of_party ⟨[], hheld, hmu, ?_⟩ rfl (fun _ _ _ _ => Iff.rfl) (fun _ _ => Iff.rfl)
    h.exclusive (fun rest' hrest => ?_) (fun u _ rest' hsend => hless _ (h.room u rest' hsend))
    h.apart
  · rw [State.todo_setTodo_self]
    exact hok
  · rw [hrest] at hok
    exact absurd hok.1 List.not_mem_nil

theorem call (htodo : s.todo t = .call :: rest)
    (hapart : ∀ u ∈ s.calls, t = .service ↔ u = .service) (hroom : Room s rest) :
    Inv ({ s with calls := t :: s.calls }.setTodo t rest) := by
  obtain ⟨held, hheld, hmu, hok⟩ := h.parties t
  rw [htodo] at hok
  have hin : decide (t ∈ t :: s.calls) = true := decide_eq_true (List.mem_cons_self ..)
  refine h.of_party ⟨held, hheld, hmu, ?_⟩ rfl (fun _ _ _ _ => Iff.rfl)
    (fun u hu => List.mem_cons.trans (or_iff_right hu)) h.exclusive hroom (fun u _ => h.room u)
    (fun hservice u hu => ?_)
  · rw [State.todo_setTodo_self]
    exact hin ▸ hok
  · have hservice : t = .service := by
      rcases List.mem_cons.mp hservice with heq | hservice
      · exact heq.symm
      · exact (hapart .service hservice).mpr rfl
    rcases List.mem_cons.mp hu with rfl | hu
    · exact hservice
    · exact (hapart u hu).mp hservice

theorem ret (htodo : s.todo t = .ret :: rest) (hroom : Room s rest) :
    Inv ({ s with calls := s.calls.filter (· ≠ t) }.setTodo t rest) := by
  obtain ⟨held, hheld, hmu, hok⟩ := h.parties t
  rw [htodo] at hok
  have hout : decide (t ∈ s.calls.filter (· ≠ t)) = false := decide_eq_false (by simp)
  refine h.of_party ⟨held, hheld, hmu, ?_⟩ rfl (fun _ _ _ _ => Iff.rfl)
    (fun u hu => by simp [hu]) h.exclusive hroom (fun u _ => h.room u)
    (fun hservice u hu => h.apart (List.mem_of_mem_filter hservice) u (List.mem_of_mem_filter hu))
  rw [State.todo_setTodo_self]
  exact hout ▸ hok

/-- A message handed to the service. -/
theorem meet {u : Party} {c : Chan} {rest' : Code} (hsend : s.todo t = .send c :: rest)
    (hrecv : s.todo u = .recv c :: rest') (hcap : peer.cap c = 0) (hne : t ≠ u) :
    Inv ((s.setTodo t rest).setTodo u rest') := by
  obtain rfl : c = .apply := by
    cases c with
    | apply => rfl
    | notify => cases hcap
  have hfirst : Inv (s.setTodo t rest) := by
    obtain ⟨held, -, -, hok⟩ := h.parties t
    rw [hsend] at hok
    refine h.setTodo (fun held hold => ?_) fun rest'' hrest => ?_
    · rw [hsend] at hold
      exact hold.2.2
    · -- no notification follows, as the lock for it is not held
      rw [hrest] at hok
      exact absurd hok.2.2.1 hok.2.1
  have hrecv : (s.setTodo t rest).todo u = .recv .apply :: rest' := by
    rwa [State.todo_setTodo_of_ne hne.symm]
  obtain ⟨held, -, -, hok⟩ := hfirst.parties u
  rw [hrecv] at hok
  refine hfirst.setTodo (fun held hold => ?_) fun rest'' hrest => ?_
  · rw [hrecv] at hold
    exact hold.2
  · obtain ⟨rfl, hok⟩ := hok
    rw [hrest] at hok
    exact absurd hok.1 List.not_mem_nil

theorem next (hapart : Apart s (.next t)) (hstep : peer.next s t = some s') :
    Inv s' := by
  obtain ⟨hcall, hroom⟩ := hapart
  unfold System.next at hstep
  split at hstep
  · cases hstep
  · rename_i l m rest htodo
    rw [Option.ite_none_right_eq_some, Option.some.injEq] at hstep
    obtain ⟨hfree, rfl⟩ := hstep
    exact h.acquire htodo hfree (room_next htodo hroom)
  · rename_i l m rest htodo
    cases hstep
    exact h.release htodo (room_next htodo hroom)
  · rename_i c rest htodo
    rw [Option.ite_none_right_eq_some, Option.some.injEq] at hstep
    obtain ⟨hlt, rfl⟩ := hstep
    cases c with
    | apply => exact absurd hlt (Nat.not_lt_zero _)
    | notify => exact h.notify htodo
  · rename_i c rest htodo
    rw [Option.ite_none_right_eq_some, Option.some.injEq] at hstep
    obtain ⟨-, rfl⟩ := hstep
    exact h.recv htodo
  · rename_i rest htodo
    cases hstep
    exact h.call htodo (hcall (by rw [htodo]; rfl)) (room_next htodo hroom)
  · rename_i rest htodo
    cases hstep
    exact h.ret htodo (room_next htodo hroom)

theorem step {action : Action Party Program} (hapart : Apart s action)
    (hstep : peer.step s action = some s') : Inv s' := by
  cases action with
  | start t p =>
    rw [System.step, Option.ite_none_right_eq_some, Option.some.injEq] at hstep
    obtain ⟨⟨htodo, hmay⟩, rfl⟩ := hstep
    exact h.start htodo hmay
  | next t => exact h.next hapart hstep
  | meet t =>
    simp only [System.step, System.meet] at hstep
    split at hstep
    · rename_i c rest hsend
      split at hstep
      · rename_i c' rest' hrecv
        rw [Option.ite_none_right_eq_some, Option.some.injEq] at hstep
        obtain ⟨⟨rfl, hcap, hne⟩, rfl⟩ := hstep
        exact h.meet hsend hrecv hcap hne
      · cases hstep
    · cases hstep

end Inv

/-- **No wait cycle.**  In every run in which `Snapshot` and `InstallSnapshot` do not overlap and
    `commitMutex` is taken for a notification only while `applyNotifyCh` has room, no state has a
    cycle of waits. -/
theorem acyclic_of_apart {s : PeerState} (hr : Run peer.step Apart .init s) : Acyclic peer s :=
  Inv.acyclic (hr.invariant (fun _ _ _ h hok hstep => h.step hok hstep) Inv.init)

/-- `InstallSnapshot` hands its snapshot over while it holds both locks, and `AppendEntries` waits
    for them; the service is applying a command and does not call `Snapshot`. -/
theorem acyclic_of_apart_handover :
    ∃ s, Run peer.step Apart .init s ∧ (s.todo (.handler 1)).head? = some (.send .apply) ∧
      (s.todo (.handler 2)).head? = some (.acquire .raftState .write) ∧
      (s.todo .service).head? = some (.release .mu .write) ∧ Acyclic peer s := by
  obtain ⟨s, hr, hsend, hwaits, hservice⟩ := exists_run_of_execOk peer.step Apart .init
    (committed ++ begin .service (.applyCommand false true) 0 ++ [.meet .applyLoop] ++
      steps .service 1 ++ begin (.handler 1) (.installSnapshot true) 3 ++
      begin (.handler 2) (.appendEntries true false) 0)
    (fun s => (s.todo (.handler 1)).head? = some (.send .apply) ∧
      (s.todo (.handler 2)).head? = some (.acquire .raftState .write) ∧
      (s.todo .service).head? = some (.release .mu .write)) (by decide +kernel)
  exact ⟨s, hr, hsend, hwaits, hservice, acyclic_of_apart hr⟩

end MitDistributed.Raft.WaitCycle
