import Mathlib.Logic.Function.Basic
import Mathlib.Logic.Relation
import Mathlib.Tactic.Common

namespace MitDistributed.Concurrency

open Function

/-!
# Threads that wait for locks and channels

Threads run straight-line code over read-write locks and channels; a thread that is through may
start again with other code.  Branches on data are choices between codes.

`Waits s t u` says that `t` cannot go on before `u` has.  Locks taken in the order of a level give
no cycle of waits by themselves; a cycle through a channel needs a sender that someone waits for,
and a receiver that waits (`acyclic_of_levels`).
-/

inductive Mode
  | read | write
  deriving DecidableEq, Repr

/-- `call` and `ret` mark a stretch of code; they do nothing to locks and channels. -/
inductive Instr (L C : Type)
  | acquire (l : L) (m : Mode)
  | release (l : L) (m : Mode)
  | send (c : C)
  | recv (c : C)
  | call
  | ret
  deriving DecidableEq, Repr

/-- What the threads may run.  A channel has one receiver; with capacity `0` it is unbuffered. -/
structure System (T L C P : Type) where
  code : P → List (Instr L C)
  may : T → P → Bool
  receiver : C → T
  cap : C → ℕ

structure State (T L C : Type) where
  todo : T → List (Instr L C)
  holders : L → List (T × Mode)
  /-- Messages in a buffered channel. -/
  count : C → ℕ
  /-- The threads between `call` and `ret`. -/
  calls : List T

inductive Action (T P : Type)
  | start (t : T) (p : P)
  | next (t : T)
  /-- `t` hands a message to the receiver of an unbuffered channel. -/
  | meet (t : T)
  deriving DecidableEq, Repr

variable {T L C P : Type}

/-- Two holders of a lock get along when both read. -/
def Conflict (m m' : Mode) : Prop := m = .write ∨ m' = .write

instance (m m' : Mode) : Decidable (Conflict m m') :=
  inferInstanceAs (Decidable (m = .write ∨ m' = .write))

namespace State

def init : State T L C := ⟨fun _ => [], fun _ => [], fun _ => 0, []⟩

/-- A lock is granted when nobody holds it in a conflicting mode. -/
def Free (s : State T L C) (l : L) (m : Mode) : Prop := ∀ h ∈ s.holders l, ¬ Conflict m h.2

instance (s : State T L C) (l : L) (m : Mode) : Decidable (s.Free l m) :=
  inferInstanceAs (Decidable (∀ h ∈ s.holders l, ¬ Conflict m h.2))

variable [DecidableEq T] [DecidableEq L] [DecidableEq C]

def setTodo (s : State T L C) (t : T) (todo : List (Instr L C)) : State T L C :=
  { s with todo := update s.todo t todo }

def grant (s : State T L C) (t : T) (l : L) (m : Mode) : State T L C :=
  { s with holders := update s.holders l ((t, m) :: s.holders l) }

def free (s : State T L C) (t : T) (l : L) (m : Mode) : State T L C :=
  { s with holders := update s.holders l ((s.holders l).filter (· ≠ (t, m))) }

def setCount (s : State T L C) (c : C) (n : ℕ) : State T L C :=
  { s with count := update s.count c n }

variable {s : State T L C} {t u : T} {l l' : L} {m m' : Mode} {todo : List (Instr L C)}

omit [DecidableEq L] [DecidableEq C] in
@[simp] theorem todo_setTodo_self : (s.setTodo t todo).todo t = todo := update_self ..

omit [DecidableEq L] [DecidableEq C] in
theorem todo_setTodo_of_ne (h : u ≠ t) : (s.setTodo t todo).todo u = s.todo u :=
  update_of_ne h ..

omit [DecidableEq T] [DecidableEq C] in
theorem mem_holders_grant :
    (u, m') ∈ (s.grant t l m).holders l' ↔
      (u = t ∧ l' = l ∧ m' = m) ∨ (u, m') ∈ s.holders l' := by
  show (u, m') ∈ update s.holders l ((t, m) :: s.holders l) l' ↔ _
  by_cases hl : l' = l
  · subst hl
    simp
  · simp [hl]

omit [DecidableEq C] in
theorem mem_holders_free :
    (u, m') ∈ (s.free t l m).holders l' ↔
      (u, m') ∈ s.holders l' ∧ ¬ (u = t ∧ l' = l ∧ m' = m) := by
  show (u, m') ∈ update s.holders l _ l' ↔ _
  by_cases hl : l' = l
  · subst hl
    simp only [update_self, List.mem_filter, ne_eq, Prod.mk.injEq, decide_eq_true_eq,
      true_and]
  · simp [hl]

end State

namespace System

variable [DecidableEq T] [DecidableEq L] [DecidableEq C]

/-- The next instruction of a thread; `none` while it has to wait. -/
def next (S : System T L C P) (s : State T L C) (t : T) : Option (State T L C) :=
  match s.todo t with
  | [] => none
  | .acquire l m :: rest => if s.Free l m then some ((s.grant t l m).setTodo t rest) else none
  | .release l m :: rest => some ((s.free t l m).setTodo t rest)
  | .send c :: rest =>
    if s.count c < S.cap c then some ((s.setCount c (s.count c + 1)).setTodo t rest) else none
  | .recv c :: rest =>
    if 0 < s.count c then some ((s.setCount c (s.count c - 1)).setTodo t rest) else none
  | .call :: rest => some ({ s with calls := t :: s.calls }.setTodo t rest)
  | .ret :: rest => some ({ s with calls := s.calls.filter (· ≠ t) }.setTodo t rest)

/-- A message through an unbuffered channel. -/
def meet (S : System T L C P) (s : State T L C) (t : T) : Option (State T L C) :=
  match s.todo t with
  | .send c :: rest =>
    match s.todo (S.receiver c) with
    | .recv c' :: rest' =>
      if c = c' ∧ S.cap c = 0 ∧ t ≠ S.receiver c then
        some ((s.setTodo t rest).setTodo (S.receiver c) rest')
      else none
    | _ => none
  | _ => none

def step (S : System T L C P) (s : State T L C) : Action T P → Option (State T L C)
  | .start t p => if s.todo t = [] ∧ S.may t p then some (s.setTodo t (S.code p)) else none
  | .next t => S.next s t
  | .meet t => S.meet s t

end System

/-! ### Waiting -/

/-- `t` is at a lock that `u` holds, or is at it for reading while `u` is at it for writing: new
    readers queue up behind a writer. -/
def WaitsLock (s : State T L C) (t u : T) : Prop :=
  ∃ l m rest, s.todo t = .acquire l m :: rest ∧
    ((∃ m', (u, m') ∈ s.holders l ∧ Conflict m m') ∨
      m = .read ∧ ∃ rest', s.todo u = .acquire l .write :: rest')

/-- `t` has a message that the channel has no room for, and the receiver `u` is elsewhere. -/
def WaitsChan (S : System T L C P) (s : State T L C) (t u : T) : Prop :=
  ∃ c rest, s.todo t = .send c :: rest ∧ u = S.receiver c ∧ S.cap c ≤ s.count c ∧
    ∀ rest', s.todo u ≠ .recv c :: rest'

def Waits (S : System T L C P) (s : State T L C) (t u : T) : Prop :=
  WaitsLock s t u ∨ WaitsChan S s t u

/-- No cycle of waits. -/
def Acyclic (S : System T L C P) (s : State T L C) : Prop :=
  ∀ t, ¬ Relation.TransGen (Waits S s) t t

/-- The edges of a cycle come from where an edge goes to, and go where an edge comes from. -/
theorem transGen_inner {α : Type*} {r : α → α → Prop} {a b : α} (h : Relation.TransGen r a b)
    (ha : ∃ x, r x a) (hb : ∃ y, r b y) :
    Relation.TransGen (fun a b => r a b ∧ (∃ x, r x a) ∧ ∃ y, r b y) a b := by
  induction h with
  | single hab => exact .single ⟨hab, ha, hb⟩
  | tail hac hcb ih =>
    rename_i c d
    have hc : ∃ x, r x c := by
      cases hac with
      | single hac => exact ⟨_, hac⟩
      | tail _ hxc => exact ⟨_, hxc⟩
    exact (ih ⟨_, hcb⟩).tail ⟨hcb, hc, hb⟩

theorem cycle_inner {α : Type*} {r : α → α → Prop} {a : α} (h : Relation.TransGen r a a) :
    Relation.TransGen (fun a b => r a b ∧ (∃ x, r x a) ∧ ∃ y, r b y) a a := by
  have hin : ∃ x, r x a := by
    cases h with
    | single h => exact ⟨_, h⟩
    | tail _ h => exact ⟨_, h⟩
  have hout : ∃ y, r a y := by
    rcases Relation.TransGen.head'_iff.mp h with ⟨y, hy, -⟩
    exact ⟨y, hy⟩
  exact transGen_inner h hin hout

/-- The level of what a thread waits for; writers come after the readers behind them. -/
def rank (level : L → ℕ) (s : State T L C) (t : T) : ℕ :=
  match s.todo t with
  | .acquire l .read :: _ => 2 * level l
  | .acquire l .write :: _ => 2 * level l + 1
  | _ => 0

/-- **Ordered locks.**  There is no cycle of waits when every thread takes its locks in the order
    of their levels and every sender that has to wait is waited for by nobody, or has a receiver
    that does not wait itself. -/
theorem acyclic_of_levels {S : System T L C P} {s : State T L C} (level : L → ℕ)
    (hlevel : ∀ t l m rest, s.todo t = .acquire l m :: rest →
      ∀ l' m', (t, m') ∈ s.holders l' → level l' < level l)
    (hchan : ∀ t u, WaitsChan S s t u → (∀ v, ¬ Waits S s v t) ∨ ∀ v, ¬ Waits S s u v) :
    Acyclic S s := by
  intro t hcycle
  -- an edge of a cycle is a wait for a lock, and so is the next one
  have hlock : ∀ a b, Waits S s a b ∧ (∃ x, Waits S s x a) ∧ (∃ y, Waits S s b y) →
      WaitsLock s a b := by
    rintro a b ⟨hlock | hsend, ⟨x, hx⟩, y, hy⟩
    · exact hlock
    · rcases hchan a b hsend with hnobody | hmoves
      · exact absurd hx (hnobody x)
      · exact absurd hy (hmoves y)
  have hgrows : ∀ a b, WaitsLock s a b → (∃ c, WaitsLock s b c) →
      rank level s a < rank level s b := by
    rintro a b ⟨l, m, rest, ha, hwhy⟩ ⟨c, l', m', rest', hb, -⟩
    rcases hwhy with ⟨mb, hholds, -⟩ | ⟨rfl, rest'', hb'⟩
    · -- `b` holds the lock, so it waits for one of a higher level
      have hlt := hlevel b l' m' rest' hb l mb hholds
      cases m <;> cases m' <;> simp only [rank, ha, hb] <;> omega
    · rw [hb'] at hb
      simp only [rank, ha, hb']
      omega
  have hinner : Relation.TransGen (WaitsLock s) t t :=
    Relation.TransGen.mono (fun a b h => hlock a b h) _ _ (cycle_inner hcycle)
  have hmono := (cycle_inner hinner).lift (rank level s)
    fun a b h => hgrows a b h.1 h.2.2
  have hlt : ∀ i j : ℕ, Relation.TransGen (fun i j => i < j) i j → i < j := by
    intro i j h
    induction h with
    | single h => exact h
    | tail _ h ih => exact Nat.lt_trans ih h
  exact Nat.lt_irrefl _ (hlt _ _ hmono)

end MitDistributed.Concurrency
