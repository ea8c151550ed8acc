import MitDistributed.Consensus.Log
import MitDistributed.Consensus.Quorum

namespace MitDistributed.Consensus

open Function

/-!
# Consensus — replicated logs under elected leaders

An abstract cluster: every peer has a term and a log, votes are cast in terms, a peer with the
votes of a majority may become the leader of a term, and the leader of a term extends its log,
which other peers take over in pieces.  There are no messages; what a message may rest on is a
precondition of the step that its receipt stands for.

* `Cluster.Step` — the steps;
* `Cluster.Grows` — what every step keeps, used to carry facts about messages along.
-/

/-- The state.  `vote t v` is the choice of `v` in term `t`; `leaderLog t` is the log of the
    leader of `t` when it last led that term; `acked p t` is the length of the part of it that
    `p` has held in term `t`. -/
structure Cluster (P E : Type) where
  term : P → ℕ
  vote : ℕ → P → Option P
  leader : ℕ → Option P
  log : P → List E
  leaderLog : ℕ → List E
  acked : P → ℕ → ℕ

variable {P E : Type}

namespace Cluster

def init : Cluster P E :=
  { term := fun _ => 0
    vote := fun _ _ => none
    leader := fun _ => none
    log := fun _ => []
    leaderLog := fun _ => []
    acked := fun _ _ => 0 }

section Operations

variable [DecidableEq P] (a : Cluster P E)

/-- `p` enters term `t`. -/
def observe (p : P) (t : ℕ) : Cluster P E := { a with term := update a.term p t }

/-- `v` votes for `c` in term `t`. -/
def cast (v c : P) (t : ℕ) : Cluster P E :=
  { a with
    term := update a.term v t
    vote := fun s q => if s = t ∧ q = v then some c else a.vote s q }

/-- `p` has held `k` entries of the leader of `t` in term `t`. -/
def ack (p : P) (t k : ℕ) : P → ℕ → ℕ := fun q s => if q = p ∧ s = t then k else a.acked q s

/-- `c` becomes the leader of term `t`. -/
def elect (c : P) (t : ℕ) : Cluster P E :=
  { a with
    leader := update a.leader t (some c)
    leaderLog := update a.leaderLog t (a.log c)
    acked := a.ack c t (a.log c).length }

/-- The leader `c` of term `t` adds an entry. -/
def append (c : P) (t : ℕ) (e : E) : Cluster P E :=
  { a with
    log := update a.log c (a.log c ++ [e])
    leaderLog := update a.leaderLog t (a.leaderLog t ++ [e])
    acked := a.ack c t ((a.leaderLog t).length + 1) }

/-- `p` takes over `l` from the leader of term `t`, and has the log `l'` then. -/
def accept (p : P) (t : ℕ) (l l' : List E) : Cluster P E :=
  { a with
    log := update a.log p l'
    acked := a.ack p t (max (a.acked p t) l.length) }

theorem le_update_term {p : P} {t : ℕ} (h : a.term p ≤ t) (q : P) :
    a.term q ≤ update a.term p t q := by
  rcases eq_or_ne q p with rfl | hne
  · rwa [update_self]
  · rw [update_of_ne hne]

theorem ack_of_ne {p q : P} {t s k : ℕ} (h : ¬ (q = p ∧ s = t)) :
    a.ack p t k q s = a.acked q s :=
  if_neg h

theorem ack_self (p : P) (t k : ℕ) : a.ack p t k p t = k := if_pos ⟨rfl, rfl⟩

theorem le_ack {p : P} {t k : ℕ} (h : a.acked p t ≤ k) (q : P) (s : ℕ) :
    a.acked q s ≤ a.ack p t k q s := by
  unfold ack
  split
  · rename_i hqs
    obtain ⟨rfl, rfl⟩ := hqs
    exact h
  · exact le_rfl

theorem ack_closed {p q : P} {t s k : ℕ} (h : a.term p = t)
    (hs : s < a.term q) : a.ack p t k q s = a.acked q s := by
  refine a.ack_of_ne ?_
  rintro ⟨rfl, rfl⟩
  exact absurd h hs.ne'

end Operations

/-! ### Steps -/

/-- Terms, votes, leaders, their logs and what is acknowledged only grow; nothing is
    acknowledged in a term once it is over; a peer votes for itself only in a new term; and a
    candidate keeps its log until its term has a leader. -/
structure Grows (a a' : Cluster P E) : Prop where
  term : ∀ p, a.term p ≤ a'.term p
  vote : ∀ t v c, a.vote t v = some c → a'.vote t v = some c
  self : ∀ t p, t ≤ a.term p → a'.vote t p = some p → a.vote t p = some p
  leader : ∀ t c, a.leader t = some c → a'.leader t = some c
  leaderLog : ∀ t, a.leader t ≠ none → a.leaderLog t <+: a'.leaderLog t
  acked : ∀ p t, a.acked p t ≤ a'.acked p t
  closed : ∀ p t, t < a.term p → a'.acked p t = a.acked p t
  log : ∀ p, a'.term p = a.term p → a'.leader (a.term p) = none → a'.log p = a.log p

theorem Grows.refl (a : Cluster P E) : a.Grows a where
  term _ := le_rfl
  vote _ _ _ h := h
  self _ _ _ h := h
  leader _ _ h := h
  leaderLog _ _ := List.prefix_refl _
  acked _ _ := le_rfl
  closed _ _ _ := rfl
  log _ _ _ := rfl

/-! ### What messages rest on -/

variable {a a' : Cluster P E} {p : P} {t : ℕ} {l : List E}

/-- `p` has shown the log `l` in term `t`, and still has it as long as it can be elected. -/
def Stood (a : Cluster P E) (p : P) (t : ℕ) (l : List E) : Prop :=
  t ≤ a.term p ∧ (a.term p = t → a.leader t = none → l <+: a.log p)

/-- `p` leads term `t`, and `l` is a part of its log. -/
def Issued (a : Cluster P E) (p : P) (t : ℕ) (l : List E) : Prop :=
  a.leader t = some p ∧ l <+: a.leaderLog t

/-- `p` has left term `t`, or is in term `t` without standing for it. -/
def Past (a : Cluster P E) (p : P) (t : ℕ) : Prop :=
  t ≤ a.term p ∧ (t < a.term p ∨ a.vote t p ≠ some p)

theorem Stood.grows (h : a.Stood p t l) (hg : a.Grows a') : a'.Stood p t l := by
  obtain ⟨hle, hlog⟩ := h
  refine ⟨hle.trans (hg.term p), fun ht hnone => ?_⟩
  have hold : a.term p = t := le_antisymm ((hg.term p).trans ht.le) hle
  have hnone' : a.leader t = none := by
    cases hl : a.leader t with
    | none => rfl
    | some c => rw [hg.leader t c hl] at hnone; cases hnone
  rw [hg.log p (ht.trans hold.symm) (hold.symm ▸ hnone)]
  exact hlog hold hnone'

theorem Issued.grows (h : a.Issued p t l) (hg : a.Grows a') : a'.Issued p t l := by
  obtain ⟨hl, hp⟩ := h
  exact ⟨hg.leader t p hl, hp.trans (hg.leaderLog t (by rw [hl]; simp))⟩

theorem Past.grows (h : a.Past p t) (hg : a.Grows a') : a'.Past p t := by
  obtain ⟨hle, hlt | hv⟩ := h
  · exact ⟨hle.trans (hg.term p), .inl (hlt.trans_le (hg.term p))⟩
  · exact ⟨hle.trans (hg.term p), .inr fun hv' => hv (hg.self t p hle hv')⟩

variable [DecidableEq P]

theorem Grows.observe (a : Cluster P E) {t : ℕ} {p : P} (h : a.term p ≤ t) :
    a.Grows (a.observe p t) :=
  { Grows.refl a with
    term := a.le_update_term h
    log := fun _ _ _ => rfl }

/-- A vote changes nothing else, and does not replace another vote. -/
theorem Grows.cast (a : Cluster P E) {t : ℕ} {v c : P} (h : a.term v ≤ t)
    (hfree : a.vote t v = none ∨ a.vote t v = some c) (hself : v = c → a.term v < t) :
    a.Grows (a.cast v c t) :=
  { Grows.refl a with
    term := a.le_update_term h
    vote := by
      intro s q d hd
      show (if s = t ∧ q = v then some c else a.vote s q) = some d
      split
      · rename_i hsq
        obtain ⟨rfl, rfl⟩ := hsq
        rcases hfree with hnone | hsome
        · rw [hnone] at hd; cases hd
        · rw [hsome] at hd; exact hd
      · exact hd
    self := by
      intro s q hle hq
      have hq' : (if s = t ∧ q = v then some c else a.vote s q) = some q := hq
      split at hq'
      · rename_i hsq
        obtain ⟨rfl, rfl⟩ := hsq
        have := hself (Option.some.inj hq').symm
        omega
      · exact hq'
    log := fun _ _ _ => rfl }

theorem Grows.accept (a : Cluster P E) {t : ℕ} {p : P} {l l' : List E} (ht : a.term p = t)
    (hl : a.leader t ≠ none) : a.Grows (a.accept p t l l') :=
  { Grows.refl a with
    acked := a.le_ack (le_max_left _ _)
    closed := fun _ _ => a.ack_closed ht
    log := by
      intro q _ hnone
      have hne : q ≠ p := by
        rintro rfl
        rw [ht] at hnone
        exact hl hnone
      exact update_of_ne hne _ _ }

/-- The steps of the cluster. -/
inductive Step [Fintype P] (tm : E → ℕ) (a : Cluster P E) : Cluster P E → Prop
  /-- a higher term is adopted -/
  | observe (p : P) (t : ℕ) (h : a.term p ≤ t) : Step tm a (a.observe p t)
  /-- a candidate enters a new term and votes for itself -/
  | stand (p : P) (t : ℕ) (h : a.term p < t) : Step tm a (a.cast p p t)
  /-- a vote for another peer whose log, if it can still be elected, is up to date -/
  | grant (v c : P) (t : ℕ) (hne : v ≠ c) (ht : a.term v = t) (hc : t ≤ a.term c)
      (hfree : a.vote t v = none ∨ a.vote t v = some c)
      (hlog : a.term c = t → a.leader t = none → UpToDate tm (a.log v) (a.log c)) :
      Step tm a (a.cast v c t)
  /-- an election -/
  | elect (c : P) (t : ℕ) (ht : a.term c = t) (hnone : a.leader t = none)
      (hself : a.vote t c = some c) (hmaj : Elected (fun v c => a.vote t v = some c) c) :
      Step tm a (a.elect c t)
  /-- a new entry at the leader -/
  | append (c : P) (t : ℕ) (e : E) (hl : a.leader t = some c) (ht : a.term c = t)
      (he : tm e = t) : Step tm a (a.append c t e)
  /-- entries of the leader at another peer -/
  | accept (p : P) (t : ℕ) (l l' : List E) (ht : a.term p = t) (hl : a.leader t ≠ none)
      (hpre : l <+: a.leaderLog t) (hlog : Overwrites (a.log p) l l') :
      Step tm a (a.accept p t l l')

end Cluster

end MitDistributed.Consensus
