import MitDistributed.Consensus.Cluster

namespace MitDistributed.Consensus

open Function

/-!
# Consensus — where the entries of a log come from

Every entry of every log stands where the leader of its term put it, behind the same entries
(`Cluster.Rooted`).  Logs therefore match, and their terms do not decrease.  `Cluster.Sound`
collects this with the bookkeeping of terms, votes and leaders, and is kept by every step
(`Cluster.Sound.step`).
-/

namespace Cluster

variable {P E : Type} {tm : E → ℕ} {a a' : Cluster P E} {l l' : List E} {i j t : ℕ}

/-! ### Rooted logs -/

/-- Up to every one of its entries, the log is a part of the log of the leader of its term. -/
def Rooted (tm : E → ℕ) (a : Cluster P E) (l : List E) : Prop :=
  ∀ i e, l[i]? = some e → l.take (i + 1) <+: a.leaderLog (tm e)

/-- The terms of a log are at most `t`. -/
def Dated (tm : E → ℕ) (t : ℕ) (l : List E) : Prop := ∀ e ∈ l, tm e ≤ t

theorem Dated.termAt_le (h : Dated tm t l) (i : ℕ) : termAt tm l i ≤ t := by
  cases i with
  | zero => exact Nat.zero_le t
  | succ i =>
    cases he : l[i]? with
    | none => simp [termAt, he]
    | some e =>
      rw [termAt_succ_of_getElem? he]
      exact h e (List.mem_of_getElem? he)

theorem Dated.of_isPrefix (h : Dated tm t l) (hp : l' <+: l) : Dated tm t l' :=
  fun e he => h e (hp.subset he)

theorem Rooted.of_isPrefix (h : a.Rooted tm l) (hp : l' <+: l) : a.Rooted tm l' := by
  intro i e he
  obtain ⟨hlt, -⟩ := List.getElem?_eq_some_iff.mp he
  rw [take_eq_take_of_isPrefix hp hlt]
  refine h i e ?_
  obtain ⟨rest, rfl⟩ := hp
  rw [List.getElem?_append_left hlt, he]

/-- The log up to an index is a part of the log of the leader of the term there. -/
theorem Rooted.take_isPrefix (h : a.Rooted tm l) (h0 : 0 < i) (hi : i ≤ l.length) :
    l.take i <+: a.leaderLog (termAt tm l i) := by
  obtain ⟨k, rfl⟩ : ∃ k, i = k + 1 := ⟨i - 1, by omega⟩
  have hk : l[k]? = some l[k] := List.getElem?_eq_getElem hi
  rw [termAt_succ_of_getElem? hk]
  exact h k _ hk

/-- Rooted logs match. -/
theorem Rooted.matching (h : a.Rooted tm l) (h' : a.Rooted tm l') : Matching tm l l' := by
  intro i hi hi' ht
  rcases Nat.eq_zero_or_pos i with rfl | h0
  · rfl
  have hp := h.take_isPrefix h0 hi
  have hp' := h'.take_isPrefix h0 hi'
  rw [← ht] at hp'
  have hlen : (l.take i).length = (l'.take i).length := by
    rw [List.length_take, List.length_take, min_eq_left hi, min_eq_left hi']
  exact (List.prefix_of_prefix_length_le hp hp' hlen.le).eq_of_length hlen

/-- If leaders put no entries of later terms into their logs, the terms of a rooted log do not
    decrease. -/
theorem Rooted.termAt_mono (h : a.Rooted tm l) (hd : ∀ t, Dated tm t (a.leaderLog t)) (hij : i ≤ j)
    (hj : j ≤ l.length) : termAt tm l i ≤ termAt tm l j := by
  rcases Nat.eq_zero_or_pos i with rfl | h0
  · exact Nat.zero_le _
  have hp := h.take_isPrefix (h0.trans_le hij) hj
  have hdated := (hd (termAt tm l j)).of_isPrefix hp
  rw [← termAt_take hij]
  exact hdated.termAt_le i

theorem Rooted.append {e : E} (h : a.Rooted tm l) (he : l ++ [e] <+: a.leaderLog (tm e)) :
    a.Rooted tm (l ++ [e]) := by
  intro i e' he'
  rcases lt_or_ge i l.length with hlt | hge
  · rw [List.getElem?_append_left hlt] at he'
    rw [List.take_append_of_le_length (by omega)]
    exact h i e' he'
  · obtain ⟨hb, hval⟩ := List.getElem?_eq_some_iff.mp he'
    rw [List.length_append, List.length_singleton] at hb
    obtain rfl : i = l.length := by omega
    obtain rfl : e = e' := by simpa using hval
    rw [List.take_of_length_le (by simp)]
    exact he

/-! ### Sound clusters -/

section Sound

variable [Fintype P]

/-- Votes and leaders belong to terms that have been reached; a leader has the votes of a
    majority, its own among them, and holds its log as long as it stays in its term; logs hold
    no entries of terms to come, and are rooted. -/
structure Sound (tm : E → ℕ) (a : Cluster P E) : Prop where
  vote_term : ∀ t v c, a.vote t v = some c → t ≤ a.term v ∧ t ≤ a.term c
  self : ∀ t c, a.leader t = some c → a.vote t c = some c
  elected : ∀ t c, a.leader t = some c → Elected (fun v c => a.vote t v = some c) c
  acked_term : ∀ p t, 0 < a.acked p t → t ≤ a.term p
  acked_le : ∀ p t, a.acked p t ≤ (a.leaderLog t).length
  unled : ∀ t, a.leader t = none → a.leaderLog t = []
  leader_log : ∀ t c, a.leader t = some c → a.term c = t → a.log c = a.leaderLog t
  log_dated : ∀ p, Dated tm (a.term p) (a.log p)
  leaderLog_dated : ∀ t, Dated tm t (a.leaderLog t)
  log_rooted : ∀ p, a.Rooted tm (a.log p)
  leaderLog_rooted : ∀ t, a.Rooted tm (a.leaderLog t)

theorem init_sound : (init : Cluster P E).Sound tm where
  vote_term _ _ _ h := by cases h
  self _ _ h := by cases h
  elected _ _ h := by cases h
  acked_term _ _ h := absurd h (lt_irrefl 0)
  acked_le _ _ := le_rfl
  unled _ _ := rfl
  leader_log _ _ h := by cases h
  log_dated _ _ h := by cases h
  leaderLog_dated _ _ h := by cases h
  log_rooted _ _ _ h := by cases h
  leaderLog_rooted _ _ _ h := by cases h

namespace Sound

theorem leader_term (h : a.Sound tm) {c : P} (hl : a.leader t = some c) : t ≤ a.term c :=
  (h.vote_term t c c (h.self t c hl)).1

/-- In a term without leader nothing is acknowledged. -/
theorem acked_unled (h : a.Sound tm) (hl : a.leader t = none) (p : P) : a.acked p t = 0 := by
  have hle := h.acked_le p t
  rw [h.unled t hl] at hle
  exact Nat.le_zero.mp hle

theorem leader_of_mem (h : a.Sound tm) {e : E} (he : e ∈ a.leaderLog t) : a.leader t ≠ none := by
  intro hl
  rw [h.unled t hl] at he
  cases he

/-- A term has one leader. -/
theorem elected_unique [DecidableEq P] (h : a.Sound tm) {c d : P} (hc : a.leader t = some c)
    (hd : Elected (fun v c => a.vote t v = some c) d) : d = c := by
  refine Elected.unique ?_ hd (h.elected t c hc)
  intro v x y hx hy
  rw [hx] at hy
  exact Option.some.inj hy

end Sound

end Sound

/-! ### Growth -/

/-- A rooted log stays rooted. -/
theorem Rooted.grows [Fintype P] (hs : a.Sound tm) (hg : a.Grows a') (h : a.Rooted tm l) :
    a'.Rooted tm l := by
  intro i e he
  have hp := h i e he
  have hne : a.leader (tm e) ≠ none := by
    refine hs.leader_of_mem (e := e) (hp.subset ?_)
    obtain ⟨hlt, rfl⟩ := List.getElem?_eq_some_iff.mp he
    exact List.mem_take_iff_getElem.mpr ⟨i, by omega, rfl⟩
  exact hp.trans (hg.leaderLog _ hne)

section Steps

variable [Fintype P] [DecidableEq P]

theorem Grows.elect (hs : a.Sound tm) {c : P} (ht : a.term c = t) (hnone : a.leader t = none) :
    a.Grows (a.elect c t) :=
  { Grows.refl a with
    leader := by
      intro s d hd
      have hne : s ≠ t := by rintro rfl; rw [hnone] at hd; cases hd
      exact (update_of_ne hne _ _).trans hd
    leaderLog := by
      intro s hl
      have hne : s ≠ t := by rintro rfl; exact hl hnone
      show a.leaderLog s <+: update a.leaderLog t (a.log c) s
      rw [update_of_ne hne]
    acked := a.le_ack (by rw [hs.acked_unled hnone]; exact Nat.zero_le _)
    closed := fun _ _ => a.ack_closed ht
    log := fun _ _ _ => rfl }

theorem Grows.append (hs : a.Sound tm) {c : P} {e : E} (hl : a.leader t = some c)
    (ht : a.term c = t) : a.Grows (a.append c t e) :=
  { Grows.refl a with
    leaderLog := by
      intro s _
      show a.leaderLog s <+: update a.leaderLog t (a.leaderLog t ++ [e]) s
      rcases eq_or_ne s t with rfl | hne
      · rw [update_self]; exact List.prefix_append _ _
      · rw [update_of_ne hne]
    acked := a.le_ack ((hs.acked_le c t).trans (Nat.le_succ _))
    closed := fun _ _ => a.ack_closed ht
    log := by
      intro p _ hnone
      have hne : p ≠ c := by
        rintro rfl
        rw [ht] at hnone
        cases hl.symm.trans hnone
      exact update_of_ne hne _ _ }

/-- **Growth.** Every step of a sound cluster makes it grow. -/
theorem Step.grows (hs : a.Sound tm) (h : Step tm a a') : a.Grows a' := by
  cases h with
  | observe p t h => exact .observe a h
  | stand p t h =>
    have hnone : a.vote t p = none := by
      cases hv : a.vote t p with
      | none => rfl
      | some c => exact absurd (hs.vote_term t p c hv).1 (by omega)
    exact .cast a h.le (.inl hnone) fun _ => h
  | grant v c t hne ht hc hfree hlog => exact .cast a ht.le hfree fun heq => absurd heq hne
  | elect c t ht hnone hself hmaj => exact .elect hs ht hnone
  | append c t e hl ht he => exact .append hs hl ht
  | accept p t l l' ht hl hpre hlog => exact .accept a ht hl

/-! ### Every step -/

namespace Sound

theorem observe (h : a.Sound tm) {p : P} (ht : a.term p ≤ t) : (a.observe p t).Sound tm :=
  { h with
    vote_term := fun s v c hv =>
      ⟨(h.vote_term s v c hv).1.trans (a.le_update_term ht v),
        (h.vote_term s v c hv).2.trans (a.le_update_term ht c)⟩
    acked_term := fun q s hs => (h.acked_term q s hs).trans (a.le_update_term ht q)
    leader_log := by
      intro s c hl hterm
      refine h.leader_log s c hl (le_antisymm ?_ (h.leader_term hl))
      exact (a.le_update_term ht c).trans hterm.le
    log_dated := fun q e he => (h.log_dated q e he).trans (a.le_update_term ht q) }

theorem cast (h : a.Sound tm) {v c : P} (ht : a.term v ≤ t) (hc : v = c ∨ t ≤ a.term c)
    (hg : a.Grows (a.cast v c t)) : (a.cast v c t).Sound tm :=
  { h.observe ht with
    vote_term := by
      intro s q d hd
      have hd' : (if s = t ∧ q = v then some c else a.vote s q) = some d := hd
      split at hd'
      · rename_i hsq
        obtain ⟨rfl, rfl⟩ := hsq
        cases hd'
        have hv : s ≤ update a.term q s q := by rw [update_self]
        refine ⟨hv, ?_⟩
        rcases hc with rfl | hc
        · exact hv
        · exact hc.trans (a.le_update_term ht c)
      · exact (h.observe ht).vote_term s q d hd'
    self := fun s d hd => hg.vote s d d (h.self s d hd)
    elected := fun s d hd => (h.elected s d hd).mono fun q hq => hg.vote s q d hq }

theorem elect (h : a.Sound tm) {c : P} (ht : a.term c = t) (hnone : a.leader t = none)
    (hself : a.vote t c = some c) (hmaj : Elected (fun v c => a.vote t v = some c) c) :
    (a.elect c t).Sound tm := by
  have hg := Grows.elect h ht hnone
  have hrooted {l : List E} (hl : a.Rooted tm l) : (a.elect c t).Rooted tm l := hl.grows h hg
  -- what is said about leaders holds for the new one and the old ones
  have hleader (Q : ℕ → P → Prop) (hnew : Q t c) (hold : ∀ s d, a.leader s = some d → Q s d)
      (s : ℕ) (d : P) (hd : (a.elect c t).leader s = some d) : Q s d := by
    have hd' : update a.leader t (some c) s = some d := hd
    rcases eq_or_ne s t with rfl | hne
    · rw [update_self] at hd'
      exact Option.some.inj hd' ▸ hnew
    · rw [update_of_ne hne] at hd'
      exact hold s d hd'
  have hlog (Q : ℕ → List E → Prop) (hnew : Q t (a.log c)) (hold : ∀ s, Q s (a.leaderLog s))
      (s : ℕ) : Q s ((a.elect c t).leaderLog s) := by
    show Q s (update a.leaderLog t (a.log c) s)
    rcases eq_or_ne s t with rfl | hne
    · rwa [update_self]
    · rw [update_of_ne hne]; exact hold s
  exact
    { h with
      self := hleader (fun s d => a.vote s d = some d) hself h.self
      elected := hleader (fun s d => Elected (fun v c => a.vote s v = some c) d) hmaj h.elected
      acked_term := by
        intro p s hp
        have hp' : 0 < a.ack c t (a.log c).length p s := hp
        by_cases hps : p = c ∧ s = t
        · obtain ⟨rfl, rfl⟩ := hps
          exact ht.ge
        · rw [a.ack_of_ne hps] at hp'
          exact h.acked_term p s hp'
      acked_le := by
        intro p s
        show a.ack c t (a.log c).length p s ≤ (update a.leaderLog t (a.log c) s).length
        by_cases hps : p = c ∧ s = t
        · obtain ⟨rfl, rfl⟩ := hps
          rw [a.ack_self, update_self]
        · rw [a.ack_of_ne hps]
          rcases eq_or_ne s t with rfl | hne
          · rw [h.acked_unled hnone]
            exact Nat.zero_le _
          · rw [update_of_ne hne]
            exact h.acked_le p s
      unled := by
        intro s hs
        have hs' : update a.leader t (some c) s = none := hs
        have hne : s ≠ t := by rintro rfl; rw [update_self] at hs'; cases hs'
        rw [update_of_ne hne] at hs'
        exact (update_of_ne hne _ _).trans (h.unled s hs')
      leader_log := by
        refine hleader (fun s d => a.term d = s → a.log d = (a.elect c t).leaderLog s) ?_ ?_
        · intro _
          show a.log c = update a.leaderLog t (a.log c) t
          rw [update_self]
        · intro s d hd hterm
          have hne : s ≠ t := by rintro rfl; rw [hnone] at hd; cases hd
          show a.log d = update a.leaderLog t (a.log c) s
          rw [update_of_ne hne, h.leader_log s d hd hterm]
      leaderLog_dated := hlog (fun s l => Dated tm s l) (ht ▸ h.log_dated c) h.leaderLog_dated
      log_rooted := fun p => hrooted (h.log_rooted p)
      leaderLog_rooted := hlog (fun _ l => (a.elect c t).Rooted tm l) (hrooted (h.log_rooted c))
        fun s => hrooted (h.leaderLog_rooted s) }

theorem append (h : a.Sound tm) {c : P} {e : E} (hl : a.leader t = some c) (ht : a.term c = t)
    (he : tm e = t) : (a.append c t e).Sound tm := by
  have hg := Grows.append (e := e) h hl ht
  have hown : a.log c = a.leaderLog t := h.leader_log t c hl ht
  have hself : (a.append c t e).leaderLog t = a.leaderLog t ++ [e] := update_self _ _ _
  have hother {s : ℕ} (hne : s ≠ t) : (a.append c t e).leaderLog s = a.leaderLog s :=
    update_of_ne hne _ _
  have hlog : (a.append c t e).log c = a.log c ++ [e] := update_self _ _ _
  have hlog' {p : P} (hne : p ≠ c) : (a.append c t e).log p = a.log p :=
    update_of_ne hne _ _
  have hdated (k : ℕ) (hk : t ≤ k) {l : List E} (hd : Dated tm k l) : Dated tm k (l ++ [e]) := by
    intro e' he'
    rcases List.mem_append.mp he' with hmem | hmem
    · exact hd e' hmem
    · rw [List.mem_singleton.mp hmem, he]; exact hk
  have hnew : (a.append c t e).Rooted tm (a.leaderLog t ++ [e]) := by
    refine ((h.leaderLog_rooted t).grows h hg).append ?_
    rw [he, hself]
  exact
    { h with
      acked_term := by
        intro p s hp
        have hp' : 0 < a.ack c t ((a.leaderLog t).length + 1) p s := hp
        by_cases hps : p = c ∧ s = t
        · obtain ⟨rfl, rfl⟩ := hps
          exact ht.ge
        · rw [a.ack_of_ne hps] at hp'
          exact h.acked_term p s hp'
      acked_le := by
        intro p s
        show a.ack c t ((a.leaderLog t).length + 1) p s ≤ _
        by_cases hps : p = c ∧ s = t
        · obtain ⟨rfl, rfl⟩ := hps
          rw [a.ack_self, hself, List.length_append, List.length_singleton]
        · rw [a.ack_of_ne hps]
          refine (h.acked_le p s).trans ?_
          rcases eq_or_ne s t with rfl | hne
          · rw [hself, List.length_append]; omega
          · rw [hother hne]
      unled := by
        intro s hs
        have hne : s ≠ t := by
          rintro rfl
          cases hl.symm.trans hs
        rw [hother hne]
        exact h.unled s hs
      leader_log := by
        intro s d hd hterm
        rcases eq_or_ne d c with rfl | hdc
        · obtain rfl : s = t := hterm.symm.trans ht
          rw [hlog, hself, hown]
        · have hne : s ≠ t := by
            rintro rfl
            exact hdc (Option.some.inj (hd.symm.trans hl))
          rw [hlog' hdc, hother hne]
          exact h.leader_log s d hd hterm
      log_dated := by
        intro p
        rcases eq_or_ne p c with rfl | hne
        · rw [hlog]; exact hdated _ ht.ge (h.log_dated p)
        · rw [hlog' hne]; exact h.log_dated p
      leaderLog_dated := by
        intro s
        rcases eq_or_ne s t with rfl | hne
        · rw [hself]; exact hdated _ le_rfl (h.leaderLog_dated s)
        · rw [hother hne]; exact h.leaderLog_dated s
      log_rooted := by
        intro p
        rcases eq_or_ne p c with rfl | hne
        · rw [hlog, hown]; exact hnew
        · rw [hlog' hne]; exact (h.log_rooted p).grows h hg
      leaderLog_rooted := by
        intro s
        rcases eq_or_ne s t with rfl | hne
        · rw [hself]; exact hnew
        · rw [hother hne]; exact (h.leaderLog_rooted s).grows h hg }

theorem accept (h : a.Sound tm) {p : P} (ht : a.term p = t) (hl : a.leader t ≠ none)
    (hpre : l <+: a.leaderLog t) (hlog : Overwrites (a.log p) l l') :
    (a.accept p t l l').Sound tm := by
  have hg : a.Grows (a.accept p t l l') := .accept a ht hl
  have hself : (a.accept p t l l').log p = l' := update_self _ _ _
  have hother {q : P} (hne : q ≠ p) : (a.accept p t l l').log q = a.log q :=
    update_of_ne hne _ _
  -- the new log is the old one or a part of the leader's
  have hnew : l' = a.log p ∨ l' <+: a.leaderLog t := by
    rcases hlog with ⟨-, rfl⟩ | ⟨-, rfl⟩
    · exact .inl rfl
    · exact .inr hpre
  exact
    { h with
      acked_term := by
        intro q s hq
        have hq' : 0 < a.ack p t (max (a.acked p t) l.length) q s := hq
        by_cases hqs : q = p ∧ s = t
        · obtain ⟨rfl, rfl⟩ := hqs
          exact ht.ge
        · rw [a.ack_of_ne hqs] at hq'
          exact h.acked_term q s hq'
      acked_le := by
        intro q s
        show a.ack p t (max (a.acked p t) l.length) q s ≤ (a.leaderLog s).length
        by_cases hqs : q = p ∧ s = t
        · obtain ⟨rfl, rfl⟩ := hqs
          rw [a.ack_self]
          exact max_le (h.acked_le q s) hpre.length_le
        · rw [a.ack_of_ne hqs]
          exact h.acked_le q s
      leader_log := by
        intro s d hd hterm
        rcases eq_or_ne d p with rfl | hne
        · -- the leader itself holds all of its log already
          obtain rfl : s = t := hterm.symm.trans ht
          have hown := h.leader_log s d hd hterm
          rw [hself]
          rcases hlog with ⟨-, rfl⟩ | ⟨hnot, -⟩
          · exact hown
          · exact absurd (hown ▸ hpre) hnot
        · rw [hother hne]; exact h.leader_log s d hd hterm
      log_dated := by
        intro q
        rcases eq_or_ne q p with rfl | hne
        · rw [hself]
          rcases hnew with rfl | hnew
          · exact h.log_dated q
          · exact ht ▸ (h.leaderLog_dated t).of_isPrefix hnew
        · rw [hother hne]; exact h.log_dated q
      log_rooted := by
        intro q
        rcases eq_or_ne q p with rfl | hne
        · rw [hself]
          rcases hnew with rfl | hnew
          · exact (h.log_rooted q).grows h hg
          · exact ((h.leaderLog_rooted t).of_isPrefix hnew).grows h hg
        · rw [hother hne]; exact (h.log_rooted q).grows h hg
      leaderLog_rooted := fun s => (h.leaderLog_rooted s).grows h hg }

/-- **Soundness** is kept by every step. -/
theorem step (h : a.Sound tm) (hstep : Step tm a a') : a'.Sound tm := by
  have hg := hstep.grows h
  cases hstep with
  | observe p t ht => exact h.observe ht
  | stand p t ht => exact h.cast ht.le (.inl rfl) hg
  | grant v c t hne ht hc hfree hlog => exact h.cast ht.le (.inr hc) hg
  | elect c t ht hnone hself hmaj => exact h.elect ht hnone hself hmaj
  | append c t e hl ht he => exact h.append hl ht he
  | accept p t l l' ht hl hpre hlog => exact h.accept ht hl hpre hlog

end Sound

end Steps

end Cluster

end MitDistributed.Consensus
