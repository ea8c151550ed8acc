import MitDistributed.Consensus.Completeness

namespace MitDistributed.Consensus

open Function

/-!
# Consensus — from acknowledgements to decisions

A leader has acknowledged its own log (`Cluster.Acks`); so once a majority, itself included, has
acknowledged an entry of its term, the log up to that entry is committed
(`Cluster.Own.known`).  An entry of a committed log is decided at its index (`Cluster.Decided`),
for good and only once (`Cluster.Decided.unique`).
-/

namespace Cluster

variable {P E : Type} {tm : E → ℕ} {a a' : Cluster P E} {t i k : ℕ} {p : P} {e e' : E}

/-! ### The leader's own acknowledgement -/

/-- The leader of a term has acknowledged its log. -/
def Acks (a : Cluster P E) : Prop :=
  ∀ t c, a.leader t = some c → (a.leaderLog t).length ≤ a.acked c t

theorem init_acks : (init : Cluster P E).Acks := nofun

theorem Acks.step [Fintype P] [DecidableEq P] (h : a.Acks) (hstep : Step tm a a') : a'.Acks := by
  intro s d hd
  cases hstep with
  | observe | stand | grant => exact h s d hd
  | elect c t ht hnone hself hmaj =>
    show (update a.leaderLog t (a.log c) s).length ≤ a.ack c t (a.log c).length d s
    have hd' : update a.leader t (some c) s = some d := hd
    rcases eq_or_ne s t with rfl | hne
    · rw [update_self] at hd' ⊢
      cases hd'
      rw [a.ack_self]
    · rw [update_of_ne hne] at hd' ⊢
      rw [a.ack_of_ne fun hds => hne hds.2]
      exact h s d hd'
  | append c t e hl ht he =>
    show (update a.leaderLog t (a.leaderLog t ++ [e]) s).length ≤
      a.ack c t ((a.leaderLog t).length + 1) d s
    rcases eq_or_ne s t with rfl | hne
    · obtain rfl : c = d := Option.some.inj (hl.symm.trans hd)
      rw [update_self, a.ack_self, List.length_append, List.length_singleton]
    · rw [update_of_ne hne, a.ack_of_ne fun hds => hne hds.2]
      exact h s d hd
  | accept q t l l' ht hl hpre hlog =>
    exact (h s d hd).trans (a.le_ack (le_max_left _ _) d s)

/-! ### Entries of the own term -/

/-- The first entry of a term is put there by a leader that was elected before. -/
theorem Own.led_of_step [Fintype P] [DecidableEq P] (h : a'.Own tm t i) (hs : a.Sound tm)
    (hstep : Step tm a a') : a.leader t ≠ none := by
  intro hnone
  have hnil := hs.unled t hnone
  have hempty (heq : a'.leaderLog t = a.leaderLog t) : False := by
    obtain ⟨h0, hle, -⟩ := h
    rw [heq, hnil] at hle
    exact absurd (h0.trans_le hle) (lt_irrefl 0)
  cases hstep with
  | observe | stand | grant | accept => exact hempty rfl
  | elect c s ht hnone' hself hmaj =>
    rcases eq_or_ne t s with rfl | hne
    · -- the log of the new leader has no entry of the new term
      obtain ⟨h0, hle, hterm⟩ := h
      have hlog : (a.elect c t).leaderLog t = a.log c := update_self _ _ _
      rw [hlog] at hle hterm
      have hold := (hs.log_rooted c).own h0 hle
      rw [hterm] at hold
      exact hold.leader hs hnone
    · exact hempty (update_of_ne hne _ _)
  | append c s e hl ht he =>
    have hne : t ≠ s := by rintro rfl; rw [hl] at hnone; cases hnone
    exact hempty (update_of_ne hne _ _)

/-- The log of a leader grows by its own steps. -/
theorem Step.leaderLog_eq [Fintype P] [DecidableEq P] (hstep : Step tm a a')
    (hl : a.leader t = some p) (hlog : a'.log p = a.log p) : a'.leaderLog t = a.leaderLog t := by
  cases hstep with
  | observe | stand | grant | accept => rfl
  | elect c s ht hnone hself hmaj =>
    have hne : t ≠ s := by rintro rfl; rw [hl] at hnone; cases hnone
    exact update_of_ne hne _ _
  | append c s e hl' ht he =>
    have hne : t ≠ s := by
      rintro rfl
      obtain rfl : p = c := Option.some.inj (hl.symm.trans hl')
      have hgrow : (a.append p t e).log p = a.log p ++ [e] := update_self _ _ _
      rw [hgrow] at hlog
      simp at hlog
    exact update_of_ne hne _ _

/-! ### What a peer knows -/

section Known

variable [Fintype P]

theorem Known.mono (h : a.Known tm p k) (hi : i ≤ k) : a.Known tm p i :=
  ⟨hi.trans h.1, h.2.of_isPrefix (List.take_prefix_take_left hi)⟩

/-- **Commitment.** A peer that holds the log of the leader of its term knows it up to an entry
    of the term that a majority has acknowledged. -/
theorem Own.known (h : a.Own tm (a.term p) i) (hlog : a.log p = a.leaderLog (a.term p))
    {q : Finset P} (hq : Majority q) (hk : ∀ j ∈ q, i ≤ a.acked j (a.term p)) :
    a.Known tm p i := by
  refine ⟨hlog ▸ h.2.1, .inr ⟨a.term p, i, le_rfl, ⟨h, q, hq, hk⟩, ?_⟩⟩
  rw [hlog]

/-- The entry `e` is decided at index `i`; indices start at 1. -/
def Decided (tm : E → ℕ) (a : Cluster P E) (i : ℕ) (e : E) : Prop :=
  0 < i ∧ ∃ t l, a.Sure tm t l ∧ l[i - 1]? = some e

theorem Decided.grows (h : a.Decided tm i e) (hs : a.Sound tm) (hg : a.Grows a') :
    a'.Decided tm i e := by
  obtain ⟨h0, t, l, hsure, he⟩ := h
  exact ⟨h0, t, l, hsure.grows hs hg, he⟩

/-- What a peer knows is decided. -/
theorem Known.decided (h : a.Known tm p k) (h0 : 0 < i)
    (he : ((a.log p).take k)[i - 1]? = some e) : a.Decided tm i e :=
  ⟨h0, a.term p, (a.log p).take k, h.2, he⟩

/-- **One decision.** At an index one entry is decided. -/
theorem Decided.unique [DecidableEq P] (h : a.Decided tm i e) (h' : a.Decided tm i e')
    (hs : a.Sound tm) (hc : a.Complete tm) : e = e' := by
  obtain ⟨-, t, l, hsure, he⟩ := h
  obtain ⟨-, t', l', hsure', he'⟩ := h'
  exact hsure.entry_unique hs hc hsure' he he'

end Known

end Cluster

end MitDistributed.Consensus
