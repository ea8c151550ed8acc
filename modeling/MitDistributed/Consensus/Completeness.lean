import MitDistributed.Consensus.Soundness

namespace MitDistributed.Consensus

open Function

/-!
# Consensus — committed entries are never lost

The leader of a term may count on an entry of its own term once a majority has acknowledged it
(`Cluster.Committed`).  Such an entry is in the log of every later leader: the majority that
elects a later leader meets the one that holds the entry, and votes go to logs that are up to
date.

To keep this as an invariant, the statements are made about every entry of a leader's own term,
committed or not, with the way out that it can no longer be committed because a majority has
left the term without it (`Cluster.Dead`).

* `Cluster.Complete` — the invariant, kept by every step (`Cluster.Complete.step`);
* `Cluster.Sure` — what a peer may take for committed, and `Cluster.Sure.agree`: it is one log.
-/

namespace Cluster

variable {P E : Type} {tm : E → ℕ} {a a' : Cluster P E} {l l' : List E} {n t s : ℕ}

/-- The leader of `t` has put an entry of its own term at index `n`. -/
def Own (tm : E → ℕ) (a : Cluster P E) (t n : ℕ) : Prop :=
  0 < n ∧ n ≤ (a.leaderLog t).length ∧ termAt tm (a.leaderLog t) n = t

/-- An entry of a log was put into the log of the leader of its term. -/
theorem Rooted.own (h : a.Rooted tm l) (h0 : 0 < n) (hn : n ≤ l.length) :
    a.Own tm (termAt tm l n) n := by
  have hp := h.take_isPrefix h0 hn
  have hlen : (l.take n).length = n := List.length_take_of_le hn
  refine ⟨h0, hlen.ge.trans hp.length_le, ?_⟩
  rw [← termAt_of_isPrefix hp hlen.ge, termAt_take le_rfl]

section Majorities

variable [Fintype P]

/-- A majority has left term `t` without the entry at index `n`. -/
def Dead (a : Cluster P E) (t n : ℕ) : Prop :=
  ∃ q : Finset P, Majority q ∧ ∀ k ∈ q, t < a.term k ∧ a.acked k t < n

/-- A majority has the entry of term `t` at index `n`. -/
def Committed (tm : E → ℕ) (a : Cluster P E) (t n : ℕ) : Prop :=
  a.Own tm t n ∧ ∃ q : Finset P, Majority q ∧ ∀ k ∈ q, n ≤ a.acked k t

theorem Dead.grows (h : a.Dead t n) (hg : a.Grows a') : a'.Dead t n := by
  obtain ⟨q, hq, hk⟩ := h
  refine ⟨q, hq, fun k hkq => ?_⟩
  obtain ⟨hterm, hacked⟩ := hk k hkq
  exact ⟨hterm.trans_le (hg.term k), (hg.closed k t hterm).trans_lt hacked⟩

theorem Own.leader (h : a.Own tm t n) (hs : a.Sound tm) : a.leader t ≠ none := by
  obtain ⟨h0, hle, -⟩ := h
  intro hnone
  rw [hs.unled t hnone] at hle
  exact absurd (h0.trans_le hle) (lt_irrefl 0)

theorem Own.take_grows (h : a.Own tm t n) (hs : a.Sound tm) (hg : a.Grows a') :
    (a'.leaderLog t).take n = (a.leaderLog t).take n :=
  (take_eq_take_of_isPrefix (hg.leaderLog t (h.leader hs)) h.2.1).symm

theorem Own.grows (h : a.Own tm t n) (hs : a.Sound tm) (hg : a.Grows a') : a'.Own tm t n := by
  have hp := hg.leaderLog t (h.leader hs)
  obtain ⟨h0, hle, hterm⟩ := h
  exact ⟨h0, hle.trans hp.length_le, by rw [← termAt_of_isPrefix hp hle, hterm]⟩

theorem Committed.grows (h : a.Committed tm t n) (hs : a.Sound tm) (hg : a.Grows a') :
    a'.Committed tm t n := by
  obtain ⟨hown, q, hq, hk⟩ := h
  exact ⟨hown.grows hs hg, q, hq, fun k hkq => (hk k hkq).trans (hg.acked k t)⟩

theorem Committed.not_dead [DecidableEq P] (h : a.Committed tm t n) : ¬ a.Dead t n := by
  obtain ⟨-, q, hq, hk⟩ := h
  rintro ⟨q', hq', hk'⟩
  obtain ⟨x, hx, hx'⟩ := hq.meet hq'
  have hle := hk x hx
  have hlt := (hk' x hx').2
  omega

/-! ### The invariant -/

/-- An entry that a leader has put into its log in its own term is held by whoever
    acknowledged it, by every later leader, and by every candidate with the vote of someone who
    acknowledged it; unless it can no longer be committed. -/
structure Complete (tm : E → ℕ) (a : Cluster P E) : Prop where
  kept : ∀ p t n, a.Own tm t n → n ≤ a.acked p t →
    (a.leaderLog t).take n <+: a.log p ∨ a.Dead t n
  led : ∀ t t' n, t < t' → a.leader t' ≠ none → a.Own tm t n →
    (a.leaderLog t).take n <+: a.leaderLog t' ∨ a.Dead t n
  voted : ∀ t t' n v c, t < t' → a.vote t' v = some c → a.term c = t' → a.leader t' = none →
    a.Own tm t n → n ≤ a.acked v t → (a.leaderLog t).take n <+: a.log c ∨ a.Dead t n

theorem init_complete : (init : Cluster P E).Complete tm where
  kept _ _ _ h _ := absurd (h.1.trans_le h.2.1) (lt_irrefl 0)
  led _ _ _ _ h _ := absurd rfl h
  voted _ _ _ _ _ _ h := by cases h

/-- **Up-to-date logs.** What a log shares with a leader's, up to an entry of the leader's own
    term, is shared by every log that is at least as up-to-date. -/
theorem Complete.upToDate (hc : a.Complete tm) (hs : a.Sound tm) (hown : a.Own tm t n)
    (hroot : a.Rooted tm l') (hl : a.Rooted tm l) (hpre : (a.leaderLog t).take n <+: l)
    (hup : UpToDate tm l l') : (a.leaderLog t).take n <+: l' ∨ a.Dead t n := by
  obtain ⟨h0, hle, hterm⟩ := hown
  have hlen : ((a.leaderLog t).take n).length = n := by rw [List.length_take, min_eq_left hle]
  have hnl : n ≤ l.length := hlen ▸ hpre.length_le
  have htn : termAt tm l n = t := by
    rw [← termAt_of_isPrefix hpre hlen.ge, termAt_take le_rfl, hterm]
  have htl : t ≤ lastTerm tm l := htn ▸ hl.termAt_mono hs.leaderLog_dated hnl le_rfl
  have hne : 0 < l'.length := by
    by_contra hnil
    obtain rfl := List.eq_nil_of_length_eq_zero (Nat.eq_zero_of_not_pos hnil)
    rcases hup with hlt | ⟨-, hlen'⟩
    · exact Nat.not_lt_zero _ hlt
    · rw [List.length_nil] at hlen'
      omega
  -- the log of the leader of the last term of `l'` has `l'` as a part
  have hp' : l' <+: a.leaderLog (lastTerm tm l') := by
    have := hroot.take_isPrefix hne le_rfl
    rwa [List.take_length] at this
  have hge : lastTerm tm l ≤ lastTerm tm l' := by
    rcases hup with hlt | ⟨heq, -⟩
    · exact hlt.le
    · exact heq.le
  rcases (htl.trans hge).eq_or_lt with heq | hlt
  · -- the same leader: then `l'` is at least as long
    have hle' : l.length ≤ l'.length := by
      rcases hup with hlt | ⟨-, hlen'⟩
      · omega
      · exact hlen'
    rw [← heq] at hp'
    have htake := List.take_prefix n (a.leaderLog t)
    exact .inl (List.prefix_of_prefix_length_le htake hp' (by omega))
  · -- a later leader, which holds the entry; and `l'` has an entry of that later term
    have hled : a.leader (lastTerm tm l') ≠ none := by
      intro hnone
      have hlen' := hp'.length_le
      rw [hs.unled _ hnone, List.length_nil] at hlen'
      omega
    rcases hc.led t _ n hlt hled ⟨h0, hle, hterm⟩ with hp | hdead
    · refine .inl (List.prefix_of_prefix_length_le hp hp' ?_)
      by_contra hshort
      have hshort' : l'.length ≤ n := by omega
      have hlast : lastTerm tm l' = termAt tm (a.leaderLog t) l'.length := by
        rw [lastTerm, termAt_of_isPrefix hp' le_rfl, ← termAt_of_isPrefix hp (by omega),
          termAt_take hshort']
      have hold := (hs.leaderLog_dated t).termAt_le l'.length
      omega
    · exact .inr hdead

/-! ### What is committed -/

/-- `l` is a part of what was committed in term `t` or before. -/
def Sure (tm : E → ℕ) (a : Cluster P E) (t : ℕ) (l : List E) : Prop :=
  l = [] ∨ ∃ s n, s ≤ t ∧ a.Committed tm s n ∧ l <+: (a.leaderLog s).take n

/-- The first `k` entries of the log of `p` are committed, by a term that `p` has reached. -/
def Known (tm : E → ℕ) (a : Cluster P E) (p : P) (k : ℕ) : Prop :=
  k ≤ (a.log p).length ∧ a.Sure tm (a.term p) ((a.log p).take k)

namespace Sure

theorem of_isPrefix (h : a.Sure tm t l) (hp : l' <+: l) : a.Sure tm t l' := by
  rcases h with rfl | ⟨s, n, hle, hcom, hl⟩
  · exact .inl (List.prefix_nil.mp hp)
  · exact .inr ⟨s, n, hle, hcom, hp.trans hl⟩

theorem mono (h : a.Sure tm t l) (hle : t ≤ s) : a.Sure tm s l := by
  rcases h with rfl | ⟨s', n, hle', hcom, hl⟩
  · exact .inl rfl
  · exact .inr ⟨s', n, hle'.trans hle, hcom, hl⟩

theorem grows (h : a.Sure tm t l) (hs : a.Sound tm) (hg : a.Grows a') : a'.Sure tm t l := by
  rcases h with rfl | ⟨s, n, hle, hcom, hl⟩
  · exact .inl rfl
  · refine .inr ⟨s, n, hle, hcom.grows hs hg, ?_⟩
    rwa [hcom.1.take_grows hs hg]

end Sure

/-- A log that still starts with what is known is still known. -/
theorem Known.grows {p : P} {k : ℕ} (h : a.Known tm p k) (hs : a.Sound tm) (hg : a.Grows a')
    (hp : (a.log p).take k <+: a'.log p) : a'.Known tm p k := by
  obtain ⟨hk, hsure⟩ := h
  have hlen : ((a.log p).take k).length = k := by rw [List.length_take, min_eq_left hk]
  have htake : (a'.log p).take k = (a.log p).take k := by
    rw [List.prefix_iff_eq_take.mp hp, hlen]
  refine ⟨hlen ▸ hp.length_le, ?_⟩
  rw [htake]
  exact (hsure.grows hs hg).mono (hg.term p)

/-! ### Every step -/

variable [DecidableEq P]

namespace Complete

theorem observe (h : a.Complete tm) (hs : a.Sound tm) {p : P} (ht : a.term p ≤ t) :
    (a.observe p t).Complete tm := by
  have hg := Grows.observe a ht
  refine ⟨?_, ?_, ?_⟩
  · intro q s n hown hn
    exact (h.kept q s n hown hn).imp_right fun hd => hd.grows hg
  · intro s s' n hlt hl hown
    exact (h.led s s' n hlt hl hown).imp_right fun hd => hd.grows hg
  · intro s s' n v c hlt hv hterm hnone hown hn
    -- a candidate that has votes in `s'` has reached `s'` before
    have hold : a.term c = s' :=
      le_antisymm ((a.le_update_term ht c).trans hterm.le) (hs.vote_term s' v c hv).2
    exact (h.voted s s' n v c hlt hv hold hnone hown hn).imp_right fun hd => hd.grows hg

/-- A vote: what the voter holds, the candidate has to hold. -/
theorem cast (h : a.Complete tm) (hs : a.Sound tm) {v c : P} (ht : a.term v ≤ t)
    (hg : a.Grows (a.cast v c t))
    (hnew : ∀ s n, s < t → a.term c = t ∨ v = c → a.leader t = none → a.Own tm s n →
      n ≤ a.acked v s → (a.leaderLog s).take n <+: a.log c ∨ a.Dead s n) :
    (a.cast v c t).Complete tm := by
  refine ⟨?_, ?_, ?_⟩
  · intro q s n hown hn
    exact (h.kept q s n hown hn).imp_right fun hd => hd.grows hg
  · intro s s' n hlt hl hown
    exact (h.led s s' n hlt hl hown).imp_right fun hd => hd.grows hg
  · intro s s' n q d hlt hd hterm hnone hown hn
    have hd' : (if s' = t ∧ q = v then some c else a.vote s' q) = some d := hd
    have hterm' : update a.term v t d = s' := hterm
    split at hd'
    · rename_i hsq
      obtain ⟨rfl, rfl⟩ := hsq
      cases hd'
      refine (hnew s n hlt ?_ hnone hown hn).imp_right fun hd => hd.grows hg
      rcases eq_or_ne c q with rfl | hne
      · exact .inr rfl
      · rw [update_of_ne hne] at hterm'
        exact .inl hterm'
    · have hold : a.term d = s' :=
        le_antisymm ((a.le_update_term ht d).trans hterm'.le) (hs.vote_term s' q d hd').2
      exact (h.voted s s' n q d hlt hd' hold hnone hown hn).imp_right fun hd => hd.grows hg

theorem elect (h : a.Complete tm) (hs : a.Sound tm) {c : P} (ht : a.term c = t)
    (hnone : a.leader t = none) (hmaj : Elected (fun v c => a.vote t v = some c) c) :
    (a.elect c t).Complete tm := by
  have hg := Grows.elect hs ht hnone
  have hother {s : ℕ} (hne : s ≠ t) : (a.elect c t).leaderLog s = a.leaderLog s :=
    update_of_ne hne _ _
  -- the new leader has no entry of its own term yet
  have hold {s n : ℕ} (hown : (a.elect c t).Own tm s n) : s ≠ t ∧ a.Own tm s n := by
    obtain ⟨h0, hle, hterm⟩ := hown
    have hne : s ≠ t := by
      rintro rfl
      have hlog : (a.elect c s).leaderLog s = a.log c := update_self _ _ _
      rw [hlog] at hle hterm
      have hold := (hs.log_rooted c).own h0 hle
      rw [hterm] at hold
      exact hold.leader hs hnone
    rw [hother hne] at hle hterm
    exact ⟨hne, h0, hle, hterm⟩
  have hacked {q : P} {s : ℕ} (hne : s ≠ t) : (a.elect c t).acked q s = a.acked q s :=
    a.ack_of_ne fun hqs => hne hqs.2
  refine ⟨?_, ?_, ?_⟩
  · intro q s n hown hn
    obtain ⟨hne, hown⟩ := hold hown
    rw [hacked hne] at hn
    rw [hother hne]
    exact (h.kept q s n hown hn).imp_right fun hd => hd.grows hg
  · intro s s' n hlt hl hnew
    obtain ⟨hne, hown⟩ := hold hnew
    rw [hother hne]
    rcases eq_or_ne s' t with rfl | hne'
    · -- the new leader: some voter has acknowledged the entry, or it is dead
      have hlog : (a.elect c s').leaderLog s' = a.log c := update_self _ _ _
      rw [hlog]
      obtain ⟨q, hq, hvote⟩ := hmaj
      by_cases hex : ∃ v ∈ q, n ≤ a.acked v s
      · obtain ⟨v, hv, hn⟩ := hex
        exact (h.voted s s' n v c hlt (hvote v hv) ht hnone hown hn).imp_right
          fun hd => hd.grows hg
      · refine .inr (Dead.grows ⟨q, hq, fun k hk => ?_⟩ hg)
        refine ⟨hlt.trans_le (hs.vote_term s' k c (hvote k hk)).1, ?_⟩
        by_contra hge
        exact hex ⟨k, hk, not_lt.mp hge⟩
    · have hl' : a.leader s' ≠ none := by
        have heq : (a.elect c t).leader s' = a.leader s' := update_of_ne hne' _ _
        rwa [heq] at hl
      rw [hother hne']
      exact (h.led s s' n hlt hl' hown).imp_right fun hd => hd.grows hg
  · intro s s' n v d hlt hv hterm hnone' hown hn
    obtain ⟨hne, hown⟩ := hold hown
    have hne' : s' ≠ t := by
      rintro rfl
      have hsome : (a.elect c s').leader s' = some c := update_self _ _ _
      cases hsome.symm.trans hnone'
    have heq : (a.elect c t).leader s' = a.leader s' := update_of_ne hne' _ _
    rw [heq] at hnone'
    rw [hacked hne] at hn
    rw [hother hne]
    exact (h.voted s s' n v d hlt hv hterm hnone' hown hn).imp_right fun hd => hd.grows hg

theorem append (h : a.Complete tm) (hs : a.Sound tm) {c : P} {e : E} (hl : a.leader t = some c)
    (ht : a.term c = t) : (a.append c t e).Complete tm := by
  have hg := Grows.append (e := e) hs hl ht
  have hself : (a.append c t e).leaderLog t = a.leaderLog t ++ [e] := update_self _ _ _
  have hother {s : ℕ} (hne : s ≠ t) : (a.append c t e).leaderLog s = a.leaderLog s :=
    update_of_ne hne _ _
  have hlog {q : P} (hne : q ≠ c) : (a.append c t e).log q = a.log q :=
    update_of_ne hne _ _
  have hacked {q : P} {s : ℕ} (hne : ¬ (q = c ∧ s = t)) :
      (a.append c t e).acked q s = a.acked q s := a.ack_of_ne hne
  -- the leader holds its own log, with the new entry
  have hleader : (a.append c t e).log c = (a.append c t e).leaderLog t := by
    rw [hself, ← hs.leader_log t c hl ht]
    exact update_self _ _ _
  -- an own entry is an old one or the new one, which only the leader has acknowledged
  have hold {s n : ℕ} (hown : (a.append c t e).Own tm s n) :
      a.Own tm s n ∨ (s = t ∧ n = (a.leaderLog t).length + 1) := by
    obtain ⟨h0, hle, hterm⟩ := hown
    rcases eq_or_ne s t with rfl | hne
    · rw [hself] at hle hterm
      rw [List.length_append, List.length_singleton] at hle
      rcases hle.eq_or_lt with heq | hlt
      · exact .inr ⟨rfl, heq⟩
      · have hle' : n ≤ (a.leaderLog s).length := by omega
        rw [← termAt_of_isPrefix (List.prefix_append _ _) hle'] at hterm
        exact .inl ⟨h0, hle', hterm⟩
    · rw [hother hne] at hle hterm
      exact .inl ⟨h0, hle, hterm⟩
  have hshort {q : P} {n : ℕ} (hn : n = (a.leaderLog t).length + 1) (hne : q ≠ c) :
      (a.append c t e).acked q t < n := by
    rw [hacked fun hqs => hne hqs.1]
    have := hs.acked_le q t
    omega
  refine ⟨?_, ?_, ?_⟩
  · intro q s n hown hn
    by_cases hqs : q = c ∧ s = t
    · obtain ⟨rfl, rfl⟩ := hqs
      rw [hleader]
      exact .inl <| List.take_prefix _ _
    rcases hold hown with hold | ⟨rfl, hnew⟩
    · rw [hacked hqs] at hn
      rw [hold.take_grows hs hg]
      refine (h.kept q s n hold hn).imp ?_ fun hd => hd.grows hg
      intro hp
      rcases eq_or_ne q c with rfl | hne
      · have hgrow : (a.append q t e).log q = a.log q ++ [e] := update_self _ _ _
        rw [hgrow]
        exact hp.trans (List.prefix_append _ _)
      · rwa [hlog hne]
    · exact absurd hn (not_le.mpr (hshort hnew fun hqc => hqs ⟨hqc, rfl⟩))
  · intro s s' n hlt hl' hown
    rcases hold hown with hold | ⟨rfl, hnew⟩
    · rw [hold.take_grows hs hg]
      refine (h.led s s' n hlt hl' hold).imp ?_ fun hd => hd.grows hg
      exact fun hp => hp.trans (hg.leaderLog s' hl')
    · -- the majority that elected the later leader has left term `t`
      obtain ⟨d, hd⟩ := Option.ne_none_iff_exists'.mp hl'
      obtain ⟨q, hq, hvote⟩ := hs.elected s' d hd
      refine .inr ⟨q, hq, fun k hk => ?_⟩
      have hterm : s < a.term k := hlt.trans_le (hs.vote_term s' k d (hvote k hk)).1
      refine ⟨hterm, hshort hnew ?_⟩
      rintro rfl
      exact absurd ht hterm.ne'
  · intro s s' n v d hlt hv hterm hnone hown hn
    have hle : s' ≤ a.term v := (hs.vote_term s' v d hv).1
    have hqs : ¬ (v = c ∧ s = t) := by
      rintro ⟨rfl, rfl⟩
      omega
    have hdc : d ≠ c := by
      rintro rfl
      obtain rfl : t = s' := ht.symm.trans hterm
      cases hl.symm.trans hnone
    rcases hold hown with hold | ⟨rfl, hnew⟩
    · rw [hacked hqs] at hn
      rw [hold.take_grows hs hg, hlog hdc]
      exact (h.voted s s' n v d hlt hv hterm hnone hold hn).imp_right fun hd => hd.grows hg
    · exact absurd hn (not_le.mpr (hshort hnew fun hvc => hqs ⟨hvc, rfl⟩))

theorem accept (h : a.Complete tm) (hs : a.Sound tm) {p : P} (ht : a.term p = t)
    (hl : a.leader t ≠ none) (hpre : l <+: a.leaderLog t) (hlog : Overwrites (a.log p) l l') :
    (a.accept p t l l').Complete tm := by
  have hg : a.Grows (a.accept p t l l') := .accept a ht hl
  have hself : (a.accept p t l l').log p = l' := update_self _ _ _
  have hother {q : P} (hne : q ≠ p) : (a.accept p t l l').log q = a.log q :=
    update_of_ne hne _ _
  have hacked {q : P} {s : ℕ} (hne : ¬ (q = p ∧ s = t)) :
      (a.accept p t l l').acked q s = a.acked q s := a.ack_of_ne hne
  -- what an earlier leader, or this one, can count on is in the log of this leader
  have hled {s n : ℕ} (hle : s ≤ t) (hown : a.Own tm s n) :
      (a.leaderLog s).take n <+: a.leaderLog t ∨ a.Dead s n := by
    rcases hle.eq_or_lt with rfl | hlt
    · exact .inl <| List.take_prefix _ _
    · exact h.led s t n hlt hl hown
  have hkeep {s n : ℕ} (hle : s ≤ t) (hown : a.Own tm s n) (hn : n ≤ a.acked p s) :
      (a.leaderLog s).take n <+: l' ∨ a.Dead s n := by
    rcases h.kept p s n hown hn with hp | hd
    · exact (hled hle hown).imp_left fun hp' => hlog.keeps hpre hp hp'
    · exact .inr hd
  refine ⟨?_, ?_, ?_⟩
  · intro q s n hown hn
    rcases eq_or_ne q p with rfl | hne
    · rw [hself]
      refine Or.imp_right (fun hd : a.Dead s n => hd.grows hg) ?_
      rcases eq_or_ne s t with rfl | hst
      · have hn' : n ≤ a.ack q s (max (a.acked q s) l.length) q s := hn
        rw [a.ack_self] at hn'
        rcases le_max_iff.mp hn' with hold | hnew
        · exact hkeep le_rfl hown hold
        · exact .inl ((take_prefix_of_isPrefix hpre hnew).trans hlog.isPrefix)
      · rw [hacked fun hqs => hst hqs.2] at hn
        have hle := hs.acked_term q s (hown.1.trans_le hn)
        exact hkeep (ht ▸ hle) hown hn
    · rw [hacked fun hqs => hne hqs.1] at hn
      rw [hother hne]
      exact (h.kept q s n hown hn).imp_right fun hd => hd.grows hg
  · intro s s' n hlt hl' hown
    exact (h.led s s' n hlt hl' hown).imp_right fun hd => hd.grows hg
  · intro s s' n v c hlt hv hterm hnone hown hn
    have hcp : c ≠ p := by
      rintro rfl
      obtain rfl : t = s' := ht.symm.trans hterm
      exact hl hnone
    have hvs : ¬ (v = p ∧ s = t) := by
      rintro ⟨rfl, rfl⟩
      have hle := (hs.vote_term s' v c hv).1
      rw [ht] at hle
      omega
    rw [hacked hvs] at hn
    rw [hother hcp]
    exact (h.voted s s' n v c hlt hv hterm hnone hown hn).imp_right fun hd => hd.grows hg

/-- **Leader completeness** is kept by every step of a sound cluster. -/
theorem step (h : a.Complete tm) (hs : a.Sound tm) (hstep : Step tm a a') : a'.Complete tm := by
  have hg := hstep.grows hs
  cases hstep with
  | observe p t ht => exact h.observe hs ht
  | stand p t ht => exact h.cast hs ht.le hg fun s n _ _ _ hown hn => h.kept p s n hown hn
  | grant v c t hne ht hc hfree hlog =>
    refine h.cast hs ht.le hg fun s n _ hterm hnone hown hn => ?_
    rcases h.kept v s n hown hn with hp | hd
    · have hup := hlog (hterm.resolve_right hne) hnone
      exact h.upToDate hs hown (hs.log_rooted c) (hs.log_rooted v) hp hup
    · exact .inr hd
  | elect c t ht hnone hself hmaj => exact h.elect hs ht hnone hmaj
  | append c t e hl ht he => exact h.append hs hl ht
  | accept p t l l' ht hl hpre hlog => exact h.accept hs ht hl hpre hlog

end Complete

/-! ### Agreement -/

namespace Sure

/-- Later leaders hold what is committed. -/
theorem led (h : a.Sure tm t l) (hc : a.Complete tm) (hl : a.leader s ≠ none) (hle : t ≤ s) :
    l <+: a.leaderLog s := by
  rcases h with rfl | ⟨s', n, hle', hcom, hp⟩
  · exact List.nil_prefix
  · rcases (hle'.trans hle).eq_or_lt with rfl | hlt
    · exact hp.trans <| List.take_prefix _ _
    · exact hp.trans ((hc.led s' s n hlt hl hcom.1).resolve_right hcom.not_dead)

/-- **Agreement.** What is committed is one log. -/
theorem agree (hs : a.Sound tm) (hc : a.Complete tm) (h : a.Sure tm t l) (h' : a.Sure tm s l') :
    l <+: l' ∨ l' <+: l := by
  -- both are parts of the log of the later of the two leaders
  have hboth {u m : ℕ} {x y : List E} (hx : a.Sure tm u x) (hcom : a.Committed tm u m)
      (hy : y <+: (a.leaderLog u).take m) : x <+: y ∨ y <+: x :=
    List.prefix_or_prefix_of_prefix (hx.led hc (hcom.1.leader hs) le_rfl) <|
      hy.trans <| List.take_prefix _ _
  rcases h with rfl | ⟨u, n, -, hcom, hl⟩
  · exact .inl List.nil_prefix
  rcases h' with rfl | ⟨u', n', -, hcom', hl'⟩
  · exact .inr List.nil_prefix
  rcases le_total u u' with hle | hle
  · exact hboth (.inr ⟨u, n, hle, hcom, hl⟩) hcom' hl'
  · exact (hboth (.inr ⟨u', n', hle, hcom', hl'⟩) hcom hl).symm

/-- The committed entry at an index is one entry. -/
theorem entry_unique (hs : a.Sound tm) (hc : a.Complete tm) (h : a.Sure tm t l)
    (h' : a.Sure tm s l') {i : ℕ} {e e' : E} (he : l[i]? = some e) (he' : l'[i]? = some e') :
    e = e' := by
  have hsame {x y : List E} (hp : x <+: y) {e : E} (he : x[i]? = some e) : y[i]? = some e := by
    obtain ⟨hlt, -⟩ := List.getElem?_eq_some_iff.mp he
    obtain ⟨rest, rfl⟩ := hp
    rw [List.getElem?_append_left hlt, he]
  rcases agree hs hc h h' with hp | hp
  · exact Option.some.inj ((hsame hp he).symm.trans he')
  · exact Option.some.inj (he.symm.trans (hsame hp he'))

end Sure

/-- **Committed entries are never lost.**  A peer keeps the part of its log that it knows. -/
theorem Known.isPrefix_step {p : P} {k : ℕ} (h : a.Known tm p k) (hc : a.Complete tm)
    (hstep : Step tm a a') : (a.log p).take k <+: a'.log p := by
  have htake := List.take_prefix k (a.log p)
  cases hstep with
  | observe | stand | grant | elect => exact htake
  | append c t e hl ht he =>
    refine htake.trans ?_
    show a.log p <+: update a.log c (a.log c ++ [e]) p
    rcases eq_or_ne p c with rfl | hne
    · rw [update_self]; exact List.prefix_append _ _
    · rw [update_of_ne hne]
  | accept q t l l' ht hl hpre hlog =>
    show (a.log p).take k <+: update a.log q l' p
    rcases eq_or_ne p q with rfl | hne
    · rw [update_self]
      exact hlog.keeps hpre htake (h.2.led hc hl ht.le)
    · rw [update_of_ne hne]
      exact htake

/-- So it goes on knowing it. -/
theorem Known.step {p : P} {k : ℕ} (h : a.Known tm p k) (hs : a.Sound tm) (hc : a.Complete tm)
    (hstep : Step tm a a') : a'.Known tm p k :=
  h.grows hs (hstep.grows hs) (h.isPrefix_step hc hstep)

end Majorities

end Cluster

end MitDistributed.Consensus
