import Mathlib.Data.Int.Order.Basic
import Mathlib.Logic.Function.Basic
import Mathlib.Order.MinMax
import Mathlib.Tactic.Common
import MitDistributed.Rsm.Machine

namespace MitDistributed.Rsm

/-!
# Replicated state machines — the ids of requests

The table by which a service recognises a request that it has applied before: for each client,
the highest id of its requests.  And the client's side of it: how a client that makes one call at
a time numbers its requests, so that the table tells a new request from a repeated one
(`Ledger.latest_lt`).
-/

/-- The latest request of every client that has made one. -/
abbrev Requests := ℤ → Option ℤ

namespace Requests

def empty : Requests := fun _ => none

/-- The latest request of a client, -1 if there is none. -/
def latest (t : Requests) (clientId : ℤ) : ℤ := (t clientId).getD (-1)

/-- Enter a request. -/
def mark (t : Requests) (clientId requestId : ℤ) : Requests :=
  Function.update t clientId
    (some (if requestId > t.latest clientId then requestId else t.latest clientId))

variable {t : Requests} {c d q : ℤ}

theorem latest_mark_self : (t.mark c q).latest c = max (t.latest c) q := by
  rw [latest, mark, Function.update_self, Option.getD_some]
  split
  · rename_i hgt
    exact (max_eq_right hgt.le).symm
  · rename_i hle
    exact (max_eq_left (not_lt.mp hle)).symm

theorem latest_mark_of_ne (h : d ≠ c) : (t.mark c q).latest d = t.latest d := by
  rw [latest, mark, Function.update_of_ne h]
  rfl

theorem le_latest_mark : t.latest d ≤ (t.mark c q).latest d := by
  rcases eq_or_ne d c with rfl | hne
  · rw [latest_mark_self]
    exact le_max_left _ _
  · rw [latest_mark_of_ne hne]

theorem request_le_latest_mark : q ≤ (t.mark c q).latest c := by
  rw [latest_mark_self]
  exact le_max_right _ _

/-- **The table along a log.** A machine that enters every entry of its log in a table has the
    highest request of every client there, and nothing else. -/
theorem latest_of_replay {σ α ρ : Type*} {m : Machine σ α ρ} (table : σ → Requests)
    (client request : α → ℤ) (hinit : table m.init = empty)
    (hstep : ∀ s a s' r, m.apply s a = some (s', r) →
      table s' = (table s).mark (client a) (request a))
    {log : List α} {s : σ} (h : m.replay log = some s) :
    (∀ a ∈ log, request a ≤ (table s).latest (client a)) ∧
      ∀ c, (table s).latest c = -1 ∨ ∃ a ∈ log, client a = c ∧ request a = (table s).latest c := by
  refine Machine.replay_induction (P := fun log s =>
    (∀ a ∈ log, request a ≤ (table s).latest (client a)) ∧
      ∀ c, (table s).latest c = -1 ∨
        ∃ a ∈ log, client a = c ∧ request a = (table s).latest c)
    ⟨fun a ha => absurd ha List.not_mem_nil, fun c => .inl (by rw [hinit]; rfl)⟩ ?_ h
  rintro pre a s s' r - - ⟨hall, hlatest⟩ happly
  rw [hstep s a s' r happly]
  refine ⟨fun b hb => ?_, fun c => ?_⟩
  · rcases List.mem_append.mp hb with hold | hnew
    · exact (hall b hold).trans le_latest_mark
    · rw [List.mem_singleton.mp hnew]
      exact request_le_latest_mark
  · have hold : (table s).latest c = -1 ∨
        ∃ b ∈ pre ++ [a], client b = c ∧ request b = (table s).latest c :=
      (hlatest c).imp_right fun ⟨b, hb, hc, hid⟩ => ⟨b, List.mem_append_left _ hb, hc, hid⟩
    rcases eq_or_ne c (client a) with rfl | hne
    · rw [latest_mark_self]
      rcases le_total ((table s).latest (client a)) (request a) with hle | hle
      · rw [max_eq_right hle]
        exact .inr ⟨a, List.mem_append_right _ List.mem_cons_self, rfl, rfl⟩
      · rw [max_eq_left hle]
        exact hold
    · rw [latest_mark_of_ne hne]
      exact hold

/-- Every client numbers its requests from 0: an entry that is new in the log has a higher number
    than all entries of its client before it. -/
structure Issued {α : Type*} (client request : α → ℤ) (log : List α) : Prop where
  nonneg : ∀ a ∈ log, 0 ≤ request a
  increasing : ∀ pre a, pre ++ [a] <+: log → a ∉ pre →
    ∀ b ∈ pre, client b = client a → request b < request a

/-- An entry that is new in the log is new to the table of the entries before it. -/
theorem Issued.latest_lt {α : Type*} {client request : α → ℤ} {log pre : List α} {a : α}
    (h : Issued client request log) (hpre : pre ++ [a] <+: log) (ha : a ∉ pre)
    (hlatest : t.latest (client a) = -1 ∨
      ∃ b ∈ pre, client b = client a ∧ request b = t.latest (client a)) :
    t.latest (client a) < request a := by
  rcases hlatest with hnone | ⟨b, hb, hclient, hrequest⟩
  · have hnonneg := h.nonneg a (hpre.subset (List.mem_append_right _ List.mem_cons_self))
    omega
  · rw [← hrequest]
    exact h.increasing pre a hpre ha b hb hclient

end Requests

/-- The requests of one client, numbered by `id`: those it has sent, the one of the call in
    progress, and the id `next` of that call, or of the next call if there is none.  Of the requests
    that count, each has an id of its own, and those before `next` are done. -/
structure Ledger {α : Type*} (id : α → ℤ) (counts : α → Prop) (next : ℤ) (calling : Option α)
    (sent done : Set α) : Prop where
  nonneg : 0 ≤ next
  range : ∀ a ∈ sent, 0 ≤ id a ∧ id a ≤ next
  current : ∀ a ∈ sent, counts a → id a = next → calling = some a
  unique : ∀ a ∈ sent, ∀ b ∈ sent, counts a → counts b → id a = id b → a = b
  done : ∀ a ∈ sent, counts a → id a < next → a ∈ done

namespace Ledger

variable {α : Type*} {id : α → ℤ} {counts : α → Prop} {next : ℤ} {calling : Option α} {a : α}
  {sent sent' done done' : Set α}

theorem init : Ledger id counts 0 none ∅ done where
  nonneg := le_rfl
  range _ ha := ha.elim
  current _ ha := ha.elim
  unique _ ha := ha.elim
  done _ ha := ha.elim

variable (h : Ledger id counts next calling sent done)

include h

theorem mono (hsent : sent' ⊆ sent)
    (hdone : done ⊆ done') : Ledger id counts next calling sent' done' where
  nonneg := h.nonneg
  range a ha := h.range a (hsent ha)
  current a ha := h.current a (hsent ha)
  unique a ha b hb := h.unique a (hsent ha) b (hsent hb)
  done a ha hc hlt := hdone (h.done a (hsent ha) hc hlt)

/-- The request of a call is sent, for the first time or again. -/
theorem send (hid : id a = next) (hsame : calling = none ∨ calling = some a)
    (hsent : ∀ b ∈ sent', b ∈ sent ∨ b = a) :
    Ledger id counts next (some a) sent' done := by
  -- a request that was sent with this id is that of the call in progress
  have hold (b : α) (hb : b ∈ sent) (hc : counts b) (heq : id b = next) : b = a := by
    have hcur := h.current b hb hc heq
    rcases hsame with hnone | hsome
    · cases hnone.symm.trans hcur
    · exact Option.some.inj (hcur.symm.trans hsome)
  refine ⟨h.nonneg, fun b hb => ?_, fun b hb hc heq => ?_, fun b hb b' hb' hc hc' heq => ?_,
    fun b hb hc hlt => ?_⟩
  · rcases hsent b hb with hb | rfl
    · exact h.range b hb
    · exact ⟨hid ▸ h.nonneg, hid.le⟩
  · rcases hsent b hb with hb | rfl
    · rw [hold b hb hc heq]
    · rfl
  · rcases hsent b hb with hb | rfl
    · rcases hsent b' hb' with hb' | rfl
      · exact h.unique b hb b' hb' hc hc' heq
      · exact hold b hb hc (heq.trans hid)
    · rcases hsent b' hb' with hb' | rfl
      · exact (hold b' hb' hc' (heq.symm.trans hid)).symm
      · rfl
  · rcases hsent b hb with hb | rfl
    · exact h.done b hb hc hlt
    · exact absurd hid hlt.ne

/-- A call ends without a reply, and leaves its id to the next one. -/
theorem giveUp (hno : ∀ a ∈ calling, ¬ counts a) :
    Ledger id counts next none sent done :=
  { h with current := fun a ha hc heq => absurd hc (hno a (h.current a ha hc heq)) }

/-- A call returns; its request is done. -/
theorem close (hdone : ∀ a ∈ calling, a ∈ done) :
    Ledger id counts (next + 1) none sent done where
  nonneg := h.nonneg.trans (Int.lt_succ _).le
  range a ha := ⟨(h.range a ha).1, (h.range a ha).2.trans (Int.lt_succ _).le⟩
  current a ha _ heq := absurd (heq ▸ (h.range a ha).2) (not_le.mpr (Int.lt_succ _))
  unique := h.unique
  done a ha hc hlt := by
    rcases (Int.lt_add_one_iff.mp hlt).lt_or_eq with hlt | heq
    · exact h.done a ha hc hlt
    · exact hdone a (h.current a ha hc heq)

/-- A request that counts and is not done yet has a higher id than all that are, as long as none of
    its own id is done that does not count. -/
theorem latest_lt (ha : a ∈ sent) (hc : counts a) (hnew : a ∉ done) {latest : ℤ}
    (hlatest : latest = -1 ∨ ∃ b ∈ done, b ∈ sent ∧ id b = latest ∧ (id b = id a → counts b)) :
    latest < id a := by
  have hpos := (h.range a ha).1
  rcases hlatest with rfl | ⟨b, hb, hsent, rfl, hcounts⟩
  · omega
  · by_contra hle
    rcases (not_lt.mp hle).lt_or_eq with hlt | heq
    · exact hnew (h.done a ha hc (hlt.trans_le (h.range b hsent).2))
    · exact hnew (h.unique a ha b hsent hc (hcounts heq.symm) heq ▸ hb)

end Ledger

end MitDistributed.Rsm
