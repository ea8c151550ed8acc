import Mathlib.Data.List.Basic
import Mathlib.Order.MinMax
import Mathlib.Tactic.Common
import MitDistributed.Rsm.Cluster

namespace MitDistributed.Rsm

open Transition

/-!
# Replicated state machines — what servers and replies say about the agreed log

* `Cluster.Sound` — the state of every server is that of a prefix of the agreed log, and every
  response is the one to the agreed entry at its position (`Cluster.Sound.step`);
* `Cluster.Kept` — as long as consensus takes no entry away from a handler that waits for it
  (`Cluster.KeepsWaiting`), the entry at the position of a reply is the handler's own
  (`Cluster.Kept.step`).
-/

variable {σ α ρ : Type*} {m : Machine σ α ρ} {agreed agreed' started started' : List α}
  {sv : Server σ α ρ} {a : α} {pos : ℕ} {r : ρ} {e : Effect σ α ρ}

theorem take_eq_of_isPrefix {k : ℕ} (hpre : agreed <+: agreed') (hk : k ≤ agreed.length) :
    agreed'.take k = agreed.take k := by
  obtain ⟨rest, rfl⟩ := hpre
  exact List.take_append_of_le_length hk

namespace Machine

/-- A response stays the same when the log grows. -/
theorem responseAt_of_isPrefix (hpre : agreed <+: agreed')
    (h : m.responseAt agreed pos = some r) : m.responseAt agreed' pos = some r := by
  unfold responseAt at h ⊢
  obtain ⟨s, hs, hrest⟩ := Option.bind_eq_some_iff.mp h
  obtain ⟨b, hb, hr⟩ := Option.bind_eq_some_iff.mp hrest
  have hlt : pos < agreed.length := (List.getElem?_eq_some_iff.mp hb).1
  rw [take_eq_of_isPrefix hpre hlt.le, hs, Option.bind_some,
    List.prefix_iff_getElem?.mp hpre pos hlt, ← List.getElem?_eq_getElem hlt, hb,
    Option.bind_some, hr]

/-- The response to an entry that was just applied. -/
theorem responseAt_of_apply {s s' : σ} (hs : m.replay (agreed.take pos) = some s)
    (ha : agreed[pos]? = some a) (h : m.apply s a = some (s', r)) :
    m.responseAt agreed pos = some r := by
  rw [responseAt, hs, Option.bind_some, ha, Option.bind_some, h, Option.map_some]

/-- What a response says: the entry at the position was performed with it. -/
theorem performs_of_responseAt (h : m.responseAt agreed pos = some r) :
    ∃ s a s', m.replay (agreed.take pos) = some s ∧ agreed[pos]? = some a ∧
      m.apply s a = some (s', r) := by
  unfold responseAt at h
  obtain ⟨s, hs, hrest⟩ := Option.bind_eq_some_iff.mp h
  obtain ⟨a, ha, hr⟩ := Option.bind_eq_some_iff.mp hrest
  obtain ⟨⟨s', r'⟩, happly, heq⟩ := Option.map_eq_some_iff.mp hr
  exact ⟨s, a, s', hs, ha, by rw [happly]; exact congrArg some (Prod.ext rfl heq)⟩

end Machine

/-! ### One server -/

/-- What a server knows agrees with the agreed log. -/
structure Server.Sound (m : Machine σ α ρ) (agreed started : List α) (sv : Server σ α ρ) :
    Prop where
  logStarted : ∀ a ∈ sv.raftLog, a ∈ started
  take_eq : sv.raftLog.take sv.applied = agreed.take sv.applied
  applied_le : sv.applied ≤ agreed.length
  state_eq : m.replay (agreed.take sv.applied) = some sv.state
  pending : ∀ pos r, sv.pending = some (pos, r) →
    pos < sv.applied ∧ m.responseAt agreed pos = some r
  response : ∀ h ∈ sv.handlers, ∀ r, h.stage.response = some r →
    h.pos < sv.applied ∧ m.responseAt agreed h.pos = some r

/-- What a step of a server adds agrees with the agreed log. -/
structure Effect.Sound (m : Machine σ α ρ) (agreed started : List α) (e : Effect σ α ρ) :
    Prop where
  server : e.server.Sound m (agreed ++ e.agrees) (started ++ e.starts)
  agrees : ∀ a ∈ e.agrees, a ∈ started
  replays : ∃ s, m.replay (agreed ++ e.agrees) = some s
  answers : ∀ y ∈ e.answers, ∀ r, y.reply = some r → m.responseAt agreed y.pos = some r

namespace Server.Sound

/-- Both logs may grow. -/
theorem mono (h : sv.Sound m agreed started) (hagreed : agreed <+: agreed')
    (hstarted : ∀ a ∈ started, a ∈ started') : sv.Sound m agreed' started' where
  logStarted a ha := hstarted a (h.logStarted a ha)
  take_eq := by rw [take_eq_of_isPrefix hagreed h.applied_le]; exact h.take_eq
  applied_le := h.applied_le.trans hagreed.length_le
  state_eq := by rw [take_eq_of_isPrefix hagreed h.applied_le]; exact h.state_eq
  pending pos r hp := (h.pending pos r hp).imp_right (Machine.responseAt_of_isPrefix hagreed)
  response x hx r hr := (h.response x hx r hr).imp_right (Machine.responseAt_of_isPrefix hagreed)

theorem init : (Server.init m).Sound m agreed started where
  logStarted _ ha := absurd ha List.not_mem_nil
  take_eq := rfl
  applied_le := Nat.zero_le _
  state_eq := rfl
  pending _ _ hp := by cases hp
  response _ hx := absurd hx List.not_mem_nil

section Steps

variable (h : sv.Sound m agreed started) {st : σ} (hreplay : m.replay agreed = some st)

include hreplay in
theorem quietly (h : sv.Sound m agreed started) : sv.quietly.Sound m agreed started where
  server := by
    rw [Server.quietly, List.append_nil, List.append_nil]
    exact h
  agrees _ ha := absurd ha List.not_mem_nil
  replays := ⟨st, by rw [Server.quietly, List.append_nil]; exact hreplay⟩
  answers _ hy := absurd hy List.not_mem_nil

include h in
/-- Other handlers, if their responses are right. -/
theorem withHandlers (handlers : List (Handler α ρ))
    (hnew : ∀ x ∈ handlers, ∀ r, x.stage.response = some r →
      x.pos < sv.applied ∧ m.responseAt agreed x.pos = some r) :
    { sv with handlers := handlers }.Sound m agreed started :=
  { h with response := hnew }

include h in
/-- A handler that moves on without a new response. -/
theorem setStage (stage : Stage ρ) {i : ℕ} {x : Handler α ρ} (hx : sv.handlers[i]? = some x)
    (hstage : ∀ r, stage.response = some r → x.stage.response = some r) :
    (sv.setStage i x stage).Sound m agreed started := by
  refine h.withHandlers _ fun y hy r hr => ?_
  rcases List.mem_or_eq_of_mem_set hy with hmem | rfl
  · exact h.response y hmem r hr
  · exact h.response x (List.mem_of_getElem? hx) r (hstage r hr)

include h hreplay in
theorem start {handlers : List (Handler α ρ)}
    (hnew : ∀ x ∈ handlers, x.stage.response = none ∨ x ∈ sv.handlers) :
    (sv.start a handlers).Sound m agreed started where
  server := by
    have hle : sv.applied ≤ sv.raftLog.length := by
      have hlen := congrArg List.length h.take_eq
      rw [List.length_take, List.length_take] at hlen
      have hle := h.applied_le
      omega
    refine { h with logStarted := ?_, take_eq := ?_, applied_le := ?_, state_eq := ?_,
                    pending := ?_, response := ?_ }
    · intro b hb
      rcases List.mem_append.mp hb with hb | hb
      · exact List.mem_append_left _ (h.logStarted b hb)
      · exact List.mem_append_right _ hb
    all_goals rw [Server.start, List.append_nil]
    · rw [List.take_append_of_le_length hle, h.take_eq]
    · exact h.applied_le
    · exact h.state_eq
    · exact h.pending
    · intro x hx r hr
      rcases hnew x hx with hnone | hold
      · rw [hnone] at hr
        cases hr
      · exact h.response x hold r hr
  agrees _ ha := absurd ha List.not_mem_nil
  replays := ⟨st, by rw [Server.start, List.append_nil]; exact hreplay⟩
  answers _ hy := absurd hy List.not_mem_nil

include h in
/-- A jump to the state of a prefix. -/
theorem jump {k : ℕ} {s : σ} (hk : k ≤ agreed.length) (htake : sv.raftLog.take k = agreed.take k)
    (hs : m.replay (agreed.take k) = some s) {handlers : List (Handler α ρ)}
    (hnew : ∀ x ∈ handlers, x ∈ sv.handlers ∧ sv.applied ≤ k) :
    { sv.jump k s with pending := none, handlers := handlers }.Sound m agreed started where
  logStarted := h.logStarted
  take_eq := htake
  applied_le := hk
  state_eq := hs
  pending _ _ hp := by cases hp
  response x hx r hr := by
    obtain ⟨hmem, hle⟩ := hnew x hx
    obtain ⟨hlt, hresp⟩ := h.response x hmem r hr
    exact ⟨lt_of_lt_of_le hlt hle, hresp⟩

include h in
/-- A response that is passed on. -/
theorem deliver (hp : sv.pending = some (pos, r)) :
    { sv with pending := none, handlers := sv.handlers.map (Handler.offer pos r) }.Sound m agreed
      started := by
  have hnone : { sv with pending := none }.Sound m agreed started :=
    { h with pending := fun _ _ hp => by cases hp }
  refine hnone.withHandlers _ ?_
  intro y hy r' hr'
  obtain ⟨x, hx, rfl⟩ := List.mem_map.mp hy
  unfold Handler.offer at hr' ⊢
  split at hr'
  · split at hr'
    · -- the handler that waited at the position
      rename_i hpos
      obtain rfl : r = r' := Option.some.inj hr'
      rw [if_pos hpos]
      exact hpos ▸ h.pending pos r hp
    · rename_i hpos
      rw [if_neg hpos]
      exact h.response x hx r' hr'
  · exact h.response x hx r' hr'

include h in
/-- The agreed log after the server has applied `a`. -/
theorem agreed_apply [DecidableEq α] (ha : agreed[sv.applied]?.all (· = a) = true) :
    (agreed ++ if agreed[sv.applied]?.isNone then [a] else [])[sv.applied]? = some a := by
  cases hget : agreed[sv.applied]? with
  | none =>
    have hlen : agreed.length = sv.applied :=
      le_antisymm (List.getElem?_eq_none_iff.mp hget) h.applied_le
    rw [Option.isNone_none, if_pos rfl, ← hlen, List.getElem?_concat_length]
  | some b =>
    rw [hget] at ha
    have hba : b = a := of_decide_eq_true ha
    rw [Option.isNone_some, if_neg Bool.false_ne_true, List.append_nil, hget, hba]

include h hreplay in
theorem apply [DecidableEq α] {st' : σ} (hlog : sv.raftLog[sv.applied]? = some a)
    (ha : agreed[sv.applied]?.all (· = a) = true) (happly : m.apply sv.state a = some (st', r)) :
    Effect.Sound m agreed started
      { server := { sv with applied := sv.applied + 1, state := st',
                            pending := some (sv.applied, r) }
        agrees := if agreed[sv.applied]?.isNone then [a] else []
        starts := [], answers := [] } := by
  have hget := h.agreed_apply ha
  have hmem := h.logStarted a (List.mem_of_getElem? hlog)
  -- the agreed log after the step, of which the old one is a prefix
  generalize hagrees : (if agreed[sv.applied]?.isNone then [a] else []) = agrees at hget ⊢
  have hpre : agreed <+: agreed ++ agrees := List.prefix_append _ _
  have hlt : sv.applied < (agreed ++ agrees).length := (List.getElem?_eq_some_iff.mp hget).1
  have hold := take_eq_of_isPrefix hpre h.applied_le
  have htake : (agreed ++ agrees).take (sv.applied + 1) = agreed.take sv.applied ++ [a] := by
    rw [List.take_add_one, hget, hold]
    rfl
  have hstate : m.replay ((agreed ++ agrees).take (sv.applied + 1)) = some st' := by
    rw [htake]
    exact Machine.replay_concat h.state_eq happly
  have hresp : m.responseAt (agreed ++ agrees) sv.applied = some r :=
    Machine.responseAt_of_apply (by rw [hold]; exact h.state_eq) hget happly
  refine ⟨?_, ?_, ?_, fun _ hy => absurd hy List.not_mem_nil⟩
  · refine ⟨?_, ?_, hlt, hstate, ?_, ?_⟩
    · intro b hb
      exact List.mem_append_left _ (h.logStarted b hb)
    · rw [htake, List.take_add_one, hlog, h.take_eq]
      rfl
    · rintro pos' r' hp
      cases hp
      exact ⟨Nat.lt_succ_self _, hresp⟩
    · intro x hx r' hr'
      obtain ⟨hpos, hold⟩ := h.response x hx r' hr'
      exact ⟨Nat.lt_succ_of_lt hpos, Machine.responseAt_of_isPrefix hpre hold⟩
  · intro b hb
    subst hagrees
    split at hb
    · exact List.mem_singleton.mp hb ▸ hmem
    · cases hb
  · subst hagrees
    by_cases hnone : agreed[sv.applied]?.isNone = true
    · rw [if_pos hnone] at htake hstate ⊢
      have hlen : agreed.length = sv.applied :=
        le_antisymm (List.getElem?_eq_none_iff.mp (Option.isNone_iff_eq_none.mp hnone)) h.applied_le
      exact ⟨st', by rw [← hstate, List.take_of_length_le (by simp [hlen])]⟩
    · rw [if_neg hnone, List.append_nil]
      exact ⟨st, hreplay⟩

include h hreplay in
/-- **Soundness of a server, step.** -/
theorem act [DecidableEq α] {x : Act α} (hact : sv.act m agreed started x = some e) :
    e.Sound m agreed started := by
  cases Server.acts_of_act hact with
  | propose a => exact h.start hreplay fun x hx => .inr hx
  | call a | await a =>
    refine h.start hreplay fun x hx => ?_
    rcases List.mem_append.mp hx with hold | hnew
    · exact .inr hold
    · exact .inl (List.mem_singleton.mp hnew ▸ rfl)
  | register hi => exact (h.setStage (.waiting none) hi fun _ hr => by cases hr).quietly hreplay
  | overwrite htake hstarted =>
    have hnew : { sv with raftLog := _ }.Sound m agreed started :=
      { h with logStarted := hstarted, take_eq := htake }
    exact hnew.quietly hreplay
  | apply hlog hagreed hx => exact h.apply hreplay hlog hagreed hx
  | deliver hp => exact (h.deliver hp).quietly hreplay
  | receive hi hstage =>
    refine (h.setStage _ hi fun r hr => ?_).quietly hreplay
    rw [hstage]
    exact hr
  | timeout hi => exact (h.setStage (.leaving none) hi fun _ hr => by cases hr).quietly hreplay
  | @finish i x reply hi hstage =>
    have hnew := h.withHandlers (sv.handlers.eraseIdx i) fun y hy =>
      h.response y (List.mem_of_mem_eraseIdx hy)
    refine { hnew.quietly hreplay with answers := ?_ }
    intro y hy r hr
    obtain rfl := List.mem_singleton.mp hy
    exact (h.response _ (List.mem_of_getElem? hi) r (by rw [hstage]; exact hr)).2
  | install hp hlt hk htake hs =>
    have hnew := h.jump hk htake hs fun x (hx : x ∈ sv.handlers) => ⟨hx, hlt.le⟩
    rw [← hp] at hnew
    exact hnew.quietly hreplay
  | restart hk htake hs =>
    exact (h.jump hk htake hs fun x hx => absurd hx List.not_mem_nil).quietly hreplay

end Steps

end Server.Sound

/-! ### The cluster -/

/-- What the servers and the replies say agrees with the agreed log. -/
structure Cluster.Sound (m : Machine σ α ρ) (c : Cluster σ α ρ) : Prop where
  servers : ∀ s, (c.servers s).Sound m c.agreed c.started
  agreed : ∀ a ∈ c.agreed, a ∈ c.started
  replays : ∃ s, m.replay c.agreed = some s
  answers : ∀ y ∈ c.answers, ∀ r, y.reply = some r → m.responseAt c.agreed y.pos = some r

namespace Cluster

variable {c c' : Cluster σ α ρ} {x : ℕ × Act α}

theorem Sound.init : (Cluster.init m).Sound m where
  servers _ := .init
  agreed _ ha := absurd ha List.not_mem_nil
  replays := ⟨m.init, rfl⟩
  answers _ hy := absurd hy List.not_mem_nil

theorem Sound.after {s : ℕ} (h : c.Sound m) (he : e.Sound m c.agreed c.started) :
    (c.after s e).Sound m := by
  have hpre : c.agreed <+: c.agreed ++ e.agrees := List.prefix_append _ _
  refine ⟨fun s' => ?_, fun a ha => ?_, he.replays, fun y hy r hr => ?_⟩
  · rcases eq_or_ne s' s with rfl | hne
    · rw [after_servers_self]
      exact he.server
    · rw [after_servers_of_ne _ _ hne]
      exact (h.servers s').mono hpre fun a ha => List.mem_append_left _ ha
  · rcases List.mem_append.mp ha with ha | ha
    · exact List.mem_append_left _ (h.agreed a ha)
    · exact List.mem_append_left _ (he.agrees a ha)
  · rcases List.mem_append.mp hy with hy | hy
    · exact Machine.responseAt_of_isPrefix hpre (h.answers y hy r hr)
    · exact Machine.responseAt_of_isPrefix hpre (he.answers y hy r hr)

/-- **Soundness, step.** -/
theorem Sound.step [DecidableEq α] (h : c.Sound m) (hstep : c.step m x = some c') :
    c'.Sound m := by
  obtain ⟨e, he, rfl⟩ := Option.map_eq_some_iff.mp hstep
  obtain ⟨st, hst⟩ := h.replays
  exact h.after ((h.servers x.1).act hst he)

theorem agreed_isPrefix [DecidableEq α] (hstep : c.step m x = some c') :
    c.agreed <+: c'.agreed := by
  obtain ⟨e, -, rfl⟩ := Option.map_eq_some_iff.mp hstep
  exact List.prefix_append _ _

theorem answers_subset [DecidableEq α] (hstep : c.step m x = some c') :
    ∀ y ∈ c.answers, y ∈ c'.answers := by
  obtain ⟨e, -, rfl⟩ := Option.map_eq_some_iff.mp hstep
  exact fun y hy => List.mem_append_left _ hy

/-- How the agreed log changes in a step: not at all, or by an entry at its end that was started
    before and can be applied. -/
inductive Agrees (m : Machine σ α ρ) (c : Cluster σ α ρ) (x : ℕ × Act α) : List α → Prop
  | same : Agrees m c x c.agreed
  | grow {a : α} {s s' : σ} {r : ρ} (hact : x.2 = .apply)
      (hlog : (c.servers x.1).raftLog[c.agreed.length]? = some a)
      (happlied : (c.servers x.1).applied = c.agreed.length) (hstarted : a ∈ c.started)
      (hs : m.replay c.agreed = some s) (happly : m.apply s a = some (s', r)) :
      Agrees m c x (c.agreed ++ [a])

theorem Sound.agrees [DecidableEq α] (h : c.Sound m) (hstep : c.step m x = some c') :
    Agrees m c x c'.agreed ∧ c'.started = c.started ++ x.2.starts := by
  obtain ⟨e, he, rfl⟩ := Option.map_eq_some_iff.mp hstep
  have hsame : e.agrees = [] → Agrees m c x (c.after x.1 e).agreed := by
    intro hnil
    rw [after_agreed, hnil, List.append_nil]
    exact .same
  obtain ⟨s, x⟩ := x
  cases Server.acts_of_act he with
  | apply hlog hagreed hx =>
    refine ⟨?_, rfl⟩
    rw [after_agreed]
    split
    · rename_i hnone
      have hlen : (c.servers s).applied = c.agreed.length := le_antisymm (h.servers s).applied_le
        (List.getElem?_eq_none_iff.mp (Option.isNone_iff_eq_none.mp hnone))
      have hs := (h.servers s).state_eq
      rw [hlen, List.take_length] at hs
      exact .grow rfl (hlen ▸ hlog) hlen ((h.servers s).logStarted _ (List.mem_of_getElem? hlog))
        hs hx
    · rw [List.append_nil]
      exact .same
  | _ => exact ⟨hsame rfl, rfl⟩

/-- An entry of the agreed log after a step was there before, or the step is its first
    application. -/
theorem Sound.concat_isPrefix [DecidableEq α] (h : c.Sound m) (hstep : c.step m x = some c')
    {pre : List α} (hpre : pre ++ [a] <+: c'.agreed) :
    pre ++ [a] <+: c.agreed ∨ pre = c.agreed ∧ a ∈ c.started ∧ x.2 = .apply ∧
      (c.servers x.1).raftLog[c.agreed.length]? = some a := by
  obtain ⟨hagrees, -⟩ := h.agrees hstep
  generalize c'.agreed = agreed' at hpre hagrees
  cases hagrees with
  | same => exact .inl hpre
  | grow hact hlog happlied hstarted hs happly =>
    rcases List.prefix_concat_iff.mp hpre with heq | hold
    · obtain ⟨rfl, ha⟩ := List.append_inj' heq rfl
      obtain rfl := List.singleton_inj.mp ha
      exact .inr ⟨rfl, hstarted, hact, hlog⟩
    · exact .inl hold

end Cluster

/-! ### Replies to a handler's own entry -/

/-- Consensus takes no entry away from a handler that waits for it to be applied. -/
def Server.KeepsWaiting (sv : Server σ α ρ) : Act α → Prop
  | .overwrite log => ∀ h ∈ sv.handlers, sv.applied ≤ h.pos → log[h.pos]? = some h.op
  | _ => True

instance [DecidableEq α] (sv : Server σ α ρ) (x : Act α) : Decidable (sv.KeepsWaiting x) := by
  unfold Server.KeepsWaiting
  split <;> infer_instance

/-- The entry of every handler is at its position in the server's log. -/
def Server.Kept (sv : Server σ α ρ) : Prop := ∀ h ∈ sv.handlers, sv.raftLog[h.pos]? = some h.op

namespace Server.Kept

/-- Handlers for the same entries. -/
theorem withHandlers (hkept : sv.Kept) (handlers : List (Handler α ρ))
    (hsame : ∀ y ∈ handlers, ∃ x ∈ sv.handlers, y.op = x.op ∧ y.pos = x.pos) :
    { sv with handlers := handlers }.Kept := by
  intro y hy
  obtain ⟨x, hx, hop, hpos⟩ := hsame y hy
  rw [hop, hpos]
  exact hkept x hx

theorem setStage (hkept : sv.Kept) (stage : Stage ρ) {i : ℕ} {x : Handler α ρ}
    (hx : sv.handlers[i]? = some x) : (sv.setStage i x stage).Kept := by
  refine hkept.withHandlers _ fun y hy => ?_
  rcases List.mem_or_eq_of_mem_set hy with hmem | rfl
  · exact ⟨y, hmem, rfl, rfl⟩
  · exact ⟨x, List.mem_of_getElem? hx, rfl, rfl⟩

/-- An entry at the end of the log, and perhaps a handler for it. -/
theorem start (hkept : sv.Kept) {handlers : List (Handler α ρ)}
    (hnew : ∀ y ∈ handlers, y ∈ sv.handlers ∨ y.op = a ∧ y.pos = sv.raftLog.length) :
    (sv.start a handlers).server.Kept := by
  intro y hy
  show (sv.raftLog ++ [a])[y.pos]? = some y.op
  rcases hnew y hy with hold | ⟨hop, hpos⟩
  · have hget := hkept y hold
    rw [List.getElem?_append_left (List.getElem?_eq_some_iff.mp hget).1, hget]
  · rw [hop, hpos, List.getElem?_concat_length]

theorem overwrite (hkept : sv.Kept) (h : sv.Sound m agreed started) {log : List α}
    (htake : log.take sv.applied = agreed.take sv.applied)
    (hkeeps : sv.KeepsWaiting (.overwrite log)) : { sv with raftLog := log }.Kept := by
  intro y hy
  by_cases hpos : sv.applied ≤ y.pos
  · exact hkeeps y hy hpos
  · -- below the applied index both logs are the agreed one
    have hlt : y.pos < sv.applied := Nat.lt_of_not_le hpos
    have hget := hkept y hy
    rw [← List.getElem?_take_of_lt hlt, h.take_eq] at hget
    rw [← List.getElem?_take_of_lt hlt, htake, hget]

/-- The reply of a handler is to its own entry. -/
theorem agreed_of_response (hkept : sv.Kept) (h : sv.Sound m agreed started) {x : Handler α ρ}
    (hx : x ∈ sv.handlers) (hr : x.stage.response = some r) : agreed[x.pos]? = some x.op := by
  have hlt := (h.response x hx r hr).1
  rw [← List.getElem?_take_of_lt hlt, ← h.take_eq, List.getElem?_take_of_lt hlt]
  exact hkept x hx

/-- **Own entries, step of a server.** -/
theorem act [DecidableEq α] (hkept : sv.Kept) (h : sv.Sound m agreed started) {x : Act α}
    (hkeeps : sv.KeepsWaiting x) (hact : sv.act m agreed started x = some e) :
    e.server.Kept ∧
      ∀ y ∈ e.answers, ∀ r, y.reply = some r → agreed[y.pos]? = some y.op := by
  have hnil : ∀ y ∈ ([] : List (Answer α ρ)), ∀ r, y.reply = some r →
      agreed[y.pos]? = some y.op := fun _ hy => absurd hy List.not_mem_nil
  cases Server.acts_of_act hact with
  | propose a => exact ⟨hkept.start fun y hy => .inl hy, hnil⟩
  | call a | await a =>
    refine ⟨hkept.start fun y hy => ?_, hnil⟩
    rcases List.mem_append.mp hy with hold | hnew
    · exact .inl hold
    · rw [List.mem_singleton.mp hnew]
      exact .inr ⟨rfl, rfl⟩
  | register hi => exact ⟨hkept.setStage _ hi, hnil⟩
  | overwrite htake _ => exact ⟨hkept.overwrite h htake hkeeps, hnil⟩
  | apply _ _ _ => exact ⟨hkept, hnil⟩
  | deliver hp =>
    have hnone : { sv with pending := none }.Kept := hkept
    refine ⟨hnone.withHandlers _ fun y hy => ?_, hnil⟩
    obtain ⟨x, hx, rfl⟩ := List.mem_map.mp hy
    refine ⟨x, hx, ?_⟩
    unfold Handler.offer
    split
    · split <;> exact ⟨rfl, rfl⟩
    · exact ⟨rfl, rfl⟩
  | receive hi _ => exact ⟨hkept.setStage _ hi, hnil⟩
  | timeout hi => exact ⟨hkept.setStage _ hi, hnil⟩
  | finish hi hstage =>
    refine ⟨hkept.withHandlers _ fun y hy => ⟨y, List.mem_of_mem_eraseIdx hy, rfl, rfl⟩, ?_⟩
    intro y hy r hr
    obtain rfl := List.mem_singleton.mp hy
    exact hkept.agreed_of_response h (List.mem_of_getElem? hi) (by rw [hstage]; exact hr)
  | install _ _ _ _ _ => exact ⟨hkept, hnil⟩
  | restart _ _ _ => exact ⟨fun _ hx => absurd hx List.not_mem_nil, hnil⟩

end Server.Kept

/-- Replies are to the handlers' own entries. -/
structure Cluster.Kept (c : Cluster σ α ρ) : Prop where
  servers : ∀ s, (c.servers s).Kept
  answers : ∀ y ∈ c.answers, ∀ r, y.reply = some r → c.agreed[y.pos]? = some y.op

namespace Cluster

variable {c c' : Cluster σ α ρ} {x : ℕ × Act α}

theorem Kept.init : (Cluster.init m).Kept where
  servers _ _ hx := absurd hx List.not_mem_nil
  answers _ hy := absurd hy List.not_mem_nil

/-- **Own entries, step.** -/
theorem Kept.step [DecidableEq α] (hkept : c.Kept) (h : c.Sound m)
    (hkeeps : (c.servers x.1).KeepsWaiting x.2) (hstep : c.step m x = some c') : c'.Kept := by
  obtain ⟨e, he, rfl⟩ := Option.map_eq_some_iff.mp hstep
  obtain ⟨hserver, hanswers⟩ := (hkept.servers x.1).act (h.servers x.1) hkeeps he
  have hgrow (y : Answer α ρ) (hy : c.agreed[y.pos]? = some y.op) :
      (c.agreed ++ e.agrees)[y.pos]? = some y.op := by
    rw [List.getElem?_append_left (List.getElem?_eq_some_iff.mp hy).1, hy]
  refine ⟨fun s => ?_, fun y hy r hr => ?_⟩
  · rcases eq_or_ne s x.1 with rfl | hne
    · rw [after_servers_self]
      exact hserver
    · rw [after_servers_of_ne _ _ hne]
      exact hkept.servers s
  · rcases List.mem_append.mp hy with hy | hy
    · exact hgrow y (hkept.answers y hy r hr)
    · exact hgrow y (hanswers y hy r hr)

end Cluster

end MitDistributed.Rsm
