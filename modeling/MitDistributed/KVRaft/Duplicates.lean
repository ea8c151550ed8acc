import MitDistributed.KVRaft.Server

namespace MitDistributed.KVRaft

open Rsm

/-!
# Key/value store — duplicates are invisible

A clerk may start one request several times, so that its operation stands at several positions of
the log.  The table of the latest requests makes all but the first of them ineffective: the storage
is the one of the log without repetitions (`firsts`).

* `Issued` — the logs that clerks give rise to;
* `storage_of_replay` — the storage after a log is made by the writes of the first occurrences;
* `value_of_appends` — what a key holds that is only appended to.
-/

/-- The operations of a log in the order of their first occurrences. -/
def firsts (log : List Op) : List Op := log.eraseDups

/-- Every client numbers its requests from 0 and makes the next one only after the one before has
    succeeded.  So an operation that is new in the log has a higher number than all operations of
    its client before it. -/
structure Issued (log : List Op) : Prop where
  nonneg : ∀ op ∈ log, 0 ≤ op.requestId
  increasing : ∀ pre op, pre ++ [op] <+: log → op ∉ pre →
    ∀ q ∈ pre, q.clientId = op.clientId → q.requestId < op.requestId

/-! ### First occurrences -/

section Firsts

variable {log pre : List Op} {op : Op}

theorem firsts_concat_of_mem (h : op ∈ log) : firsts (log ++ [op]) = firsts log := by
  simp [firsts, List.eraseDups_append, List.removeAll, h]

theorem firsts_concat_of_not_mem (h : op ∉ log) : firsts (log ++ [op]) = firsts log ++ [op] := by
  simp [firsts, List.eraseDups_append, List.eraseDups_cons, List.removeAll, h]

theorem mem_firsts : op ∈ firsts log ↔ op ∈ log := by simp [firsts]

theorem Issued.of_isPrefix (h : Issued log) (hpre : pre <+: log) : Issued pre where
  nonneg op hop := h.nonneg op (hpre.subset hop)
  increasing p op hp := h.increasing p op (hp.trans hpre)

end Firsts

/-! ### The storage after a log -/

/-- The storage after the writes of the given operations. -/
def writes (ops : List Op) : Storage := ops.foldl (fun storage op => op.write storage) .empty

variable {log : List Op}

/-- An operation that is not in the log yet is new to a server that has applied only operations of
    the log. -/
theorem Issued.isNew {ops : List Op} {op : Op} {st : State} (h : Issued (log ++ [op]))
    (hop : op ∉ log) (hops : ∀ q ∈ ops, q ∈ log) (hst : machine.replay ops = some st) :
    st.isNew op := by
  have hissued : Requests.Issued Op.clientId Op.requestId (log ++ [op]) := ⟨h.nonneg, h.increasing⟩
  refine hissued.latest_lt (List.prefix_refl _) hop ?_
  exact ((latest_of_replay hst).2 op.clientId).imp_right fun ⟨q, hq, hlatest⟩ =>
    ⟨q, hops q hq, hlatest⟩

/-- **The storage after a log**, with and without repetitions. -/
theorem storage_of_replay (h : Issued log) {st st' : State} (hst : machine.replay log = some st)
    (hst' : machine.replay (firsts log) = some st') :
    st.storage = writes (firsts log) ∧ st'.storage = writes (firsts log) := by
  induction log using List.reverseRecOn generalizing st st' with
  | nil =>
    cases hst
    cases hst'
    exact ⟨rfl, rfl⟩
  | append_singleton log op ih =>
    have hlog := h.of_isPrefix (List.prefix_append log [op])
    obtain ⟨s, r, hs, happly⟩ := Machine.apply_of_replay_concat hst
    obtain rfl : (s.applyOp op).1 = st := congrArg Prod.fst (Option.some.inj happly)
    by_cases hmem : op ∈ log
    · -- a repetition changes nothing
      rw [firsts_concat_of_mem hmem] at hst' ⊢
      obtain ⟨hstorage, hstorage'⟩ := ih hlog hs hst'
      have hold : ¬ s.isNew op := not_lt.mpr ((latest_of_replay hs).1 op hmem)
      exact ⟨by rw [State.storage_applyOp_of_not_isNew hold, hstorage], hstorage'⟩
    · rw [firsts_concat_of_not_mem hmem] at hst' ⊢
      obtain ⟨s', r', hs', happly'⟩ := Machine.apply_of_replay_concat hst'
      obtain rfl : (s'.applyOp op).1 = st' := congrArg Prod.fst (Option.some.inj happly')
      obtain ⟨hstorage, hstorage'⟩ := ih hlog hs hs'
      have hnew : s.isNew op := h.isNew hmem (fun _ hq => hq) hs
      have hnew' : s'.isNew op := h.isNew hmem (fun _ hq => mem_firsts.mp hq) hs'
      have hwrites : writes (firsts log ++ [op]) = op.write (writes (firsts log)) := by
        simp [writes]
      rw [State.storage_applyOp_of_isNew hnew, State.storage_applyOp_of_isNew hnew', hstorage,
        hstorage', hwrites]
      exact ⟨rfl, rfl⟩

/-! ### The value of a key -/

/-- What an operation makes of the value of a key: a `PUT` replaces it, and an `APPEND` adds to it,
    where a missing value counts as empty. -/
def Op.onKey (key : Bytes) (value : Option Bytes) (op : Op) : Option Bytes :=
  if op.key = key then
    match op.type with
    | .get => value
    | .put => some op.value
    | .append => some (value.getD [] ++ op.value)
  else value

theorem get?_write (op : Op) (storage : Storage) (key : Bytes) :
    (op.write storage).get? key = op.onKey key (storage.get? key) := by
  unfold Op.write Op.onKey
  by_cases hkey : op.key = key
  · subst hkey
    rw [if_pos rfl]
    cases op.type with
    | get => rfl
    | put => exact storage.get?_put_self op.key op.value
    | append =>
      dsimp only
      unfold Storage.append
      cases storage.get? op.key with
      | none => exact storage.get?_put_self op.key op.value
      | some old => exact storage.get?_put_self op.key (old ++ op.value)
  · rw [if_neg hkey]
    have hput (value : Bytes) : (storage.put op.key value).get? key = storage.get? key :=
      storage.get?_put_of_ne value (Ne.symm hkey)
    cases op.type with
    | get => rfl
    | put => exact hput op.value
    | append =>
      dsimp only
      unfold Storage.append
      cases storage.get? op.key with
      | none => exact hput op.value
      | some old => exact hput (old ++ op.value)

theorem get?_writes (ops : List Op) (key : Bytes) :
    (writes ops).get? key = ops.foldl (Op.onKey key) none := by
  induction ops using List.reverseRecOn with
  | nil => rfl
  | append_singleton ops op ih =>
    have hwrites : writes (ops ++ [op]) = op.write (writes ops) := by simp [writes]
    rw [hwrites, get?_write, ih, List.foldl_append, List.foldl_cons, List.foldl_nil]

/-- The operations that append to a key. -/
def appendsTo (key : Bytes) (ops : List Op) : List Op :=
  ops.filter fun op => op.type = .append ∧ op.key = key

/-- A key that is only appended to holds what was appended, in order. -/
theorem value_of_appends {ops : List Op} {key : Bytes}
    (h : ∀ op ∈ ops, op.type = .put → op.key ≠ key) :
    (ops.foldl (Op.onKey key) none).getD [] = (appendsTo key ops).flatMap Op.value := by
  induction ops using List.reverseRecOn with
  | nil => rfl
  | append_singleton ops op ih =>
    have hops := ih fun q hq => h q (List.mem_append_left _ hq)
    have hput := h op (List.mem_append_right _ List.mem_cons_self)
    rw [List.foldl_append, List.foldl_cons, List.foldl_nil, appendsTo, List.filter_append,
      List.flatMap_append, ← appendsTo, ← hops]
    unfold Op.onKey
    by_cases hkey : op.key = key
    · cases htype : op.type with
      | get => simp [hkey, htype]
      | put => exact absurd hkey (hput htype)
      | append => simp [hkey, htype]
    · simp [hkey]

/-- The operations of one client appear in the order of their requests, each of them once. -/
theorem Issued.pairwise_firsts (h : Issued log) (c : ℤ) :
    ((firsts log).filter fun op => op.clientId = c).Pairwise
      fun q op => q.requestId < op.requestId := by
  induction log using List.reverseRecOn with
  | nil => exact List.Pairwise.nil
  | append_singleton log op ih =>
    have hlog := ih (h.of_isPrefix (List.prefix_append log [op]))
    by_cases hmem : op ∈ log
    · rwa [firsts_concat_of_mem hmem]
    rw [firsts_concat_of_not_mem hmem, List.filter_append, List.pairwise_append]
    refine ⟨hlog, ?_, ?_⟩
    · exact (List.pairwise_singleton _ op).sublist List.filter_sublist
    · intro q hq p hp
      simp only [List.mem_filter, decide_eq_true_eq] at hq hp
      obtain rfl := List.mem_singleton.mp hp.1
      exact h.increasing log p (List.prefix_refl _) hmem q (mem_firsts.mp hq.1)
        (hq.2.trans hp.2.symm)

/-- **Duplicates are invisible.** The storage after a log is the one after the log without
    repetitions, and every key holds what the writes of the first occurrences make of it.  So a
    key that is only appended to holds the appended values of every client, each once and in the
    order of its requests. -/
theorem duplicates_are_invisible (h : Issued log) :
    ∃ st st', machine.replay log = some st ∧ machine.replay (firsts log) = some st' ∧
      st.storage = st'.storage ∧
      (∀ key, st.storage.get? key = (firsts log).foldl (Op.onKey key) none) ∧
      (∀ key, (∀ op ∈ log, op.type = .put → op.key ≠ key) →
        (st.storage.get? key).getD [] = (appendsTo key (firsts log)).flatMap Op.value) ∧
      ∀ c, ((firsts log).filter fun op => op.clientId = c).Pairwise
        fun q op => q.requestId < op.requestId := by
  obtain ⟨st, hst⟩ := exists_replay log
  obtain ⟨st', hst'⟩ := exists_replay (firsts log)
  obtain ⟨hstorage, hstorage'⟩ := storage_of_replay h hst hst'
  have hvalue : ∀ key, st.storage.get? key = (firsts log).foldl (Op.onKey key) none := by
    intro key
    rw [hstorage, get?_writes]
  refine ⟨st, st', hst, hst', hstorage.trans hstorage'.symm, hvalue, fun key hput => ?_,
    h.pairwise_firsts⟩
  rw [hvalue key]
  exact value_of_appends fun op hop => hput op (mem_firsts.mp hop)

/-- An append that comes again after the next request of its client. -/
def lateDuplicate : List Op :=
  [⟨.append, [0], [1], 7, 0⟩, ⟨.append, [0], [2], 7, 1⟩, ⟨.append, [0], [1], 7, 0⟩]

theorem issued_lateDuplicate : Issued lateDuplicate where
  nonneg := by decide
  increasing := by
    rintro pre op ⟨rest, h⟩ hop
    -- the operation stands at the first, the second or the third position
    rcases pre with _ | ⟨a, _ | ⟨b, _ | ⟨c, pre⟩⟩⟩
    · exact fun q hq => absurd hq List.not_mem_nil
    · obtain ⟨rfl, rfl, -⟩ : _ = a ∧ _ = op ∧ _ := by simpa [lateDuplicate] using h.symm
      decide
    · obtain ⟨rfl, rfl, rfl, -⟩ : _ = a ∧ _ = b ∧ _ = op ∧ _ := by
        simpa [lateDuplicate] using h.symm
      exact absurd hop (by decide)
    · simp [lateDuplicate] at h

theorem duplicates_are_invisible_lateDuplicate :
    ∃ st, machine.replay lateDuplicate = some st ∧
      (st.storage.get? [0]).getD [] = (appendsTo [0] (firsts lateDuplicate)).flatMap Op.value := by
  obtain ⟨st, -, hst, -, -, -, happends, -⟩ := duplicates_are_invisible issued_lateDuplicate
  exact ⟨st, hst, happends [0] (by decide)⟩

end MitDistributed.KVRaft
