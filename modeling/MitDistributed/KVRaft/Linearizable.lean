import MitDistributed.KVRaft.Duplicates
import MitDistributed.KVRaft.OpLog

namespace MitDistributed.KVRaft

open Linearizability Models Porcupine Rsm Transition

/-!
# Key/value store — the recorded history is linearizable

The operations of the `OpLog`, in the order of the positions where they take effect, are what a
sequential store would have done.  So the checker, which the tests run on the log, does not call the
history illegal.
-/

variable {n : ℕ} {r : Recorder n}

/-- `st` has the values of the keys after the first `p` entries of the log. -/
def StoreAt (agreed : List Op) (p : ℕ) (st : Bytes → Bytes) : Prop :=
  ∃ state, machine.replay (agreed.take p) = some state ∧
    ∀ k, st k = (state.storage.get? k).getD []

variable {op : Op}

/-- The state after one more entry. -/
theorem replay_take_succ {agreed : List Op} {p : ℕ} {state : State} (hop : agreed[p]? = some op)
    (hstate : machine.replay (agreed.take p) = some state) :
    machine.replay (agreed.take (p + 1)) = some (state.applyOp op).1 := by
  rw [List.take_add_one, hop]
  exact Machine.replay_concat hstate rfl

theorem storage_applyOp_of_get {state : State} (h : op.type = .get) :
    (state.applyOp op).1.storage = state.storage := by
  rw [State.applyOp, h]
  rfl

/-- The write of a request, on the store. -/
theorem storeStep_of_write {x : Answered} {storage : Storage} {st : Bytes → Bytes}
    (hst : ∀ k, st k = (storage.get? k).getD []) (htype : x.op.type = x.call.type)
    (hkey : x.op.key = x.call.key) (hvalue : x.op.value = x.call.value)
    (hwrite : x.call.type ≠ .get) (stop : ℤ) :
    ∃ st', storeStep st (x.operation stop) = some st' ∧
      ∀ k, st' k = ((x.op.write storage).get? k).getD [] := by
  cases hcall : x.call.type with
  | get => exact absurd hcall hwrite
  | put =>
    refine ⟨Function.update st x.call.key x.call.value, ?_, fun k => ?_⟩
    · simp [storeStep, Answered.operation, Call.input, hcall]
    · rw [get?_write, Op.onKey, htype, hcall, hkey, hvalue]
      by_cases hk : x.call.key = k
      · subst hk
        simp
      · rw [Function.update_of_ne (Ne.symm hk), if_neg hk, hst]
  | append =>
    refine ⟨Function.update st x.call.key (st x.call.key ++ x.call.value), ?_, fun k => ?_⟩
    · simp [storeStep, Answered.operation, Call.input, hcall]
    · rw [get?_write, Op.onKey, htype, hcall, hkey, hvalue]
      by_cases hk : x.call.key = k
      · subst hk
        simp [hst]
      · rw [Function.update_of_ne (Ne.symm hk), if_neg hk, hst]

/-- The entry where a request takes effect performs its operation. -/
theorem Answered.Placed.performs {x : Answered} (h : x.Placed r.world) (hfresh : r.world.Fresh)
    (stop : ℤ) {st : Bytes → Bytes} (hst : StoreAt r.world.servers.agreed x.pos st) :
    ∃ st', storeStep st (x.operation stop) = some st' ∧
      StoreAt r.world.servers.agreed (x.pos + 1) st' := by
  obtain ⟨state, hstate, hkeys⟩ := hst
  have hnext := replay_take_succ h.entry hstate
  by_cases hget : x.call.type = .get
  · obtain ⟨state', hstate', hvalue⟩ := h.read hget
    obtain rfl : state = state' := Option.some.inj (hstate.symm.trans hstate')
    refine ⟨st, ?_, _, hnext, fun k => ?_⟩
    · simp [storeStep, Answered.operation, Call.input, hget, hvalue, hkeys]
    · rw [storage_applyOp_of_get (h.type_eq.trans hget)]
      exact hkeys k
  · obtain ⟨st', hst', hkeys'⟩ :=
      storeStep_of_write hkeys h.type_eq h.key_eq h.value_eq hget stop
    have hpre : r.world.servers.agreed.take x.pos ++ [x.op] <+: r.world.servers.agreed := by
      have htake := List.take_prefix (x.pos + 1) r.world.servers.agreed
      rwa [List.take_add_one, h.entry] at htake
    refine ⟨st', hst', _, hnext, fun k => ?_⟩
    rw [State.storage_applyOp_of_isNew (hfresh _ _ _ hpre (h.write hget) hstate)]
    exact hkeys' k

/-- A repetition leaves the store as it is. -/
theorem storeAt_succ_of_mem {agreed : List Op} {p : ℕ} {st : Bytes → Bytes}
    (hop : agreed[p]? = some op) (hskip : op.type = .get ∨ op ∈ agreed.take p)
    (hst : StoreAt agreed p st) : StoreAt agreed (p + 1) st := by
  obtain ⟨state, hstate, hkeys⟩ := hst
  refine ⟨_, replay_take_succ hop hstate, fun k => ?_⟩
  have hsame : (state.applyOp op).1.storage = state.storage := by
    rcases hskip with hget | hmem
    · exact storage_applyOp_of_get hget
    · refine State.storage_applyOp_of_not_isNew (not_lt.mpr ?_)
      exact (latest_of_replay hstate).1 op hmem
  rw [hsame]
  exact hkeys k

/-- The first position of an entry is the only one without the entry before. -/
theorem eq_of_first {agreed : List Op} {p q : ℕ} (hp : agreed[p]? = some op)
    (hq : agreed[q]? = some op) (hp' : op ∉ agreed.take p) (hq' : op ∉ agreed.take q) : p = q := by
  have hle {a b : ℕ} (ha : agreed[a]? = some op) (hb : op ∉ agreed.take b) : b ≤ a := by
    by_contra hlt
    have hget : (agreed.take b)[a]? = some op := by
      rw [List.getElem?_take_of_lt (not_le.mp hlt), ha]
    exact hb (List.mem_of_getElem? hget)
  exact le_antisymm (hle hq hp') (hle hp hq')

/-- When all clients that have made a request are through, every request is in the log. -/
theorem RecorderOk.exists_mem_log (h : RecorderOk r) (hw : r.world.Consistent)
    (hidle : ∀ op ∈ r.world.sent, r.wrappers op.clientId = .idle)
    (hop : op ∈ r.world.servers.agreed) : ∃ y ∈ r.log, y.1.op = op := by
  have hsent := hw.started op (hw.sound.agreed op hop)
  rcases h.sent op hsent with ⟨x, ⟨stop, hx⟩ | ⟨c, hc⟩, rfl⟩ | ⟨call, hcall, -⟩
  · exact ⟨_, hx, rfl⟩
  · rw [← ((h.client c).own x hc).1, hidle _ hsent] at hc
    cases hc
  · rw [(h.client _).calling, hidle op hsent] at hcall
    cases hcall

/-- The history of the `OpLog` is linearizable. -/
theorem storeLinearizable_operations (hr : r.Reachable)
    (hidle : ∀ op ∈ r.world.sent, r.wrappers op.clientId = .idle) :
    StoreLinearizable r.operations := by
  obtain ⟨hw, -, -, hfresh⟩ := World.invariants_of_reachable (Recorder.reachable_world hr)
  have h := RecorderOk.of_reachable hr
  have hplaced {i : ℕ} {y : Answered × ℤ} (hy : r.log[i]? = some y) : y.1.Placed r.world :=
    h.placed y.1 (.inl ⟨y.2, List.mem_of_getElem? hy⟩)
  have hlog {i : ℕ} (hi : i ∈ List.range r.operations.length) : ∃ y, r.log[i]? = some y := by
    rw [List.mem_range, Recorder.operations, List.length_map] at hi
    exact ⟨_, List.getElem?_eq_getElem hi⟩
  let pos (i : ℕ) : ℕ := (r.log[i]?.map fun y => y.1.pos).getD 0
  have hpos {i : ℕ} {y : Answered × ℤ} (hy : r.log[i]? = some y) : pos i = y.1.pos := by
    simp [pos, hy]
  have hoperation {i : ℕ} {y : Answered × ℤ} (hy : r.log[i]? = some y) :
      r.operations[i]? = some (y.1.operation y.2) := by
    rw [Recorder.operations, List.getElem?_map, hy, Option.map_some]
  have hlt (i : ℕ) (hi : i ∈ List.range r.operations.length) :
      pos i < r.world.servers.agreed.length := by
    obtain ⟨y, hy⟩ := hlog hi
    rw [hpos hy]
    exact (List.getElem?_eq_some_iff.mp (hplaced hy).entry).1
  have hinj (i : ℕ) (hi : i ∈ List.range r.operations.length) (j : ℕ)
      (hj : j ∈ List.range r.operations.length) (heq : pos i = pos j) : i = j := by
    obtain ⟨y, hy⟩ := hlog hi
    obtain ⟨z, hz⟩ := hlog hj
    rw [hpos hy, hpos hz] at heq
    have hop : y.1.op = z.1.op :=
      Option.some.inj ((hplaced hy).entry.symm.trans (heq ▸ (hplaced hz).entry))
    refine (List.getElem?_inj ?_ h.nodup).mp ?_
    · simpa using (List.getElem?_eq_some_iff.mp hy).1
    · rw [List.getElem?_map, List.getElem?_map, hy, hz, Option.map_some, Option.map_some, hop]
  have hbefore (i : ℕ) (hi : i ∈ List.range r.operations.length) (j : ℕ)
      (hj : j ∈ List.range r.operations.length) (hij : OpBefore r.operations i j) :
      pos i < pos j := by
    obtain ⟨y, hy⟩ := hlog hi
    obtain ⟨z, hz⟩ := hlog hj
    obtain ⟨a, b, ha, hb, htimes⟩ := hij
    obtain rfl := Option.some.inj ((hoperation hy).symm.trans ha)
    obtain rfl := Option.some.inj ((hoperation hz).symm.trans hb)
    rw [hpos hy, hpos hz]
    exact h.order y.1 y.2 (.inl (List.mem_of_getElem? hy)) z.1.op z.1.start
      (.inl ⟨z.1, .inl ⟨z.2, List.mem_of_getElem? hz⟩, rfl, rfl⟩) htimes _ (hplaced hz).entry
  refine linearizable_of_positions (R := StoreAt r.world.servers.agreed) List.nodup_range hlt hinj
    hbefore ⟨.initial, rfl, fun k => rfl⟩ (fun i hi st hst => ?_) fun p hp hnone st hst => ?_
  · obtain ⟨y, hy⟩ := hlog hi
    rw [hpos hy] at hst ⊢
    rw [hoperation hy]
    exact (hplaced hy).performs hfresh y.2 hst
  · -- an entry where no operation takes effect
    have hop := List.getElem?_eq_getElem hp
    refine storeAt_succ_of_mem hop ?_ hst
    by_contra hfirst
    push Not at hfirst
    obtain ⟨y, hy, heq⟩ := h.exists_mem_log hw hidle (List.getElem_mem hp)
    obtain ⟨i, hi⟩ := List.mem_iff_getElem?.mp hy
    have hmem : i ∈ List.range r.operations.length := by
      rw [List.mem_range, Recorder.operations, List.length_map]
      exact (List.getElem?_eq_some_iff.mp hi).1
    refine hnone i hmem ?_
    rw [hpos hi]
    have hentry := hplaced hi
    refine eq_of_first hentry.entry (heq ▸ hop) (hentry.write ?_) (heq ▸ hfirst.2)
    rw [← hentry.type_eq, heq]
    exact hfirst.1

/-- **The test passes.** When no server replaces the entry of a handler that waits for it, and all
    clients that have made a request are through, the recorded history is linearizable, and the
    checker does not call it illegal, in any interleaving, with or without a timer. -/
theorem recorded_history_linearizable (r : Recorder n) (hr : r.Reachable)
    (hidle : ∀ op ∈ r.world.sent, r.wrappers op.clientId = .idle) :
    StoreLinearizable r.operations ∧
      ∀ sorter verbose hasTimeout acts s result,
        checkOperations sorter kvModel r.operations verbose hasTimeout acts = some s →
          s.main = .returned result → result ≠ .illegal := by
  have hlin := storeLinearizable_operations hr hidle
  have hcall (v : KvOperation) (hv : v ∈ r.operations) : v.call ≤ v.ret := by
    obtain ⟨y, hy, rfl⟩ := List.mem_map.mp hv
    exact (RecorderOk.of_reachable hr).start_le_stop y.1 y.2 (.inl hy)
  refine ⟨hlin, fun sorter verbose hasTimeout acts s result hrun hreturned hillegal => ?_⟩
  rcases result_kvModel hcall hrun hreturned with ⟨rfl, -⟩ | ⟨-, hnot⟩ | ⟨rfl, -⟩
  · cases hillegal
  · exact hnot hlin
  · cases hillegal

/-- Clients 5 and 6 put a value of the same key at server 0, the calls overlapping, and client 6
    gets it then. -/
def putPutGet : List RecorderAction :=
  [.stamp 5 0 ⟨.put, [107], [1]⟩, .call 5, .tick 1, .stamp 6 1 ⟨.put, [107], [2]⟩, .call 6,
    .other (.serve 1), .other (.serve 0), .other (.internal 0 (.register 0)),
    .other (.internal 0 (.register 1)), .other (.internal 0 .apply), .other (.internal 0 .deliver),
    .other (.internal 0 .apply), .other (.internal 0 .deliver), .other (.internal 0 (.receive 1)),
    .other (.internal 0 (.finish 1)), .reply 5 0, .tick 2, .stop 5, .append 5,
    .other (.internal 0 (.receive 0)), .other (.internal 0 (.finish 0)), .reply 6 1, .stop 6,
    .append 6, .tick 3, .stamp 6 1 ⟨.get, [107], []⟩, .call 6, .other (.serve 0),
    .other (.internal 0 (.register 0)), .other (.internal 0 .apply), .other (.internal 0 .deliver),
    .other (.internal 0 (.receive 0)), .other (.internal 0 (.finish 0)), .reply 6 2, .tick 4,
    .stop 6, .append 6]

theorem recorded_history_linearizable_putPutGet :
    ∃ r : Recorder 2, r.Reachable ∧ r.operations.length = 3 ∧ StoreLinearizable r.operations := by
  obtain ⟨r, hr, hlen, hidle⟩ := exists_run_of_execOk Recorder.step Recorder.KeepsWaiting
    (Recorder.init 2) putPutGet
    (fun r => r.operations.length = 3 ∧ ∀ op ∈ r.world.sent, r.wrappers op.clientId = .idle)
    (by decide +kernel)
  exact ⟨r, hr, hlen, (recorded_history_linearizable r hr hidle).1⟩

end MitDistributed.KVRaft
