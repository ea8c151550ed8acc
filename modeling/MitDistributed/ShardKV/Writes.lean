import MitDistributed.ShardKV.Exclusive

namespace MitDistributed.ShardKV

open Rsm ShardCtrler Transition

/-!
# Sharded store — writes across migrations

A group recognises a request that it has applied before by its table of the latest requests.  The
table does not go with a shard, so that the new owner does not know what the previous one has
applied, and applies it again (`append_applied_twice`).

* `writes_once` — if a group takes over a shard only when its table covers the writes that have been
  done there, and no replica beyond the version of a `Leave` request serves it, then no request is
  applied twice to the same shard.
-/

/-- What identifies a write: the shard, the client and its request. -/
def Write.key (x : Write) : ShardId × ℤ × ℤ := (x.shard, x.clientId, x.requestId)

/-- The shard and the version of a `PULL_SHARD`. -/
def Op.pulls : Op → Option (ShardId × ℕ)
  | .pullShard s v _ => some (s, v)
  | _ => none

namespace State

variable {gid : Gid} {st st' : State} {op : Op} {r : WaitChResponse} {s : ShardId} {c q : ℤ}

/-- A write that has an effect is to a shard that is served, is new to the table, and is in the
    table afterwards. -/
theorem applyWrite_latest (key : Bytes) (write : Storage → Storage)
    (hserves : st.serves (key2shard key)) :
    q ≤ (st.applyWrite key c q write).1.latestAppliedRequest.latest c := by
  obtain ⟨sh, hsh, hs⟩ := exists_shard_of_status hserves
  unfold applyWrite
  rw [hsh]
  dsimp only
  rw [if_pos hs]
  split_ifs
  · exact Requests.request_le_latest_mark
  · exact Requests.request_le_latest_mark

theorem effect_of_some (gid : Gid) (h : st.effect op = some (s, c, q)) :
    st.serves s ∧ st.latestAppliedRequest.latest c < q ∧
      ∀ st' r, st.applyOp gid op = some (st', r) → q ≤ st'.latestAppliedRequest.latest c := by
  cases op with
  | put key value c' q' | append key value c' q' =>
    rw [effect] at h
    split_ifs at h with hcond
    obtain ⟨rfl, rfl, rfl⟩ : key2shard key = s ∧ c' = c ∧ q' = q := by simpa using h
    refine ⟨hcond.1, hcond.2, fun st' r happly => ?_⟩
    obtain rfl := congrArg Prod.fst (Option.some.inj happly)
    exact applyWrite_latest key _ hcond.1
  | get | updateConfig | pullShard | leaveShard | transferDone => cases h

/-- How a group comes to serve a shard. -/
theorem Turns.serves (h : st.Turns gid s op st') (hserves : st'.serves s) :
    st.serves s ∨ st.num = 0 ∧ st'.num = 1 ∨
      op.pulls = some (s, st.num) ∧ st.status s = some .pulling := by
  cases h with
  | keep hprev hcurr hshard =>
    rw [State.serves, status_of_keep hshard] at hserves
    exact .inl hserves
  | update hnum hall hnew =>
    obtain ⟨sh, hsh, hs⟩ := exists_shard_of_status hserves
    cases hnew sh hsh with
    | first hone => exact .inr (.inl ⟨by omega, hone⟩)
    | pulling | leaving => exact absurd hs (by simp)
    | kept hmine hst =>
      refine .inl (.inl ?_)
      rw [status, hst, Option.map_some, hall s sh hst]
  | pull hpulling => exact .inr (.inr ⟨rfl, hpulling⟩)
  | leave =>
    rw [State.serves, status_setShard_self] at hserves
    exact absurd hserves (by simp)
  | done hwaiting => exact .inl (.inr hwaiting)

end State

namespace World

variable {cs : Configs} {w w' : World} {a : Action} {g h : Gid} {st st' t : State} {e : Entry}
  {s : ShardId}

/-- A group takes over a shard only in a state whose table covers the writes that have been done to
    the shard. -/
def CarriesRequests (w : World) : Action → Prop
  | .internal g i x => x = .apply →
      ((w.groups g).servers i).applied = (w.groups g).agreed.length →
        ∀ e ∈ ((w.groups g).servers i).raftLog[(w.groups g).agreed.length]?, ∀ p ∈ e.op.pulls,
          (w.state g i).num = p.2 → (w.state g i).status p.1 = some .pulling →
            ∀ x ∈ w.writes, x.shard = p.1 →
              x.requestId ≤ (w.state g i).latestAppliedRequest.latest x.clientId
  | _ => True

instance (w : World) : (a : Action) → Decidable (w.CarriesRequests a)
  | .internal .. => inferInstanceAs (Decidable (_ → _))
  | .client .. | .fetch .. | .askPull .. | .pull .. | .gotPull .. | .askLeave .. | .leave .. |
    .gotLeft .. => instDecidableTrue

/-- The writes that an entry does. -/
def done (g : Gid) (st : State) (e : Entry) : List Write :=
  ((st.effect e.op).map fun x => ⟨g, x.1, x.2.1, x.2.2⟩).toList

/-- A step in which group `g` agrees on `e`, which takes its replicated state from `st` to
    `st'`. -/
structure Grows (w : World) (a : Action) (w' : World) (g : Gid) (e : Entry) (st st' : State) :
    Prop where
  full : w.Full g st
  full' : w'.Full g st'
  performs : ∃ r, w'.Performs g st e st' r
  others : ∀ h, h ≠ g → (w'.groups h).agreed = (w.groups h).agreed
  writes : w'.writes = w.writes ++ done g st e
  carries : w.CarriesRequests a → ∀ s, e.op.pulls = some (s, st.num) →
    st.status s = some .pulling → ∀ x ∈ w.writes, x.shard = s →
      x.requestId ≤ st.latestAppliedRequest.latest x.clientId

/-- A step after which the replicated states and the writes are the same. -/
structure Still (w w' : World) : Prop where
  agreed : ∀ g, (w'.groups g).agreed = (w.groups g).agreed
  writes : w'.writes = w.writes

/-- A step of a server that does not make the agreed log longer. -/
theorem agreed_setGroup {c : Cluster State Entry WaitChResponse}
    (hsame : c.agreed = (w.groups g).agreed) (h : Gid) :
    ((w.setGroup g c).groups h).agreed = (w.groups h).agreed := by
  rcases eq_or_ne h g with rfl | hne
  · rw [setGroup_self, hsame]
  · rw [setGroup_of_ne _ _ hne]

/-- **What a step does to the replicated states.** -/
theorem Sane.still_or_grows (hw : w.Sane cs) (h : w.Moves cs a w') :
    w.Still w' ∨ ∃ g e st st', w.Grows a w' g e st st' := by
  cases h with
  | @starts _ g i x e c hact hkind =>
    have hagrees := ((hw.sound g).agrees hact).1
    refine .inl ⟨agreed_setGroup ?_, rfl⟩
    generalize c.agreed = agreed at hagrees
    cases hagrees with
    | same => rfl
    | grow hx =>
      subst hx
      exact absurd hkind (by simp)
  | @internal g i x c hact =>
    have hagrees := ((hw.sound g).agrees hact).1
    generalize hc : c.agreed = agreed at hagrees
    cases hagrees with
    | same =>
      refine .inl ⟨agreed_setGroup hc, ?_⟩
      rw [record, hc, List.getElem?_eq_none le_rfl, List.append_nil]
    | @grow e st st' r hx hlog happlied hstarted hst happly =>
      have hstate : w.state g i = st := by
        have hs := ((hw.sound g).servers i).state_eq
        rw [happlied, List.take_length, hst] at hs
        exact (Option.some.inj hs).symm
      have hagreed : ((w.setGroup g c).groups g).agreed = (w.groups g).agreed ++ [e] := by
        rw [setGroup_self, hc]
      refine .inr ⟨g, e, st, st', hst, ?_, ⟨r, _, ?_, hst, happly⟩, fun h hne => ?_, ?_, ?_⟩
      · show (machine g).replay ((w.setGroup g c).groups g).agreed = some st'
        rw [hagreed]
        exact Machine.replay_concat hst happly
      · rw [hagreed]
      · rw [setGroup_of_ne _ _ hne]
      · rw [record, hc, List.getElem?_concat_length, hstate, done]
      · intro hok s hop hpulling
        rw [← hstate] at hop hpulling ⊢
        exact hok hx happlied e hlog _ hop rfl hpulling
  | asks | gives | wants => exact .inl ⟨fun _ => rfl, rfl⟩

/-! ### Invariants of the writes -/

/-- Every write was done to a shard that its group served, every group that serves a shard has the
    writes to it in its table, and no write was done twice. -/
structure Recorded (w : World) : Prop where
  served : ∀ x ∈ w.writes, ∃ t, w.Visits x.gid t ∧ t.serves x.shard
  covered : ∀ g st s, w.Full g st → st.serves s → ∀ x ∈ w.writes, x.shard = s →
    x.requestId ≤ st.latestAppliedRequest.latest x.clientId
  once : (w.writes.map Write.key).Nodup

namespace Recorded

theorem init : World.init.Recorded where
  served _ hx := absurd hx List.not_mem_nil
  covered _ _ _ _ _ _ hx := absurd hx List.not_mem_nil
  once := List.nodup_nil

theorem still (h : w.Recorded) (hle : w.Le w') (hstill : w.Still w') : w'.Recorded := by
  refine ⟨fun x hx => ?_, fun g st s hfull hserves x hx hs => ?_, ?_⟩
  · rw [hstill.writes] at hx
    obtain ⟨t, ht, hserves⟩ := h.served x hx
    exact ⟨t, ht.mono hle, hserves⟩
  · rw [Full, hstill.agreed g] at hfull
    rw [hstill.writes] at hx
    exact h.covered g st s hfull hserves x hx hs
  · rw [hstill.writes]
    exact h.once

/-- Nobody has written to a shard before its first owner has the first configuration. -/
theorem not_written (h : w.Recorded) (hw : w.Sane cs) (hplaced : ∀ n, w.Placed cs n)
    (hfull : w.Full g st) (h0 : st.num = 0) (howner : cs.owner 1 s = g) {x : Write}
    (hx : x ∈ w.writes) (hs : x.shard = s) : False := by
  obtain ⟨t, ht, hserves⟩ := h.served x hx
  obtain ⟨hpos, hmine⟩ := hw.owner_of_serves ht hserves
  subst hs
  -- the group is the first owner, and has not come to version 1
  have hbehind {t : State} (hv : w.Visits (cs.owner 1 x.shard) t) : t.num = 0 := by
    rw [howner] at hv
    have hle := (hv.evolves_full hfull).le
    omega
  rcases Nat.lt_or_ge 1 t.num with hlt | hle
  · obtain ⟨t', ht', hlt'⟩ := hw.passed_on hplaced ht rfl hserves one_pos hlt
    have := hbehind ht'
    omega
  · have hone : t.num = 1 := by omega
    rw [hone] at hmine
    have := hbehind (hmine ▸ ht)
    omega

theorem grows (h : w.Recorded) (hw : w.Sane cs) (hw' : w'.Sane cs) (hle : w.Le w')
    (hplaced : ∀ n, w.Placed cs n) (hok : w.CarriesRequests a)
    (hgrows : w.Grows a w' g e st st') : w'.Recorded := by
  obtain ⟨r, hp⟩ := hgrows.performs
  have happly : st.applyOp g e.op = some (st', r) := Machine.Performs.apply_eq hp
  have happ := hp.applies
  have hv : w.Visits g st := Machine.visits_self hgrows.full
  -- what the entry writes
  have hdone {x : Write} (hx : x ∈ done g st e) :
      x.gid = g ∧ st.serves x.shard ∧ st.latestAppliedRequest.latest x.clientId < x.requestId ∧
        x.requestId ≤ st'.latestAppliedRequest.latest x.clientId := by
    obtain ⟨⟨s, c, q⟩, hy, rfl⟩ := Option.map_eq_some_iff.mp (Option.mem_toList.mp hx)
    obtain ⟨hserves, hnew, hlatest⟩ := State.effect_of_some g hy
    exact ⟨rfl, hserves, hnew, hlatest st' r happly⟩
  refine ⟨fun x hx => ?_, fun h' t s hfull hserves x hx hs => ?_, ?_⟩
  · rw [hgrows.writes] at hx
    rcases List.mem_append.mp hx with hold | hnew
    · obtain ⟨t, ht, hserves⟩ := h.served x hold
      exact ⟨t, ht.mono hle, hserves⟩
    · obtain ⟨rfl, hserves, -⟩ := hdone hnew
      exact ⟨st, hv.mono hle, hserves⟩
  · rw [hgrows.writes] at hx
    rcases eq_or_ne h' g with rfl | hne
    · obtain rfl : st' = t := Option.some.inj (hgrows.full'.symm.trans hfull)
      rcases List.mem_append.mp hx with hold | hnew
      · refine le_trans ?_ (happ.evolves.latest _)
        rcases (hw'.turns hp s).serves hserves with hbefore | ⟨h0, h1⟩ | ⟨hop, hpulling⟩
        · exact h.covered h' st s hgrows.full hbefore x hold hs
        · obtain ⟨-, howner⟩ := hw'.owner_of_serves (Machine.visits_self hfull) hserves
          rw [h1] at howner
          exact (h.not_written hw hplaced hgrows.full h0 howner hold hs).elim
        · exact hgrows.carries hok s hop hpulling x hold hs
      · exact (hdone hnew).2.2.2
    · rw [Full, hgrows.others h' hne] at hfull
      rcases List.mem_append.mp hx with hold | hnew
      · exact h.covered h' t s hfull hserves x hold hs
      · obtain ⟨-, hserves', -⟩ := hdone hnew
        rw [hs] at hserves'
        exact absurd (hw.serves_unique hplaced hfull hgrows.full hserves hserves') hne
  · rw [hgrows.writes, List.map_append, List.nodup_append]
    refine ⟨h.once, ?_, ?_⟩
    · rw [done]
      cases st.effect e.op with
      | none => exact List.nodup_nil
      | some y => exact List.nodup_singleton _
    · intro k hk k' hk' heq
      obtain ⟨x, hx, rfl⟩ := List.mem_map.mp hk
      obtain ⟨y, hy, rfl⟩ := List.mem_map.mp hk'
      obtain ⟨hshard, hclient, hrequest⟩ :
          x.shard = y.shard ∧ x.clientId = y.clientId ∧ x.requestId = y.requestId := by
        simpa [Write.key] using heq
      -- a write to a shard that is served is in the table, and the new one is not
      obtain ⟨-, hserves, hlt, -⟩ := hdone hy
      have hle := h.covered g st y.shard hgrows.full hserves x hx hshard
      rw [hclient, hrequest] at hle
      omega

end Recorded

/-- All that a run keeps if it serves no late `Leave` and carries the requests. -/
structure Careful (cs : Configs) (w : World) : Prop where
  sane : w.Sane cs
  ordered : w.Ordered
  stamped : w.Stamped (· ≤ ·)
  recorded : w.Recorded

/-- **Writes, step.** -/
theorem Careful.step (hc : w.Careful cs) (hok : w.ServesLeave (· ≤ ·) a ∧ w.CarriesRequests a)
    (h : w.step cs a = some w') : w'.Careful cs := by
  obtain ⟨hw, ho, hstamped, hrec⟩ := hc
  have hmoves := moves_of_step hw h
  have hw' := hw.step h
  refine ⟨hw', ho.step hw h, hstamped.step hw hok.1 h, ?_⟩
  rcases hw.still_or_grows hmoves with hstill | ⟨g, e, st, st', hgrows⟩
  · exact hrec.still hmoves.le hstill
  · exact hrec.grows hw hw' hmoves.le (hw.placed ho hstamped) hok.2 hgrows

end World

/-- **Writes take effect once.** If a group takes over a shard only when its table covers the writes
    done to the shard, and no replica beyond the version of a `Leave` request serves it, then every
    request of a client takes effect at most once on a shard, over all groups. -/
theorem writes_once {cs : Configs} {w : World}
    (hr : World.Reachable cs (fun w a => w.ServesLeave (· ≤ ·) a ∧ w.CarriesRequests a) w) :
    (w.writes.map Write.key).Nodup :=
  (Run.invariant (I := World.Careful cs) (fun _ _ _ hc hok hstep => hc.step hok hstep) hr
    ⟨.init, .init, .init, .init⟩).recorded.once

/-- Group 2 has taken over shard 0 when client 7 appends there, tries again, and appends once
    more. -/
def appendAfter : List Action :=
  fetchNext 1 ++ fetchNext 2 ++ fetchNext 1 ++ fetchNext 2 ++ pullNext 2 1 0 ++ appendAt 2 0 ++
    appendAt 2 0 ++ appendAt 2 1

theorem writes_once_appendAfter :
    ∃ w, World.Reachable oneToTwo (fun w a => w.ServesLeave (· ≤ ·) a ∧ w.CarriesRequests a) w ∧
      w.writes = [⟨2, shardZero, 7, 0⟩, ⟨2, shardZero, 7, 1⟩] ∧
      (w.writes.map Write.key).Nodup := by
  obtain ⟨w, hr, hwrites⟩ := exists_run_of_execOk (World.step oneToTwo)
    (fun w a => w.ServesLeave (· ≤ ·) a ∧ w.CarriesRequests a) World.init appendAfter
    (fun w => w.writes = [⟨2, shardZero, 7, 0⟩, ⟨2, shardZero, 7, 1⟩]) (by decide +kernel)
  exact ⟨w, hr, hwrites, writes_once hr⟩

/-- Group 1 applies the request, and the reply is lost.  The shard goes to group 2, and the client
    sends the request there. -/
def retryElsewhere : List Action :=
  fetchNext 1 ++ fetchNext 2 ++ appendAt 1 0 ++ fetchNext 1 ++ fetchNext 2 ++ pullNext 2 1 0 ++
    appendAt 2 0

/-- One request is applied in both groups, and its value is there twice. -/
theorem append_applied_twice :
    ∃ w, World.Reachable oneToTwo (fun w a => w.ServesLeave (· ≤ ·) a) w ∧
      w.writes = [⟨1, shardZero, 7, 0⟩, ⟨2, shardZero, 7, 0⟩] ∧
      ∃ st sh, w.Full 2 st ∧ st.shards shardZero = some sh ∧
        sh.storage.get? [50] = some [120, 120] := by
  obtain ⟨w, hr, hwrites, htwo⟩ := exists_run_of_execOk (World.step oneToTwo)
    (fun w a => w.ServesLeave (· ≤ ·) a) World.init retryElsewhere
    (fun w => w.writes = [⟨1, shardZero, 7, 0⟩, ⟨2, shardZero, 7, 0⟩] ∧
      ((machine 2).replay (w.groups 2).agreed).any fun st =>
        (st.shards shardZero).any fun sh => sh.storage.get? [50] = some [120, 120])
    (by decide +kernel)
  obtain ⟨st, hst, hsome⟩ := (Option.any_eq_true _ _).mp htwo
  obtain ⟨sh, hsh, hvalue⟩ := (Option.any_eq_true _ _).mp hsome
  exact ⟨w, hr, hwrites, st, sh, hst, hsh, of_decide_eq_true hvalue⟩

end MitDistributed.ShardKV
