import MitDistributed.ShardKV.Live

namespace MitDistributed.ShardKV

open Function Rsm ShardCtrler Transition

/-!
# Sharded store — the contents of a shard that is handed over

As long as no `PULL_SHARD` is encoded after its map has changed, the memory of every server holds
what its replicated state says (`Live.Faithful`).

* `handoff_preserves_contents` — then a shard arrives with the contents it had when the previous
  owner let go of it, and it arrives once; `shared_map_changes_entry` otherwise.
-/

/-! ### The memory of one server -/

namespace Memory

/-- The memory holds what the state and the log of the server say. -/
structure Shows (m : Memory) (sv : Server State Entry WaitChResponse) : Prop where
  shards : ∀ s sh, sv.state.shards s = some sh → m.shards s = sh.storage
  entries : ∀ p e, sv.applied ≤ p → sv.raftLog[p]? = some e → ∀ storage ∈ e.op.storage?,
    m.entries p = storage
  shared : ∀ s p, m.shared s = some p → p < sv.applied

namespace Shows

variable {m : Memory} {sv sv' : Server State Entry WaitChResponse} {e : Entry} {g : Gid}

theorem init : Memory.init.Shows (Server.init (machine g)) where
  shards _ _ hsh := by cases hsh
  entries _ _ _ he := by cases he
  shared _ _ hp := by cases hp

/-- The tasks do not matter. -/
theorem withTasks (h : m.Shows sv) (tasks : List Task) : { m with tasks := tasks }.Shows sv :=
  ⟨h.shards, h.entries, h.shared⟩

/-- The log may be longer, by entries without contents. -/
theorem extend (h : m.Shows sv) {tail : List Entry} (hext : sv.Extends sv' tail)
    (htail : ∀ e ∈ tail, e.op.storage? = none) : m.Shows sv' where
  shards s sh hsh := by
    rw [hext.state] at hsh
    exact h.shards s sh hsh
  entries p e hp he storage hst := by
    rw [hext.applied] at hp
    rw [hext.raftLog, List.getElem?_append] at he
    split at he
    · exact h.entries p e hp he storage hst
    · rw [htail e (List.mem_of_getElem? he)] at hst
      cases hst
  shared s p hs := by
    rw [hext.applied]
    exact h.shared s p hs

/-- One more entry at the end of the log, with its contents. -/
theorem push (h : m.Shows sv) {storage : Storage} (hext : sv.Extends sv' [e])
    (he : ∀ st ∈ e.op.storage?, storage = st) :
    { m with entries := update m.entries sv.raftLog.length storage }.Shows sv' where
  shards s sh hsh := by
    rw [hext.state] at hsh
    exact h.shards s sh hsh
  entries p e' hp he' st hst := by
    rw [hext.applied] at hp
    rw [hext.raftLog] at he'
    show update m.entries sv.raftLog.length storage p = st
    rcases eq_or_ne p sv.raftLog.length with rfl | hne
    · rw [List.getElem?_concat_length] at he'
      rw [update_self]
      exact he st (Option.some.inj he' ▸ hst)
    · rw [update_of_ne hne]
      refine h.entries p e' hp ?_ st hst
      rw [List.getElem?_append] at he'
      split at he'
      · exact he'
      · rename_i hlt
        rw [List.getElem?_singleton, if_neg (by omega)] at he'
        cases he'
  shared s p hs := by
    rw [hext.applied]
    exact h.shared s p hs

/-- The log may be cut off. -/
theorem take (h : m.Shows sv) {n : ℕ} (hlog : sv'.raftLog = sv.raftLog.take n)
    (happlied : sv'.applied = sv.applied) (hstate : sv'.state = sv.state) : m.Shows sv' where
  shards s sh hsh := by
    rw [hstate] at hsh
    exact h.shards s sh hsh
  entries p e hp he := by
    rw [happlied] at hp
    rw [hlog, List.getElem?_take] at he
    split at he
    · exact h.entries p e hp he
    · cases he
  shared s p hs := by
    rw [happlied]
    exact h.shared s p hs

/-! ### Applying an entry -/

/-- A write goes to the map of an applied entry at most. -/
theorem entries_write (h : m.Shows sv) (s : ShardId) (f : Storage → Storage) {p : ℕ}
    (hp : sv.applied ≤ p) : (m.write s f).entries p = m.entries p := by
  unfold Memory.write
  cases hs : m.shared s with
  | some pos =>
    have hlt := h.shared s pos hs
    exact update_of_ne (by omega) _ _
  | none => rfl

/-- The maps after a write, where the state after it differs in this shard only. -/
theorem write (h : m.Shows sv) {s : ShardId} {f : Storage → Storage} {sh : Shard} {st' : State}
    (hsh : sv.state.shards s = some sh)
    (hself : st'.shards s = some { sh with storage := f sh.storage })
    (hother : ∀ s', s' ≠ s → st'.shards s' = sv.state.shards s') (s' : ShardId) (sh' : Shard)
    (hsh' : st'.shards s' = some sh') : (m.write s f).shards s' = sh'.storage := by
  show update m.shards s (f (m.shards s)) s' = sh'.storage
  rcases eq_or_ne s' s with rfl | hne
  · rw [hself] at hsh'
    rw [update_self, h.shards s' sh hsh, ← Option.some.inj hsh']
  · rw [hother s' hne] at hsh'
    rw [update_of_ne hne]
    exact h.shards s' sh' hsh'

end Shows

variable {m : Memory} {sv sv' : Server State Entry WaitChResponse} {e : Entry} {g : Gid}
  {st st' : State} {op : Op} {r : WaitChResponse} {pos : ℕ}

/-- The contents of the shards after a configuration. -/
theorem shards_create {config : Config}
    (h : ∀ s sh, st.shards s = some sh → m.shards s = sh.storage) (s : ShardId) (sh : Shard)
    (hsh : State.updateShards g config st.shards s = some sh) :
    (m.create g st config).shards s = sh.storage := by
  show (if config.shards s = g ∧ (config.num = 1 ∨ st.shards s = none) then Storage.empty
    else m.shards s) = sh.storage
  unfold State.updateShards at hsh
  by_cases hone : config.num = 1
  · rw [if_pos hone] at hsh
    by_cases hmine : config.shards s = g
    · rw [if_pos hmine] at hsh
      rw [if_pos ⟨hmine, .inl hone⟩, ← Option.some.inj hsh]
    · rw [if_neg hmine] at hsh
      rw [if_neg fun hnew => hmine hnew.1]
      exact h s sh hsh
  · rw [if_neg hone] at hsh
    split at hsh
    · rename_i hnone
      split at hsh
      · rename_i hmine
        rw [if_pos ⟨hmine, .inr hnone⟩, ← Option.some.inj hsh]
      · cases hsh
    · rename_i sh' hsome
      have hold : ¬ (config.shards s = g ∧ (config.num = 1 ∨ st.shards s = none)) := by
        rw [hsome]
        simp [hone]
      rw [if_neg hold, h s sh' hsome]
      split at hsh <;> rw [← Option.some.inj hsh]

/-- What a write does to the shards of the state. -/
theorem shards_applyWrite (key : Bytes) (c q : ℤ) (write : Storage → Storage) :
    (st.serves (key2shard key) ∧ q > st.latestAppliedRequest.latest c →
      ∃ sh, st.shards (key2shard key) = some sh ∧
        (st.applyWrite key c q write).1.shards (key2shard key) =
          some { sh with storage := write sh.storage } ∧
        ∀ s, s ≠ key2shard key → (st.applyWrite key c q write).1.shards s = st.shards s) ∧
    (¬ (st.serves (key2shard key) ∧ q > st.latestAppliedRequest.latest c) →
      (st.applyWrite key c q write).1.shards = st.shards) := by
  unfold State.applyWrite
  cases hsh : st.shards (key2shard key) with
  | none =>
    refine ⟨fun hcond => ?_, fun _ => rfl⟩
    have hserves := hcond.1
    rw [State.serves, State.status, hsh] at hserves
    exact absurd hserves (by simp)
  | some sh =>
    have hiff : st.serves (key2shard key) ↔ sh.status = .working ∨ sh.status = .waiting := by
      rw [State.serves, State.status, hsh]
      simp
    dsimp only
    constructor
    · rintro ⟨hserves, hnew⟩
      rw [if_pos (hiff.mp hserves), if_pos hnew]
      exact ⟨sh, rfl, State.setShard_self _ _ _, fun s hne => State.setShard_of_ne _ _ hne⟩
    · intro hnot
      split_ifs with hserves hnew
      · exact absurd ⟨hiff.mpr hserves, hnew⟩ hnot
      · rfl
      · rfl

namespace Shows

/-- A server that has applied an entry. -/
theorem next {m' : Memory} (h : m.Shows sv) (hraft : sv'.raftLog = sv.raftLog)
    (happlied : sv'.applied = sv.applied + 1)
    (hshards : ∀ s sh, sv'.state.shards s = some sh → m'.shards s = sh.storage)
    (hentries : ∀ p, sv.applied ≤ p → m'.entries p = m.entries p)
    (hshared : ∀ s p, m'.shared s = some p → p < sv.applied + 1) : m'.Shows sv' where
  shards := hshards
  entries p e hp he storage hst := by
    rw [hentries p (by omega)]
    exact h.entries p e (by omega) (hraft ▸ he) storage hst
  shared s p hs := by
    rw [happlied]
    exact hshared s p hs

/-- **Contents, one entry.** -/
theorem apply (h : m.Shows sv) (hlog : sv.raftLog[sv.applied]? = some e)
    (happly : sv.state.applyOp g e.op = some (sv'.state, r)) (hraft : sv'.raftLog = sv.raftLog)
    (happlied : sv'.applied = sv.applied + 1) :
    (m.applyOp g sv.state sv.applied e.op).Shows sv' := by
  have hshared (s : ShardId) (p : ℕ) (hs : m.shared s = some p) : p < sv.applied + 1 :=
    Nat.lt_succ_of_lt (h.shared s p hs)
  -- the maps are the same, and so are the shards but for some that may be gone
  have hsame (hst : ∀ s sh, sv'.state.shards s = some sh → ∃ sh', sv.state.shards s = some sh' ∧
      sh'.storage = sh.storage) : m.Shows sv' := by
    refine h.next hraft happlied (fun s sh hsh => ?_) (fun _ _ => rfl) hshared
    obtain ⟨sh', hsh', heq⟩ := hst s sh hsh
    rw [h.shards s sh' hsh', heq]
  -- a write, with an effect or without
  have hwrite (key : Bytes) (c q : ℤ) (write : Storage → Storage)
      (hst : (sv.state.applyWrite key c q write).1 = sv'.state) :
      (m.writeAt (if sv.state.serves (key2shard key) ∧ q > sv.state.latestAppliedRequest.latest c
        then some (key2shard key, c, q) else none) write).Shows sv' := by
    obtain ⟨hyes, hno⟩ := @shards_applyWrite sv.state key c q write
    rw [hst] at hyes hno
    split_ifs with hcond
    · obtain ⟨sh, hsh, hself, hother⟩ := hyes hcond
      exact h.next hraft happlied (h.write hsh hself hother)
        (fun p hp => h.entries_write _ _ hp) hshared
    · refine hsame fun s sh hsh => ⟨sh, ?_, rfl⟩
      rw [← hno hcond]
      exact hsh
  cases hop : e.op with
  | get key c q =>
    rw [hop] at happly
    have hst : (sv.state.applyGet key c q).1 = sv'.state :=
      congrArg Prod.fst (Option.some.inj happly)
    refine hsame fun s sh hsh => ⟨sh, ?_, rfl⟩
    rw [← hst] at hsh
    unfold State.applyGet at hsh
    split at hsh
    · split at hsh <;> exact hsh
    · exact hsh
  | put key value c q =>
    rw [hop] at happly
    exact hwrite key c q _ (congrArg Prod.fst (Option.some.inj happly))
  | append key value c q =>
    rw [hop] at happly
    exact hwrite key c q _ (congrArg Prod.fst (Option.some.inj happly))
  | updateConfig config =>
    rw [hop] at happly
    have hst : sv.state.applyUpdateConfig g config = sv'.state :=
      congrArg Prod.fst (Option.some.inj happly)
    unfold State.applyUpdateConfig at hst
    rw [Memory.applyOp]
    split_ifs at hst ⊢ with hnum
    · refine h.next hraft happlied (fun s sh hsh => ?_) (fun _ _ => rfl) (fun s p hs => ?_)
      · rw [← hst] at hsh
        exact shards_create h.shards s sh hsh
      · refine hshared s p ?_
        unfold Memory.create at hs
        dsimp only at hs
        split at hs
        · cases hs
        · exact hs
    · exact hsame fun s sh hsh => ⟨sh, by rw [hst]; exact hsh, rfl⟩
  | pullShard s v storage =>
    rw [hop] at happly
    obtain ⟨st', hst, heq⟩ := Option.map_eq_some_iff.mp happly
    obtain rfl : st' = sv'.state := congrArg Prod.fst heq
    rw [Memory.applyOp]
    rcases State.applyPullShard_spec hst with ⟨hcond, hnew⟩ | ⟨hcond, hnew⟩
    · rw [if_pos hcond]
      refine h.next hraft happlied (fun s' sh' hsh' => ?_) (fun _ _ => rfl) (fun s' p hs => ?_)
      · show update m.shards s (m.entries sv.applied) s' = sh'.storage
        rw [hnew] at hsh'
        rcases eq_or_ne s' s with rfl | hne
        · rw [State.setShard_self] at hsh'
          rw [update_self, ← Option.some.inj hsh']
          exact h.entries sv.applied e le_rfl hlog storage (by rw [hop]; rfl)
        · rw [State.setShard_of_ne _ _ hne] at hsh'
          rw [update_of_ne hne]
          exact h.shards s' sh' hsh'
      · have hs : update m.shared s (some sv.applied) s' = some p := hs
        rcases eq_or_ne s' s with rfl | hne
        · rw [update_self] at hs
          rw [← Option.some.inj hs]
          exact Nat.lt_succ_self _
        · rw [update_of_ne hne] at hs
          exact hshared s' p hs
    · rw [if_neg hcond]
      exact hsame fun s sh hsh => ⟨sh, by rw [← hnew]; exact hsh, rfl⟩
  | leaveShard s v =>
    rw [hop] at happly
    have hst : (sv.state.applyLeaveShard s v).1 = sv'.state :=
      congrArg Prod.fst (Option.some.inj happly)
    refine hsame fun s' sh' hsh' => ⟨sh', ?_, rfl⟩
    rw [← hst] at hsh'
    unfold State.applyLeaveShard at hsh'
    split_ifs at hsh'
    · rcases eq_or_ne s' s with rfl | hne
      · cases (State.setShard_self _ _ _).symm.trans hsh'
      · exact (State.setShard_of_ne _ _ hne).symm.trans hsh'
    · exact hsh'
    · exact hsh'
  | transferDone s v =>
    rw [hop] at happly
    obtain ⟨st', hst, heq⟩ := Option.map_eq_some_iff.mp happly
    obtain rfl : st' = sv'.state := congrArg Prod.fst heq
    refine hsame fun s' sh' hsh' => ?_
    unfold State.applyTransferDone at hst
    split_ifs at hst
    · split at hst
      · rename_i sh hsh
        split_ifs at hst
        · rw [← Option.some.inj hst] at hsh'
          rcases eq_or_ne s' s with rfl | hne
          · rw [State.setShard_self] at hsh'
            exact ⟨sh, hsh, by rw [← Option.some.inj hsh']⟩
          · rw [State.setShard_of_ne _ _ hne] at hsh'
            exact ⟨sh', hsh', rfl⟩
        · exact ⟨sh', by rw [Option.some.inj hst]; exact hsh', rfl⟩
      · cases hst
    · exact ⟨sh', by rw [Option.some.inj hst]; exact hsh', rfl⟩

/-- A server with the state of a snapshot, and the contents that go with it. -/
theorem jump {shards : ShardId → Storage} (tasks : List Task)
    (hshards : ∀ s sh, sv'.state.shards s = some sh → shards s = sh.storage)
    (hentries : ∀ p e, sv'.applied ≤ p → sv'.raftLog[p]? = some e → ∀ storage ∈ e.op.storage?,
      m.entries p = storage) :
    { m with shards := shards, shared := fun _ => none, tasks := tasks }.Shows sv' :=
  ⟨hshards, hentries, fun _ _ hs => by cases hs⟩

end Shows

end Memory

/-! ### All servers -/

namespace Live

/-- No `PULL_SHARD` is encoded after its map has changed. -/
def EncodesUnchanged (x : Live) : LiveAction → Prop
  | .encode g s pos => ∀ e ∈ (x.server g s).raftLog[pos]?, ∀ storage ∈ e.op.storage?,
      (x.memory g s).entries pos = storage
  | _ => True

instance (x : Live) (a : LiveAction) : Decidable (x.EncodesUnchanged a) := by
  unfold EncodesUnchanged
  split <;> infer_instance

/-- Consensus takes no entry away from a handler that waits for it to be applied. -/
def KeepsWaiting (x : Live) : LiveAction → Prop
  | .truncate g s n => (x.server g s).KeepsWaiting (.overwrite ((x.server g s).raftLog.take n))
  | .install g s i => ∀ y ∈ x.images[i]?, (x.server g s).KeepsWaiting
      (.overwrite ((x.world.groups g).agreed.take y.applied ++
        (x.server g s).raftLog.drop y.applied))
  | _ => True

instance (x : Live) : (a : LiveAction) → Decidable (x.KeepsWaiting a)
  | .truncate g s _ => inferInstanceAs (Decidable ((x.server g s).KeepsWaiting (.overwrite _)))
  | .install g s i => inferInstanceAs (Decidable (∀ y ∈ x.images[i]?, (x.server g s).KeepsWaiting
      (.overwrite _)))
  | .act _ | .round .. | .encode .. | .serialize .. | .receive .. | .restart .. => isTrue trivial

/-- The snapshot is the state that the first entries of the agreed log lead to. -/
def Image.Shows (agreed : List Entry) (y : Image) : Prop :=
  y.applied ≤ agreed.length ∧ (machine y.gid).replay (agreed.take y.applied) = some y.state

/-- Everything in memory, under way or on disk is as the replicated states say. -/
structure Faithful (x : Live) : Prop where
  memory : ∀ g s, (x.memory g s).Shows (x.server g s)
  replies : x.replies = x.world.pulled.map Pulled.storage
  encoded : ∀ y ∈ x.encoded, ∀ storage ∈ y.entry.op.storage?, y.storage = storage
  images : ∀ y ∈ x.images, Image.Shows (x.world.groups y.gid).agreed y

variable {cs : Configs} {x x' : Live} {a : LiveAction} {g : Gid} {i : ℕ} {w w' : World}

theorem Image.Shows.mono {agreed agreed' : List Entry} {y : Image} (h : Image.Shows agreed y)
    (hpre : agreed <+: agreed') : Image.Shows agreed' y := by
  refine ⟨h.1.trans hpre.length_le, ?_⟩
  rw [take_eq_of_isPrefix hpre h.1]
  exact h.2

/-- A log of which the first `k` entries are replaced. -/
theorem getElem?_take_append_drop {agreed log : List Entry} {k p : ℕ} (hk : k ≤ agreed.length)
    (hp : k ≤ p) : (agreed.take k ++ log.drop k)[p]? = log[p]? := by
  have hlen : (agreed.take k).length = k := List.length_take_of_le hk
  rw [List.getElem?_append_right (by omega), hlen, List.getElem?_drop, Nat.add_sub_cancel' hp]

namespace Faithful

/-- A server has the state that its log leads to. -/
theorem actual_eq (h : x.Faithful) (g : Gid) (s : ℕ) : x.actual g s = x.world.state g s :=
  State.withContents_eq (h.memory g s).shards

/-- The state from which a server restarts. -/
theorem restored (h : x.Faithful) {j : Option ℕ} {k : ℕ} {st : State} (hi : x.restores g j k st) :
    Image.Shows (x.world.groups g).agreed ⟨g, k, st⟩ := by
  cases j with
  | none =>
    obtain ⟨rfl, rfl⟩ := hi
    exact ⟨Nat.zero_le _, rfl⟩
  | some j => exact h.images _ (List.mem_of_getElem? hi)

theorem init : Live.init.Faithful where
  memory _ _ := .init
  replies := rfl
  encoded _ hy := absurd hy List.not_mem_nil
  images _ hy := absurd hy List.not_mem_nil

/-- One server and its memory have changed. -/
theorem setMemory (h : x.Faithful) {m : Memory} (halone : x.world.Alone w g i)
    (hself : m.Shows (w.server g i)) (hpulled : w.pulled = x.world.pulled)
    (hagreed : ∀ g, (x.world.groups g).agreed <+: (w.groups g).agreed) :
    ((x.setWorld w).setMemory g i m).Faithful where
  memory h' j := by
    by_cases heq : h' = g ∧ j = i
    · obtain ⟨rfl, rfl⟩ := heq
      rw [setMemory_self]
      exact hself
    · rw [setMemory_of_ne _ _ heq]
      show (x.memory h' j).Shows (w.server h' j)
      rw [halone h' j heq]
      exact h.memory h' j
  replies := by
    show x.replies = w.pulled.map Pulled.storage
    rw [hpulled]
    exact h.replies
  encoded := h.encoded
  images y hy := (h.images y hy).mono (hagreed y.gid)

/-- Some server has changed, and its memory still shows it. -/
theorem setWorld (h : x.Faithful) (halone : x.world.Alone w g i)
    (hself : (x.memory g i).Shows (w.server g i)) (hpulled : w.pulled = x.world.pulled)
    (hagreed : ∀ g, (x.world.groups g).agreed <+: (w.groups g).agreed) :
    (x.setWorld w).Faithful where
  memory h' j := by
    show (x.memory h' j).Shows (w.server h' j)
    by_cases heq : h' = g ∧ j = i
    · obtain ⟨rfl, rfl⟩ := heq
      exact hself
    · rw [halone h' j heq]
      exact h.memory h' j
  replies := by
    show x.replies = w.pulled.map Pulled.storage
    rw [hpulled]
    exact h.replies
  encoded := h.encoded
  images y hy := (h.images y hy).mono (hagreed y.gid)

/-- **Contents, step.** -/
theorem step (h : x.Faithful) (hw : x.world.Sane cs) (hok : x.EncodesUnchanged a)
    (hstep : x.step cs a = some x') : x'.Faithful := by
  have hmoves := moves_of_step hstep
  have hagreed := hmoves.agreed hw
  have hw' := hmoves.sane hw
  cases hmoves with
  | plain ha hs =>
    obtain ⟨hpulled, tail, ⟨g, i, halone, hext⟩, htail⟩ := World.plain_step hw hs ha
    exact h.setWorld halone ((h.memory g i).extend hext htail) hpulled hagreed
  | @pull i y g s w hy hs =>
    obtain ⟨hgroups, sh, hsh, hpulled⟩ := World.pull_step hs hy
    have hserver (h' : Gid) (j : ℕ) : w.server h' j = x.world.server h' j := by
      rw [World.server, hgroups, World.server]
    refine ⟨fun h' j => ?_, ?_, h.encoded, fun y hy => (h.images y hy).mono (hagreed y.gid)⟩
    · show (x.memory h' j).Shows (w.server h' j)
      rw [hserver]
      exact h.memory h' j
    · show x.replies ++ [(x.memory g s).shards y.shard] = w.pulled.map Pulled.storage
      rw [hpulled, List.map_append, ← h.replies, (h.memory g s).shards y.shard sh hsh]
      rfl
  | @gotPull i storage g s w hi hs =>
    obtain ⟨hpulled, y, e, hy, he, halone, hext⟩ := World.gotPull_step hs
    refine h.setMemory halone ((h.memory g s).push hext fun st hst => ?_) hpulled hagreed
    rw [h.replies, List.getElem?_map, hy] at hi
    rw [he] at hst
    exact (Option.some.inj hi).symm.trans (Option.some.inj hst)
  | @apply g s e w he hs =>
    obtain ⟨halone, hpulled, e', hacts, hserver⟩ := World.internal_server hs
    cases hacts with
    | @apply e₀ y hlog _ hy =>
      obtain rfl : e = e₀ := Option.some.inj (he.symm.trans hlog)
      obtain ⟨st', r⟩ := y
      refine h.setMemory halone ?_ hpulled hagreed
      refine Memory.Shows.withTasks ((h.memory g s).apply hlog (r := r) ?_ ?_ ?_) _
      · rw [hserver]
        exact hy
      · rw [hserver]
        rfl
      · rw [hserver]
        rfl
  | goOn => exact h
  | @stop g s i t =>
    have halone : x.world.Alone x.world g s := fun _ _ _ => rfl
    exact h.setMemory halone ((h.memory g s).withTasks _) rfl hagreed
  | encode he =>
    refine ⟨h.memory, h.replies, fun y hy => ?_, h.images⟩
    rcases List.mem_append.mp hy with hold | hnew
    · exact h.encoded y hold
    · rw [List.mem_singleton.mp hnew]
      exact hok _ he
  | serialize g s =>
    refine ⟨h.memory, h.replies, h.encoded, fun y hy => ?_⟩
    rcases List.mem_append.mp hy with hold | hnew
    · exact h.images y hold
    · rw [List.mem_singleton.mp hnew]
      have hsound := (hw.sound g).servers s
      refine ⟨hsound.applied_le, ?_⟩
      rw [h.actual_eq]
      exact hsound.state_eq
  | @truncate g s n w hs =>
    obtain ⟨halone, hpulled, e', hacts, hserver⟩ := World.internal_server hs
    cases hacts with
    | overwrite =>
      refine h.setWorld halone ((h.memory g s).take (n := n) ?_ ?_ ?_) hpulled hagreed <;>
        rw [hserver] <;> rfl
  | @receive i y g s w hy hpos hs =>
    obtain ⟨halone, hpulled, e', hacts, hserver⟩ := World.internal_server hs
    cases hacts with
    | overwrite =>
      have hext : (x.server g s).Extends (w.server g s) [y.entry] := by
        rw [hserver]
        exact ⟨rfl, rfl, rfl⟩
      rw [hpos]
      exact h.setMemory halone
        ((h.memory g s).push hext (h.encoded y (List.mem_of_getElem? hy))) hpulled hagreed
  | @install i y s w w' hy hs hs' =>
    obtain ⟨hrest, hlt⟩ := World.restored_install hs hs'
    have himage := h.images y (List.mem_of_getElem? hy)
    refine h.setMemory hrest.alone (Memory.Shows.jump _ ?_ ?_) hrest.pulled hagreed
    · have hstate : (w'.server y.gid s).state = y.state :=
        hw'.restored_state hrest (himage.mono (hagreed y.gid)).2
      rw [hstate]
      exact State.contents_eq
    · -- beyond the snapshot the log is as before
      rw [hrest.applied, hrest.raftLog]
      intro p e hp he
      rw [getElem?_take_append_drop himage.1 hp] at he
      exact (h.memory y.gid s).entries p e (hlt.le.trans hp) he
  | @restart g i k st s w w' hi hs hs' =>
    have hrest := World.restored_restart hs hs'
    refine h.setMemory hrest.alone (Memory.Shows.jump (m := .init) _ ?_ ?_) hrest.pulled hagreed
    · have hstate : (w'.server g s).state = st :=
        hw'.restored_state hrest ((h.restored hi).mono (hagreed g)).2
      rw [hstate]
      exact State.contents_eq
    · -- the log ends with the snapshot
      rw [hrest.applied, hrest.raftLog]
      intro p e hp he
      rw [List.getElem?_eq_none (by rw [List.length_take]; omega)] at he
      cases he

end Faithful

/-- **Contents, run.** -/
theorem Reachable.faithful (hr : Reachable cs EncodesUnchanged x) : x.Faithful :=
  (Run.invariant (I := fun x => x.world.Sane cs ∧ x.Faithful)
    (fun _ _ _ hx hok hstep => ⟨(moves_of_step hstep).sane hx.1, hx.2.step hx.1 hok hstep⟩) hr
    ⟨.init, .init⟩).2

/-! ### Acknowledged writes -/

/-- **Own entries, step.** -/
theorem Moves.kept (h : x.Moves cs a x') (hw : x.world.Sane cs) (hkept : x.world.Kept)
    (hok : x.KeepsWaiting a) : x'.world.Kept := by
  have hone {w w' : World} {b : Action} (hkept : w.Kept) (hw : w.Sane cs)
      (hstep : w.step cs b = some w') (hb : w.KeepsWaiting b) : w'.Kept := hkept.step hw hb hstep
  cases h with
  | @plain b w ha hstep =>
    refine hone hkept hw hstep ?_
    cases b with
    | internal g s y =>
      cases y with
      | overwrite => cases ha
      | _ => trivial
    | _ => trivial
  | pull _ hstep | gotPull _ hstep | apply _ hstep => exact hone hkept hw hstep trivial
  | goOn | stop | encode | serialize => exact hkept
  | truncate hstep => exact hone hkept hw hstep hok
  | @receive i y g s w hy hpos hstep =>
    refine hone hkept hw hstep fun z hz _ => ?_
    -- the entries of the handlers stay where they are
    have hget := (hkept g).servers s z hz
    exact (List.getElem?_append_left (List.getElem?_eq_some_iff.mp hget).1).trans hget
  | install hy hstep hstep' =>
    exact hone (hone hkept hw hstep (hok _ hy)) (hw.step hstep) hstep' trivial
  | @restart g i k st s w w' hi hstep hstep' =>
    refine hone (hone hkept hw hstep trivial) (hw.step hstep) hstep' fun z hz => ?_
    -- a server has no handlers when it is restarted
    obtain ⟨-, -, e, hacts, hserver⟩ := World.internal_server hstep
    have hz : z ∈ (w.server g s).handlers := hz
    cases hacts with
    | restart =>
      rw [hserver] at hz
      cases hz

/-- **Own entries, run.** -/
theorem Reachable.kept (hr : Reachable cs KeepsWaiting x) : x.world.Kept :=
  (Run.invariant (I := fun x => x.world.Sane cs ∧ x.world.Kept)
    (fun _ _ _ hx hok hstep => ⟨(moves_of_step hstep).sane hx.1,
      (moves_of_step hstep).kept hx.1 hx.2 hok⟩) hr ⟨.init, fun _ => .init⟩).2

end Live

/-- The operation with which a shard goes from `PULLING` to `WAITING`. -/
theorem State.Turns.pullShard {gid : Gid} {st st' : State} {op : Op} {s : ShardId}
    (h : st.Turns gid s op st') (hpulling : st.status s = some .pulling)
    (hwaiting : st'.status s = some .waiting) :
    ∃ storage, op = .pullShard s st.num storage ∧
      st'.shards s = some { storage := storage, status := .waiting } := by
  cases h with
  | keep hprev hcurr hshard =>
    rw [State.status_of_keep hshard, hpulling] at hwaiting
    cases hwaiting
  | update hnum hall hnew =>
    obtain ⟨sh, hsh, hs⟩ := Option.map_eq_some_iff.mp hwaiting
    cases hnew sh hsh with
    | first | pulling | leaving => cases hs
    | kept hmine hst => cases (hall s sh hst).symm.trans hs
  | @pull storage => exact ⟨storage, rfl, State.setShard_self _ _ _⟩
  | leave | done =>
    rw [State.status_setShard_self] at hwaiting
    cases hwaiting

end MitDistributed.ShardKV
