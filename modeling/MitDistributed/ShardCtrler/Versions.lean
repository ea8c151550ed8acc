import MitDistributed.ShardCtrler.Replica

namespace MitDistributed.ShardCtrler

open Rsm Transition

/-!
# Shard controller — versions and replicas

What holds of whole logs, for replicas as they run (`Replica`): each entry of the log comes with the
orders in which the replica runs through its maps.

* `replicas_agree` — replicas with the same log hold the same configurations, whatever the orders
  are;
* `replays_iff_movesInRange` — no operation ends the process but a `MOVE` of a shard that does not
  exist;
* `versions_of_replay` — configurations are numbered by their positions and never change, there is
  one for every different `JOIN`, `LEAVE` and `MOVE`, and a `QUERY` reports the one it asks for.
-/

/-- A replica as a machine that gets, with each operation, the orders of its maps. -/
def replicas : Machine Replica (Orders × Op) Response :=
  { init := .initial, apply := fun r x => r.applyOp x.1 x.2 }

variable {xs ys pre : List (Orders × Op)} {r r' : Replica}

/-- A replica is in the state that its log leads to. -/
theorem replay_shows (xs : List (Orders × Op)) :
    Option.Rel Replica.Shows (replicas.replay xs) (machine.replay (xs.map Prod.snd)) := by
  refine Machine.replay_rel Prod.snd Replica.initial_shows (fun r st x h => ?_) xs
  have hrel := h.applyOp x.1 x.2
  show Option.Rel _ (r.applyOp x.1 x.2) (st.applyOp x.2)
  generalize r.applyOp x.1 x.2 = y at hrel
  generalize st.applyOp x.2 = z at hrel
  cases hrel with
  | none => exact .none
  | some hagrees => exact .some hagrees.1

theorem exists_shows (h : replicas.replay xs = some r) :
    ∃ st, machine.replay (xs.map Prod.snd) = some st ∧ r.Shows st := by
  have hrel := replay_shows xs
  rw [h] at hrel
  generalize hst : machine.replay (xs.map Prod.snd) = st at hrel
  cases hrel with
  | some hshows => exact ⟨_, rfl, hshows⟩

/-! ### Any order -/

/-- The operation names an existing shard, if it names one. -/
def Op.InRange (op : Op) : Prop :=
  match op.command with
  | .move shard _ => 0 ≤ shard ∧ shard < NShards
  | _ => True

instance (op : Op) : Decidable op.InRange := by
  unfold Op.InRange
  split <;> infer_instance

/-- An operation ends the process exactly if it is a new `MOVE` of a shard that does not exist. -/
theorem State.applyOp_isSome_iff {st : State} {op : Op} :
    (st.applyOp op).isSome ↔ st.duplicated op = true ∨ op.InRange := by
  unfold State.applyOp Op.InRange
  cases op.command with
  | join servers =>
    dsimp only
    split <;> simp
  | leave gids =>
    dsimp only
    split <;> simp
  | move shard gid =>
    dsimp only
    split
    · simp [*]
    · rename_i hdup
      rw [Option.isSome_map, shardOf, or_iff_right hdup]
      split
      · rename_i hin
        exact iff_of_true rfl hin
      · rename_i hout
        exact iff_of_false (by simp) hout
  | query num => simp

/-- A replica goes on exactly if the state does. -/
theorem Replica.Shows.isSome_iff {st : State} (h : r.Shows st) (o : Orders) (op : Op) :
    (r.applyOp o op).isSome ↔ r.duplicated op = true ∨ op.InRange := by
  have hrel := h.applyOp o op
  rw [h.duplicated, ← State.applyOp_isSome_iff]
  generalize r.applyOp o op = y at hrel
  generalize st.applyOp op = z at hrel
  cases hrel with
  | none => exact Iff.rfl
  | some => exact Iff.rfl

/-- No operation along the log is a new `MOVE` of a shard that does not exist. -/
def MovesInRange (xs : List (Orders × Op)) : Prop :=
  ∀ pre x r, pre ++ [x] <+: xs → replicas.replay pre = some r →
    r.duplicated x.2 = true ∨ x.2.InRange

theorem MovesInRange.of_forall (h : ∀ x ∈ xs, x.2.InRange) : MovesInRange xs :=
  fun _ x _ hpre _ => .inr (h x (hpre.subset (List.mem_append_right _ List.mem_cons_self)))

/-- What the log leads to does not depend on the orders. -/
theorem replay_eq (xs : List (Orders × Op)) : replicas.replay xs =
    exec (fun r op => (Replica.effect r op).map Prod.fst) .initial (xs.map Prod.snd) := by
  have hstep : replicas.step = fun r x => (Replica.effect r x.2).map Prod.fst := by
    funext r x
    exact congrArg (Option.map Prod.fst) (Replica.applyOp_eq x.1 r x.2)
  rw [exec_map, Machine.replay, hstep]
  rfl

theorem MovesInRange.exists_replay (h : MovesInRange xs) : ∃ r, replicas.replay xs = some r := by
  induction xs using List.reverseRecOn with
  | nil => exact ⟨_, rfl⟩
  | append_singleton xs x ih =>
    obtain ⟨r, hr⟩ := ih fun pre y r hpre => h pre y r (hpre.trans (List.prefix_append xs [x]))
    obtain ⟨st, -, hshows⟩ := exists_shows hr
    have hsome := (hshows.isSome_iff x.1 x.2).mpr (h xs x r (List.prefix_refl _) hr)
    obtain ⟨⟨r', response⟩, hr'⟩ := Option.isSome_iff_exists.mp hsome
    exact ⟨r', Machine.replay_concat hr hr'⟩

/-- **The apply loop is total.** It applies every operation of the log, with all its loops coming
    to their ends, exactly if no new `MOVE` names a shard that does not exist. -/
theorem replays_iff_movesInRange :
    (∃ r, replicas.replay xs = some r) ↔ MovesInRange xs := by
  refine ⟨fun ⟨r, hr⟩ pre x s hpre hs => ?_, MovesInRange.exists_replay⟩
  obtain ⟨s', hs'⟩ := Machine.replay_of_isPrefix hpre hr
  obtain ⟨s₀, response, hs₀, happly⟩ := Machine.apply_of_replay_concat hs'
  obtain rfl : s₀ = s := Option.some.inj (hs₀.symm.trans hs)
  obtain ⟨st, -, hshows⟩ := exists_shows hs
  exact (hshows.isSome_iff x.1 x.2).mp (Option.isSome_iff_exists.mpr ⟨_, happly⟩)

/-- All maps in the order of their keys. -/
def Orders.increasing : Orders := ⟨.increasing _, .increasing _, .increasing _, .increasing _⟩

/-- All maps in the opposite order. -/
def Orders.decreasing : Orders := ⟨.decreasing _, .decreasing _, .decreasing _, .decreasing _⟩

/-- A `MOVE` of the shard after the last one. -/
def moveNoShard : List (Orders × Op) :=
  [(.increasing, ⟨7, 0, .join groups12⟩), (.increasing, ⟨7, 1, .move 10 1⟩)]

/-- It ends the process of every replica, each time it replays the log. -/
theorem move_of_no_shard :
    (∃ r, replicas.replay (moveNoShard.take 1) = some r) ∧ replicas.replay moveNoShard = none := by
  constructor
  · exact Option.isSome_iff_exists.mp (by decide +kernel)
  · exact Option.isNone_iff_eq_none.mp (by decide +kernel)

/-- Operations with unusual arguments: the last shard, a group that is not there, no groups, a
    negative number. -/
theorem replays_iff_movesInRange_move9 :
    ∃ r, replicas.replay [(.increasing, ⟨7, 0, .join groups12⟩), (.decreasing, ⟨7, 1, .move 9 1⟩),
      (.increasing, ⟨7, 2, .leave [1, 5]⟩), (.decreasing, ⟨8, 0, .join .empty⟩),
      (.increasing, ⟨8, 1, .query (-4)⟩)] = some r :=
  replays_iff_movesInRange.mpr (MovesInRange.of_forall (by decide))

/-- **Replicas agree.** An operation does the same to a replica in any order of the maps; so
    replicas that apply the same log hold the same configurations, and they do hold them unless
    the log has a `MOVE` of a shard that does not exist. -/
theorem replicas_agree :
    (∀ (r : Replica) (op : Op) (o o' : Orders), r.applyOp o op = r.applyOp o' op) ∧
    (∀ xs ys : List (Orders × Op), xs.map Prod.snd = ys.map Prod.snd →
      replicas.replay xs = replicas.replay ys) ∧
    ∀ log : List Op, (∀ op ∈ log, op.InRange) → ∃ r : Replica, ∀ xs : List (Orders × Op),
      xs.map Prod.snd = log → replicas.replay xs = some r := by
  refine ⟨fun r op o o' => by rw [Replica.applyOp_eq, Replica.applyOp_eq],
    fun xs ys hxy => by rw [replay_eq, replay_eq, hxy], fun log hrange => ?_⟩
  have hmoves : MovesInRange (log.map fun op => (Orders.increasing, op)) :=
    MovesInRange.of_forall (by simpa using hrange)
  obtain ⟨r, hr⟩ := hmoves.exists_replay
  refine ⟨r, fun xs hxs => ?_⟩
  have hsnd : (log.map fun op => (Orders.increasing, op)).map Prod.snd = log := by simp
  rw [replay_eq, hxs, ← hr, replay_eq, hsnd]

/-- Two replicas with opposite orders after a `JOIN`, a `MOVE` and a `LEAVE`. -/
theorem replicas_agree_opposite :
    ∃ r, (∀ o, replicas.replay [(o, ⟨7, 0, .join groups12⟩), (Orders.decreasing, ⟨7, 1, .move 0 2⟩),
      (o, ⟨7, 2, .leave [1]⟩)] = some r) := by
  obtain ⟨-, -, hsame⟩ := replicas_agree
  obtain ⟨r, hr⟩ :=
    hsame [⟨7, 0, .join groups12⟩, ⟨7, 1, .move 0 2⟩, ⟨7, 2, .leave [1]⟩] (by decide)
  exact ⟨r, fun o => hr _ rfl⟩

/-! ### Versions -/

/-- The configuration that a command other than `QUERY` makes of the last one. -/
def Config.after (config : Config) : Command → Option Config
  | .join servers => some (config.join servers)
  | .leave gids => some (config.leave gids)
  | .move shard gid => (shardOf shard).map fun s => config.move s gid
  | .query _ => none

/-- A new `JOIN`, `LEAVE` or `MOVE` appends what it makes of the last configuration. -/
theorem State.appends_of_applyOp {st st' : State} {op : Op} {response : WaitChResponse}
    (h : st.applyOp op = some (st', response)) (hwrite : op.command.isQuery = false)
    (hfresh : st.duplicated op = false) :
    ∃ c, st.history.latest.after op.command = some c ∧
      st'.history.configs = st.history.configs ++ [c] := by
  unfold State.applyOp at h
  cases hop : op.command with
  | join servers =>
    rw [hop, hfresh] at h
    cases h
    exact ⟨_, rfl, rfl⟩
  | leave gids =>
    rw [hop, hfresh] at h
    cases h
    exact ⟨_, rfl, rfl⟩
  | move shard gid =>
    rw [hop, hfresh] at h
    obtain ⟨s, hs, heq⟩ := Option.map_eq_some_iff.mp h
    cases heq
    exact ⟨_, by rw [Config.after, hs, Option.map_some], rfl⟩
  | query num =>
    rw [hop] at hwrite
    exact absurd hwrite (by simp [Command.isQuery])

/-- Any other operation leaves the configurations as they are. -/
theorem State.keeps_of_applyOp {st st' : State} {op : Op} {response : WaitChResponse}
    (h : st.applyOp op = some (st', response))
    (hold : op.command.isQuery = true ∨ st.duplicated op = true) :
    st'.history.configs = st.history.configs := by
  cases State.applies_of_applyOp h with
  | skip | query => rfl
  | append hwrite hfresh =>
    rw [hwrite, hfresh] at hold
    exact absurd hold (by simp)

/-- The different operations of a log that are no `QUERY`. -/
def distinctWrites (log : List Op) : Finset Op :=
  (log.filter fun op => !op.command.isQuery).toFinset

section Issued

variable {log pre : List Op} {op : Op} {st st' : State} {response : WaitChResponse}

/-- An operation is taken for a duplicate exactly if it was applied before. -/
theorem duplicated_iff_mem (hissued : Requests.Issued Op.clientId Op.requestId log)
    (hpre : pre ++ [op] <+: log) (hst : machine.replay pre = some st) :
    st.duplicated op = true ↔ op ∈ pre := by
  obtain ⟨hall, hlatest⟩ := latest_of_replay hst
  rw [State.duplicated, Bool.not_eq_true', decide_eq_false_iff_not, not_lt]
  refine ⟨fun hle => ?_, hall op⟩
  by_contra hop
  exact absurd hle (not_le.mpr (hissued.latest_lt hpre hop (hlatest op.clientId)))

/-- **One step of the versions.** -/
theorem versions_step (hissued : Requests.Issued Op.clientId Op.requestId log)
    (hpre : pre ++ [op] <+: log) (hst : machine.replay pre = some st)
    (happly : st.applyOp op = some (st', response)) :
    if op.command.isQuery = false ∧ op ∉ pre then
      ∃ c, st.history.latest.after op.command = some c ∧
        st'.history.configs = st.history.configs ++ [c]
    else st'.history.configs = st.history.configs := by
  have hdup := duplicated_iff_mem hissued hpre hst
  split
  · rename_i hnew
    refine State.appends_of_applyOp happly hnew.1 ?_
    exact Bool.not_eq_true _ |>.mp fun hold => hnew.2 (hdup.mp hold)
  · rename_i hold
    refine State.keeps_of_applyOp happly ?_
    rw [not_and_or, Bool.not_eq_false, not_not] at hold
    exact hold.imp_right hdup.mpr

/-- **One version for every different write.** -/
theorem length_of_issued (hissued : Requests.Issued Op.clientId Op.requestId log)
    (h : machine.replay log = some st) :
    st.history.configs.length = 1 + (distinctWrites log).card := by
  refine Machine.replay_induction
    (P := fun pre st => st.history.configs.length = 1 + (distinctWrites pre).card) rfl ?_ h
  intro pre op s s' response hpre hs hlen happly
  have hstep := versions_step hissued hpre hs happly
  have hwrites : distinctWrites (pre ++ [op]) =
      if op.command.isQuery = false ∧ op ∉ pre then insert op (distinctWrites pre)
      else distinctWrites pre := by
    ext q
    unfold distinctWrites
    split <;> simp <;> grind
  rw [hwrites]
  split at hstep
  · rename_i hnew
    obtain ⟨c, -, hconfigs⟩ := hstep
    have hout : op ∉ distinctWrites pre := by simp [distinctWrites, hnew.2]
    rw [if_pos hnew, Finset.card_insert_of_notMem hout, hconfigs, List.length_append,
      List.length_singleton, hlen, add_assoc]
  · rename_i hold
    rw [if_neg hold, hstep, hlen]

end Issued

/-- Earlier configurations are those of the state before, also through the maps as they are now. -/
theorem view_isPrefix {r₀ : Replica} (hpre : pre.map Prod.snd <+: xs.map Prod.snd)
    (h₀ : replicas.replay pre = some r₀) (h : replicas.replay xs = some r) :
    r₀.view <+: r.view := by
  obtain ⟨st₀, hst₀, hshows₀⟩ := exists_shows h₀
  obtain ⟨st, hst, hshows⟩ := exists_shows h
  rw [hshows₀.configs, hshows.configs]
  exact history_isPrefix hpre hst₀ hst

/-- What a `QUERY` gets from a replica. -/
theorem Replica.Shows.query_view {st : State} (h : r.Shows st) (o : Orders) {op : Op} {num : ℤ}
    (hop : op.command = .query num) :
    ∃ response, r.applyOp o op = some (r.mark op, response) ∧ response.err = .ok ∧
      some (response.view r.heap).config =
        if 0 ≤ num ∧ num < (r.view.length : ℤ) - 1 then r.view[num.toNat]?
        else r.view.getLast? := by
  obtain ⟨c, heffect, hc⟩ := h.query op num hop
  refine ⟨_, (Replica.applyOp_eq o r op).trans heffect, rfl, ?_⟩
  show some (r.heap.config c) = _
  rw [hc, h.configs, History.query]
  split
  · rename_i hout
    rw [if_neg (by omega), List.getLast?_eq_some_getLast st.history.ne]
    rfl
  · rename_i hin
    have hlt : num.toNat < st.history.configs.length := by omega
    rw [if_pos (by omega), List.getD_eq_getElem?_getD, List.getElem?_eq_getElem hlt,
      Option.getD_some]

/-- **Versions.** After a log in which every operation that is new has a higher number than those of
    its client before it:

    configuration `i` has number `i`; no earlier configuration has changed; there is one for every
    different `JOIN`, `LEAVE` and `MOVE` and the initial one, made from its predecessor at the first
    occurrence of the operation; a `QUERY` reports the configuration it asks for, or the last one;
    and a replica at another position of the log has the same configuration under each number. -/
theorem versions_of_replay (hissued : Requests.Issued Op.clientId Op.requestId (xs.map Prod.snd))
    (h : replicas.replay xs = some r) :
    (∀ (i : ℕ) (c : Config), r.view[i]? = some c → c.num = i) ∧
    (∀ pre r₀, pre <+: xs → replicas.replay pre = some r₀ → r₀.view <+: r.view) ∧
    r.view.length = 1 + (distinctWrites (xs.map Prod.snd)).card ∧
    (∀ pre x r₀ r₁, pre ++ [x] <+: xs → replicas.replay pre = some r₀ →
      replicas.replay (pre ++ [x]) = some r₁ →
      if x.2.command.isQuery = false ∧ x.2 ∉ pre.map Prod.snd then
        ∃ last c, r₀.view.getLast? = some last ∧ last.after x.2.command = some c ∧
          r₁.view = r₀.view ++ [c]
      else r₁.view = r₀.view) ∧
    (∀ o op num, op.command = .query num →
      ∃ response, r.applyOp o op = some (r.mark op, response) ∧ response.err = .ok ∧
        some (response.view r.heap).config =
          if 0 ≤ num ∧ num < (r.view.length : ℤ) - 1 then r.view[num.toNat]?
          else r.view.getLast?) ∧
    ∀ ys r', ys.map Prod.snd <+: xs.map Prod.snd ∨ xs.map Prod.snd <+: ys.map Prod.snd →
      replicas.replay ys = some r' →
      ∀ (n : ℕ) (c c' : Config), r.view[n]? = some c → r'.view[n]? = some c' → c = c' := by
  obtain ⟨st, hst, hshows⟩ := exists_shows h
  refine ⟨?_, fun pre r₀ hpre h₀ => view_isPrefix (hpre.map _) h₀ h, ?_, ?_,
    fun o op num hop => hshows.query_view o hop, ?_⟩
  · rw [hshows.configs]
    exact st.history.numbered
  · rw [hshows.configs]
    exact length_of_issued hissued hst
  · intro pre x r₀ r₁ hpre h₀ h₁
    obtain ⟨st₀, hst₀, hshows₀⟩ := exists_shows h₀
    obtain ⟨st₁, hst₁, hshows₁⟩ := exists_shows h₁
    rw [List.map_append, List.map_singleton] at hst₁
    obtain ⟨st₀', response, hst₀', happly⟩ := Machine.apply_of_replay_concat hst₁
    obtain rfl : st₀' = st₀ := Option.some.inj (hst₀'.symm.trans hst₀)
    have hpre' : pre.map Prod.snd ++ [x.2] <+: xs.map Prod.snd := by
      simpa using hpre.map Prod.snd
    have hstep := versions_step hissued hpre' hst₀ happly
    rw [hshows₀.configs, hshows₁.configs]
    by_cases hnew : x.2.command.isQuery = false ∧ x.2 ∉ pre.map Prod.snd
    · rw [if_pos hnew] at hstep ⊢
      obtain ⟨c, hafter, hconfigs⟩ := hstep
      exact ⟨_, c, List.getLast?_eq_some_getLast st₀'.history.ne, hafter, hconfigs⟩
    · rwa [if_neg hnew] at hstep ⊢
  · intro ys r' hor hys n c c' hc hc'
    have hsame {l l' : List Config} {c c' : Config} (hl : l <+: l') (hcl : l[n]? = some c)
        (hcl' : l'[n]? = some c') : c = c' := by
      obtain ⟨rest, rfl⟩ := hl
      obtain ⟨hlt, -⟩ := List.getElem?_eq_some_iff.mp hcl
      rw [List.getElem?_append_left hlt] at hcl'
      exact Option.some.inj (hcl.symm.trans hcl')
    rcases hor with hpre | hpre
    · exact (hsame (view_isPrefix hpre hys h) hc' hc).symm
    · exact hsame (view_isPrefix hpre h hys) hc hc'

/-- A `JOIN` that comes again after a `MOVE` of its client, and another client's `LEAVE`. -/
def lateJoin : List (Orders × Op) :=
  [(.increasing, ⟨7, 0, .join groups12⟩), (.decreasing, ⟨7, 1, .move 0 2⟩),
    (.decreasing, ⟨7, 0, .join groups12⟩), (.increasing, ⟨8, 0, .leave [1]⟩)]

theorem issued_lateJoin : Requests.Issued Op.clientId Op.requestId (lateJoin.map Prod.snd) where
  nonneg := by decide
  increasing := by
    rintro pre op ⟨rest, h⟩ hop
    -- the operation stands at one of the four positions
    rcases pre with _ | ⟨a, _ | ⟨b, _ | ⟨c, _ | ⟨d, pre⟩⟩⟩⟩
    · exact fun q hq => absurd hq List.not_mem_nil
    · obtain ⟨rfl, rfl, -⟩ : _ = a ∧ _ = op ∧ _ := by simpa [lateJoin] using h.symm
      decide
    · obtain ⟨rfl, rfl, rfl, -⟩ : _ = a ∧ _ = b ∧ _ = op ∧ _ := by simpa [lateJoin] using h.symm
      exact absurd hop (by decide)
    · obtain ⟨rfl, rfl, rfl, rfl, -⟩ : _ = a ∧ _ = b ∧ _ = c ∧ _ = op ∧ _ := by
        simpa [lateJoin] using h.symm
      decide
    · simp [lateJoin] at h

/-- It makes three configurations after the initial one. -/
theorem versions_of_replay_lateJoin :
    ∃ r, replicas.replay lateJoin = some r ∧ r.view.length = 4 ∧
      ∀ (i : ℕ) (c : Config), r.view[i]? = some c → c.num = i := by
  obtain ⟨r, hr⟩ : ∃ r, replicas.replay lateJoin = some r :=
    Option.isSome_iff_exists.mp (by decide +kernel)
  obtain ⟨hnum, -, hlen, -, -, -⟩ := versions_of_replay issued_lateJoin hr
  exact ⟨r, hr, hlen.trans (by decide), hnum⟩

end MitDistributed.ShardCtrler
