import MitDistributed.Rsm.Soundness
import MitDistributed.ShardKV.Server

namespace MitDistributed.ShardKV

open Rsm ShardCtrler Transition

/-!
# Sharded store — groups that pass shards to each other

All replica groups, each a cluster of servers with an agreed log, and the messages between them.
The configurations are a fixed sequence, and every server fetches them in order.  A server acts on
its own state, which is that of some prefix of the agreed log: it may lag, and it may take itself
for the leader without being it.  Messages may be lost, delayed and repeated.

* `World.step` — clients, configurations, `Pull`, `PULL_SHARD`, `Leave` and `TRANSFER_DONE`;
* `World.Justified` — what has happened when an entry was started, by the operation it is for;
  `World.Sane` says so of every entry and message, and every step keeps it.
-/

/-- The configurations, by number. -/
structure Configs where
  config : ℕ → Config
  numbered : ∀ v, (config v).num = v

/-- The group that configuration `v` assigns a shard to. -/
def Configs.owner (cs : Configs) (v : ℕ) (s : ShardId) : Gid := (cs.config v).shards s

/-- An entry of the log of a group.  `cause` keeps the arguments of the `Leave` request that it was
    started for, if it was. -/
structure Entry where
  op : Op
  cause : Option (ShardId × ℕ)
  deriving DecidableEq

/-- An entry that no request caused. -/
def Op.entry (op : Op) : Entry := { op := op, cause := none }

/-- Group `gid` as a replicated state machine. -/
def machine (gid : Gid) : Machine State Entry WaitChResponse :=
  { init := .initial, apply := fun st e => st.applyOp gid e.op }

def Op.isClient : Op → Bool
  | .get _ _ _ => true
  | .put _ _ _ _ => true
  | .append _ _ _ _ => true
  | _ => false

/-- The write that an operation does in a state: the shard, the client and its request. -/
def State.effect (st : State) : Op → Option (ShardId × ℤ × ℤ)
  | .put key _ c q =>
    if st.serves (key2shard key) ∧ q > st.latestAppliedRequest.latest c then
      some (key2shard key, c, q)
    else none
  | .append key _ c q =>
    if st.serves (key2shard key) ∧ q > st.latestAppliedRequest.latest c then
      some (key2shard key, c, q)
    else none
  | _ => none

/-! ### The world -/

/-- A `Pull` or `Leave` request to group `dst`. -/
structure Request where
  dst : Gid
  shard : ShardId
  version : ℕ
  deriving DecidableEq

/-- A reply to a `Pull` request. -/
structure Pulled where
  src : Gid
  shard : ShardId
  version : ℕ
  storage : Storage
  deriving DecidableEq

/-- A write that has taken effect. -/
structure Write where
  gid : Gid
  shard : ShardId
  clientId : ℤ
  requestId : ℤ
  deriving DecidableEq

/-- The groups and the messages between them.  `writes` keeps the history of the writes, in the
    order in which the groups agreed on them. -/
structure World where
  groups : Gid → Cluster State Entry WaitChResponse
  pulls : List Request
  pulled : List Pulled
  leaves : List Request
  writes : List Write

inductive Action
  /-- `Get` or `PutAppend` at a server that takes itself for the leader -/
  | client (g : Gid) (s : ℕ) (op : Op)
  /-- a round of `fetchNextConfig` that starts an entry -/
  | fetch (g : Gid) (s : ℕ)
  /-- `pullShard` sends a `Pull` request -/
  | askPull (g : Gid) (s : ℕ) (shard : ShardId)
  /-- `Pull` replies to the `i`-th request with the shard -/
  | pull (g : Gid) (s : ℕ) (i : ℕ)
  /-- `pullShard` gets the `i`-th reply -/
  | gotPull (g : Gid) (s : ℕ) (i : ℕ)
  /-- `sendLeave` sends a `Leave` request -/
  | askLeave (g : Gid) (s : ℕ) (shard : ShardId)
  /-- `Leave` starts an entry for the `i`-th request -/
  | leave (g : Gid) (s : ℕ) (i : ℕ)
  /-- `sendLeave` gets the `j`-th reply of the group it asked -/
  | gotLeft (g : Gid) (s : ℕ) (shard : ShardId) (j : ℕ)
  /-- any other step of a server -/
  | internal (g : Gid) (s : ℕ) (act : Act Entry)

namespace World

def init : World :=
  { groups := fun g => .init (machine g), pulls := [], pulled := [], leaves := [], writes := [] }

/-- The state of a server. -/
def state (w : World) (g : Gid) (s : ℕ) : State := ((w.groups g).servers s).state

/-- A step of server `s` of group `g`. -/
def act (w : World) (g : Gid) (s : ℕ) (act : Act Entry) :
    Option (Cluster State Entry WaitChResponse) := (w.groups g).step (machine g) (s, act)

/-- The world with another state of group `g`. -/
def setGroup (w : World) (g : Gid) (c : Cluster State Entry WaitChResponse) : World :=
  { w with groups := Function.update w.groups g c }

/-- The write that is done when server `s` makes the agreed log of group `g` grow to that of
    `c`. -/
def record (w : World) (g : Gid) (s : ℕ) (c : Cluster State Entry WaitChResponse) : List Write :=
  match c.agreed[(w.groups g).agreed.length]? with
  | some e => (((w.state g s).effect e.op).map fun x => ⟨g, x.1, x.2.1, x.2.2⟩).toList
  | none => []

def step (cs : Configs) (w : World) : Action → Option World
  | .client g s op =>
    if op.isClient then (w.act g s (.call op.entry)).map (w.setGroup g) else none
  | .fetch g s =>
    match (w.state g s).fetchNextConfig cs.config with
    | .start op => (w.act g s (.propose op.entry)).map (w.setGroup g)
    | _ => none
  | .askPull g s shard =>
    let st := w.state g s
    if st.status shard = some .pulling then
      (st.exOwner shard).map fun dst => { w with pulls := w.pulls ++ [⟨dst, shard, st.num⟩] }
    else none
  | .pull g s i =>
    match w.pulls[i]? with
    | some x =>
      if x.dst = g then
        ((w.state g s).pull x.shard x.version).map fun storage =>
          { w with pulled := w.pulled ++ [⟨g, x.shard, x.version, storage⟩] }
      else none
    | none => none
  | .gotPull g s i =>
    let st := w.state g s
    match w.pulled[i]? with
    | some x =>
      if st.status x.shard = some .pulling ∧ st.num = x.version ∧
          st.exOwner x.shard = some x.src then
        (w.act g s (.propose (Op.pullShard x.shard x.version x.storage).entry)).map (w.setGroup g)
      else none
    | none => none
  | .askLeave g s shard =>
    let st := w.state g s
    if st.status shard = some .waiting then
      (st.exOwner shard).map fun dst => { w with leaves := w.leaves ++ [⟨dst, shard, st.num⟩] }
    else none
  | .leave g s i =>
    match w.leaves[i]? with
    | some x =>
      if x.dst = g then
        -- the entry has the version of the server's state, not that of the request
        (w.act g s (.await ⟨.leaveShard x.shard (w.state g s).num, some (x.shard, x.version)⟩)).map
          (w.setGroup g)
      else none
    | none => none
  | .gotLeft g s shard j =>
    let st := w.state g s
    if st.status shard = some .waiting then
      match st.exOwner shard with
      | some dst =>
        match (w.groups dst).answers[j]? with
        | some ⟨e, _, some response⟩ =>
          if e.cause = some (shard, st.num) ∧ response.err = .ok then
            (w.act g s (.propose (Op.transferDone shard st.num).entry)).map (w.setGroup g)
          else none
        | _ => none
      | none => none
    else none
  | .internal g s act =>
    if act.internal then
      (w.act g s act).map fun c => { w.setGroup g c with writes := w.writes ++ w.record g s c }
    else none

/-- `w` is reached from the start by steps that satisfy `ok`. -/
def Reachable (cs : Configs) (ok : World → Action → Prop) (w : World) : Prop :=
  Run (World.step cs) ok World.init w

@[simp] theorem setGroup_self (w : World) (g : Gid) (c : Cluster State Entry WaitChResponse) :
    (w.setGroup g c).groups g = c := Function.update_self _ _ _

theorem setGroup_of_ne (w : World) {g h : Gid} (c : Cluster State Entry WaitChResponse)
    (hne : h ≠ g) : (w.setGroup g c).groups h = w.groups h := Function.update_of_ne hne _ _

/-! ### What an entry is started on -/

/-- The agreed log of group `g` leads through the state. -/
def Visits (w : World) (g : Gid) (st : State) : Prop := (machine g).Visits (w.groups g).agreed st

/-- What has happened when an entry was started. -/
def Justified (cs : Configs) (w : World) (g : Gid) (e : Entry) : Prop :=
  match e.op with
  | .get _ _ _ => e.cause = none
  | .put _ _ _ _ => e.cause = none
  | .append _ _ _ _ => e.cause = none
  | .updateConfig config => e.cause = none ∧ config = cs.config config.num ∧
      ∃ st, w.Visits g st ∧ st.allWorking ∧ st.num + 1 = config.num
  | .pullShard s v storage => e.cause = none ∧
      ∃ st, w.Visits g st ∧ st.num = v ∧ st.status s = some .pulling ∧
        ⟨st.prevConfig.shards s, s, v, storage⟩ ∈ w.pulled
  | .leaveShard s u => ∃ v, e.cause = some (s, v) ∧ ⟨g, s, v⟩ ∈ w.leaves ∧
      ∃ st, w.Visits g st ∧ st.num = u
  | .transferDone s v => e.cause = none ∧
      ∃ st, w.Visits g st ∧ st.num = v ∧ st.status s = some .waiting ∧
        ∃ y ∈ (w.groups (st.prevConfig.shards s)).answers, y.op.cause = some (s, v) ∧
          ∃ r, y.reply = some r ∧ r.err = .ok

/-- What has happened when a shard was sent. -/
def GivenBy (w : World) (x : Pulled) : Prop :=
  ∃ st sh, w.Visits x.src st ∧ st.num = x.version ∧ st.shards x.shard = some sh ∧
    sh.storage = x.storage

/-- What has happened when a `Leave` request was sent. -/
def WantedBy (w : World) (x : Request) : Prop :=
  ∃ g st, w.Visits g st ∧ st.num = x.version ∧ st.status x.shard = some .waiting ∧
    st.prevConfig.shards x.shard = x.dst

/-- The world only learns. -/
structure Le (w w' : World) : Prop where
  agreed : ∀ g, (w.groups g).agreed <+: (w'.groups g).agreed
  answers : ∀ g, ∀ y ∈ (w.groups g).answers, y ∈ (w'.groups g).answers
  pulled : ∀ x ∈ w.pulled, x ∈ w'.pulled
  leaves : ∀ x ∈ w.leaves, x ∈ w'.leaves

variable {cs : Configs} {w w' : World} {g : Gid} {a : Action}

theorem Visits.mono {st : State} (h : w.Visits g st) (hle : w.Le w') : w'.Visits g st :=
  Machine.Visits.mono h (hle.agreed g)

theorem Justified.mono {e : Entry} (h : w.Justified cs g e) (hle : w.Le w') :
    w'.Justified cs g e := by
  unfold Justified at h ⊢
  split at h
  · exact h
  · exact h
  · exact h
  · obtain ⟨hcause, hconfig, st, hv, hall, hnum⟩ := h
    exact ⟨hcause, hconfig, st, hv.mono hle, hall, hnum⟩
  · obtain ⟨hcause, st, hv, hnum, hstatus, hx⟩ := h
    exact ⟨hcause, st, hv.mono hle, hnum, hstatus, hle.pulled _ hx⟩
  · obtain ⟨v, hcause, hx, st, hv, hnum⟩ := h
    exact ⟨v, hcause, hle.leaves _ hx, st, hv.mono hle, hnum⟩
  · obtain ⟨hcause, st, hv, hnum, hstatus, y, hy, hrest⟩ := h
    exact ⟨hcause, st, hv.mono hle, hnum, hstatus, y, hle.answers _ y hy, hrest⟩

theorem GivenBy.mono {x : Pulled} (h : w.GivenBy x) (hle : w.Le w') : w'.GivenBy x := by
  obtain ⟨st, sh, hv, hrest⟩ := h
  exact ⟨st, sh, hv.mono hle, hrest⟩

theorem WantedBy.mono {x : Request} (h : w.WantedBy x) (hle : w.Le w') : w'.WantedBy x := by
  obtain ⟨g, st, hv, hrest⟩ := h
  exact ⟨g, st, hv.mono hle, hrest⟩

/-- Everything in the world has its reasons. -/
structure Sane (cs : Configs) (w : World) : Prop where
  sound : ∀ g, (w.groups g).Sound (machine g)
  started : ∀ g, ∀ e ∈ (w.groups g).started, w.Justified cs g e
  pulled : ∀ x ∈ w.pulled, w.GivenBy x
  leaves : ∀ x ∈ w.leaves, w.WantedBy x

/-- The state of a server is that of a prefix of the agreed log. -/
theorem visits_state (h : (w.groups g).Sound (machine g)) (s : ℕ) : w.Visits g (w.state g s) :=
  ⟨_, List.take_prefix _ _, (h.servers s).state_eq⟩

/-! ### Steps -/

/-- What a step can do: a server starts an entry, with a reason; a server moves without starting
    one; or a message is sent, with a reason. -/
inductive Moves (cs : Configs) (w : World) : Action → World → Prop
  | starts {a : Action} {g : Gid} {s : ℕ} {x : Act Entry} {e : Entry}
      {c : Cluster State Entry WaitChResponse} (hact : w.act g s x = some c)
      (hkind : x = .propose e ∨ x = .call e ∨ x = .await e) (hjust : w.Justified cs g e)
      (hleave : ∀ shard u v, e.op = .leaveShard shard u → e.cause = some (shard, v) →
        ∃ i, a = .leave g s i ∧ (w.state g s).num = u ∧ w.leaves[i]? = some ⟨g, shard, v⟩)
      (hpull : ∀ shard v storage, e.op = .pullShard shard v storage → ∃ i, a = .gotPull g s i) :
      Moves cs w a (w.setGroup g c)
  | internal {g : Gid} {s : ℕ} {x : Act Entry} {c : Cluster State Entry WaitChResponse}
      (hact : w.act g s x = some c) (hint : x.starts = []) :
      Moves cs w (.internal g s x) { w.setGroup g c with writes := w.writes ++ w.record g s c }
  | asks {a : Action} (pulls : List Request) : Moves cs w a { w with pulls := pulls }
  | gives {g : Gid} {s i : ℕ} {x : Pulled} (hx : w.GivenBy x) :
      Moves cs w (.pull g s i) { w with pulled := w.pulled ++ [x] }
  | wants {a : Action} {x : Request} (hx : w.WantedBy x) :
      Moves cs w a { w with leaves := w.leaves ++ [x] }

theorem exOwner_eq {st : State} {s : ShardId} {dst : Gid} (h : st.exOwner s = some dst) :
    st.prevConfig.shards s = dst := by
  unfold State.exOwner at h
  split at h
  · exact Option.some.inj h
  · cases h

variable {s : ℕ} {x : Act Entry} {c : Cluster State Entry WaitChResponse}

/-- An entry that is not for a `Leave` request. -/
theorem moves_entry {op : Op} (hact : w.act g s x = some c)
    (hkind : x = .propose op.entry ∨ x = .call op.entry ∨ x = .await op.entry)
    (hjust : w.Justified cs g op.entry)
    (hpull : ∀ shard v storage, op = .pullShard shard v storage → ∃ i, a = .gotPull g s i) :
    w.Moves cs a (w.setGroup g c) :=
  .starts hact hkind hjust (fun _ _ _ _ hcause => by cases hcause) hpull

/-- **Inversion** of a step. -/
theorem moves_of_step (hw : w.Sane cs) (h : w.step cs a = some w') : w.Moves cs a w' := by
  cases a with
  | client g s op =>
    rw [step] at h
    split at h
    · rename_i hclient
      obtain ⟨c, hc, rfl⟩ := Option.map_eq_some_iff.mp h
      cases op with
      | get | put | append => exact moves_entry hc (.inr (.inl rfl)) rfl (by simp)
      | updateConfig | pullShard | leaveShard | transferDone => cases hclient
    · cases h
  | fetch g s =>
    rw [step] at h
    split at h
    · rename_i op hfetch
      obtain ⟨c, hc, rfl⟩ := Option.map_eq_some_iff.mp h
      unfold State.fetchNextConfig at hfetch
      dsimp only at hfetch
      split_ifs at hfetch with hall hgt hne
      obtain rfl := State.Fetch.start.inj hfetch
      have hnum := cs.numbered ((w.state g s).num + 1)
      refine moves_entry hc (.inl rfl)
        ⟨rfl, ?_, _, visits_state (hw.sound g) s, hall, hnum.symm⟩ (by simp)
      rw [hnum]
    · cases h
  | askPull g s shard =>
    rw [step] at h
    split at h
    · obtain ⟨dst, -, rfl⟩ := Option.map_eq_some_iff.mp h
      exact .asks _
    · cases h
  | pull g s i =>
    rw [step] at h
    split at h
    · rename_i x hx
      split at h
      · obtain ⟨storage, hpull, rfl⟩ := Option.map_eq_some_iff.mp h
        refine .gives ?_
        unfold State.pull at hpull
        split_ifs at hpull with hgt hlt
        obtain ⟨sh, hsh, rfl⟩ := Option.map_eq_some_iff.mp hpull
        exact ⟨_, sh, visits_state (hw.sound g) s,
          le_antisymm (not_lt.mp hgt) (not_lt.mp hlt), hsh, rfl⟩
      · cases h
    · cases h
  | gotPull g s i =>
    rw [step] at h
    split at h
    · rename_i x hx
      split at h
      · rename_i hcond
        obtain ⟨hpulling, hnum, howner⟩ := hcond
        obtain ⟨c, hc, rfl⟩ := Option.map_eq_some_iff.mp h
        refine moves_entry hc (.inl rfl)
          ⟨rfl, _, visits_state (hw.sound g) s, hnum, hpulling, ?_⟩ fun _ _ _ _ => ⟨i, rfl⟩
        rw [exOwner_eq howner]
        exact List.mem_of_getElem? hx
      · cases h
    · cases h
  | askLeave g s shard =>
    rw [step] at h
    split at h
    · rename_i hwaiting
      obtain ⟨dst, howner, rfl⟩ := Option.map_eq_some_iff.mp h
      exact .wants ⟨g, _, visits_state (hw.sound g) s, rfl, hwaiting, exOwner_eq howner⟩
    · cases h
  | leave g s i =>
    rw [step] at h
    split at h
    · rename_i x hx
      split at h
      · rename_i hdst
        obtain ⟨c, hc, rfl⟩ := Option.map_eq_some_iff.mp h
        subst hdst
        refine .starts hc (.inr (.inr rfl)) ?_ ?_ (by simp)
        · exact ⟨x.version, rfl, List.mem_of_getElem? hx, _, visits_state (hw.sound _) s, rfl⟩
        · intro shard u v hop hcause
          obtain ⟨rfl, rfl⟩ := Op.leaveShard.inj hop
          cases hcause
          exact ⟨i, rfl, rfl, hx⟩
      · cases h
    · cases h
  | gotLeft g s shard j =>
    rw [step] at h
    split at h
    · rename_i hwaiting
      split at h
      · rename_i dst howner
        split at h
        · rename_i e pos r hanswer
          split at h
          · rename_i hcond
            obtain ⟨c, hc, rfl⟩ := Option.map_eq_some_iff.mp h
            refine moves_entry hc (.inl rfl)
              ⟨rfl, _, visits_state (hw.sound g) s, rfl, hwaiting, ?_⟩ (by simp)
            rw [exOwner_eq howner]
            exact ⟨_, List.mem_of_getElem? hanswer, hcond.1, r, rfl, hcond.2⟩
          · cases h
        · cases h
      · cases h
    · cases h
  | internal g s x =>
    rw [step] at h
    split at h
    · rename_i hint
      obtain ⟨c, hc, rfl⟩ := Option.map_eq_some_iff.mp h
      exact .internal hc (List.isEmpty_iff.mp hint)
    · cases h

theorem le_setGroup (hact : w.act g s x = some c) : w.Le (w.setGroup g c) where
  agreed h := by
    rcases eq_or_ne h g with rfl | hne
    · rw [setGroup_self]
      exact Cluster.agreed_isPrefix hact
    · rw [setGroup_of_ne _ _ hne]
  answers h y hy := by
    rcases eq_or_ne h g with rfl | hne
    · rw [setGroup_self]
      exact Cluster.answers_subset hact y hy
    · rw [setGroup_of_ne _ _ hne]
      exact hy
  pulled _ hx := hx
  leaves _ hx := hx

theorem Moves.le (h : w.Moves cs a w') : w.Le w' := by
  cases h with
  | starts hact => exact le_setGroup hact
  | internal hact =>
    obtain ⟨hagreed, hanswers, hpulled, hleaves⟩ := le_setGroup hact
    exact ⟨hagreed, hanswers, hpulled, hleaves⟩
  | asks =>
    exact ⟨fun _ => List.prefix_refl _, fun _ _ hy => hy, fun _ hx => hx, fun _ hx => hx⟩
  | gives =>
    exact ⟨fun _ => List.prefix_refl _, fun _ _ hy => hy, fun _ hx => List.mem_append_left _ hx,
      fun _ hx => hx⟩
  | wants =>
    exact ⟨fun _ => List.prefix_refl _, fun _ _ hy => hy, fun _ hx => hx,
      fun _ hx => List.mem_append_left _ hx⟩

/-- A group after a step of one of its servers. -/
theorem Sane.setGroup (hw : w.Sane cs) (hact : w.act g s x = some c)
    (hjust : ∀ e ∈ x.starts, w.Justified cs g e) : (w.setGroup g c).Sane cs := by
  have hle := le_setGroup hact
  refine ⟨fun h => ?_, fun h e he => ?_, fun y hy => (hw.pulled y hy).mono hle,
    fun y hy => (hw.leaves y hy).mono hle⟩
  · rcases eq_or_ne h g with rfl | hne
    · rw [setGroup_self]
      exact (hw.sound h).step hact
    · rw [setGroup_of_ne _ _ hne]
      exact hw.sound h
  · refine Justified.mono ?_ hle
    rcases eq_or_ne h g with rfl | hne
    · rw [setGroup_self, ((hw.sound h).agrees hact).2] at he
      rcases List.mem_append.mp he with hold | hnew
      · exact hw.started h e hold
      · exact hjust e hnew
    · rw [setGroup_of_ne _ _ hne] at he
      exact hw.started h e he

theorem Sane.init : World.init.Sane cs where
  sound _ := .init
  started _ _ he := absurd he List.not_mem_nil
  pulled _ hx := absurd hx List.not_mem_nil
  leaves _ hx := absurd hx List.not_mem_nil

/-- **Reasons, step.** -/
theorem Sane.step (hw : w.Sane cs) (h : w.step cs a = some w') : w'.Sane cs := by
  have hmoves := moves_of_step hw h
  have hle := hmoves.le
  cases hmoves with
  | starts hact hkind hjust =>
    refine hw.setGroup hact fun e he => ?_
    rcases hkind with rfl | rfl | rfl <;> rw [List.mem_singleton.mp he] <;> exact hjust
  | internal hact hint =>
    obtain ⟨hsound, hstarted, hpulled, hleaves⟩ := hw.setGroup hact fun e he => by
      rw [hint] at he
      cases he
    exact ⟨hsound, hstarted, hpulled, hleaves⟩
  | asks =>
    exact ⟨hw.sound, fun g e he => (hw.started g e he).mono hle,
      fun y hy => (hw.pulled y hy).mono hle, fun y hy => (hw.leaves y hy).mono hle⟩
  | gives hx =>
    refine ⟨hw.sound, fun g e he => (hw.started g e he).mono hle, fun y hy => ?_,
      fun y hy => (hw.leaves y hy).mono hle⟩
    rcases List.mem_append.mp hy with hold | hnew
    · exact (hw.pulled y hold).mono hle
    · rw [List.mem_singleton.mp hnew]
      exact hx.mono hle
  | wants hx =>
    refine ⟨hw.sound, fun g e he => (hw.started g e he).mono hle,
      fun y hy => (hw.pulled y hy).mono hle, fun y hy => ?_⟩
    rcases List.mem_append.mp hy with hold | hnew
    · exact (hw.leaves y hold).mono hle
    · rw [List.mem_singleton.mp hnew]
      exact hx.mono hle

/-- **Reasons, run.** -/
theorem Reachable.sane {ok : World → Action → Prop} (hr : Reachable cs ok w) : w.Sane cs :=
  Run.invariant (fun _ _ _ hw _ hstep => hw.step hstep) hr .init

end World

/-! ### A small world

Configurations in which shard 0 goes from group to group, and the steps of one migration. -/

/-- Shard 0. -/
def shardZero : ShardId := ⟨0, by decide⟩

/-- Configuration `v` assigns shard 0 to group `owners v`, and every other shard to group 3. -/
def oneShard (owners : ℕ → Gid) : Configs where
  config v :=
    { num := v
      shards := fun s => if s.val = 0 then owners v else 3
      groups := ⟨[(1, ["a"]), (2, ["b"]), (3, ["c"])], by decide⟩ }
  numbered _ := rfl

/-- The entry of configuration `v`. -/
def configEntry (cs : Configs) (v : ℕ) : Entry := (Op.updateConfig (cs.config v)).entry

/-- Server `s` of group `g` applies the next entry and passes the response on. -/
def applyNext (g : Gid) (s : ℕ) : List Action := [.internal g s .apply, .internal g s .deliver]

/-- Server 0 of group `g` fetches the next configuration, and applies it. -/
def fetchNext (g : Gid) : List Action := .fetch g 0 :: applyNext g 0

/-- Server 0 of group `g` pulls shard 0 from server 0 of group `h`: the `i`-th request and the
    `i`-th reply. -/
def pullNext (g h : Gid) (i : ℕ) : List Action :=
  [Action.askPull g 0 shardZero, .pull h 0 i, .gotPull g 0 i] ++ applyNext g 0

/-- The first handler of server 0 of group `g` takes its response and replies. -/
def replyNext (g : Gid) : List Action := [.internal g 0 (.receive 0), .internal g 0 (.finish 0)]

/-- Server 0 of group `g` asks group `h` to delete shard 0, the `i`-th request, and gets the `j`-th
    reply. -/
def leaveNext (g h : Gid) (i j : ℕ) : List Action :=
  [Action.askLeave g 0 shardZero, .leave h 0 i] ++ applyNext h 0 ++ replyNext h ++
    [Action.gotLeft g 0 shardZero j] ++ applyNext g 0

/-- Client 7 appends "x" to the key "2", which is in shard 0. -/
def appendX (requestId : ℤ) : Op := .append [50] [120] 7 requestId

/-- Server 0 of group `g` applies a request of client 7. -/
def appendAt (g : Gid) (requestId : ℤ) : List Action :=
  .client g 0 (appendX requestId) :: applyNext g 0

end MitDistributed.ShardKV
