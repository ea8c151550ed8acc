import MitDistributed.ShardKV.Leave

namespace MitDistributed.ShardKV

open Function Rsm ShardCtrler Transition

/-!
# Sharded store — the memory of a server

What a server has besides its replicated state: the maps that hold the contents of its shards, and
the background tasks that it runs.

A map is an object.  When a `PULL_SHARD` takes effect, the shard gets the very map of the entry, and
a write to the shard changes the entry in the log of the server too.  The entry is encoded with
what the map holds at that time, whenever it is sent to another server or persisted.  No decision
of a server depends on the contents of its shards, so that the groups behave as in `World`, where
an entry is what it was started with; here the contents are followed as they are in the memory of
every server.

The tasks `pullShard` and `sendLeave` are started when entries are applied; they are no part of a
snapshot.
-/

/-! ### Tasks -/

/-- A background task, with the shard and the version it is for. -/
inductive Task
  | pullShard (shard : ShardId) (version : ℕ)
  | sendLeave (shard : ShardId) (version : ℕ)
  deriving DecidableEq

namespace Task

def shard : Task → ShardId
  | .pullShard s _ => s
  | .sendLeave s _ => s

def version : Task → ℕ
  | .pullShard _ v => v
  | .sendLeave _ v => v

/-- The status of the shard in which the task has something to do. -/
def status : Task → ShardStatus
  | .pullShard _ _ => .pulling
  | .sendLeave _ _ => .waiting

/-- The tests at the beginning of a round: whether the task goes on.  The code panics if the group
    does not have the shard. -/
def goesOn (t : Task) (st : State) : Option Bool :=
  if st.num > t.version then some false
  else (st.shards t.shard).map fun sh => sh.status = t.status

end Task

/-- The tasks that applying an operation starts. -/
def State.starts (gid : Gid) (st : State) : Op → List Task
  | .updateConfig config =>
    if st.num + 1 = config.num ∧ config.num ≠ 1 then
      ((List.finRange NShards).filter fun s =>
        config.shards s = gid ∧ st.shards s = none).map fun s => .pullShard s config.num
    else []
  | .pullShard s v _ =>
    if st.num = v ∧ st.status s = some .pulling then [.sendLeave s v] else []
  | _ => []

/-! ### Maps -/

/-- The contents with which a `PULL_SHARD` was started. -/
def Op.storage? : Op → Option Storage
  | .pullShard _ _ storage => some storage
  | _ => none

/-- What a write does to the contents of the shard. -/
def Op.write : Op → Storage → Storage
  | .put key value _ _ => fun storage => storage.put key value
  | .append key value _ _ => fun storage => storage.append key value
  | _ => id

namespace State

/-- What the maps of the shards hold. -/
def contents (st : State) (s : ShardId) : Storage := ((st.shards s).map Shard.storage).getD .empty

/-- The state with other contents of the shards. -/
def withContents (st : State) (contents : ShardId → Storage) : State :=
  { st with shards := fun s => (st.shards s).map fun sh => { sh with storage := contents s } }

theorem contents_eq {st : State} (s : ShardId) (sh : Shard) (hsh : st.shards s = some sh) :
    st.contents s = sh.storage := by
  rw [contents, hsh]
  rfl

/-- The state with the contents that it has. -/
theorem withContents_eq {st : State} {contents : ShardId → Storage}
    (h : ∀ s sh, st.shards s = some sh → contents s = sh.storage) :
    st.withContents contents = st := by
  have hshards : (fun s => (st.shards s).map fun sh => { sh with storage := contents s }) =
      st.shards := by
    funext s
    cases hsh : st.shards s with
    | none => rfl
    | some sh => rw [Option.map_some, h s sh hsh]
  rw [withContents, hshards]

end State

/-- The memory of a server: what the maps of the entries in its log and of its shards hold, which
    entry a shard shares its map with, and the tasks that run. -/
structure Memory where
  entries : ℕ → Storage
  shards : ShardId → Storage
  shared : ShardId → Option ℕ
  tasks : List Task

namespace Memory

def init : Memory :=
  { entries := fun _ => .empty, shards := fun _ => .empty, shared := fun _ => none, tasks := [] }

/-- Change the map of a shard, which may be that of an entry. -/
def write (m : Memory) (s : ShardId) (f : Storage → Storage) : Memory :=
  { m with
    shards := update m.shards s (f (m.shards s))
    entries :=
      match m.shared s with
      | some pos => update m.entries pos (f (m.shards s))
      | none => m.entries }

/-- Change the map of the shard that a request takes effect on, if it does. -/
def writeAt (m : Memory) (effect : Option (ShardId × ℤ × ℤ)) (f : Storage → Storage) : Memory :=
  match effect with
  | some (s, _, _) => m.write s f
  | none => m

/-- New maps for the shards that a configuration creates. -/
def create (m : Memory) (gid : Gid) (st : State) (config : Config) : Memory :=
  let new := fun s => config.shards s = gid ∧ (config.num = 1 ∨ st.shards s = none)
  { m with
    shards := fun s => if new s then .empty else m.shards s
    shared := fun s => if new s then none else m.shared s }

/-- `kv.shards[s].Storage = op.Storage` -/
def share (m : Memory) (s : ShardId) (pos : ℕ) : Memory :=
  { m with
    shards := update m.shards s (m.entries pos)
    shared := update m.shared s (some pos) }

/-- What applying the entry at `pos` does to the maps. -/
def applyOp (m : Memory) (gid : Gid) (st : State) (pos : ℕ) (op : Op) : Memory :=
  match op with
  | .updateConfig config => if st.num + 1 = config.num then m.create gid st config else m
  | .pullShard s v _ => if st.num = v ∧ st.status s = some .pulling then m.share s pos else m
  | _ => m.writeAt (st.effect op) op.write

end Memory

/-! ### The world with memory -/

/-- Whether a step neither sends the contents of a shard nor starts an entry with them, and does not
    change the state of a server. -/
def Action.plain : Action → Bool
  | .pull _ _ _ => false
  | .gotPull _ _ _ => false
  | .internal _ _ act => act.plain
  | _ => true

/-- An entry that was encoded, to be sent or persisted. -/
structure Encoded where
  gid : Gid
  pos : ℕ
  entry : Entry
  storage : Storage
  deriving DecidableEq

/-- A snapshot: `latestAppliedRaftIndex`, and the other fields that are encoded. -/
structure Image where
  gid : Gid
  applied : ℕ
  state : State

/-- The groups, and the memory of their servers.  `replies` are the contents that were sent in
    reply to `Pull`; `encoded` and `images` keep every entry and every state that was encoded. -/
structure Live where
  world : World
  memory : Gid → ℕ → Memory
  replies : List Storage
  encoded : List Encoded
  images : List Image

inductive LiveAction
  /-- a step as in `World`, but for changes of the log and of the state from outside -/
  | act (a : Action)
  /-- the `i`-th task begins a round -/
  | round (g : Gid) (s : ℕ) (i : ℕ)
  /-- an entry is encoded, for `AppendEntries` or for the persister -/
  | encode (g : Gid) (s : ℕ) (pos : ℕ)
  /-- the state is encoded, for a snapshot -/
  | serialize (g : Gid) (s : ℕ)
  /-- the log is cut off -/
  | truncate (g : Gid) (s : ℕ) (n : ℕ)
  /-- the `i`-th encoded entry is decoded, at the end of the log -/
  | receive (g : Gid) (s : ℕ) (i : ℕ)
  /-- the `i`-th snapshot comes through `applyCh` -/
  | install (g : Gid) (s : ℕ) (i : ℕ)
  /-- a crash, and `StartServer` from a snapshot, or from none -/
  | restart (g : Gid) (s : ℕ) (i : Option ℕ)

/-- Server `s` of group `g`. -/
def World.server (w : World) (g : Gid) (s : ℕ) : Server State Entry WaitChResponse :=
  (w.groups g).servers s

namespace Live

def init : Live :=
  { world := .init, memory := fun _ _ => .init, replies := [], encoded := [], images := [] }

def server (x : Live) (g : Gid) (s : ℕ) : Server State Entry WaitChResponse :=
  x.world.server g s

/-- The state of a server as it is: what the maps hold is in its memory. -/
def actual (x : Live) (g : Gid) (s : ℕ) : State :=
  (x.world.state g s).withContents (x.memory g s).shards

/-- The world after a step. -/
def setWorld (x : Live) (w : World) : Live := { x with world := w }

/-- The memory of server `s` of group `g` after a step. -/
def setMemory (x : Live) (g : Gid) (s : ℕ) (m : Memory) : Live :=
  { x with memory := update x.memory g (update (x.memory g) s m) }

/-- The memory of a server after it has applied an entry. -/
def applied (x : Live) (g : Gid) (s : ℕ) (op : Op) : Memory :=
  let st := x.world.state g s
  let m := (x.memory g s).applyOp g st (x.server g s).applied op
  { m with tasks := m.tasks ++ st.starts g op }

/-- A step as in `World`, and what it does to the memory. -/
def act (cs : Configs) (x : Live) (a : Action) : Option Live :=
  match a with
  | .pull g s i =>
    match x.world.pulls[i]? with
    | some y => (x.world.step cs a).map fun w =>
        { x.setWorld w with replies := x.replies ++ [(x.memory g s).shards y.shard] }
    | none => none
  | .gotPull g s i =>
    match x.replies[i]? with
    | some storage => (x.world.step cs a).map fun w =>
        let m := x.memory g s
        (x.setWorld w).setMemory g s
          { m with entries := update m.entries (x.server g s).raftLog.length storage }
    | none => none
  | .askPull g s shard =>
    if .pullShard shard (x.world.state g s).num ∈ (x.memory g s).tasks then
      (x.world.step cs a).map x.setWorld
    else none
  | .askLeave g s shard =>
    if .sendLeave shard (x.world.state g s).num ∈ (x.memory g s).tasks then
      (x.world.step cs a).map x.setWorld
    else none
  | .internal g s .apply =>
    match (x.server g s).raftLog[(x.server g s).applied]? with
    | some e => (x.world.step cs a).map fun w => (x.setWorld w).setMemory g s (x.applied g s e.op)
    | none => none
  | a => if a.plain then (x.world.step cs a).map x.setWorld else none

/-- A step of a server that is not its own. -/
def external (cs : Configs) (w : World) (g : Gid) (s : ℕ) (act : Act Entry) : Option World :=
  w.step cs (.internal g s act)

def step (cs : Configs) (x : Live) : LiveAction → Option Live
  | .act a => x.act cs a
  | .round g s i =>
    let m := x.memory g s
    match m.tasks[i]? with
    | some t =>
      (t.goesOn (x.world.state g s)).map fun goesOn =>
        if goesOn then x else x.setMemory g s { m with tasks := m.tasks.eraseIdx i }
    | none => none
  | .encode g s pos =>
    (x.server g s).raftLog[pos]?.map fun e =>
      { x with encoded := x.encoded ++ [⟨g, pos, e, (x.memory g s).entries pos⟩] }
  | .serialize g s =>
    some { x with images := x.images ++ [⟨g, (x.server g s).applied, x.actual g s⟩] }
  | .truncate g s n =>
    (external cs x.world g s (.overwrite ((x.server g s).raftLog.take n))).map x.setWorld
  | .receive g s i =>
    match x.encoded[i]? with
    | some y =>
      if y.gid = g ∧ y.pos = (x.server g s).raftLog.length then
        (external cs x.world g s (.overwrite ((x.server g s).raftLog ++ [y.entry]))).map fun w =>
          let m := x.memory g s
          (x.setWorld w).setMemory g s
            { m with entries := update m.entries y.pos y.storage }
      else none
    | none => none
  | .install g s i =>
    match x.images[i]? with
    | some y =>
      if y.gid = g then
        -- the part of the log that the snapshot comprises is dropped
        (external cs x.world g s (.overwrite ((x.world.groups g).agreed.take y.applied ++
            (x.server g s).raftLog.drop y.applied))).bind fun w =>
          (external cs w g s (.install y.applied)).map fun w' =>
            (x.setWorld w').setMemory g s
              { x.memory g s with shards := y.state.contents, shared := fun _ => none }
      else none
    | none => none
  | .restart g s none =>
    (external cs x.world g s (.restart 0)).bind fun w =>
      (external cs w g s (.overwrite [])).map fun w' => (x.setWorld w').setMemory g s .init
  | .restart g s (some i) =>
    match x.images[i]? with
    | some y =>
      if y.gid = g then
        (external cs x.world g s (.restart y.applied)).bind fun w =>
          -- the entries after the snapshot are decoded again
          (external cs w g s (.overwrite ((x.server g s).raftLog.take y.applied))).map fun w' =>
            (x.setWorld w').setMemory g s { Memory.init with shards := y.state.contents }
      else none
    | none => none

/-- What a server of group `g` restarts from: nothing, or a snapshot. -/
def restores (x : Live) (g : Gid) (i : Option ℕ) (k : ℕ) (st : State) : Prop :=
  match i with
  | none => k = 0 ∧ st = .initial
  | some i => x.images[i]? = some ⟨g, k, st⟩

/-- `x` is reached from the start by steps that satisfy `ok`. -/
def Reachable (cs : Configs) (ok : Live → LiveAction → Prop) (x : Live) : Prop :=
  Run (Live.step cs) ok Live.init x

theorem setMemory_self (x : Live) (g : Gid) (s : ℕ) (m : Memory) :
    (x.setMemory g s m).memory g s = m := by
  show update x.memory g _ g s = m
  rw [update_self, update_self]

theorem setMemory_of_ne (x : Live) {g h : Gid} {s j : ℕ} (m : Memory) (hne : ¬ (h = g ∧ j = s)) :
    (x.setMemory g s m).memory h j = x.memory h j := by
  show update x.memory g _ h j = x.memory h j
  rcases eq_or_ne h g with rfl | hh
  · rw [update_self, update_of_ne fun hj => hne ⟨rfl, hj⟩]
  · rw [update_of_ne hh]

/-! ### Steps -/

section

variable (cs : Configs) (x : Live)

/-- What a step can do. -/
inductive Moves : LiveAction → Live → Prop
  | plain (ha : a.plain = true) (hstep : x.world.step cs a = some w) : Moves (.act a) (x.setWorld w)
  | pull (hy : x.world.pulls[i]? = some y) (hstep : x.world.step cs (.pull g s i) = some w) :
      Moves (.act (.pull g s i))
        { x.setWorld w with replies := x.replies ++ [(x.memory g s).shards y.shard] }
  | gotPull (hi : x.replies[i]? = some storage)
      (hstep : x.world.step cs (.gotPull g s i) = some w) :
      Moves (.act (.gotPull g s i))
        ((x.setWorld w).setMemory g s
          { x.memory g s with
            entries := update (x.memory g s).entries (x.server g s).raftLog.length
              storage })
  | apply (he : (x.server g s).raftLog[(x.server g s).applied]? = some e)
      (hstep : x.world.step cs (.internal g s .apply) = some w) :
      Moves (.act (.internal g s .apply)) ((x.setWorld w).setMemory g s (x.applied g s e.op))
  | goOn (g : Gid) (s i : ℕ) : Moves (.round g s i) x
  | stop (ht : (x.memory g s).tasks[i]? = some t)
      (hstop : t.goesOn (x.world.state g s) = some false) :
      Moves (.round g s i)
        (x.setMemory g s { x.memory g s with tasks := (x.memory g s).tasks.eraseIdx i })
  | encode (he : (x.server g s).raftLog[pos]? = some e) :
      Moves (.encode g s pos)
        { x with encoded := x.encoded ++ [⟨g, pos, e, (x.memory g s).entries pos⟩] }
  | serialize (g : Gid) (s : ℕ) :
      Moves (.serialize g s)
      { x with images := x.images ++ [⟨g, (x.server g s).applied, x.actual g s⟩] }
  | truncate
      (hstep : x.world.step cs (.internal g s (.overwrite ((x.server g s).raftLog.take n))) = some
        w) : Moves (.truncate g s n) (x.setWorld w)
  | receive (hy : x.encoded[i]? = some y) (hpos : y.pos = (x.server g s).raftLog.length)
      (hstep : x.world.step cs (.internal g s (.overwrite ((x.server g s).raftLog ++ [y.entry]))) =
        some w) :
      Moves (.receive g s i)
        ((x.setWorld w).setMemory g s
          { x.memory g s with
            entries := update (x.memory g s).entries y.pos y.storage })
  | install (hy : x.images[i]? = some y)
      (hstep : x.world.step cs (.internal y.gid s (.overwrite ((x.world.groups y.gid).agreed.take
        y.applied ++ (x.server y.gid s).raftLog.drop y.applied))) = some w)
      (hstep' : w.step cs (.internal y.gid s (.install y.applied)) = some w') :
      Moves (.install y.gid s i)
        ((x.setWorld w').setMemory y.gid s
          { x.memory y.gid s with shards := y.state.contents, shared := fun _ => none })
  | restart (hi : x.restores g i k st)
      (hstep : x.world.step cs (.internal g s (.restart k)) = some w)
      (hstep' : w.step cs (.internal g s (.overwrite ((x.server g s).raftLog.take k))) = some w') :
      Moves (.restart g s i)
        ((x.setWorld w').setMemory g s { Memory.init with shards := st.contents })

end

variable {cs : Configs} {x x' : Live} {a : LiveAction}

theorem moves_of_act {b : Action} (h : x.act cs b = some x') : x.Moves cs (.act b) x' := by
  have hplain (ha : b.plain = true) (h : (x.world.step cs b).map x.setWorld = some x') :
      x.Moves cs (.act b) x' := by
    obtain ⟨w, hw, rfl⟩ := Option.map_eq_some_iff.mp h
    exact .plain ha hw
  unfold act at h
  split at h
  · split at h
    · rename_i hy
      obtain ⟨w, hw, rfl⟩ := Option.map_eq_some_iff.mp h
      exact .pull hy hw
    · cases h
  · split at h
    · rename_i hi
      obtain ⟨w, hw, rfl⟩ := Option.map_eq_some_iff.mp h
      exact .gotPull hi hw
    · cases h
  · split at h
    · exact hplain rfl h
    · cases h
  · split at h
    · exact hplain rfl h
    · cases h
  · split at h
    · rename_i he
      obtain ⟨w, hw, rfl⟩ := Option.map_eq_some_iff.mp h
      exact .apply he hw
    · cases h
  · split at h
    · rename_i ha
      exact hplain ha h
    · cases h

/-- **Inversion** of a step. -/
theorem moves_of_step (h : x.step cs a = some x') : x.Moves cs a x' := by
  cases a with
  | act b => exact moves_of_act h
  | round g s i =>
    rw [step] at h
    split at h
    · rename_i t ht
      obtain ⟨goesOn, hgoes, rfl⟩ := Option.map_eq_some_iff.mp h
      cases goesOn with
      | true => exact .goOn g s i
      | false => exact .stop ht hgoes
    · cases h
  | encode g s pos =>
    obtain ⟨e, he, rfl⟩ := Option.map_eq_some_iff.mp h
    exact .encode he
  | serialize g s =>
    cases h
    exact .serialize g s
  | truncate g s n =>
    obtain ⟨w, hw, rfl⟩ := Option.map_eq_some_iff.mp h
    exact .truncate hw
  | receive g s i =>
    rw [step] at h
    split at h
    · rename_i y hy
      split at h
      · rename_i hcond
        obtain ⟨w, hw, rfl⟩ := Option.map_eq_some_iff.mp h
        exact .receive hy hcond.2 hw
      · cases h
    · cases h
  | install g s i =>
    rw [step] at h
    split at h
    · rename_i y hy
      split at h
      · rename_i hgid
        subst hgid
        obtain ⟨w, hw, hrest⟩ := Option.bind_eq_some_iff.mp h
        obtain ⟨w', hw', rfl⟩ := Option.map_eq_some_iff.mp hrest
        exact .install hy hw hw'
      · cases h
    · cases h
  | restart g s i =>
    cases i with
    | none =>
      rw [step] at h
      obtain ⟨w, hw, hrest⟩ := Option.bind_eq_some_iff.mp h
      obtain ⟨w', hw', rfl⟩ := Option.map_eq_some_iff.mp hrest
      have hi : x.restores g none 0 .initial := ⟨rfl, rfl⟩
      exact .restart hi hw hw'
    | some i =>
      rw [step] at h
      split at h
      · rename_i y hy
        split at h
        · rename_i hgid
          subst hgid
          obtain ⟨w, hw, hrest⟩ := Option.bind_eq_some_iff.mp h
          obtain ⟨w', hw', rfl⟩ := Option.map_eq_some_iff.mp hrest
          exact .restart (k := y.applied) hy hw hw'
        · cases h
      · cases h

/-- The steps are steps of the world; those that are not taken over from it are internal. -/
theorem Moves.run_of {ok : World → Action → Prop} (h : x.Moves cs a x')
    (hact : ∀ b, a = .act b → ok x.world b) (hint : ∀ w g s y, ok w (.internal g s y)) :
    Run (World.step cs) ok x.world x'.world := by
  have hone {b : Action} {w : World} (hb : ok x.world b) (hstep : x.world.step cs b = some w) :
      Run (World.step cs) ok x.world w := .tail b (.refl _) hb hstep
  cases h with
  | plain _ hstep | pull _ hstep | gotPull _ hstep | apply _ hstep => exact hone (hact _ rfl) hstep
  | truncate hstep | receive _ _ hstep => exact hone (hint _ _ _ _) hstep
  | goOn | stop | encode | serialize => exact .refl _
  | install _ hstep hstep' | restart _ hstep hstep' =>
    exact .tail _ (hone (hint _ _ _ _) hstep) (hint _ _ _ _) hstep'

theorem Moves.run (h : x.Moves cs a x') :
    Run (World.step cs) (fun _ _ => True) x.world x'.world :=
  h.run_of (fun _ _ => trivial) fun _ _ _ _ => trivial

theorem Moves.sane (h : x.Moves cs a x') (hw : x.world.Sane cs) : x'.world.Sane cs :=
  Run.invariant (fun _ _ _ hw _ hstep => hw.step hstep) h.run hw

theorem Moves.agreed (h : x.Moves cs a x') (hw : x.world.Sane cs) (g : Gid) :
    (x.world.groups g).agreed <+: (x'.world.groups g).agreed := by
  refine Run.monotone (I := fun w => w.Sane cs)
    (R := fun w w' => (w.groups g).agreed <+: (w'.groups g).agreed) (fun _ => List.prefix_refl _)
    ?_ (fun _ _ _ hw _ hstep => hw.step hstep) ?_ h.run hw
  · intro w w' w'' h h'
    exact h.trans h'
  · intro w a w' hw _ hstep
    exact (World.moves_of_step hw hstep).le.agreed g

theorem Reachable.world_of {ok : Live → LiveAction → Prop} {ok' : World → Action → Prop}
    (hr : Reachable cs ok x) (hact : ∀ x b, ok x (.act b) → ok' x.world b)
    (hint : ∀ w g s y, ok' w (.internal g s y)) : World.Reachable cs ok' x.world := by
  refine Run.invariant (I := fun x => World.Reachable cs ok' x.world) ?_ hr ?_
  · intro x a x' hx hok hstep
    exact Run.trans hx ((moves_of_step hstep).run_of (fun b hb => hact x b (hb ▸ hok)) hint)
  · exact Run.refl _

theorem Reachable.world {ok : Live → LiveAction → Prop} (hr : Reachable cs ok x) :
    World.Reachable cs (fun _ _ => True) x.world :=
  hr.world_of (fun _ _ _ => trivial) fun _ _ _ _ => trivial

end Live

/-! ### What the steps do to the servers -/

namespace World

variable {cs : Configs} {w w' : World} {g : Gid} {i n : ℕ}

/-- All servers but one are as before. -/
def Alone (w w' : World) (g : Gid) (i : ℕ) : Prop :=
  ∀ h j, ¬ (h = g ∧ j = i) → w'.server h j = w.server h j

theorem Alone.trans {w'' : World} (h : w.Alone w' g i) (h' : w'.Alone w'' g i) :
    w.Alone w'' g i :=
  fun k j hne => (h' k j hne).trans (h k j hne)

variable {x : Act Entry} {c : Cluster State Entry WaitChResponse}

/-- A step of one server. -/
theorem act_server (hact : w.act g i x = some c) :
    w.Alone (w.setGroup g c) g i ∧ ∃ e, (w.server g i).act (machine g) (w.groups g).agreed
      (w.groups g).started x = some e ∧ (w.setGroup g c).server g i = e.server := by
  obtain ⟨e, he, rfl⟩ := Option.map_eq_some_iff.mp hact
  refine ⟨fun h j hne => ?_, e, he, ?_⟩
  · unfold server
    rcases eq_or_ne h g with rfl | hh
    · rw [setGroup_self, Cluster.after_servers_of_ne _ _ fun hj => hne ⟨rfl, hj⟩]
    · rw [setGroup_of_ne _ _ hh]
  · unfold server
    rw [setGroup_self, Cluster.after_servers_self]

theorem internal_server (h : w.step cs (.internal g i x) = some w') :
    w.Alone w' g i ∧ w'.pulled = w.pulled ∧ ∃ e, (w.server g i).Acts (machine g)
      (w.groups g).agreed (w.groups g).started x e ∧ w'.server g i = e.server := by
  rw [step] at h
  split at h
  · obtain ⟨c, hc, rfl⟩ := Option.map_eq_some_iff.mp h
    obtain ⟨halone, e, he, hserver⟩ := act_server hc
    exact ⟨halone, rfl, e, Server.acts_of_act he, hserver⟩
  · cases h

/-- One server has another log and has applied `k` entries, by a snapshot. -/
structure Restored (w w' : World) (g : Gid) (i k : ℕ) (log : List Entry) : Prop where
  alone : w.Alone w' g i
  pulled : w'.pulled = w.pulled
  raftLog : (w'.server g i).raftLog = log
  applied : (w'.server g i).applied = k

theorem restored_install {log : List Entry} {w₁ : World} {k : ℕ}
    (h : w.step cs (.internal g i (.overwrite log)) = some w₁)
    (h' : w₁.step cs (.internal g i (.install k)) = some w') :
    w.Restored w' g i k log ∧ (w.server g i).applied < k := by
  obtain ⟨halone, hpulled, e, hacts, hserver⟩ := internal_server h
  obtain ⟨halone', hpulled', e', hacts', hserver'⟩ := internal_server h'
  cases hacts with
  | overwrite =>
    cases hacts' with
    | install _ hlt =>
      rw [hserver] at hlt hserver'
      refine ⟨⟨halone.trans halone', hpulled'.trans hpulled, ?_, ?_⟩, hlt⟩
      · rw [hserver']
        rfl
      · rw [hserver']
        rfl

theorem restored_restart {log : List Entry} {w₁ : World} {k : ℕ}
    (h : w.step cs (.internal g i (.restart k)) = some w₁)
    (h' : w₁.step cs (.internal g i (.overwrite log)) = some w') : w.Restored w' g i k log := by
  obtain ⟨halone, hpulled, e, hacts, hserver⟩ := internal_server h
  obtain ⟨halone', hpulled', e', hacts', hserver'⟩ := internal_server h'
  cases hacts with
  | restart =>
    cases hacts' with
    | overwrite =>
      rw [hserver] at hserver'
      refine ⟨halone.trans halone', hpulled'.trans hpulled, ?_, ?_⟩
      · rw [hserver']
        rfl
      · rw [hserver']
        rfl

/-- The state after a snapshot. -/
theorem Sane.restored_state (hw : w'.Sane cs) {k : ℕ} {log : List Entry} {st : State}
    (h : w.Restored w' g i k log)
    (hst : (machine g).replay ((w'.groups g).agreed.take k) = some st) :
    (w'.server g i).state = st := by
  have hstate := ((hw.sound g).servers i).state_eq
  have happlied : ((w'.groups g).servers i).applied = k := h.applied
  rw [happlied] at hstate
  exact Option.some.inj (hstate.symm.trans hst)

/-- A server that applies an entry performs a step of the agreed log. -/
theorem Sane.performs_apply (hw : w.Sane cs) (h : w.step cs (.internal g i .apply) = some w') :
    ∃ e r, (w.server g i).raftLog[(w.server g i).applied]? = some e ∧
      (w'.groups g).agreed.take (w.server g i).applied ++ [e] <+: (w'.groups g).agreed ∧
      (machine g).replay ((w'.groups g).agreed.take (w.server g i).applied) =
        some (w.state g i) ∧
      (machine g).apply (w.state g i) e = some (w'.state g i, r) := by
  obtain ⟨-, -, y, hacts, hserver⟩ := internal_server h
  have hsound := ((hw.step h).sound g).servers i
  have hold := ((hw.sound g).servers i).mono ((moves_of_step hw h).le.agreed g) fun _ ha => ha
  cases hacts with
  | @apply e x hlog _ hx =>
    have hnew : (w'.server g i).applied = (w.server g i).applied + 1 := by rw [hserver]
    have hraft : (w'.server g i).raftLog = (w.server g i).raftLog := by rw [hserver]
    have hget : (w'.groups g).agreed[(w.server g i).applied]? = some e := by
      have htake := congrArg (·[(w.server g i).applied]?) hsound.take_eq
      have htake : ((w'.server g i).raftLog.take (w'.server g i).applied)[(w.server g i).applied]? =
        ((w'.groups g).agreed.take (w'.server g i).applied)[(w.server g i).applied]? := htake
      rw [hnew, hraft, List.getElem?_take_of_succ, List.getElem?_take_of_succ, hlog] at htake
      exact htake.symm
    refine ⟨e, x.2, hlog, ?_, hold.state_eq, ?_⟩
    · have hpre := List.take_prefix ((w.server g i).applied + 1) (w'.groups g).agreed
      rw [List.take_add_one, hget] at hpre
      exact hpre
    · have hstate : ((w'.groups g).servers i).state = x.1 := congrArg Server.state hserver
      rw [state, state, hstate]
      exact hx

/-- A plain step of one server. -/
theorem act_extends (hact : w.act g i x = some c) (hx : x.plain = true) :
    w.Alone (w.setGroup g c) g i ∧
      (w.server g i).Extends ((w.setGroup g c).server g i) x.starts := by
  obtain ⟨halone, e, he, hserver⟩ := act_server hact
  rw [hserver]
  exact ⟨halone, Server.extends_of_act he hx⟩

/-- One server has started some entries, and nothing else has changed. -/
def Started (w w' : World) (tail : List Entry) : Prop :=
  ∃ g i, w.Alone w' g i ∧ (w.server g i).Extends (w'.server g i) tail

theorem started_nil (hsame : w'.groups = w.groups) : w.Started w' [] := by
  have hserver (h : Gid) (j : ℕ) : w'.server h j = w.server h j := by
    rw [server, hsame, server]
  refine ⟨0, 0, fun h j _ => hserver h j, ?_⟩
  rw [hserver]
  exact ⟨(List.append_nil _).symm, rfl, rfl⟩

theorem started_act (hact : w.act g i x = some c) (hx : x.plain = true) :
    w.Started (w.setGroup g c) x.starts :=
  ⟨g, i, act_extends hact hx⟩

/-- **Plain steps** do not start a `PULL_SHARD`. -/
theorem plain_step {a : Action} (hw : w.Sane cs) (h : w.step cs a = some w') (ha : a.plain = true) :
    w'.pulled = w.pulled ∧ ∃ tail, w.Started w' tail ∧ ∀ e ∈ tail, e.op.storage? = none := by
  cases moves_of_step hw h with
  | @starts _ g i x e c hact hkind hjust hleave hpull =>
    obtain ⟨hx, hstarts⟩ : x.plain = true ∧ x.starts = [e] := by
      rcases hkind with rfl | rfl | rfl <;> exact ⟨rfl, rfl⟩
    refine ⟨rfl, _, started_act hact hx, fun e' he => ?_⟩
    rw [hstarts, List.mem_singleton] at he
    subst he
    cases hop : e'.op with
    | pullShard shard v storage =>
      obtain ⟨j, rfl⟩ := hpull shard v storage hop
      cases ha
    | get | put | append | updateConfig | leaveShard | transferDone => rfl
  | internal hact hint => exact ⟨rfl, _, started_act hact ha, by simp [hint]⟩
  | asks | wants => exact ⟨rfl, [], started_nil rfl, by simp⟩
  | gives => cases ha

/-- The reply to `Pull` has the contents of the shard. -/
theorem pull_step {y : Request} (h : w.step cs (.pull g i n) = some w')
    (hy : w.pulls[n]? = some y) : w'.groups = w.groups ∧
      ∃ sh, (w.server g i).state.shards y.shard = some sh ∧
        w'.pulled = w.pulled ++ [⟨g, y.shard, y.version, sh.storage⟩] := by
  rw [step, hy] at h
  dsimp only at h
  split at h
  · obtain ⟨storage, hpull, rfl⟩ := Option.map_eq_some_iff.mp h
    unfold State.pull at hpull
    split_ifs at hpull
    obtain ⟨sh, hsh, rfl⟩ := Option.map_eq_some_iff.mp hpull
    exact ⟨rfl, sh, hsh, rfl⟩
  · cases h

/-- `PULL_SHARD` is started with the contents of a reply. -/
theorem gotPull_step (h : w.step cs (.gotPull g i n) = some w') :
    w'.pulled = w.pulled ∧ ∃ y e, w.pulled[n]? = some y ∧ e.op.storage? = some y.storage ∧
      w.Alone w' g i ∧ (w.server g i).Extends (w'.server g i) [e] := by
  rw [step] at h
  split at h
  · rename_i y hy
    split at h
    · obtain ⟨c, hc, rfl⟩ := Option.map_eq_some_iff.mp h
      exact ⟨rfl, y, _, hy, rfl, act_extends hc rfl⟩
    · cases h
  · cases h

end World

/-! ### What the steps do to the tasks -/

theorem Memory.tasks_applyOp (m : Memory) (gid : Gid) (st : State) (pos : ℕ) (op : Op) :
    (m.applyOp gid st pos op).tasks = m.tasks := by
  unfold Memory.applyOp
  split
  · split <;> rfl
  · split <;> rfl
  · unfold Memory.writeAt
    split <;> rfl

namespace Live

variable {cs : Configs} {x x' : Live} {a : LiveAction} {w : World}

/-- What a step means for the state and the tasks of server `s` of group `g`. -/
inductive Attends (x x' : Live) (g : Gid) (s : ℕ) : LiveAction → Prop
  /-- nothing -/
  | keep {a : LiveAction} (hstate : x'.world.state g s = x.world.state g s)
      (htasks : (x'.memory g s).tasks = (x.memory g s).tasks) : Attends x x' g s a
  /-- an entry is applied, and starts its tasks -/
  | apply {a : LiveAction} {e : Entry} {r : WaitChResponse}
      (hp : x'.world.Performs g (x.world.state g s) e (x'.world.state g s) r)
      (htasks : (x'.memory g s).tasks =
        (x.memory g s).tasks ++ (x.world.state g s).starts g e.op) : Attends x x' g s a
  /-- a task ends -/
  | stop {a : LiveAction} {i : ℕ} {t : Task} (hstate : x'.world.state g s = x.world.state g s)
      (ht : (x.memory g s).tasks[i]? = some t)
      (hstop : t.goesOn (x.world.state g s) = some false)
      (htasks : (x'.memory g s).tasks = (x.memory g s).tasks.eraseIdx i) : Attends x x' g s a
  /-- a snapshot replaces the state -/
  | install {i : ℕ} {y : Image} {log : List Entry} (hy : x.images[i]? = some y)
      (hgid : y.gid = g) (hrest : x.world.Restored x'.world g s y.applied log)
      (hlt : (x.server g s).applied < y.applied)
      (htasks : (x'.memory g s).tasks = (x.memory g s).tasks) : Attends x x' g s (.install g s i)
  /-- the server is restarted, without tasks -/
  | restart {i : Option ℕ} {k : ℕ} {st : State} {log : List Entry} (hi : x.restores g i k st)
      (hrest : x.world.Restored x'.world g s k log) (htasks : (x'.memory g s).tasks = []) :
      Attends x x' g s (.restart g s i)

/-- All servers but one, and their memory, are as before. -/
theorem attends_of_ne {g h : Gid} {s j : ℕ} {m : Memory} (halone : x.world.Alone w g s)
    (hne : ¬ (h = g ∧ j = s)) : x.Attends ((x.setWorld w).setMemory g s m) h j a := by
  refine .keep ?_ (by rw [setMemory_of_ne _ _ hne]; rfl)
  show (w.server h j).state = _
  rw [halone h j hne]
  rfl

/-- The state of a server is as before. -/
theorem state_of_alone {g h : Gid} {s j : ℕ} (halone : x.world.Alone w g s)
    (hself : (w.server g s).state = (x.server g s).state) :
    (w.server h j).state = (x.server h j).state := by
  by_cases heq : h = g ∧ j = s
  · obtain ⟨rfl, rfl⟩ := heq
    exact hself
  · rw [halone h j heq]
    rfl

/-- **Inversion** of a step, for one server. -/
theorem Moves.attends (hmoves : x.Moves cs a x') (hw : x.world.Sane cs) (h : Gid) (j : ℕ) :
    x.Attends x' h j a := by
  cases hmoves with
  | plain ha hs =>
    obtain ⟨-, tail, ⟨g, s, halone, hext⟩, -⟩ := World.plain_step hw hs ha
    exact .keep (state_of_alone halone hext.state) rfl
  | @pull i y g s w hy hs =>
    obtain ⟨hgroups, -⟩ := World.pull_step hs hy
    refine .keep ?_ rfl
    show ((w.groups h).servers j).state = _
    rw [hgroups]
    rfl
  | @gotPull i storage g s w hi hs =>
    obtain ⟨-, y, e, -, -, halone, hext⟩ := World.gotPull_step hs
    by_cases heq : h = g ∧ j = s
    · obtain ⟨rfl, rfl⟩ := heq
      exact .keep hext.state (by rw [setMemory_self])
    · exact attends_of_ne halone heq
  | @apply g s e w he hs =>
    obtain ⟨halone, -⟩ := World.internal_server hs
    by_cases heq : h = g ∧ j = s
    · obtain ⟨rfl, rfl⟩ := heq
      obtain ⟨e', r, he', hpre, hst, happly⟩ := hw.performs_apply hs
      obtain rfl : e = e' := Option.some.inj (he.symm.trans he')
      refine .apply (e := e) (r := r) ⟨_, hpre, hst, happly⟩ ?_
      rw [setMemory_self, applied, Memory.tasks_applyOp]
    · exact attends_of_ne halone heq
  | goOn | encode | serialize => exact .keep rfl rfl
  | @stop g s i t ht hstop =>
    by_cases heq : h = g ∧ j = s
    · obtain ⟨rfl, rfl⟩ := heq
      exact .stop rfl ht hstop (by rw [setMemory_self])
    · exact .keep rfl (by rw [setMemory_of_ne _ _ heq])
  | @truncate g s n w hs =>
    obtain ⟨halone, -, e, hacts, hserver⟩ := World.internal_server hs
    cases hacts with
    | overwrite =>
      have hself : (w.server g s).state = (x.server g s).state := by
        rw [hserver]
        rfl
      exact .keep (state_of_alone halone hself) rfl
  | @receive i y g s w hy hpos hs =>
    obtain ⟨halone, -, e, hacts, hserver⟩ := World.internal_server hs
    by_cases heq : h = g ∧ j = s
    · obtain ⟨rfl, rfl⟩ := heq
      cases hacts with
      | overwrite =>
        refine .keep ?_ (by rw [setMemory_self])
        show (w.server h j).state = _
        rw [hserver]
        rfl
    · exact attends_of_ne halone heq
  | @install i y s w w' hy hs hs' =>
    obtain ⟨hrest, hlt⟩ := World.restored_install hs hs'
    by_cases heq : h = y.gid ∧ j = s
    · obtain ⟨rfl, rfl⟩ := heq
      exact .install hy rfl hrest hlt (by rw [setMemory_self])
    · exact attends_of_ne hrest.alone heq
  | @restart g i k st s w w' hi hs hs' =>
    have hrest := World.restored_restart hs hs'
    by_cases heq : h = g ∧ j = s
    · obtain ⟨rfl, rfl⟩ := heq
      exact .restart hi hrest (by rw [setMemory_self]; rfl)
    · exact attends_of_ne hrest.alone heq

end Live

end MitDistributed.ShardKV
