import Mathlib.Data.List.Basic
import Mathlib.Data.List.Pairwise
import Mathlib.Data.Fintype.Pi
import Mathlib.Data.Int.Order.Basic
import Mathlib.Tactic.Common

namespace MitDistributed.ShardCtrler

/-!
# Shard controller — configurations

A configuration assigns `NShards` shards to replica groups.  `Groups` is the map from group ids
to server names; its entries are kept in the order of the ids, so that equal maps are equal and
the sorted list of ids is at hand.

* `Groups.insert`, `Groups.erase`, `Groups.join`, `Groups.leave` — the updates of the map;
* `Config.next` — `createNewConfigDeepCopy`.
-/

/-- The number of shards. -/
def NShards : ℕ := 10

/-- Ids of replica groups; 0 is the invalid group. -/
abbrev Gid := ℤ

abbrev ShardId := Fin NShards

/-- Which group each shard is assigned to. -/
abbrev Shards := ShardId → Gid

/-- The map from group ids to server names, in the order of the ids. -/
structure Groups where
  entries : List (Gid × List String)
  sorted : entries.Pairwise fun x y => x.1 < y.1
  deriving DecidableEq

namespace Groups

def empty : Groups := ⟨[], List.Pairwise.nil⟩

/-- One group with one server. -/
def single (gid : Gid) (server : String) : Groups :=
  ⟨[(gid, [server])], List.pairwise_singleton _ _⟩

/-- The ids in increasing order. -/
def gids (groups : Groups) : List Gid := groups.entries.map Prod.fst

/-- The servers of a group. -/
def get? (groups : Groups) (gid : Gid) : Option (List String) := groups.entries.lookup gid

theorem isSome_get? {groups : Groups} {gid : Gid} :
    (groups.get? gid).isSome ↔ gid ∈ groups.gids := by
  obtain ⟨es, hes⟩ := groups
  show (es.lookup gid).isSome ↔ gid ∈ es.map Prod.fst
  clear hes
  induction es with
  | nil => simp
  | cons e es ih =>
    obtain ⟨k, servers⟩ := e
    rw [List.lookup_cons, List.map_cons, List.mem_cons]
    rcases eq_or_ne gid k with rfl | hne
    · simp
    · rw [beq_eq_false_iff_ne.mpr hne]
      simp [ih, hne]

/-- A sorted list of entries is a map: an entry is in it exactly if it is what a lookup finds. -/
theorem lookup_eq_some_iff {es : List (Gid × List String)} (hes : es.Pairwise fun x y => x.1 < y.1)
    {gid : Gid} {servers : List String} :
    es.lookup gid = some servers ↔ (gid, servers) ∈ es := by
  induction es with
  | nil => simp
  | cons e es ih =>
    obtain ⟨k, v⟩ := e
    obtain ⟨hk, hes⟩ := List.pairwise_cons.mp hes
    rw [List.lookup_cons, List.mem_cons]
    rcases eq_or_ne gid k with rfl | hne
    · have hout : (gid, servers) ∉ es := fun hmem => lt_irrefl gid (hk _ hmem)
      simp [hout, eq_comm]
    · rw [beq_eq_false_iff_ne.mpr hne]
      simp [ih hes, hne]

/-- Maps with the same servers for every group are equal. -/
theorem ext_get? {groups groups' : Groups} (h : ∀ gid, groups.get? gid = groups'.get? gid) :
    groups = groups' := by
  obtain ⟨es, hes⟩ := groups
  obtain ⟨es', hes'⟩ := groups'
  have hnodup {l : List (Gid × List String)} (hl : l.Pairwise fun x y => x.1 < y.1) : l.Nodup :=
    hl.imp fun hlt heq => hlt.ne (congrArg Prod.fst heq)
  have hperm : es.Perm es' := by
    refine (List.perm_ext_iff_of_nodup (hnodup hes) (hnodup hes')).mpr fun e => ?_
    obtain ⟨gid, servers⟩ := e
    rw [← lookup_eq_some_iff hes, ← lookup_eq_some_iff hes']
    exact iff_of_eq (congrArg (· = some servers) (h gid))
  have heq : es = es' := by
    refine List.Perm.eq_of_pairwise (fun x y _ _ hxy hyx => ?_) hes hes' hperm
    exact absurd (hxy.trans hyx) (lt_irrefl _)
  subst heq
  rfl

/-! ### Updates -/

def insertEntry (gid : Gid) (servers : List String) :
    List (Gid × List String) → List (Gid × List String)
  | [] => [(gid, servers)]
  | e :: es =>
    if gid < e.1 then (gid, servers) :: e :: es
    else if gid = e.1 then (gid, servers) :: es
    else e :: insertEntry gid servers es

theorem mem_insertEntry {gid : Gid} {servers : List String} {es : List (Gid × List String)}
    {e : Gid × List String} (h : e ∈ insertEntry gid servers es) :
    e = (gid, servers) ∨ e ∈ es := by
  induction es with
  | nil => exact .inl (List.mem_singleton.mp h)
  | cons x es ih =>
    unfold insertEntry at h
    split at h
    · exact List.mem_cons.mp h
    · split at h
      · exact (List.mem_cons.mp h).imp_right (List.mem_cons_of_mem x)
      · rcases List.mem_cons.mp h with rfl | hmem
        · exact .inr List.mem_cons_self
        · exact (ih hmem).imp_right (List.mem_cons_of_mem x)

/-- An id that is there stays, perhaps with other servers. -/
theorem mem_insertEntry_of_mem (gid : Gid) (servers : List String) {es : List (Gid × List String)}
    {e : Gid × List String} (h : e ∈ es) : ∃ y ∈ insertEntry gid servers es, y.1 = e.1 := by
  induction es with
  | nil => cases h
  | cons x es ih =>
    unfold insertEntry
    split
    · exact ⟨e, List.mem_cons_of_mem _ h, rfl⟩
    · split
      · rename_i heq
        rcases List.mem_cons.mp h with rfl | hmem
        · exact ⟨_, List.mem_cons_self, heq⟩
        · exact ⟨e, List.mem_cons_of_mem _ hmem, rfl⟩
      · rcases List.mem_cons.mp h with rfl | hmem
        · exact ⟨e, List.mem_cons_self, rfl⟩
        · obtain ⟨y, hy, heq⟩ := ih hmem
          exact ⟨y, List.mem_cons_of_mem _ hy, heq⟩

theorem sorted_insertEntry (gid : Gid) (servers : List String) {es : List (Gid × List String)}
    (h : es.Pairwise fun x y => x.1 < y.1) :
    (insertEntry gid servers es).Pairwise fun x y => x.1 < y.1 := by
  induction es with
  | nil => exact List.pairwise_singleton _ _
  | cons x es ih =>
    obtain ⟨hx, hes⟩ := List.pairwise_cons.mp h
    unfold insertEntry
    split
    · rename_i hlt
      refine List.pairwise_cons.mpr ⟨fun y hy => ?_, h⟩
      rcases List.mem_cons.mp hy with rfl | hy
      · exact hlt
      · exact hlt.trans (hx y hy)
    · rename_i hnlt
      split
      · rename_i heq
        exact List.pairwise_cons.mpr ⟨fun y hy => heq ▸ hx y hy, hes⟩
      · rename_i hne
        refine List.pairwise_cons.mpr ⟨fun y hy => ?_, ih hes⟩
        rcases mem_insertEntry hy with rfl | hy
        · exact lt_of_le_of_ne (not_lt.mp hnlt) (Ne.symm hne)
        · exact hx y hy

/-- `groups[gid] = servers` -/
def insert (groups : Groups) (gid : Gid) (servers : List String) : Groups :=
  ⟨insertEntry gid servers groups.entries, sorted_insertEntry gid servers groups.sorted⟩

theorem get?_insert (groups : Groups) (gid k : Gid) (servers : List String) :
    (groups.insert gid servers).get? k = if k = gid then some servers else groups.get? k := by
  show (insertEntry gid servers groups.entries).lookup k = ite _ _ (groups.entries.lookup k)
  generalize groups.entries = es
  induction es with
  | nil =>
    rcases eq_or_ne k gid with rfl | hne
    · simp [insertEntry]
    · simp [insertEntry, hne]
  | cons e es ih =>
    obtain ⟨k', v⟩ := e
    unfold insertEntry
    rcases eq_or_ne k gid with rfl | hne
    · rw [if_pos rfl] at ih ⊢
      split
      · simp
      · split
        · simp
        · rename_i hneq
          rw [List.lookup_cons, beq_eq_false_iff_ne.mpr hneq]
          exact ih
    · rw [if_neg hne] at ih ⊢
      have hk : (k == gid) = false := beq_eq_false_iff_ne.mpr hne
      split
      · rw [List.lookup_cons, hk]
      · split
        · rename_i heq
          obtain rfl : gid = k' := heq
          rw [List.lookup_cons, List.lookup_cons, hk]
        · rw [List.lookup_cons, List.lookup_cons, ih]

/-- Writes to different groups commute. -/
theorem insert_comm (groups : Groups) {gid gid' : Gid} (hne : gid ≠ gid')
    (servers servers' : List String) :
    (groups.insert gid servers).insert gid' servers' =
      (groups.insert gid' servers').insert gid servers := by
  refine ext_get? fun k => ?_
  rw [get?_insert, get?_insert, get?_insert, get?_insert]
  split_ifs with h h'
  · exact absurd (h'.symm.trans h) hne
  · rfl
  · rfl
  · rfl

/-- `delete(groups, gid)` -/
def erase (groups : Groups) (gid : Gid) : Groups :=
  ⟨groups.entries.filter fun e => e.1 ≠ gid, groups.sorted.filter _⟩

/-- The groups after a `JOIN`. -/
def join (groups servers : Groups) : Groups :=
  servers.entries.foldl (fun gs e => gs.insert e.1 e.2) groups

/-- A `JOIN` keeps the groups that are there. -/
theorem mem_gids_join {groups servers : Groups} {gid : Gid} (h : gid ∈ groups.gids) :
    gid ∈ (groups.join servers).gids := by
  unfold join
  generalize servers.entries = es
  induction es generalizing groups with
  | nil => exact h
  | cons e es ih =>
    refine ih ?_
    obtain ⟨x, hx, rfl⟩ := List.mem_map.mp h
    obtain ⟨y, hy, heq⟩ := mem_insertEntry_of_mem e.1 e.2 hx
    exact List.mem_map.mpr ⟨y, hy, heq⟩

/-- The groups after a `LEAVE`. -/
def leave (groups : Groups) (gids : List Gid) : Groups := gids.foldl erase groups

end Groups

/-- A configuration. -/
structure Config where
  num : ℕ
  shards : Shards
  groups : Groups
  deriving DecidableEq

namespace Config

/-- The configuration with which everything starts, and the zero value `Config{}`. -/
def initial : Config := { num := 0, shards := fun _ => 0, groups := .empty }

/-- `createNewConfigDeepCopy`: the same configuration with the next number. -/
def next (config : Config) : Config := { config with num := config.num + 1 }

end Config

end MitDistributed.ShardCtrler
