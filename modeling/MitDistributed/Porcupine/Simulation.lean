import MitDistributed.Porcupine.Checker

namespace MitDistributed.Porcupine

open Function Linearizability LinkedList Transition

/-!
# The loop of the checker follows the search

Iteration by iteration the loop of `checkSingle` does what `Linearizability.Search` does.

* `Corresponds` — the links hold the events that are left, the bitset the linearized operations, the
  cache what has been reached and `calls` the stack; every lift on the way can be undone;
* `Layout.lift` — lifting takes the two nodes of an operation out of the list and can be undone,
  whatever has been lifted before;
* `Corresponds.go`, `Corresponds.stop` — an iteration does not panic, and does what the search does;
* `EntriesOf.corresponds_start` — the variables before the loop are those of the search.
-/

variable {S I O : Type}

/-- What the model allows for the operation with id `i`. -/
def opStep (model : FilledModel S I O) (vals : List (I × O)) (s : S) (i : ℕ) : Option S :=
  vals[i]?.bind fun v =>
    if (model.step s v.1 v.2).1 then some (model.step s v.1 v.2).2 else none

/-! ### Nodes and addresses -/

/-- The nodes of a history: the one of the event `t` has the index of `t` as its address. -/
structure Layout (vals : List (I × O)) (hist : List (Tick ℕ)) (nodes : List (Node (I ⊕ O))) :
    Prop where
  paired : Paired (List.range vals.length) hist
  call_node : ∀ i v, vals[i]? = some v → nodes[hist.idxOf (.call i)]? =
    some { value := .inl v.1, matching := some (hist.idxOf (.ret i)), id := i }
  ret_node : ∀ i v, vals[i]? = some v → nodes[hist.idxOf (.ret i)]? =
    some { value := .inr v.2, matching := none, id := i }

theorem Entry.tick_op {V : Type*} (e : Entry V) : e.tick.op = e.id := by
  simp only [tick]
  cases e.kind <;> rfl

theorem EntriesOf.layout {vals : List (I × O)} {entries : List (Entry (I ⊕ O))}
    (h : EntriesOf vals entries) :
    Layout vals (entries.map Entry.tick) (makeLinkedEntries entries).nodes := by
  -- the entry of an event, at the event's index
  have hentry {t : Tick ℕ} {v : I × O} (hv : vals[t.op]? = some v) :
      ∃ e, entries[(entries.map Entry.tick).idxOf t]? = some e ∧ e.tick = t ∧
        e.value = e.kind.value v := by
    have hmem : t ∈ entries.map Entry.tick :=
      (h.paired.mem_iff t).mpr (List.mem_range.mpr (List.getElem?_eq_some_iff.mp hv).1)
    have hlt := List.idxOf_lt_length_of_mem hmem
    have hget : (entries.map Entry.tick)[(entries.map Entry.tick).idxOf t]? = some t := by
      rw [List.getElem?_eq_getElem hlt, List.getElem_idxOf hlt]
    rw [List.getElem?_map] at hget
    obtain ⟨e, he, rfl⟩ := Option.map_eq_some_iff.mp hget
    obtain ⟨v', hv', hvalue⟩ := h.value e (List.mem_of_getElem? he)
    rw [← Entry.tick_op, hv] at hv'
    cases hv'
    exact ⟨e, he, rfl, hvalue⟩
  have hnode {t : Tick ℕ} {e : Entry (I ⊕ O)}
      (he : entries[(entries.map Entry.tick).idxOf t]? = some e) :=
    nodes_linkEntries (i := 0) h.paired.nodup he fun hkind => by
      have hmem : e.tick ∈ entries.map Entry.tick :=
        List.mem_map_of_mem (List.mem_of_getElem? he)
      exact h.paired.pair e.id (Entry.tick_op e ▸ (h.paired.mem_iff _).mp hmem)
  refine ⟨h.paired, fun i v hv => ?_, fun i v hv => ?_⟩
  · obtain ⟨e, he, htick, hvalue⟩ := hentry (t := .call i) hv
    obtain ⟨hkind, rfl⟩ : e.kind = .callEntry ∧ e.id = i := by
      unfold Entry.tick at htick
      split at htick
      next hk => exact ⟨hk, by simpa using htick⟩
      next => cases htick
    rw [hkind] at hvalue
    rw [makeLinkedEntries, hnode he, hvalue, if_pos hkind, Nat.zero_add, EntryKind.value]
  · obtain ⟨e, he, htick, hvalue⟩ := hentry (t := .ret i) hv
    obtain ⟨hkind, rfl⟩ : e.kind = .returnEntry ∧ e.id = i := by
      unfold Entry.tick at htick
      split at htick
      next => cases htick
      next hk => exact ⟨hk, by simpa using htick⟩
    rw [hkind] at hvalue
    rw [makeLinkedEntries, hnode he, hvalue, if_neg (by simp [hkind]), EntryKind.value]

section Addresses

variable {hist L : List (Tick ℕ)} {t : Tick ℕ}

/-- The head of the list, and then the nodes of the events, are all different. -/
theorem nodup_addresses (hL : L.Nodup) (hsub : L ⊆ hist) :
    (hist.length :: L.map hist.idxOf).Nodup := by
  refine List.nodup_cons.mpr ⟨fun h => ?_, ?_⟩
  · obtain ⟨t, ht, heq⟩ := List.mem_map.mp h
    have := List.idxOf_lt_length_of_mem (hsub ht)
    omega
  · refine List.Nodup.map_on (fun t ht t' ht' heq => ?_) hL
    exact (List.idxOf_inj (hsub ht)).mp heq

theorem map_erase_of_nodup {α β : Type*} [DecidableEq α] [DecidableEq β] {f : α → β} {l : List α}
    {a : α} (hnodup : (l.map f).Nodup) (ha : a ∈ l) :
    (l.map f).erase (f a) = (l.erase a).map f := by
  obtain ⟨l₁, l₂, rfl⟩ := List.append_of_mem ha
  rw [List.map_append, List.map_cons] at hnodup ⊢
  have hf : f a ∉ l₁.map f := fun h => List.disjoint_of_nodup_append hnodup h List.mem_cons_self
  have hl : a ∉ l₁ := fun h => hf (List.mem_map_of_mem h)
  rw [List.erase_append_right _ hf, List.erase_cons_head, List.erase_append_right _ hl,
    List.erase_cons_head, List.map_append]

end Addresses

/-! ### Lifting -/

section Lifting

variable {vals : List (I × O)} {hist pre post : List (Tick ℕ)} {nodes : List (Node (I ⊕ O))}
  {links : ℕ → Links ℕ} {i : ℕ} {v : I × O}

/-- **Lifting** an operation takes its two nodes out of the list, and can be undone. -/
theorem Layout.lift (hl : Layout vals hist nodes) (hv : vals[i]? = some v)
    (hnodup : (pre ++ .call i :: post).Nodup) (hsub : pre ++ .call i :: post ⊆ hist)
    (hret : Tick.ret i ∈ post)
    (h : Chain links none (hist.length :: (pre ++ .call i :: post).map hist.idxOf)) :
    ∃ links', Porcupine.lift nodes links (hist.idxOf (.call i)) = some links' ∧
      Chain links' none (hist.length :: ((pre ++ post).erase (.ret i)).map hist.idxOf) ∧
      unlift nodes links' (hist.idxOf (.call i)) = some links := by
  have hcall : Tick.call i ∈ pre ++ .call i :: post := by simp
  have haddr := nodup_addresses hnodup hsub
  have hmid : (pre ++ .call i :: post).erase (.call i) = pre ++ post := by
    have hpre : Tick.call i ∉ pre :=
      fun hmem => List.disjoint_of_nodup_append hnodup hmem List.mem_cons_self
    rw [List.erase_append_right _ hpre, List.erase_cons_head]
  -- first the call
  obtain ⟨links₁, hunlink₁, hchain₁, hrelink₁, hown⟩ :=
    h.unlink haddr (List.mem_map_of_mem hcall)
  rw [map_erase_of_nodup (List.nodup_cons.mp haddr).2 hcall, hmid] at hchain₁
  -- then the return
  have hnodup₁ : (pre ++ post).Nodup := hmid ▸ hnodup.erase _
  have hsub₁ : pre ++ post ⊆ hist := fun t ht => hsub (List.mem_of_mem_erase (hmid ▸ ht))
  have haddr₁ := nodup_addresses hnodup₁ hsub₁
  have hret₁ : Tick.ret i ∈ pre ++ post := List.mem_append_right pre hret
  obtain ⟨links₂, hunlink₂, hchain₂, hrelink₂, -⟩ :=
    hchain₁.unlink haddr₁ (List.mem_map_of_mem hret₁)
  rw [map_erase_of_nodup (List.nodup_cons.mp haddr₁).2 hret₁] at hchain₂
  -- the call is not last, since its return follows
  obtain ⟨next, hnext⟩ : ∃ next, (links (hist.idxOf (.call i))).next = some next := by
    rw [List.map_append, List.map_cons, ← List.cons_append] at h
    obtain ⟨-, -, hnext, -⟩ := h.of_append
    cases post with
    | nil => cases hret
    | cons t post => exact ⟨_, hnext⟩
  refine ⟨links₂, ?_, hchain₂, ?_⟩
  · simp [Porcupine.lift, hnext, hunlink₁, hl.call_node i v hv, hunlink₂]
  · simp [unlift, hl.call_node i v hv, hrelink₂, hown, hnext, hrelink₁]

end Lifting

/-! ### The cache -/

/-- The map from hashes has what has been reached, each under the hash of its set. -/
structure CacheOf (n : ℕ) (cache : BitVec 64 → List (CacheEntry S))
    (reached : List (Finset ℕ × S)) : Prop where
  mem_reached : ∀ hash, ∀ c ∈ cache hash, ∃ D, Represents n c.linearized D ∧ (D, c.state) ∈ reached
  mem_cache : ∀ c ∈ reached, ∃ b, Represents n b c.1 ∧
    { linearized := b, state := c.2 } ∈ cache b.hash

namespace CacheOf

variable {n : ℕ} {cache : BitVec 64 → List (CacheEntry S)} {reached : List (Finset ℕ × S)}
  {b : Bitset} {D : Finset ℕ} {s : S}

theorem nil : CacheOf n (fun _ => ([] : List (CacheEntry S))) [] where
  mem_reached _ _ hc := absurd hc List.not_mem_nil
  mem_cache _ hc := absurd hc List.not_mem_nil

theorem insert (h : CacheOf n cache reached) (hb : Represents n b D) :
    CacheOf n (update cache b.hash (cache b.hash ++ [{ linearized := b, state := s }]))
      (reached ++ [(D, s)]) where
  mem_reached hash c hc := by
    have hold (hc : c ∈ cache hash) :
        ∃ D', Represents n c.linearized D' ∧ (D', c.state) ∈ reached ++ [(D, s)] := by
      obtain ⟨D', hD', hmem⟩ := h.mem_reached hash c hc
      exact ⟨D', hD', List.mem_append_left _ hmem⟩
    by_cases hhash : hash = b.hash
    · subst hhash
      rw [update_self] at hc
      rcases List.mem_append.mp hc with hc | hc
      · exact hold hc
      · obtain rfl := List.mem_singleton.mp hc
        exact ⟨D, hb, List.mem_append_right _ (List.mem_singleton.mpr rfl)⟩
    · rw [update_of_ne hhash] at hc
      exact hold hc
  mem_cache c hc := by
    rcases List.mem_append.mp hc with hc | hc
    · obtain ⟨b', hb', hmem⟩ := h.mem_cache c hc
      refine ⟨b', hb', ?_⟩
      by_cases hhash : b'.hash = b.hash
      · rw [hhash, update_self]
        exact List.mem_append_left _ (hhash ▸ hmem)
      · rwa [update_of_ne hhash]
    · obtain rfl := List.mem_singleton.mp hc
      refine ⟨b, hb, ?_⟩
      rw [update_self]
      exact List.mem_append_right _ (List.mem_singleton.mpr rfl)

/-- The look-up finds what has been reached; how the hash spreads the entries does not matter. -/
theorem cacheContains_iff {model : FilledModel S I O} (h : CacheOf n cache reached)
    (hb : Represents n b D) :
    cacheContains model cache { linearized := b, state := s } = true ↔
      ∃ c ∈ reached, D = c.1 ∧ model.equal s c.2 = true := by
  rw [cacheContains, List.any_eq_true]
  simp only [Bool.and_eq_true, Bitset.equals_iff]
  constructor
  · rintro ⟨c, hc, rfl, hequal⟩
    obtain ⟨D', hD', hmem⟩ := h.mem_reached _ c hc
    exact ⟨(D', c.state), hmem, (hb.eq_iff hD').mp rfl, hequal⟩
  · rintro ⟨c, hc, rfl, hequal⟩
    obtain ⟨b', hb', hmem⟩ := h.mem_cache c hc
    obtain rfl := (hb.eq_iff hb').mpr rfl
    exact ⟨_, hmem, rfl, hequal⟩

end CacheOf

/-! ### The simulation -/

section Simulation

variable (model : FilledModel S I O) (vals : List (I × O)) (hist : List (Tick ℕ))
  (nodes : List (Node (I ⊕ O)))

/-- The links at the frames of the stack: each lift can be undone. -/
inductive Restores : List (Frame ℕ S) → (ℕ → Links ℕ) → Prop
  | nil {links : ℕ → Links ℕ} : Restores [] links
  | cons {f : Frame ℕ S} {stack : List (Frame ℕ S)} {links links' : ℕ → Links ℕ} :
      Restores stack links →
      Chain links none (hist.length :: (f.pre ++ .call f.op :: f.post).map hist.idxOf) →
      unlift nodes links' (hist.idxOf (.call f.op)) = some links → Restores (f :: stack) links'

/-- The variables of the loop are those of the search. -/
structure Corresponds (x : Loop S) (y : Search ℕ S) : Prop where
  restores : Restores hist nodes y.stack x.links
  chain : Chain x.links none (hist.length :: (y.pre ++ y.post).map hist.idxOf)
  entry : x.entry = (y.post.map hist.idxOf).head?
  linearized : Represents vals.length x.linearized (done y.stack)
  cache : CacheOf vals.length x.cache y.cache
  calls : x.calls =
    (y.stack.map fun f => { entry := hist.idxOf (.call f.op), state := f.state }).reverse
  state : x.state = y.state
  longest : x.longest.length = vals.length

end Simulation

/-! ### The longest sequences -/

/-- The entries of the ids that `p` holds for get `seq`, unless they have one as long. -/
def recordWhere (p : ℕ → Prop) [DecidablePred p] (len : ℕ) (seq : List ℕ)
    (longest : List (Option (List ℕ))) : List (Option (List ℕ)) :=
  longest.mapIdx fun i old =>
    if p i ∧ (old.all fun l => len > l.length) = true then some seq else old

/-- Every operation of `seq` that has no sequence as long gets `seq`. -/
def record (seq : List ℕ) (longest : List (Option (List ℕ))) : List (Option (List ℕ)) :=
  recordWhere (· ∈ seq) seq.length seq longest

/-- What the loop has recorded after the iteration in which the search is at `y`. -/
def longestAfter (computePartial : Bool) (y : Search ℕ S) (longest : List (Option (List ℕ))) :
    List (Option (List ℕ)) :=
  match y.post with
  | .ret _ :: _ => if computePartial then record (y.stack.map Frame.op).reverse longest else longest
  | _ => longest

section Longest

variable {nodes : List (Node (I ⊕ O))} {calls : List (CallsEntry S)} {seq ids : List ℕ}
  {longest : List (Option (List ℕ))} {len : ℕ}

@[simp] theorem length_record : (record seq longest).length = longest.length := by
  simp [record, recordWhere]

theorem seqOf_cons {v : CallsEntry S} (h : seqOf nodes (v :: calls) = some ids) :
    ∃ node ids', nodes[v.entry]? = some node ∧ seqOf nodes calls = some ids' ∧
      ids = node.id :: ids' := by
  rw [seqOf, List.mapM_cons] at h
  cases hnode : nodes[v.entry]? with
  | none => simp [hnode] at h
  | some node =>
    cases hrest : seqOf nodes calls with
    | none => rw [seqOf] at hrest; simp [hnode, hrest] at h
    | some ids' =>
      rw [seqOf] at hrest
      exact ⟨node, ids', rfl, rfl, by simpa [hnode, hrest] using h.symm⟩

theorem seqOf_map {α : Type*} {f : α → CallsEntry S} {g : α → ℕ} {l : List α}
    (h : ∀ a ∈ l, nodes[(f a).entry]?.map Node.id = some (g a)) :
    seqOf nodes (l.map f) = some (l.map g) := by
  induction l with
  | nil => rfl
  | cons a l ih =>
    have hrest := ih fun a ha => h a (List.mem_cons_of_mem _ ha)
    rw [seqOf] at hrest ⊢
    rw [List.map_cons, List.mapM_cons, h a List.mem_cons_self, hrest]
    rfl

theorem length_of_seqOf (h : seqOf nodes calls = some ids) : calls.length = ids.length := by
  induction calls generalizing ids with
  | nil =>
    obtain rfl : ids = [] := by simpa [seqOf] using h.symm
    rfl
  | cons v calls ih =>
    obtain ⟨node, ids, -, hrest, rfl⟩ := seqOf_cons h
    rw [List.length_cons, List.length_cons, ih hrest]

theorem recordFor_eq {v : CallsEntry S} {node : Node (I ⊕ O)} (hnode : nodes[v.entry]? = some node)
    (hid : node.id < longest.length) :
    recordFor nodes len seq longest v = some (recordWhere (· = node.id) len seq longest) := by
  have hold := List.getElem?_eq_getElem hid
  simp only [recordFor, hnode, hold, Option.bind_eq_bind, Option.bind_some]
  rw [← apply_ite some]
  refine congrArg some (List.ext_getElem? fun i => ?_)
  rw [recordWhere, List.getElem?_mapIdx]
  by_cases hi : i = node.id
  · subst hi
    split
    next hlonger => simp [hid, hlonger]
    next hlonger => simp [hid, hlonger]
  · have hset : (longest.set node.id (some seq))[i]? = longest[i]? :=
      List.getElem?_set_ne (Ne.symm hi)
    split <;> simp [hi, hset]

/-- Recording for one operation after the other, each once. -/
theorem foldlM_recordFor (h : seqOf nodes calls = some ids) (hnodup : ids.Nodup)
    (hlt : ∀ i ∈ ids, i < longest.length) :
    calls.foldlM (recordFor nodes len seq) longest =
      some (recordWhere (· ∈ ids) len seq longest) := by
  induction calls generalizing ids longest with
  | nil =>
    obtain rfl : ids = [] := by simpa [seqOf] using h.symm
    simp only [List.foldlM_nil, recordWhere, List.not_mem_nil, false_and, if_false]
    exact congrArg some (List.ext_getElem? fun i => by simp)
  | cons v calls ih =>
    obtain ⟨node, ids, hnode, hrest, rfl⟩ := seqOf_cons h
    obtain ⟨hnew, hnodup⟩ := List.nodup_cons.mp hnodup
    rw [List.foldlM_cons, recordFor_eq hnode (hlt _ List.mem_cons_self), Option.bind_eq_bind,
      Option.bind_some, ih hrest hnodup fun i hi => by
        simpa [recordWhere] using hlt i (List.mem_cons_of_mem _ hi)]
    rw [recordWhere, recordWhere, recordWhere, List.mapIdx_mapIdx]
    refine congrArg some (congrArg (fun f => List.mapIdx f longest) ?_)
    refine funext fun i => funext fun old => ?_
    by_cases hi : i = node.id
    · subst hi
      simp [hnew]
    · simp [hi]

theorem recordLongest_eq (h : seqOf nodes calls = some seq) (hnodup : seq.Nodup)
    (hlt : ∀ i ∈ seq, i < longest.length) :
    recordLongest nodes calls longest = some (record seq longest) := by
  simp only [recordLongest, h, Option.bind_eq_bind, Option.bind_some]
  rw [foldlM_recordFor h hnodup hlt, length_of_seqOf h, record]

end Longest

/-! ### One iteration -/

section Iteration

variable {P : Finset ℕ → S → Prop} {model : FilledModel S I O} {vals : List (I × O)}
  {hist pre post : List (Tick ℕ)} {nodes : List (Node (I ⊕ O))} {x : Loop S} {y z : Search ℕ S}
  {i : ℕ} {s : S} {b : Bitset} {D : Finset ℕ}

theorem Layout.exists_val (hl : Layout vals hist nodes) {t : Tick ℕ} (ht : t ∈ hist) :
    ∃ v, vals[t.op]? = some v := by
  have hlt := List.mem_range.mp ((hl.paired.mem_iff t).mp ht)
  exact ⟨_, List.getElem?_eq_getElem hlt⟩

namespace Corresponds

section

variable (h : Corresponds vals hist nodes x y)

include h

theorem cacheContains_eq (hb : Represents vals.length b D) :
    cacheContains model x.cache { linearized := b, state := s } = y.reached model.equal D s := by
  rw [Bool.eq_iff_iff, h.cache.cacheContains_iff hb, Search.reached, List.any_eq_true]
  simp only [Bool.and_eq_true, decide_eq_true_eq]

theorem head_next :
    (x.links hist.length).next = ((y.pre ++ y.post).map hist.idxOf).head? :=
  h.chain.2.1

/-- The node behind the current call. -/
theorem call_next (hpost : y.post = .call i :: post) :
    (x.links (hist.idxOf (.call i))).next = (post.map hist.idxOf).head? := by
  have hchain := h.chain
  rw [hpost, List.map_append, List.map_cons, ← List.cons_append] at hchain
  obtain ⟨-, -, hnext, -⟩ := hchain.of_append
  exact hnext

theorem skip (hpost : y.post = .call i :: post) :
    Corresponds vals hist nodes { x with entry := (x.links (hist.idxOf (.call i))).next }
      (y.skip i post) where
  restores := h.restores
  chain := by simpa [Search.skip, hpost] using h.chain
  entry := h.call_next hpost
  linearized := h.linearized
  cache := h.cache
  calls := h.calls
  state := h.state
  longest := h.longest

end

section

variable (hl : Layout vals hist nodes) (hinv : Invariant P (opStep model vals) hist model.init y)
  (h : Corresponds vals hist nodes x y)

include hl hinv h

theorem seqOf_calls :
    seqOf nodes x.calls = some (y.stack.map Frame.op).reverse := by
  have hops (f : Frame ℕ S) (hf : f ∈ y.stack) :
      nodes[hist.idxOf (.call f.op)]?.map Node.id = some f.op := by
    have hsub := (hinv.explored.partialLinearization hl.paired).subset
    have hlt : f.op < vals.length := List.mem_range.mp
      (hsub (List.mem_reverse.mpr (List.mem_map_of_mem hf)))
    rw [hl.call_node f.op _ (List.getElem?_eq_getElem hlt), Option.map_some]
  rw [h.calls, ← List.map_reverse, ← List.map_reverse]
  exact seqOf_map fun f hf => hops f (List.mem_reverse.mp hf)

/-- Lifting the operation of the current call. -/
theorem push (hpost : y.post = .call i :: post) {b : Bitset}
    (hb : Represents vals.length b (insert i (done y.stack))) :
    ∃ links, lift nodes x.links (hist.idxOf (.call i)) = some links ∧
      Corresponds vals hist nodes
        { x with
          cache := update x.cache b.hash
            (x.cache b.hash ++ [{ linearized := b, state := s }])
          calls := x.calls ++ [{ entry := hist.idxOf (.call i), state := x.state }]
          state := s
          linearized := b
          links
          entry := (links hist.length).next }
        (y.push i s post) := by
  have hleft := hinv.explored.left_eq hl.paired.nodup
  rw [hpost] at hleft
  have hmem : Tick.call i ∈ left hist (done y.stack) := by simp [hleft]
  obtain ⟨hhist, hD⟩ := mem_left.mp hmem
  obtain ⟨v, hv⟩ := hl.exists_val hhist
  have hnodup : (y.pre ++ .call i :: post).Nodup :=
    hleft ▸ (hl.paired.nodup.filter _ : (left hist (done y.stack)).Nodup)
  have hsub : y.pre ++ .call i :: post ⊆ hist :=
    hleft ▸ (List.filter_sublist.subset : left hist (done y.stack) ⊆ hist)
  -- the return is left as well, and comes after the call
  have hret : Tick.ret i ∈ post := by
    have hmem : Tick.ret i ∈ left hist (done y.stack) :=
      mem_left.mpr ⟨(hl.paired.mem_iff _).mpr ((hl.paired.mem_iff (.call i)).mp hhist), hD⟩
    rw [hleft] at hmem
    rcases List.mem_append.mp hmem with hpre | hmem
    · exact absurd hpre hinv.scanned.not_ret
    · simpa using hmem
  have hchain := h.chain
  rw [hpost] at hchain
  obtain ⟨links, hlift, hlifted, hunlift⟩ := hl.lift hv hnodup hsub hret hchain
  refine ⟨links, hlift, ?_⟩
  exact
    { restores := .cons h.restores hchain hunlift
      chain := hlifted
      entry := hlifted.2.1
      linearized := by simpa [Search.push] using hb
      cache := h.cache.insert hb
      calls := by simp [Search.push, h.calls, h.state]
      state := rfl
      longest := h.longest }

/-- Taking the last operation back. -/
theorem pop {f : Frame ℕ S} {stack : List (Frame ℕ S)} (hstack : y.stack = f :: stack)
    {longest : List (Option (List ℕ))} (hlongest : longest.length = vals.length) :
    ∃ b links, x.linearized.clear f.op = some b ∧
      unlift nodes x.links (hist.idxOf (.call f.op)) = some links ∧
      Corresponds vals hist nodes
        { x with
          longest
          state := f.state
          linearized := b
          calls := x.calls.dropLast
          links
          entry := (links (hist.idxOf (.call f.op))).next }
        (y.pop f stack) := by
  obtain ⟨hrestores, -, -, hlinearized, hcache, hcalls, -, -⟩ := h
  have hfirst := hinv.explored.partialLinearization hl.paired
  rw [hstack] at hrestores hlinearized hcalls hfirst
  have hlt : f.op < vals.length := List.mem_range.mp (hfirst.subset (by simp))
  have hnew : f.op ∉ done stack := by
    have := List.nodup_cons.mp (List.nodup_reverse.mp hfirst.nodup)
    simpa [done] using this.1
  rw [done_cons] at hlinearized
  obtain ⟨b, hclear, hb⟩ := hlinearized.clear hlt hnew
  cases hrestores with
  | @cons _ _ links _ hbelow hchain hunlift =>
    refine ⟨b, links, hclear, hunlift, ?_⟩
    have hnext : (links (hist.idxOf (.call f.op))).next = (f.post.map hist.idxOf).head? := by
      rw [List.map_append, List.map_cons, ← List.cons_append] at hchain
      obtain ⟨-, -, hnext, -⟩ := hchain.of_append
      exact hnext
    exact
      { restores := hbelow
        chain := by simpa [Search.pop] using hchain
        entry := hnext
        linearized := hb
        cache := hcache
        calls := by simp [Search.pop, hcalls]
        state := rfl
        longest := hlongest }

theorem recordLongest_calls :
    recordLongest nodes x.calls x.longest =
      some (record (y.stack.map Frame.op).reverse x.longest) := by
  have hfirst := hinv.explored.partialLinearization hl.paired
  refine recordLongest_eq (h.seqOf_calls hl hinv) hfirst.nodup fun i hi => ?_
  rw [h.longest]
  exact List.mem_range.mp (hfirst.subset hi)

/-- Where the search is at an event, the head is linked, and the pointer is at the node of it. -/
theorem at_event {t : Tick ℕ} (hpost : y.post = t :: post) :
    (∃ a, (x.links hist.length).next = some a) ∧ x.entry = some (hist.idxOf t) ∧
      ∃ v, vals[t.op]? = some v := by
  refine ⟨?_, ?_, hl.exists_val (?_ : t ∈ hist)⟩
  · rw [h.head_next, hpost]
    cases y.pre with
    | nil => exact ⟨_, rfl⟩
    | cons t pre => exact ⟨_, rfl⟩
  · rw [h.entry, hpost, List.map_cons, List.head?_cons]
  · have hmem : t ∈ left hist (done y.stack) := by
      rw [hinv.explored.left_eq hl.paired.nodup, hpost]
      simp
    exact (mem_left.mp hmem).1

theorem iteration_call (computePartial : Bool) {v : I × O} (hv : vals[i]? = some v)
    (hpost : y.post = .call i :: post) :
    iteration model nodes hist.length computePartial false x =
      (tryCall model nodes hist.length x (hist.idxOf (.call i))
        { value := .inl v.1, matching := some (hist.idxOf (.ret i)), id := i }
        (hist.idxOf (.ret i))).map .inl := by
  obtain ⟨⟨a, ha⟩, hentry, -⟩ := h.at_event hl hinv hpost
  simp [iteration, ha, hentry, hl.call_node i v hv]

/-- **An iteration that goes on** does what the search does. -/
theorem go (computePartial : Bool) (hz : y.next (opStep model vals) model.equal = .inl z) :
    ∃ x', iteration model nodes hist.length computePartial false x = some (.inl x') ∧
      Corresponds vals hist nodes x' z ∧ x'.longest = longestAfter computePartial y x.longest := by
  have hmove := Search.move_next (opStep model vals) model.equal y
  rw [hz] at hmove
  cases hmove with
  | @illegal i post hpost hstep =>
    obtain ⟨-, -, v, hv⟩ := h.at_event hl hinv hpost
    rw [Tick.op_call] at hv
    have hno : (model.step y.state v.1 v.2).1 = false := by simpa [opStep, hv] using hstep
    refine ⟨_, ?_, h.skip hpost, by simp [longestAfter, hpost]⟩
    rw [h.iteration_call hl hinv computePartial hv hpost]
    simp [tryCall, hl.ret_node i v hv, stepValues, h.state, hno]
  | @known i post s hpost hstep hreached =>
    obtain ⟨-, -, v, hv⟩ := h.at_event hl hinv hpost
    rw [Tick.op_call] at hv
    obtain ⟨hyes, rfl⟩ : (model.step y.state v.1 v.2).1 = true ∧
        (model.step y.state v.1 v.2).2 = s := by simpa [opStep, hv] using hstep
    obtain ⟨b, hset, hb⟩ := h.linearized.set (List.getElem?_eq_some_iff.mp hv).1
    have hcached := (h.cacheContains_eq hb).trans hreached
    refine ⟨_, ?_, h.skip hpost, by simp [longestAfter, hpost]⟩
    rw [h.iteration_call hl hinv computePartial hv hpost]
    simp [tryCall, hl.ret_node i v hv, stepValues, h.state, hyes, hset, hcached]
  | @linearize i post s hpost hstep hreached =>
    obtain ⟨-, -, v, hv⟩ := h.at_event hl hinv hpost
    rw [Tick.op_call] at hv
    obtain ⟨hyes, rfl⟩ : (model.step y.state v.1 v.2).1 = true ∧
        (model.step y.state v.1 v.2).2 = s := by simpa [opStep, hv] using hstep
    obtain ⟨b, hset, hb⟩ := h.linearized.set (List.getElem?_eq_some_iff.mp hv).1
    have hcached := (h.cacheContains_eq hb).trans hreached
    obtain ⟨links, hlift, hpush⟩ := h.push hl hinv hpost hb
    refine ⟨_, ?_, hpush, by simp [longestAfter, hpost]⟩
    rw [h.iteration_call hl hinv computePartial hv hpost]
    simp [tryCall, hl.ret_node i v hv, stepValues, h.state, hyes, hset, hcached, hlift]
  | @back r post f stack hpost hstack =>
    obtain ⟨⟨a, ha⟩, hentry, v, hv⟩ := h.at_event hl hinv hpost
    rw [Tick.op_ret] at hv
    have htop : x.calls.getLast? =
        some { entry := hist.idxOf (.call f.op), state := f.state } := by
      simp [h.calls, hstack]
    have hrecord : updateLongest nodes computePartial x =
        some (longestAfter computePartial y x.longest) := by
      simp only [updateLongest, longestAfter, hpost, h.recordLongest_calls hl hinv, apply_ite some]
    have hlen : (longestAfter computePartial y x.longest).length = vals.length := by
      simp only [longestAfter, hpost]
      split <;> simp [h.longest]
    obtain ⟨b, links, hclear, hunlift, hpop⟩ := h.pop hl hinv hstack hlen
    have hfirst := hinv.explored.partialLinearization hl.paired
    have hlt : f.op < vals.length := List.mem_range.mp (hfirst.subset (by simp [hstack]))
    have hiteration : iteration model nodes hist.length computePartial false x =
        (takeBack nodes computePartial x
          { entry := hist.idxOf (.call f.op), state := f.state }).map .inl := by
      simp [iteration, ha, hentry, hl.ret_node r v hv, htop]
    refine ⟨_, ?_, hpop, rfl⟩
    rw [hiteration]
    simp [takeBack, hrecord, hl.call_node f.op _ (List.getElem?_eq_getElem hlt), hclear, hunlift]

/-- **An iteration that ends the loop** has the verdict of the search. -/
theorem stop (computePartial : Bool) {b : Bool}
    (hb : y.next (opStep model vals) model.equal = .inr b) :
    iteration model nodes hist.length computePartial false x = some (.inr (b,
      if b then x.longest.map fun _ => some (y.stack.map Frame.op).reverse else x.longest)) := by
  have hmove := Search.move_next (opStep model vals) model.equal y
  rw [hb] at hmove
  cases hmove with
  | accept hpost =>
    have hnil : y.pre ++ y.post = [] := by
      rw [← hinv.explored.left_eq hl.paired.nodup, List.eq_nil_iff_forall_not_mem]
      intro t ht
      obtain ⟨hmem, hD⟩ := mem_left.mp ht
      exact hD (hinv.done_of_nil hl.paired hpost ((hl.paired.mem_iff t).mp hmem))
    have hnone : (x.links hist.length).next = none := by rw [h.head_next, hnil]; rfl
    simp [iteration, hnone, h.seqOf_calls hl hinv]
  | @reject r post hpost hstack =>
    obtain ⟨⟨a, ha⟩, hentry, v, hv⟩ := h.at_event hl hinv hpost
    rw [Tick.op_ret] at hv
    have htop : x.calls.getLast? = none := by simp [h.calls, hstack]
    simp [iteration, ha, hentry, hl.ret_node r v hv, htop]

end

end Corresponds

end Iteration

/-! ### The whole loop -/

section Run

variable {model : FilledModel S I O} {vals : List (I × O)} {entries : List (Entry (I ⊕ O))}

/-- The history of the entries. -/
abbrev histOf (entries : List (Entry (I ⊕ O))) : List (Tick ℕ) :=
  entries.map Entry.tick

theorem map_idxOf_self {hist : List (Tick ℕ)} (hnodup : hist.Nodup) :
    hist.map hist.idxOf = List.range hist.length := by
  refine List.ext_getElem (by simp) fun i hi hi' => ?_
  rw [List.length_map] at hi
  simp [hnodup.idxOf_getElem i hi]

/-- As many entries as two for each operation. -/
theorem EntriesOf.length_eq (h : EntriesOf vals entries) : entries.length = 2 * vals.length := by
  have hperm : (histOf entries).Perm
      ((List.range vals.length).map Tick.call ++ (List.range vals.length).map Tick.ret) := by
    refine (List.perm_ext_iff_of_nodup h.paired.nodup ?_).mpr fun t => ?_
    · refine List.nodup_append'.mpr ⟨?_, ?_, ?_⟩
      · exact List.nodup_range.map fun _ _ => Tick.call.inj
      · exact List.nodup_range.map fun _ _ => Tick.ret.inj
      · intro t hcall hret
        obtain ⟨i, -, rfl⟩ := List.mem_map.mp hcall
        simp at hret
    · rw [h.paired.mem_iff]
      cases t <;> simp
  have hlen := hperm.length_eq
  simp only [List.length_map, List.length_append, List.length_range] at hlen
  omega

theorem EntriesOf.corresponds_start (h : EntriesOf vals entries) :
    Corresponds vals (histOf entries) (makeLinkedEntries entries).nodes (startLoop model entries)
      (Search.start (histOf entries) model.init) := by
  obtain ⟨hroot, hchain, hnil⟩ := chain_linkEntries 0 entries
  have haddr : (histOf entries).map (histOf entries).idxOf = List.range' 0 entries.length := by
    rw [map_idxOf_self h.paired.nodup, List.length_map, List.range_eq_range']
  have hnew : entries.length ∉ List.range' 0 entries.length := by simp
  have hn : length (linkEntries 0 entries).links entries.length (linkEntries 0 entries).root / 2 =
      vals.length := by
    rw [hroot, hchain.length_eq (by simp), List.length_range', h.length_eq]
    omega
  refine
    { restores := .nil
      chain := ?_
      entry := ?_
      linearized := ?_
      cache := .nil
      calls := rfl
      state := rfl
      longest := ?_ }
  · show Chain (insertBefore _ entries.length (linkEntries 0 entries).root) none
      ((histOf entries).length :: ([] ++ histOf entries).map (histOf entries).idxOf)
    rw [List.nil_append, haddr, hroot, List.length_map]
    exact hchain.insertBefore List.nodup_range' hnew (hnil _ hnew)
  · show (linkEntries 0 entries).root = ((histOf entries).map (histOf entries).idxOf).head?
    rw [haddr, hroot]
  · show Represents vals.length (newBitset (length _ _ _ / 2)) ∅
    rw [makeLinkedEntries, hn]
    exact represents_newBitset _
  · show (List.replicate (length _ _ _ / 2) none).length = vals.length
    rw [makeLinkedEntries, hn, List.length_replicate]

end Run

end MitDistributed.Porcupine
