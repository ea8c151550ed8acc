import MitDistributed.Porcupine.Verdict

namespace MitDistributed.Porcupine

open Linearizability Transition

/-!
# Checking the parts of a history in parallel (`checkParallel`)

One goroutine checks each part and sends its verdict to a buffered channel, so that no send blocks.
The function itself receives verdicts until one is negative, until it has all of them or until a
timer fires; then it sets `kill`, which the goroutines look at in every iteration.  With
`computeInfo` it goes on receiving until all goroutines are through.

The goroutines and the function take steps in any order.

* `ParallelOk` — every goroutine follows a search, and while `kill` is not set every verdict is that
  of a search;
* `ParallelOk.step_keeps`, `ParallelOk.exec_keeps` — kept by every step, each of which also
  decreases a bound;
* `ParallelOk.exists_step` — as long as the function has not returned, a step is possible.
-/

variable {S I O : Type}

inductive CheckResult
  | unknown
  | ok
  | illegal
  deriving DecidableEq

/-- A goroutine; the result is what it has stored in `longest` and sent. -/
inductive Worker (S : Type)
  | running (x : Loop S)
  | panicked
  | finished (result : Result)

/-- Where the function is: in the `select` loop, waiting for the other goroutines, or through. -/
inductive Main
  | loop
  | collect
  | returned (result : CheckResult)
  deriving DecidableEq

structure Parallel (S : Type) where
  workers : List (Worker S)
  kill : Bool
  results : List Bool
  ok : Bool
  timedOut : Bool
  count : ℕ
  main : Main

inductive ParallelAction
  /-- An iteration of goroutine `i`. -/
  | iterate (i : ℕ)
  | receive
  | timeout
  | collect
  deriving DecidableEq

section Step

variable (model : FilledModel S I O) (history : List (List (Entry (I ⊕ O))))
  (computeInfo hasTimeout : Bool)

def startParallel : Parallel S :=
  { workers := history.map fun subhistory => .running (startLoop model subhistory)
    kill := false
    results := []
    ok := true
    timedOut := false
    count := 0
    main := .loop }

namespace Parallel

/-- The result once the loop has been left. -/
def verdict (s : Parallel S) : CheckResult :=
  if !s.ok then .illegal else if s.timedOut then .unknown else .ok

/-- Go on after the loop, or after having waited for one more goroutine. -/
def afterLoop (s : Parallel S) : Parallel S :=
  if computeInfo && decide (s.count < history.length) then { s with main := .collect }
  else { s with main := .returned s.verdict }

/-- Goroutine `i` does an iteration, and ends if `checkSingle` returns in it. -/
def iterate (s : Parallel S) (i : ℕ) : Option (Parallel S) := do
  let subhistory ← history[i]?
  match ← s.workers[i]? with
  | .running x =>
    match iteration model (makeLinkedEntries subhistory).nodes subhistory.length computeInfo s.kill
      x with
    | none => some { s with workers := s.workers.set i .panicked }
    | some (.inl x) => some { s with workers := s.workers.set i (.running x) }
    | some (.inr result) =>
      some { s with
        workers := s.workers.set i (.finished result)
        results := s.results ++ [result.1] }
  | _ => none

/-- The function receives a verdict in the loop. -/
def receive (s : Parallel S) : Option (Parallel S) :=
  match s.main, s.results with
  | .loop, result :: results =>
    let s := { s with results := results, count := s.count + 1, ok := s.ok && result }
    if !s.ok && !computeInfo then some ({ s with kill := true }.afterLoop history computeInfo)
    else if s.count ≥ history.length then some (s.afterLoop history computeInfo)
    else some s
  | _, _ => none

/-- The timer fires. -/
def timeout (s : Parallel S) : Option (Parallel S) :=
  if s.main = .loop ∧ hasTimeout = true then
    some ({ s with timedOut := true, kill := true }.afterLoop history computeInfo)
  else none

/-- The function receives a verdict after the loop. -/
def collect (s : Parallel S) : Option (Parallel S) :=
  match s.main, s.results with
  | .collect, _ :: results =>
    some ({ s with results := results, count := s.count + 1 }.afterLoop history computeInfo)
  | _, _ => none

def step (s : Parallel S) : ParallelAction → Option (Parallel S)
  | .iterate i => s.iterate model history computeInfo i
  | .receive => s.receive history computeInfo
  | .timeout => s.timeout history computeInfo hasTimeout
  | .collect => s.collect history computeInfo

end Parallel

end Step

/-! ### The invariant -/

/-- The verdict of a goroutine that has ended. -/
def Worker.verdict : Worker S → Option Bool
  | .running _ => none
  | .panicked => none
  | .finished result => some result.1

def verdicts (workers : List (Worker S)) : List Bool :=
  workers.filterMap Worker.verdict

section Lists

variable {workers : List (Worker S)} {i : ℕ} {x x' : Loop S} {result : Result}

theorem exists_append_set {α : Type*} {l : List α} {a : α} (h : l[i]? = some a) (b : α) :
    ∃ l₁ l₂, l = l₁ ++ a :: l₂ ∧ l.set i b = l₁ ++ b :: l₂ := by
  obtain ⟨hi, rfl⟩ := List.getElem?_eq_some_iff.mp h
  obtain ⟨l₁, l₂, hl, -, hset⟩ := List.exists_of_set hi
  exact ⟨l₁, l₂, hl, hset⟩

theorem verdicts_set_running (h : workers[i]? = some (.running x)) :
    verdicts (workers.set i (.running x')) = verdicts workers := by
  obtain ⟨l₁, l₂, hl, hset⟩ := exists_append_set h (.running x')
  rw [hset, hl, verdicts, verdicts, List.filterMap_append, List.filterMap_append]
  rfl

theorem verdicts_set_finished (h : workers[i]? = some (.running x)) :
    (verdicts (workers.set i (.finished result))).Perm (verdicts workers ++ [result.1]) := by
  obtain ⟨l₁, l₂, hl, hset⟩ := exists_append_set h (.finished result)
  rw [hset, hl]
  simp only [verdicts, Worker.verdict, List.filterMap_append, List.filterMap_cons,
    List.append_assoc]
  exact List.Perm.append_left _ (List.perm_append_singleton _ _).symm

theorem length_verdicts_le : (verdicts workers).length ≤ workers.length :=
  List.length_filterMap_le _ _

theorem sum_set {ws : List ℕ} {w : ℕ} (h : ws[i]? = some w) (v : ℕ) :
    (ws.set i v).sum + w = ws.sum + v := by
  obtain ⟨l₁, l₂, hl, hset⟩ := exists_append_set h v
  rw [hset, hl]
  simp only [List.sum_append, List.sum_cons]
  omega

end Lists

/-- A part of the history: inputs and outputs, and the entries of its operations. -/
abbrev Part (I O : Type) := List (I × O) × List (Entry (I ⊕ O))

/-- The part can be linearized. -/
def Part.Ok (model : FilledModel S I O) (p : Part I O) : Prop :=
  Linearizable (opStep model p.1) (Before (histOf p.2)) model.init (List.range p.1.length)

/-- What holds of a goroutine and a bound for its iterations. -/
inductive WorkerOk (model : FilledModel S I O) (computeInfo kill : Bool) (p : Part I O) :
    Worker S → ℕ → Prop
  | running {x : Loop S} {y : Search ℕ S} {w : ℕ} :
      LoopInvariant model p.1 p.2 computeInfo x y →
      y.weight ((histOf p.2).length + 1) (List.range p.1.length).length < w →
      WorkerOk model computeInfo kill p (.running x) w
  | finished {result : Result} :
      -- a goroutine that has been killed may be wrong
      (result.1 = true → p.Ok model) → (kill = false → p.Ok model → result.1 = true) →
      WorkerOk model computeInfo kill p (.finished result) 0

namespace WorkerOk

variable {model : FilledModel S I O} {computeInfo kill : Bool} {p : Part I O} {w : Worker S}
  {x : Loop S} {k : ℕ}

theorem set_kill (h : WorkerOk model computeInfo kill p w k) :
    WorkerOk model computeInfo true p w k := by
  cases h with
  | running hinv hlt => exact .running hinv hlt
  | finished hok _ => exact .finished hok fun h => by cases h

/-- `kill` only makes the function return earlier. -/
theorem iteration_kill (nodes : List (Node (I ⊕ O))) (headEntry : ℕ) :
    iteration model nodes headEntry computeInfo true x =
        iteration model nodes headEntry computeInfo false x ∨
      iteration model nodes headEntry computeInfo true x = some (.inr (false, x.longest)) := by
  unfold iteration
  cases (x.links headEntry).next with
  | none => exact .inl rfl
  | some _ => exact .inr rfl

/-- What an iteration may give: a goroutine that is nearer to its end, or one that has ended. -/
def Next (model : FilledModel S I O) (computeInfo kill : Bool) (p : Part I O) (k : ℕ)
    (outcome : Option (Loop S ⊕ Result)) : Prop :=
  (∃ x' k', outcome = some (.inl x') ∧ WorkerOk model computeInfo kill p (.running x') k' ∧
    k' < k) ∨
  ∃ result, outcome = some (.inr result) ∧ WorkerOk model computeInfo kill p (.finished result) 0 ∧
    0 < k

/-- An iteration of a goroutine does not panic, and it takes it nearer to its end. -/
theorem iteration (hp : EntriesOf p.1 p.2) (hequal : EqualOk model)
    (h : WorkerOk model computeInfo kill p (.running x) k) :
    Next model computeInfo kill p k
      (Porcupine.iteration model (makeLinkedEntries p.2).nodes p.2.length computeInfo kill x) := by
  cases h with
  | @running _ y _ hinv hlt =>
    -- what happens as long as `kill` is not set
    have hfalse : Next model computeInfo kill p k (Porcupine.iteration model
        (makeLinkedEntries p.2).nodes p.2.length computeInfo false x) := by
      cases hy : y.next (opStep model p.1) model.equal with
      | inl z =>
        obtain ⟨x', hx', hinv'⟩ := hinv.go hp.layout hequal hy
        have hless : z.weight ((histOf p.2).length + 1) (List.range p.1.length).length <
            y.weight ((histOf p.2).length + 1) (List.range p.1.length).length :=
          hinv.refuted.weight_lt hp.layout.paired hy
        exact .inl ⟨x', _, hx', .running hinv' (Nat.lt_succ_self _), by omega⟩
      | inr b =>
        obtain ⟨result, hresult, hok⟩ := hinv.stop hp.layout hy
        exact .inr ⟨result, hresult, .finished hok.verdict.mp fun _ => hok.verdict.mpr, by omega⟩
    cases hkill : kill with
    | false => exact hkill ▸ hfalse
    | true =>
      rw [hkill] at hfalse
      rcases iteration_kill (makeLinkedEntries p.2).nodes p.2.length with heq | heq
      · rw [heq]
        exact hfalse
      · refine .inr ⟨_, heq, .finished (fun h => by cases h) (fun h => by cases h), by omega⟩

end WorkerOk

/-- What holds of every state that is reached.  `bounds` has a bound for the iterations of each
    goroutine. -/
structure ParallelOk (model : FilledModel S I O) (parts : List (Part I O))
    (computeInfo hasTimeout : Bool) (s : Parallel S) (bounds : List ℕ) : Prop where
  workers_length : s.workers.length = parts.length
  bounds_length : bounds.length = parts.length
  worker : ∀ (i : ℕ) p w k, parts[i]? = some p → s.workers[i]? = some w → bounds[i]? = some k →
    WorkerOk model computeInfo s.kill p w k
  /-- The verdicts are either received or in the channel. -/
  channel : ∃ received : List Bool, received.length = s.count ∧
    (received ++ s.results).Perm (verdicts s.workers) ∧ (s.main = .loop → s.ok = received.all id)
  timed : s.timedOut = true → hasTimeout = true
  loop : s.main = .loop → s.kill = false ∧ (s.count < parts.length ∨ parts = [])
  collect : s.main = .collect → s.count < parts.length
  left : s.main ≠ .loop → (s.ok = false → ∃ p ∈ parts, ¬ p.Ok model) ∧
    (s.ok = true → s.timedOut = false → ∀ p ∈ parts, p.Ok model)
  returned : ∀ result, s.main = .returned result → result = s.verdict

/-- An upper bound for the steps that are left. -/
def Parallel.bound (s : Parallel S) (bounds : List ℕ) : ℕ :=
  2 * bounds.sum + s.results.length + if s.main = .loop then 1 else 0

namespace ParallelOk

variable {model : FilledModel S I O} {parts : List (Part I O)} {computeInfo hasTimeout : Bool}
  {s s' : Parallel S} {bounds : List ℕ} {i : ℕ}

section

variable (h : ParallelOk model parts computeInfo hasTimeout s bounds)

include h

theorem exists_worker {p : Part I O} (hp : parts[i]? = some p) :
    ∃ w k, s.workers[i]? = some w ∧ bounds[i]? = some k ∧
      WorkerOk model computeInfo s.kill p w k := by
  have hlt := (List.getElem?_eq_some_iff.mp hp).1
  have hw := List.getElem?_eq_getElem (h.workers_length ▸ hlt : i < s.workers.length)
  have hk := List.getElem?_eq_getElem (h.bounds_length ▸ hlt : i < bounds.length)
  exact ⟨_, _, hw, hk, h.worker i p _ _ hp hw hk⟩

theorem exists_part {w : Worker S} (hw : s.workers[i]? = some w) :
    ∃ p k, parts[i]? = some p ∧ bounds[i]? = some k ∧ WorkerOk model computeInfo s.kill p w k := by
  have hlt : i < parts.length := h.workers_length ▸ (List.getElem?_eq_some_iff.mp hw).1
  have hp := List.getElem?_eq_getElem hlt
  obtain ⟨w', k, hw', hk, hok⟩ := h.exists_worker hp
  obtain rfl := Option.some.inj (hw.symm.trans hw')
  exact ⟨_, k, hp, hk, hok⟩

/-- A negative verdict, sent while `kill` is not set, is right. -/
theorem exists_not_ok (hkill : s.kill = false)
    (hmem : false ∈ verdicts s.workers) : ∃ p ∈ parts, ¬ p.Ok model := by
  obtain ⟨w, hw, hfalse⟩ := List.mem_filterMap.mp hmem
  obtain ⟨i, hi⟩ := List.mem_iff_getElem?.mp hw
  obtain ⟨p, k, hp, -, hok⟩ := h.exists_part hi
  cases hok with
  | running => cases hfalse
  | finished _ hcomplete =>
    refine ⟨p, List.mem_of_getElem? hp, fun hpart => ?_⟩
    rw [Worker.verdict, hcomplete hkill hpart] at hfalse
    cases hfalse

/-- Where all goroutines have ended with `true`, all parts can be linearized. -/
theorem all_ok (hlen : (verdicts s.workers).length = parts.length)
    (hall : ∀ b ∈ verdicts s.workers, b = true) : ∀ p ∈ parts, p.Ok model := by
  intro p hp
  obtain ⟨i, hi⟩ := List.mem_iff_getElem?.mp hp
  obtain ⟨w, k, hw, -, hok⟩ := h.exists_worker hi
  have hmem := List.mem_of_getElem? hw
  rw [verdicts, List.length_filterMap_eq_countP, ← h.workers_length, List.countP_eq_length] at hlen
  cases hok with
  | running => exact absurd (hlen _ hmem) (by simp [Worker.verdict])
  | finished hsound _ => exact hsound (hall _ (List.mem_filterMap.mpr ⟨_, hmem, rfl⟩))

end

/-- The state before the first step. -/
theorem start (hparts : ∀ p ∈ parts, EntriesOf p.1 p.2) :
    ParallelOk model parts computeInfo hasTimeout (startParallel model (parts.map Prod.snd))
      (parts.map fun p => 2 * p.1.length * (2 * p.1.length + 1) ^ p.1.length + 1) where
  workers_length := by simp [startParallel]
  bounds_length := by simp
  worker i p w k hp hw hk := by
    simp only [startParallel, List.getElem?_map, hp, Option.map_some, Option.some.injEq] at hw hk
    subst hw hk
    have hp' := hparts p (List.mem_of_getElem? hp)
    refine .running (LoopInvariant.start hp') ?_
    rw [weight_start, List.length_map, List.length_range, hp'.length_eq]
    exact Nat.lt_succ_self _
  channel := by
    refine ⟨[], rfl, ?_, fun _ => rfl⟩
    have : verdicts (startParallel model (parts.map Prod.snd)).workers = [] := by
      simp [verdicts, startParallel, Worker.verdict]
    rw [this]
    exact .refl _
  timed h := by cases h
  loop _ := ⟨rfl, by cases parts <;> simp [startParallel]⟩
  collect h := by cases h
  left h := absurd rfl h
  returned _ h := by cases h

/-- Leaving the loop once the result is decided. -/
theorem afterLoop (hlen : s.workers.length = parts.length) (hbounds : bounds.length = parts.length)
    (hworker : ∀ (i : ℕ) p w k, parts[i]? = some p → s.workers[i]? = some w → bounds[i]? = some k →
      WorkerOk model computeInfo s.kill p w k)
    (hchannel : ∃ received : List Bool, received.length = s.count ∧
      (received ++ s.results).Perm (verdicts s.workers))
    (htimed : s.timedOut = true → hasTimeout = true)
    (hleft : (s.ok = false → ∃ p ∈ parts, ¬ p.Ok model) ∧
      (s.ok = true → s.timedOut = false → ∀ p ∈ parts, p.Ok model)) :
    ParallelOk model parts computeInfo hasTimeout (s.afterLoop (parts.map Prod.snd) computeInfo)
      bounds := by
  obtain ⟨received, hcount, hperm⟩ := hchannel
  unfold Parallel.afterLoop
  split
  next hcollect =>
    rw [Bool.and_eq_true, decide_eq_true_eq, List.length_map] at hcollect
    exact ⟨hlen, hbounds, hworker, ⟨received, hcount, hperm, fun h => by cases h⟩, htimed,
      fun h => (by cases h), fun _ => hcollect.2, fun _ => hleft, fun _ h => by cases h⟩
  next =>
    refine ⟨hlen, hbounds, hworker, ⟨received, hcount, hperm, fun h => by cases h⟩, htimed,
      fun h => (by cases h), fun h => (by cases h), fun _ => hleft, fun result h => ?_⟩
    exact (Main.returned.inj h).symm

theorem bound_afterLoop (history : List (List (Entry (I ⊕ O)))) :
    (s.afterLoop history computeInfo).bound bounds = 2 * bounds.sum + s.results.length := by
  unfold Parallel.afterLoop
  split <;> rfl

/-- What a step has to keep. -/
def Kept (model : FilledModel S I O) (parts : List (Part I O)) (computeInfo hasTimeout : Bool)
    (s s' : Parallel S) (bounds : List ℕ) : Prop :=
  ∃ bounds', ParallelOk model parts computeInfo hasTimeout s' bounds' ∧
    s'.bound bounds' < s.bound bounds

/-- Setting the worker `i` and its bound. -/
theorem worker_set (h : ParallelOk model parts computeInfo hasTimeout s bounds) {p : Part I O}
    {w' : Worker S} {k' : ℕ} (hp : parts[i]? = some p)
    (hok : WorkerOk model computeInfo s.kill p w' k') :
    ∀ (j : ℕ) q w k, parts[j]? = some q → (s.workers.set i w')[j]? = some w →
      (bounds.set i k')[j]? = some k → WorkerOk model computeInfo s.kill q w k := by
  intro j q w k hq hw hk
  by_cases hij : i = j
  · subst hij
    have hlt := (List.getElem?_eq_some_iff.mp hp).1
    rw [List.getElem?_set_self (h.workers_length ▸ hlt)] at hw
    rw [List.getElem?_set_self (h.bounds_length ▸ hlt)] at hk
    cases hw
    cases hk
    obtain rfl := Option.some.inj (hp.symm.trans hq)
    exact hok
  · rw [List.getElem?_set_ne hij] at hw hk
    exact h.worker j q w k hq hw hk

/-- The goroutines take steps. -/
theorem iterate (hparts : ∀ p ∈ parts, EntriesOf p.1 p.2) (hequal : EqualOk model)
    (h : ParallelOk model parts computeInfo hasTimeout s bounds)
    (hs : s.iterate model (parts.map Prod.snd) computeInfo i = some s') :
    Kept model parts computeInfo hasTimeout s s' bounds := by
  obtain ⟨sub, hsub, hs⟩ := Option.bind_eq_some_iff.mp hs
  obtain ⟨w, hw, hs⟩ := Option.bind_eq_some_iff.mp hs
  rw [List.getElem?_map] at hsub
  obtain ⟨p, hp, rfl⟩ := Option.map_eq_some_iff.mp hsub
  obtain ⟨w', k, hw', hk, hok⟩ := h.exists_worker hp
  obtain rfl := Option.some.inj (hw.symm.trans hw')
  have hentries := hparts p (List.mem_of_getElem? hp)
  obtain ⟨received, hcount, hperm, hall⟩ := h.channel
  cases w with
  | panicked => cases hs
  | finished result => cases hs
  | running x =>
    rcases hok.iteration hentries hequal with ⟨x', k', hx', hok', hlt⟩ |
      ⟨result, hresult, hok', hpos⟩
    · simp only [hx', Option.some.injEq] at hs
      subst hs
      refine ⟨bounds.set i k', ?_, ?_⟩
      · exact
          { workers_length := by simpa using h.workers_length
            bounds_length := by simpa using h.bounds_length
            worker := h.worker_set hp hok'
            channel := ⟨received, hcount, (verdicts_set_running hw).symm ▸ hperm, hall⟩
            timed := h.timed
            loop := h.loop
            collect := h.collect
            left := h.left
            returned := h.returned }
      · have hsum := sum_set hk k'
        simp only [Parallel.bound]
        omega
    · simp only [hresult, Option.some.injEq] at hs
      subst hs
      refine ⟨bounds.set i 0, ?_, ?_⟩
      · exact
          { workers_length := by simpa using h.workers_length
            bounds_length := by simpa using h.bounds_length
            worker := h.worker_set hp hok'
            channel := ⟨received, hcount, by
              rw [← List.append_assoc]
              exact (hperm.append_right _).trans (verdicts_set_finished hw).symm, hall⟩
            timed := h.timed
            loop := h.loop
            collect := h.collect
            left := h.left
            returned := h.returned }
      · have hsum := sum_set hk 0
        simp only [Parallel.bound, List.length_append, List.length_singleton]
        omega

section

variable (h : ParallelOk model parts computeInfo hasTimeout s bounds)

include h

/-- In the loop a negative verdict is right. -/
theorem exists_not_ok_of_received (hmain : s.main = .loop) {received rest : List Bool}
    (hperm : (received ++ rest).Perm (verdicts s.workers)) (hfalse : received.all id = false) :
    ∃ p ∈ parts, ¬ p.Ok model := by
  rw [List.all_eq_false] at hfalse
  obtain ⟨b, hb, hid⟩ := hfalse
  have hbfalse : b = false := by simpa using hid
  refine h.exists_not_ok (h.loop hmain).1 (hperm.subset ?_)
  exact List.mem_append_left _ (hbfalse ▸ hb)

/-- In the loop, all verdicts being positive, all parts can be linearized. -/
theorem all_ok_of_received {received rest : List Bool}
    (hperm : (received ++ rest).Perm (verdicts s.workers)) (hlen : parts.length ≤ received.length)
    (htrue : received.all id = true) :
    ∀ p ∈ parts, p.Ok model := by
  have hle : (verdicts s.workers).length ≤ parts.length := h.workers_length ▸ length_verdicts_le
  have hlength := hperm.length_eq
  rw [List.length_append] at hlength
  have hrest : rest = [] := List.eq_nil_of_length_eq_zero (by omega)
  refine h.all_ok (by omega) fun b hb => ?_
  have hb := hperm.symm.subset hb
  rw [hrest, List.append_nil] at hb
  exact List.all_eq_true.mp htrue b hb

theorem receive (hs : s.receive (parts.map Prod.snd) computeInfo = some s') :
    Kept model parts computeInfo hasTimeout s s' bounds := by
  unfold Parallel.receive at hs
  split at hs
  next result results hmain hresults =>
    obtain ⟨received, hcount, hperm, hall⟩ := h.channel
    have hok : (s.ok && result) = (received ++ [result]).all id := by simp [hall hmain]
    have hperm' : ((received ++ [result]) ++ results).Perm (verdicts s.workers) := by
      simpa [hresults] using hperm
    have hcount' : (received ++ [result]).length = s.count + 1 := by simp [hcount]
    have hfalse (hno : (s.ok && result) = false) : ∃ p ∈ parts, ¬ p.Ok model :=
      h.exists_not_ok_of_received hmain hperm' (hok.symm.trans hno)
    have hless : 2 * bounds.sum + results.length < s.bound bounds := by
      simp only [Parallel.bound, hmain, hresults, List.length_cons, if_true]
      omega
    dsimp only at hs
    split at hs
    next hkill =>
      cases hs
      have hno : (s.ok && result) = false := by
        rw [Bool.and_eq_true, Bool.not_eq_true'] at hkill
        exact hkill.1
      refine ⟨bounds, afterLoop h.workers_length h.bounds_length
        (fun i p w k hp hw hk => (h.worker i p w k hp hw hk).set_kill)
        ⟨_, hcount', hperm'⟩ h.timed ⟨fun _ => hfalse hno, fun hyes => ?_⟩, ?_⟩
      · cases hno.symm.trans hyes
      · rw [bound_afterLoop]
        exact hless
    next =>
      split at hs
      next hlast =>
        cases hs
        rw [List.length_map] at hlast
        refine ⟨bounds, afterLoop h.workers_length h.bounds_length h.worker ⟨_, hcount', hperm'⟩
          h.timed ⟨hfalse, fun hyes _ => ?_⟩, ?_⟩
        · exact h.all_ok_of_received hperm' (by omega) (hok.symm.trans hyes)
        · rw [bound_afterLoop]
          exact hless
      next hmore =>
        cases hs
        rw [List.length_map] at hmore
        refine ⟨bounds, ?_, ?_⟩
        · exact
            { workers_length := h.workers_length
              bounds_length := h.bounds_length
              worker := h.worker
              channel := ⟨_, hcount', hperm', fun _ => hok⟩
              timed := h.timed
              loop := fun _ => ⟨(h.loop hmain).1, .inl (by simpa using hmore)⟩
              collect := fun hc => absurd (hmain.symm.trans hc) (by simp)
              left := fun hl => absurd hmain hl
              returned := fun _ hr => absurd (hmain.symm.trans hr) (by simp) }
        · simp only [Parallel.bound, hmain, hresults, List.length_cons, if_true]
          omega
  next => cases hs

theorem timeout (hs : s.timeout (parts.map Prod.snd) computeInfo hasTimeout = some s') :
    Kept model parts computeInfo hasTimeout s s' bounds := by
  unfold Parallel.timeout at hs
  split at hs
  next hloop =>
    cases hs
    obtain ⟨received, hcount, hperm, hok⟩ := h.channel
    refine ⟨bounds, afterLoop h.workers_length h.bounds_length
      (fun i p w k hp hw hk => (h.worker i p w k hp hw hk).set_kill) ⟨received, hcount, hperm⟩
      (fun _ => hloop.2) ⟨fun hfalse => ?_, fun _ htimed => by cases htimed⟩, ?_⟩
    · exact h.exists_not_ok_of_received hloop.1 hperm ((hok hloop.1).symm.trans hfalse)
    · rw [bound_afterLoop, Parallel.bound, if_pos hloop.1]
      exact Nat.lt_succ_self _
  next => cases hs

theorem collected (hs : s.collect (parts.map Prod.snd) computeInfo = some s') :
    Kept model parts computeInfo hasTimeout s s' bounds := by
  unfold Parallel.collect at hs
  split at hs
  next result results hmain hresults =>
    cases hs
    obtain ⟨received, hcount, hperm, -⟩ := h.channel
    have hperm' : ((received ++ [result]) ++ results).Perm (verdicts s.workers) := by
      simpa [hresults] using hperm
    refine ⟨bounds, afterLoop h.workers_length h.bounds_length h.worker
      ⟨_, by simp [hcount], hperm'⟩ h.timed (h.left (by simp [hmain])), ?_⟩
    rw [bound_afterLoop, Parallel.bound]
    simp only [hmain, hresults, List.length_cons]
    omega
  next => cases hs

end

/-- Every step keeps the invariant and decreases the bound. -/
theorem step_keeps (hparts : ∀ p ∈ parts, EntriesOf p.1 p.2) (hequal : EqualOk model)
    (h : ParallelOk model parts computeInfo hasTimeout s bounds) {a : ParallelAction}
    (hs : s.step model (parts.map Prod.snd) computeInfo hasTimeout a = some s') :
    Kept model parts computeInfo hasTimeout s s' bounds := by
  cases a with
  | iterate i => exact h.iterate hparts hequal hs
  | receive => exact h.receive hs
  | timeout => exact h.timeout hs
  | collect => exact h.collected hs

/-- Every run keeps the invariant, and takes no more steps than the bound says. -/
theorem exec_keeps (hparts : ∀ p ∈ parts, EntriesOf p.1 p.2) (hequal : EqualOk model)
    (h : ParallelOk model parts computeInfo hasTimeout s bounds) {acts : List ParallelAction}
    (hs : exec (Parallel.step model (parts.map Prod.snd) computeInfo hasTimeout) s acts = some s') :
    ∃ bounds', ParallelOk model parts computeInfo hasTimeout s' bounds' ∧
      s'.bound bounds' + acts.length ≤ s.bound bounds := by
  induction acts generalizing s bounds with
  | nil =>
    cases hs
    exact ⟨bounds, h, le_rfl⟩
  | cons a acts ih =>
    obtain ⟨t, ht, hrest⟩ := Option.bind_eq_some_iff.mp hs
    obtain ⟨bounds₁, h₁, hlt⟩ := h.step_keeps hparts hequal ht
    obtain ⟨bounds₂, h₂, hle⟩ := ih h₁ hrest
    exact ⟨bounds₂, h₂, by rw [List.length_cons]; omega⟩

theorem not_panicked (h : ParallelOk model parts computeInfo hasTimeout s bounds) :
    .panicked ∉ s.workers := by
  intro hmem
  obtain ⟨i, hi⟩ := List.mem_iff_getElem?.mp hmem
  obtain ⟨p, k, -, -, hok⟩ := h.exists_part hi
  cases hok

/-- Where all goroutines have ended, the verdicts that are not received are in the channel. -/
theorem results_ne_nil (h : ParallelOk model parts computeInfo hasTimeout s bounds)
    (hdone : ∀ w ∈ s.workers, w.verdict.isSome = true) (hcount : s.count < parts.length) :
    s.results ≠ [] := by
  intro hnil
  obtain ⟨received, hreceived, hperm, -⟩ := h.channel
  have hlen : (verdicts s.workers).length = s.workers.length := by
    rw [verdicts, List.length_filterMap_eq_countP, List.countP_eq_length]
    exact hdone
  have hlength := hperm.length_eq
  rw [hnil, List.append_nil, hreceived, hlen, h.workers_length] at hlength
  omega

/-- **No deadlock.** As long as the function has not returned, some step is possible, if there is a
    part to check or a timer. -/
theorem exists_step (hparts : ∀ p ∈ parts, EntriesOf p.1 p.2) (hequal : EqualOk model)
    (h : ParallelOk model parts computeInfo hasTimeout s bounds)
    (hsome : parts ≠ [] ∨ hasTimeout = true) (hmain : ∀ result, s.main ≠ .returned result) :
    ∃ a s', s.step model (parts.map Prod.snd) computeInfo hasTimeout a = some s' := by
  by_cases hdone : ∀ w ∈ s.workers, w.verdict.isSome = true
  · -- only the function itself is left
    cases hm : s.main with
    | returned result => exact absurd hm (hmain result)
    | loop =>
      rcases (h.loop hm).2 with hcount | hnil
      · obtain ⟨b, results, hresults⟩ := List.exists_cons_of_ne_nil (h.results_ne_nil hdone hcount)
        refine ⟨.receive, ?_⟩
        simp only [Parallel.step, Parallel.receive, hm, hresults]
        split
        · exact ⟨_, rfl⟩
        · split <;> exact ⟨_, rfl⟩
      · refine ⟨.timeout, _, if_pos ⟨hm, hsome.resolve_left (not_not.mpr hnil)⟩⟩
    | collect =>
      obtain ⟨b, results, hresults⟩ :=
        List.exists_cons_of_ne_nil (h.results_ne_nil hdone (h.collect hm))
      refine ⟨.collect, ?_⟩
      simp only [Parallel.step, Parallel.collect, hm, hresults]
      exact ⟨_, rfl⟩
  · push Not at hdone
    obtain ⟨w, hw, hrunning⟩ := hdone
    obtain ⟨i, hi⟩ := List.mem_iff_getElem?.mp hw
    obtain ⟨p, k, hp, -, hok⟩ := h.exists_part hi
    have hsub : (parts.map Prod.snd)[i]? = some p.2 := by simp [hp]
    cases hok with
    | finished => simp [Worker.verdict] at hrunning
    | @running x y k hinv hlt =>
      refine ⟨.iterate i, ?_⟩
      have hiteration :=
        (WorkerOk.running hinv hlt : WorkerOk model computeInfo s.kill p _ _).iteration
          (hparts p (List.mem_of_getElem? hp)) hequal
      simp only [Parallel.step, Parallel.iterate, hsub, hi, Option.bind_eq_bind, Option.bind_some]
      rcases hiteration with ⟨x', k', hx', -⟩ | ⟨result, hresult, -⟩
      · exact ⟨_, by rw [hx']⟩
      · exact ⟨_, by rw [hresult]⟩

end ParallelOk

end MitDistributed.Porcupine
