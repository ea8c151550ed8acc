import MitDistributed.Porcupine.Parallel

namespace MitDistributed.Porcupine

open Linearizability Transition

/-!
# Checking a history of operations (`checkOperations`, `CheckOperations`)

`checkOperations` splits the history with the partition function of the model and checks the parts
in parallel.  `CheckOperations` and `CheckOperationsTimeout` return what it returns, the first
without a timer and as whether it is `Ok`.

* `checkOperations_sound` — what it may return, in any interleaving;
* `checkOperations_returns` — every interleaving ends, and the function has returned then, unless
  there is nothing to check and no timer.
-/

variable {S I O : Type} [DecidableEq S]

/-- The entries of the parts. -/
def partEntries (sorter : Sorter (I ⊕ O)) (model : Model S I O) (history : List (Operation I O)) :
    List (List (Entry (I ⊕ O))) :=
  ((fillDefault model).partition history).map (makeEntries sorter)

/-- `checkOperations` after the steps `acts`. -/
def checkOperations (sorter : Sorter (I ⊕ O)) (model : Model S I O) (history : List (Operation I O))
    (verbose hasTimeout : Bool) (acts : List ParallelAction) :
    Option (Parallel S) :=
  exec (Parallel.step (fillDefault model) (partEntries sorter model history) verbose hasTimeout)
    (startParallel (fillDefault model) (partEntries sorter model history)) acts

section Parts

variable {sorter : Sorter (I ⊕ O)} {model : Model S I O} {history : List (Operation I O)}
  {verbose hasTimeout : Bool} {acts : List ParallelAction} {s : Parallel S}

/-- The parts with their inputs and outputs. -/
def partsOf (sorter : Sorter (I ⊕ O)) (model : Model S I O) (history : List (Operation I O)) :
    List (Part I O) :=
  ((fillDefault model).partition history).map fun sub => (valsOf sub, makeEntries sorter sub)

theorem map_snd_partsOf :
    (partsOf sorter model history).map Prod.snd = partEntries sorter model history := by
  simp [partsOf, partEntries]

theorem forall_partsOf_iff :
    (∀ p ∈ partsOf sorter model history, p.Ok (fillDefault model)) ↔
      ∀ sub ∈ (fillDefault model).partition history,
        OperationsLinearizable (fillDefault model) sub := by
  simp only [partsOf, List.forall_mem_map, Part.Ok]
  exact forall₂_congr fun sub _ => operationsLinearizable_iff

/-- The bound for the number of steps: the iterations of the goroutines, and what the function
    itself does. -/
def stepBound (model : Model S I O) (history : List (Operation I O)) : ℕ :=
  2 * (((fillDefault model).partition history).map fun sub =>
    2 * sub.length * (2 * sub.length + 1) ^ sub.length + 1).sum + 1

/-- No operation of a part returns before it is called. -/
def TimesOk (model : Model S I O) (history : List (Operation I O)) : Prop :=
  ∀ sub ∈ (fillDefault model).partition history, ∀ op ∈ sub, op.call ≤ op.ret

theorem entriesOf_partsOf (htimes : TimesOk model history) :
    ∀ p ∈ partsOf sorter model history, EntriesOf p.1 p.2 := by
  intro p hp
  obtain ⟨sub, hsub, rfl⟩ := List.mem_map.mp hp
  exact entriesOf_makeEntries (htimes sub hsub)

/-- The invariant holds after every run, and the run is no longer than the bound. -/
theorem parallelOk_of_run (hequal : EqualOk (fillDefault model)) (htimes : TimesOk model history)
    (hrun : checkOperations sorter model history verbose hasTimeout acts = some s) :
    ∃ bounds, ParallelOk (fillDefault model) (partsOf sorter model history) verbose hasTimeout s
        bounds ∧ s.bound bounds + acts.length ≤ stepBound model history := by
  have hparts : ∀ p ∈ partsOf sorter model history, EntriesOf p.1 p.2 := entriesOf_partsOf htimes
  rw [checkOperations, ← map_snd_partsOf] at hrun
  obtain ⟨bounds, hok, hle⟩ := (ParallelOk.start hparts).exec_keeps hparts hequal hrun
  refine ⟨bounds, hok, hle.trans (le_of_eq ?_)⟩
  simp [Parallel.bound, startParallel, stepBound, partsOf, Function.comp_def]

/-- What a result means for the parts. -/
theorem result_of_run (hequal : EqualOk (fillDefault model)) (htimes : TimesOk model history)
    (hrun : checkOperations sorter model history verbose hasTimeout acts = some s)
    {result : CheckResult} (hreturned : s.main = .returned result) :
    result = .ok ∧ (∀ p ∈ partsOf sorter model history, p.Ok (fillDefault model)) ∨
    result = .illegal ∧ (∃ p ∈ partsOf sorter model history, ¬ p.Ok (fillDefault model)) ∨
    result = .unknown ∧ hasTimeout = true := by
  obtain ⟨bounds, hok, -⟩ := parallelOk_of_run hequal htimes hrun
  obtain ⟨hno, hyes⟩ := hok.left (by simp [hreturned])
  have hverdict := hok.returned result hreturned
  rw [Parallel.verdict] at hverdict
  cases hsok : s.ok with
  | false => exact .inr (.inl ⟨by simpa [hsok] using hverdict, hno hsok⟩)
  | true =>
    cases htimed : s.timedOut with
    | false => exact .inl ⟨by simpa [hsok, htimed] using hverdict, hyes hsok htimed⟩
    | true => exact .inr (.inr ⟨by simpa [hsok, htimed] using hverdict, hok.timed htimed⟩)

/-- With nothing to check and no timer the function waits for ever. -/
theorem main_of_no_parts (hnone : (fillDefault model).partition history = [])
    (hrun : checkOperations sorter model history verbose false acts = some s) :
    s.main = .loop := by
  have hentries : partEntries sorter model history = [] := by simp [partEntries, hnone]
  rw [checkOperations, hentries] at hrun
  cases acts with
  | nil =>
    cases hrun
    rfl
  | cons a acts =>
    -- no goroutine, no verdict in the channel, no timer
    cases a <;> cases hrun

end Parts

/-- **What the checker may return.** In every interleaving of the goroutines, with or without a
    timer: `Ok` only if every part can be linearized, `Illegal` only if some part cannot, and
    `Unknown` only with a timer. -/
theorem checkOperations_sound (sorter : Sorter (I ⊕ O)) (model : Model S I O)
    (hequal : EqualOk (fillDefault model)) (history : List (Operation I O))
    (htimes : TimesOk model history) (verbose hasTimeout : Bool) (acts : List ParallelAction)
    (s : Parallel S) (hrun : checkOperations sorter model history verbose hasTimeout acts = some s)
    (result : CheckResult) (hreturned : s.main = .returned result) :
    (result = .ok → ∀ sub ∈ (fillDefault model).partition history,
      OperationsLinearizable (fillDefault model) sub) ∧
    (result = .illegal → ∃ sub ∈ (fillDefault model).partition history,
      ¬ OperationsLinearizable (fillDefault model) sub) ∧
    (result = .unknown → hasTimeout = true) := by
  rcases result_of_run hequal htimes hrun hreturned with ⟨rfl, hall⟩ | ⟨rfl, p, hp, hnot⟩ |
    ⟨rfl, htimed⟩
  · exact ⟨fun _ => forall_partsOf_iff.mp hall, fun h => (by cases h), fun h => by cases h⟩
  · refine ⟨fun h => (by cases h), fun _ => ?_, fun h => by cases h⟩
    by_contra hall
    push Not at hall
    exact hnot (forall_partsOf_iff.mpr hall p hp)
  · exact ⟨fun h => (by cases h), fun h => (by cases h), fun _ => htimed⟩

/-- The one goroutine ends, and the function receives its verdict. -/
def overlappingRun : List ParallelAction :=
  List.replicate 10 (.iterate 0) ++ [.receive]

theorem main_overlappingRun :
    (checkOperations (Sorter.insertion _) Models.kvModel overlapping false false overlappingRun).map
      (·.main) = some (.returned .ok) := by
  decide +kernel

theorem timesOk_overlapping : TimesOk Models.kvModel overlapping := by
  unfold TimesOk
  decide +kernel

theorem overlapping_sound :
    ∃ s, checkOperations (Sorter.insertion _) Models.kvModel overlapping false false
        overlappingRun = some s ∧ s.main = .returned .ok ∧
      ∀ sub ∈ (fillDefault Models.kvModel).partition overlapping,
        OperationsLinearizable (fillDefault Models.kvModel) sub := by
  obtain ⟨s, hrun, hmain⟩ := Option.map_eq_some_iff.mp main_overlappingRun
  exact ⟨s, hrun, hmain, (checkOperations_sound _ _ Models.equalOk_kvModel _ timesOk_overlapping _ _
    _ s hrun _ hmain).1 rfl⟩

/-- **It returns.** Every interleaving has at most `stepBound` steps, no goroutine panics, and where
    no step is possible any more the function has returned, unless there is no part to check and
    no timer: then it waits for ever. -/
theorem checkOperations_returns (sorter : Sorter (I ⊕ O)) (model : Model S I O)
    (hequal : EqualOk (fillDefault model)) (history : List (Operation I O))
    (htimes : TimesOk model history) (verbose hasTimeout : Bool) (acts : List ParallelAction)
    (s : Parallel S)
    (hrun : checkOperations sorter model history verbose hasTimeout acts = some s) :
    acts.length ≤ stepBound model history ∧ .panicked ∉ s.workers ∧
      ((∀ a, checkOperations sorter model history verbose hasTimeout (acts ++ [a]) = none) →
        ((∃ result, s.main = .returned result) ↔
          (fillDefault model).partition history ≠ [] ∨ hasTimeout = true)) := by
  obtain ⟨bounds, hok, hle⟩ := parallelOk_of_run hequal htimes hrun
  refine ⟨by omega, hok.not_panicked, fun hstuck => ⟨?_, fun hsome => ?_⟩⟩
  · rintro ⟨result, hreturned⟩
    by_contra hnone
    push Not at hnone
    obtain ⟨hnone, htimer⟩ := hnone
    obtain rfl := Bool.eq_false_of_not_eq_true htimer
    exact absurd (main_of_no_parts hnone hrun) (by simp [hreturned])
  · by_contra hmain
    push Not at hmain
    have hparts : partsOf sorter model history ≠ [] ∨ hasTimeout = true := by
      simpa [partsOf] using hsome
    obtain ⟨a, s', hstep⟩ := hok.exists_step (entriesOf_partsOf htimes) hequal hparts hmain
    rw [map_snd_partsOf] at hstep
    have hnext := hstuck a
    rw [checkOperations] at hrun hnext
    rw [exec_append, hrun] at hnext
    simp [exec, hstep] at hnext

/-- After that run no step is possible. -/
theorem overlapping_returns :
    overlappingRun.length ≤ stepBound Models.kvModel overlapping ∧
      (∀ a, checkOperations (Sorter.insertion _) Models.kvModel overlapping false false
        (overlappingRun ++ [a]) = none) ∧
      ∃ s, checkOperations (Sorter.insertion _) Models.kvModel overlapping false false
          overlappingRun = some s ∧ .panicked ∉ s.workers ∧ ∃ result, s.main = .returned result := by
  obtain ⟨s, hrun, -⟩ := Option.map_eq_some_iff.mp main_overlappingRun
  obtain ⟨hle, hpanic, hreturns⟩ := checkOperations_returns _ _ Models.equalOk_kvModel _
    timesOk_overlapping _ _ _ s hrun
  have hstuck (a : ParallelAction) : checkOperations (Sorter.insertion _) Models.kvModel overlapping
      false false (overlappingRun ++ [a]) = none := by
    cases a with
    | iterate i =>
      cases i with
      | zero => exact Option.isNone_iff_eq_none.mp (by decide +kernel)
      | succ i =>
        -- there is no other goroutine
        have hone : (partEntries (Sorter.insertion _) Models.kvModel overlapping)[i + 1]? = none :=
          List.getElem?_eq_none (Nat.le_add_left 1 i)
        rw [checkOperations] at hrun ⊢
        rw [exec_append, hrun]
        simp [exec, Parallel.step, Parallel.iterate, hone]
    | receive | timeout | collect => exact Option.isNone_iff_eq_none.mp (by decide +kernel)
  exact ⟨hle, hstuck, s, hrun, hpanic, (hreturns hstuck).mpr (.inl (by decide +kernel))⟩

end MitDistributed.Porcupine
