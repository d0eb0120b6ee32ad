import DistributedSystems.Porcupine.Operations
import DistributedSystems.Porcupine.ParallelEnds

/-! # Checking operations

`checkOperations` of `porcupine/checker.go` fills in what a model leaves out, partitions the
operations, and checks the entries of all partitions in parallel.

* `respectful_fillDefault` — a model without `Equal` is respected by its steps;
* `answers_of_reachable` — what the result says about the operations of the partitions;
* `ends_of_reachable` — when the check returns;
* `checkOperations_decides` — both together, for every interleaving;
* `checkOperations_partials` — what the partial linearizations say. -/

namespace DistributedSystems.Porcupine

variable {ι ο σ : Type}

/-- `Model` with the fields that decide a check: `Partition` and `Equal` may be left out. -/
structure ModelFields (ι ο σ : Type) where
  /-- `Partition`. -/
  partition : Option (List (Operation ι ο) → List (List (Operation ι ο)))
  /-- `Init`. -/
  init : σ
  /-- `Step`. -/
  step : σ → ι → ο → Bool × σ
  /-- `Equal`. -/
  equal : Option (σ → σ → Bool)

/-- `Model` when nothing is left out. -/
structure FilledModel (ι ο σ : Type) extends Model ι ο σ where
  /-- `Partition`. -/
  partition : List (Operation ι ο) → List (List (Operation ι ο))

/-- `NoPartition`. -/
def noPartition (history : List (Operation ι ο)) : List (List (Operation ι ο)) := [history]

variable [DecidableEq σ]

/-- `ShallowEqual`. -/
def shallowEqual (state₁ state₂ : σ) : Bool := state₁ = state₂

/-- `fillDefault`. -/
def fillDefault (model : ModelFields ι ο σ) : FilledModel ι ο σ where
  init := model.init
  step := model.step
  equal := model.equal.getD shallowEqual
  partition := model.partition.getD noPartition

/-- `checkOperations`, up to the run of `checkParallel`. -/
def checkOperations (sort : List (Entry ι ο) → List (Entry ι ο)) (model : ModelFields ι ο σ)
    (history : List (Operation ι ο)) (verbose : Bool) (timeout : ℤ) : ParallelCheck ι ο σ :=
  let model := fillDefault model
  let partitions := model.partition history
  { model := model.toModel
    history := partitions.map (makeEntries sort)
    computeInfo := verbose
    timeout := timeout }

/-- Equal states take the same steps. -/
theorem respectful_fillDefault {model : ModelFields ι ο σ} (h : model.equal = none) :
    (fillDefault model).Respectful := by
  have heq : (fillDefault model).equal = shallowEqual := by
    rw [fillDefault, h]
    rfl
  refine respectful_of_equal fun s t => ?_
  rw [heq]
  exact decide_eq_true_iff

section Checks

variable {sort : List (Entry ι ο) → List (Entry ι ο)} {model : ModelFields ι ο σ}
  {history : List (Operation ι ο)} {verbose : Bool} {timeout : ℤ} {s : CheckState ι ο σ}
  (hsort : Sorts sort) (hmodel : (fillDefault model).Respectful)
  (hvalid : ∀ part ∈ (fillDefault model).partition history, ∀ op ∈ part, op.call ≤ op.ret)

include hsort hvalid in
/-- The entries of every partition are those of a complete history. -/
theorem numbered_partitions (entries : List (Entry ι ο))
    (hentries : entries ∈ (checkOperations sort model history verbose timeout).history) :
    Numbered entries := by
  obtain ⟨part, hpart, rfl⟩ := List.mem_map.mp hentries
  exact numbered_makeEntries hsort (hvalid part hpart)

include hsort hmodel hvalid

/-- What the result says about the operations. -/
theorem answers_of_reachable
    (h : (checkOperations sort model history verbose timeout).system.Reachable s)
    {result : CheckResult} (hmain : s.main = .returned result) :
    (result = .illegal →
      ∃ part ∈ (fillDefault model).partition history, ¬ (fillDefault model).Linearizable part) ∧
    (result = .ok →
      ∀ part ∈ (fillDefault model).partition history, (fillDefault model).Linearizable part) ∧
    (result = .unknown → 0 < timeout) := by
  have hanswers := ParallelCheck.check_answers (numbered_partitions hsort hvalid) hmodel h hmain
  refine ⟨fun hresult => ?_, fun hresult part hpart => ?_, hanswers.unknown⟩
  · obtain ⟨entries, hentries, hillegal⟩ := hanswers.illegal hresult
    obtain ⟨part, hpart, rfl⟩ := List.mem_map.mp hentries
    exact ⟨part, hpart, fun hlinearizable =>
      hillegal ((linearizable_makeEntries hsort _).mpr hlinearizable)⟩
  · exact (linearizable_makeEntries hsort _).mp
      (hanswers.ok hresult _ (List.mem_map_of_mem hpart))

/-- When a check ends. -/
theorem ends_of_reachable :
    ¬ (checkOperations sort model history verbose timeout).system.Endless (fun _ _ => True)
        (checkOperations sort model history verbose timeout).system.init ∧
      ∀ s, (checkOperations sort model history verbose timeout).system.Reachable s →
        (∀ a, (checkOperations sort model history verbose timeout).system.step s a = none) →
        (∀ i < ((fillDefault model).partition history).length,
          ∃ r, s.workers i = some (.sent r)) ∧
        ((∃ result, s.main = .returned result) ∨
          (fillDefault model).partition history = [] ∧ timeout ≤ 0) := by
  obtain ⟨hends, hstuck⟩ := ParallelCheck.check_ends (C := checkOperations sort model history
    verbose timeout) (numbered_partitions hsort hvalid) hmodel
  refine ⟨hends, fun s h hnone => ?_⟩
  obtain ⟨hsent, hreturned⟩ := hstuck s h hnone
  refine ⟨fun i hi => hsent i (hi.trans_eq (List.length_map _).symm), ?_⟩
  exact hreturned.imp_right (And.imp_left List.map_eq_nil_iff.mp)

/-- **`checkOperations` decides linearizability**, for every model, whichever way the goroutines and
the caller interleave: every run ends, and where it ends all goroutines have sent their answers and
the caller has returned, unless it waits for partitions that do not exist. `Illegal` says that some
partition is not linearizable, `Ok` that all of them are, and `Unknown` that there was a timeout. -/
theorem checkOperations_decides :
    ¬ (checkOperations sort model history verbose timeout).system.Endless (fun _ _ => True)
        (checkOperations sort model history verbose timeout).system.init ∧
      ∀ s, (checkOperations sort model history verbose timeout).system.Reachable s →
        ((∀ a, (checkOperations sort model history verbose timeout).system.step s a = none) →
          (∀ i < ((fillDefault model).partition history).length,
            ∃ r, s.workers i = some (.sent r)) ∧
          ((∃ result, s.main = .returned result) ∨
            (fillDefault model).partition history = [] ∧ timeout ≤ 0)) ∧
        (s.main = .returned .illegal → ∃ part ∈ (fillDefault model).partition history,
          ¬ (fillDefault model).Linearizable part) ∧
        (s.main = .returned .ok → ∀ part ∈ (fillDefault model).partition history,
          (fillDefault model).Linearizable part) ∧
        (s.main = .returned .unknown → 0 < timeout) := by
  obtain ⟨hends, hstuck⟩ := ends_of_reachable hsort hmodel hvalid
  refine ⟨hends, fun s h => ⟨hstuck s h, fun hmain => ?_, fun hmain => ?_, fun hmain => ?_⟩⟩
  · exact (answers_of_reachable hsort hmodel hvalid h hmain).1 rfl
  · exact (answers_of_reachable hsort hmodel hvalid h hmain).2.1 rfl
  · exact (answers_of_reachable hsort hmodel hvalid h hmain).2.2 rfl

/-- **The partial linearizations of a verbose check.** Whenever a check without a timeout has
returned, the sequences of every partition are linearizations of some of its operations that the
model accepts, and for every such linearization and every operation of it there is one with the
operation that is at least as long. -/
theorem checkOperations_partials (htimeout : timeout ≤ 0)
    (h : (checkOperations sort model history true timeout).system.Reachable s)
    {result : CheckResult} (hmain : s.main = .returned result) {i : ℕ}
    {part : List (Operation ι ο)} (hpart : ((fillDefault model).partition history)[i]? = some part) :
    ∃ partials,
      ((checkOperations sort model history true timeout).partialLinearizations s)[i]? =
        some partials ∧
      (∀ seq ∈ partials, Accepts (fillDefault model).toModel (makeEntries sort part) seq) ∧
      ∀ ids, Accepts (fillDefault model).toModel (makeEntries sort part) ids → ∀ a ∈ ids,
        ∃ seq ∈ partials, a ∈ seq ∧ ids.length ≤ seq.length := by
  refine ParallelCheck.check_partials (numbered_partitions hsort hvalid) hmodel rfl htimeout h
    hmain ?_
  rw [checkOperations, List.getElem?_map, hpart]
  rfl

end Checks

/-- The register, without a partition and without an equality. -/
def registerFields : ModelFields (Option ℕ) ℕ ℕ where
  partition := none
  init := register.init
  step := register.step
  equal := none

/-- A read of 1 while 1 is written, and a read of 0 afterwards. -/
def staleOperations : List (Operation (Option ℕ) ℕ) :=
  [⟨0, none, 0, 1, 3⟩, ⟨1, some 1, 1, 0, 4⟩, ⟨0, none, 5, 0, 6⟩]

theorem staleOperations_valid (part : List (Operation (Option ℕ) ℕ))
    (hpart : part ∈ (fillDefault registerFields).partition staleOperations)
    (op : Operation (Option ℕ) ℕ) (hop : op ∈ part) : op.call ≤ op.ret := by
  obtain rfl : part = staleOperations := List.mem_singleton.mp hpart
  revert op
  decide

/-- The verbose check of these operations. -/
def staleCheck : ParallelCheck (Option ℕ) ℕ ℕ :=
  checkOperations sortEntries registerFields staleOperations true 0

/-- A run of the check. -/
def staleRun : List CheckAction :=
  [.start] ++ List.replicate 8 (.search 0) ++ [.send 0, .receive, .drain]

theorem exists_staleRun : ∃ s, staleCheck.system.Reachable s ∧ s.main = .returned .illegal ∧
    staleCheck.partialLinearizations s = [[[1, 0]]] := by
  have hrun : ((staleCheck.system.exec staleCheck.system.init staleRun).map fun s =>
      (s.main, staleCheck.partialLinearizations s)) = some (.returned .illegal, [[[1, 0]]]) := by
    decide +kernel
  obtain ⟨s, hs, hstate⟩ := Option.map_eq_some_iff.mp hrun
  obtain ⟨hmain, hpartials⟩ := Prod.mk.inj hstate
  exact ⟨s, ⟨staleRun, hs⟩, hmain, hpartials⟩

/-- The check finds out that the stale read is not linearizable. -/
theorem checkOperations_decides_stale :
    ¬ (fillDefault registerFields).Linearizable staleOperations := by
  obtain ⟨s, hs, hmain, -⟩ := exists_staleRun
  obtain ⟨part, hpart, hillegal⟩ := ((checkOperations_decides sorts_sortEntries
    (respectful_fillDefault rfl) staleOperations_valid).2 s hs).2.1 hmain
  obtain rfl : part = staleOperations := List.mem_singleton.mp hpart
  exact hillegal

/-- No linearization with the first read is longer than that of the write and this read. -/
theorem checkOperations_partials_stale :
    ∃ s, staleCheck.system.Reachable s ∧ staleCheck.partialLinearizations s = [[[1, 0]]] ∧
      ∀ ids, Accepts (fillDefault registerFields).toModel
        (makeEntries sortEntries staleOperations) ids → 0 ∈ ids → ids.length ≤ 2 := by
  obtain ⟨s, hs, hmain, hpartials⟩ := exists_staleRun
  obtain ⟨partials, hget, -, hlongest⟩ := checkOperations_partials sorts_sortEntries
    (respectful_fillDefault rfl) staleOperations_valid le_rfl hs hmain
    (List.getElem?_cons_zero : ((fillDefault registerFields).partition staleOperations)[0]? = _)
  refine ⟨s, hs, hpartials, fun ids hids hmem => ?_⟩
  obtain ⟨seq, hseq, -, hle⟩ := hlongest ids hids 0 hmem
  obtain rfl : partials = [[1, 0]] := Option.some.inj (hget.symm.trans (congrArg (·[0]?) hpartials))
  obtain rfl : seq = [1, 0] := List.mem_singleton.mp hseq
  exact hle

end DistributedSystems.Porcupine
