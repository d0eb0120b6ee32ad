import DistributedSystems.GoLang.Strings
import DistributedSystems.Porcupine.CheckOperations
import Mathlib.Data.List.Sort
import Mathlib.Order.Fin.Basic

/-! # Checking a key-value store

`KvModel` of `models/kv.go` models the value of one key, and partitions the operations by their keys.

* `Store` — what a store of many keys does;
* `mem_kvPartition` — the partitions are the operations on the keys that occur;
* `store_linearizable_iff` — the operations are linearizable for the store exactly when every
  partition is linearizable for `KvModel`;
* `kvModel_decides` — what `checkOperations` says about the store. -/

namespace DistributedSystems.Porcupine

open Linearizability
open Std (TreeMap)

/-- `KvInput`. -/
structure KvInput where
  /-- `Op`: get is 0, put is 1, append is 2. -/
  op : UInt8
  /-- `Key`. -/
  key : GoString
  /-- `Value`. -/
  value : GoString
  deriving DecidableEq

/-- `KvOutput`. -/
structure KvOutput where
  /-- `Value`. -/
  value : GoString
  deriving DecidableEq

/-- An operation on a key-value store. -/
abbrev KvOperation := Operation KvInput KvOutput

/-- The key of an operation. -/
def keyOf (v : KvOperation) : GoString := v.input.key

/-! ## The model -/

/-- The loop of `Partition`: the operations of each key. -/
def operationsByKey (history : List KvOperation) : TreeMap GoString (List KvOperation) :=
  history.foldl (fun m v => m.insert (keyOf v) (m.getD (keyOf v) [] ++ [v])) ∅

/-- `Partition`. -/
def kvPartition (history : List KvOperation) : List (List KvOperation) :=
  let m := operationsByKey history
  -- the keys are distinct, so that the order of the loop over the map does not matter
  let keys := m.keys.insertionSort (· ≤ ·)
  keys.map fun k => m.getD k []

/-- `Step`. -/
def kvStep (st : GoString) (inp : KvInput) (out : KvOutput) : Bool × GoString :=
  if inp.op = 0 then (out.value = st, st)
  else if inp.op = 1 then (true, inp.value)
  else (true, st ++ inp.value)

/-- `KvModel`. -/
def kvModel : ModelFields KvInput KvOutput GoString where
  partition := some kvPartition
  init := []
  step := kvStep
  equal := none

/-! ## Partitions -/

variable {history : List KvOperation} {k : GoString}

theorem operationsByKey_concat (history : List KvOperation) (v : KvOperation) :
    operationsByKey (history ++ [v]) = (operationsByKey history).insert (keyOf v)
      ((operationsByKey history).getD (keyOf v) [] ++ [v]) := by
  rw [operationsByKey, List.foldl_append]
  rfl

theorem getD_operationsByKey (history : List KvOperation) (k : GoString) :
    (operationsByKey history).getD k [] = history.filter fun v => keyOf v = k := by
  induction history using List.reverseRecOn with
  | nil => exact TreeMap.getD_emptyc
  | append_singleton history v ih =>
      rw [operationsByKey_concat, TreeMap.getD_insert, List.filter_append]
      by_cases h : keyOf v = k
      · subst h
        simp [ih]
      · rw [if_neg (by simpa using h), ih]
        simp [h]

theorem mem_keys_operationsByKey (history : List KvOperation) (k : GoString) :
    k ∈ (operationsByKey history).keys ↔ k ∈ history.map keyOf := by
  rw [TreeMap.mem_keys]
  induction history using List.reverseRecOn with
  | nil => simp [operationsByKey]
  | append_singleton history v ih =>
      rw [operationsByKey_concat, TreeMap.mem_insert, ih, Std.LawfulEqCmp.compare_eq_iff_eq]
      simp [or_comm, eq_comm]

/-- **The partitions are the operations on the keys that occur.** -/
theorem mem_kvPartition {part : List KvOperation} :
    part ∈ kvPartition history ↔
      ∃ k ∈ history.map keyOf, part = history.filter fun v => keyOf v = k := by
  simp only [kvPartition, List.mem_map, List.mem_insertionSort, getD_operationsByKey,
    mem_keys_operationsByKey]
  exact ⟨fun ⟨k, hk, heq⟩ => ⟨k, hk, heq.symm⟩, fun ⟨k, hk, heq⟩ => ⟨k, hk, heq.symm⟩⟩

theorem kvPartition_eq_nil : kvPartition history = [] ↔ history = [] := by
  constructor
  · intro h
    cases history with
    | nil => rfl
    | cons v history =>
        have hmem : ((v :: history).filter fun w => keyOf w = keyOf v) ∈ kvPartition (v :: history) :=
          mem_kvPartition.mpr ⟨keyOf v, List.mem_map_of_mem List.mem_cons_self, rfl⟩
        rw [h] at hmem
        exact absurd hmem List.not_mem_nil
  · rintro rfl
    rfl

/-! ## The store -/

/-- The values of all keys; a key without a value has the empty string. -/
abbrev Store := GoString → GoString

/-- What a store does: a get returns the value of its key, a put replaces it, and an append adds to
it. -/
def Store.apply (store : Store) (v : KvOperation) : Option Store :=
  if v.input.op = 0 then
    if v.output.value = store v.input.key then some store else none
  else if v.input.op = 1 then some (Function.update store v.input.key v.input.value)
  else some (Function.update store v.input.key (store v.input.key ++ v.input.value))

/-- The store before any operation. -/
def Store.empty : Store := fun _ => []

/-- The operations are linearizable for the store. -/
def StoreLinearizable (history : List KvOperation) : Prop :=
  TimedLinearizable Operation.call Operation.ret Store.apply Store.empty history

/-- Every key of the store is an object of its own, with the steps of `KvModel`. -/
theorem store_apply_eq : Store.apply = stepAt keyOf (fillDefault kvModel).apply := by
  funext store v
  have happly : (fillDefault kvModel).apply (store (keyOf v)) v =
      if (kvStep (store v.input.key) v.input v.output).1 then
        some (kvStep (store v.input.key) v.input v.output).2 else none := rfl
  rw [stepAt, happly, Store.apply, kvStep]
  by_cases hget : v.input.op = 0
  · rw [if_pos hget, if_pos hget]
    by_cases hvalue : v.output.value = store v.input.key
    · simp [hvalue, keyOf]
    · simp [hvalue]
  · rw [if_neg hget, if_neg hget]
    by_cases hput : v.input.op = 1
    · simp [hput, keyOf]
    · simp [hput, keyOf]

/-- **A history is linearizable if and only if each partition is linearizable.** -/
theorem store_linearizable_iff (hvalid : ∀ v ∈ history, v.call ≤ v.ret) :
    StoreLinearizable history ↔
      ∀ part ∈ kvPartition history, (fillDefault kvModel).Linearizable part := by
  rw [StoreLinearizable, store_apply_eq, linearizable_iff_forall_key hvalid]
  constructor
  · intro h part hpart
    obtain ⟨k, -, rfl⟩ := mem_kvPartition.mp hpart
    exact h k
  · intro h k
    by_cases hk : k ∈ history.map keyOf
    · exact h _ (mem_kvPartition.mpr ⟨k, hk, rfl⟩)
    · -- there is no operation on the key
      have hnil : (history.filter fun v => keyOf v = k) = [] :=
        List.filter_eq_nil_iff.mpr fun v hv heq =>
          hk (List.mem_map.mpr ⟨v, hv, of_decide_eq_true heq⟩)
      rw [hnil]
      exact ⟨[], List.Perm.nil, List.Pairwise.nil, rfl⟩

/-! ## The check -/

section Check

variable {sort : List (Entry KvInput KvOutput) → List (Entry KvInput KvOutput)} {verbose : Bool}
  {timeout : ℤ}

/-- **`checkOperations` with `KvModel` decides linearizability for the whole store**, whichever way
the goroutines and the caller interleave: every run ends; `Illegal` says that the operations are not
linearizable and `Ok` that they are; without a timeout one of the two is returned. Only an empty
history gets no answer, and without a timeout the caller waits for ever. -/
theorem kvModel_decides (hsort : Sorts sort) (hvalid : ∀ v ∈ history, v.call ≤ v.ret) :
    ¬ (checkOperations sort kvModel history verbose timeout).system.Endless (fun _ _ => True)
        (checkOperations sort kvModel history verbose timeout).system.init ∧
      ∀ s, (checkOperations sort kvModel history verbose timeout).system.Reachable s →
        (s.main = .returned .illegal → ¬ StoreLinearizable history) ∧
        (s.main = .returned .ok → StoreLinearizable history) ∧
        ((∀ a, (checkOperations sort kvModel history verbose timeout).system.step s a = none) →
          timeout ≤ 0 → history ≠ [] →
          s.main = .returned .illegal ∨ s.main = .returned .ok) ∧
        (history = [] → ∀ result, s.main = .returned result → result = .unknown ∧ 0 < timeout) := by
  have hmodel : (fillDefault kvModel).Respectful := respectful_fillDefault rfl
  have hvalid' (part : List KvOperation) (hpart : part ∈ (fillDefault kvModel).partition history)
      (v : KvOperation) (hv : v ∈ part) : v.call ≤ v.ret := by
    obtain ⟨k, -, rfl⟩ := mem_kvPartition.mp hpart
    exact hvalid v (List.mem_of_mem_filter hv)
  obtain ⟨hends, hstuck⟩ := ends_of_reachable hsort hmodel hvalid'
  refine ⟨hends, fun s h => ?_⟩
  have hanswers {result : CheckResult} (hmain : s.main = .returned result) :=
    answers_of_reachable hsort hmodel hvalid' h hmain
  refine ⟨fun hmain => ?_, fun hmain => ?_, fun hnone htimeout hne => ?_, fun hnil => ?_⟩
  · obtain ⟨part, hpart, hillegal⟩ := (hanswers hmain).1 rfl
    exact fun hlinearizable => hillegal ((store_linearizable_iff hvalid).mp hlinearizable part hpart)
  · exact (store_linearizable_iff hvalid).mpr ((hanswers hmain).2.1 rfl)
  · obtain ⟨-, ⟨result, hmain⟩ | ⟨hnil, -⟩⟩ := hstuck s h hnone
    · cases result with
      | illegal => exact Or.inl hmain
      | ok => exact Or.inr hmain
      | unknown => exact absurd ((hanswers hmain).2.2 rfl) (not_lt.mpr htimeout)
    · exact absurd (kvPartition_eq_nil.mp hnil) hne
  · intro result hmain
    have hparts : (checkOperations sort kvModel history verbose timeout).history = [] :=
      List.map_eq_nil_iff.mpr (kvPartition_eq_nil.mpr hnil)
    rcases (ParallelCheck.idle_of_reachable hparts h).main with hmain' | ⟨htimeout, hmain' | hmain'⟩
    · exact absurd (hmain.symm.trans hmain') (by simp)
    · exact absurd (hmain.symm.trans hmain') (by simp)
    · exact ⟨Main.returned.inj (hmain.symm.trans hmain'), htimeout⟩

end Check

/-- Two clients write to two keys, and one of them reads a value that was never there. -/
def lostPut : List KvOperation :=
  [⟨0, ⟨1, [1], [7]⟩, 0, ⟨[]⟩, 1⟩, ⟨1, ⟨1, [2], [8]⟩, 0, ⟨[]⟩, 3⟩, ⟨0, ⟨0, [1], []⟩, 2, ⟨[]⟩, 4⟩]

/-- A run of the check, in which the second goroutine is still searching when the answer is known. -/
def lostPutRun : List CheckAction :=
  [.start, .start, .search 1, .search 1] ++ List.replicate 5 (.search 0) ++ [.send 0, .receive]

/-- The check finds out that the store has lost a put. -/
theorem kvModel_decides_lostPut : ¬ StoreLinearizable lostPut := by
  have hrun : ((checkOperations sortEntries kvModel lostPut false 0).system.exec
      (checkOperations sortEntries kvModel lostPut false 0).system.init lostPutRun).map
        CheckState.main = some (.returned .illegal) := by
    decide +kernel
  obtain ⟨s, hs, hmain⟩ := Option.map_eq_some_iff.mp hrun
  exact ((kvModel_decides sorts_sortEntries (by decide)).2 s ⟨lostPutRun, hs⟩).1 hmain

end DistributedSystems.Porcupine
