import DistributedSystems.MapReduce.TaskFiles

/-! # Executing a reduce task again

The output of a reduce task does not depend on the order in which the worker enumerates the map
outputs, on the order in which it enumerates its groups, or on the order of the pairs in a bucket.

* `fetchLoop_ok_iff` — the fetch loop gives the buckets it has fetched, one after the other;
* `reducedContents_reproducible` — two executions with the same pairs give the same list. -/

namespace DistributedSystems.MapReduce.TaskPrograms

open FileSystem Decimal
open Prog (Ensures)
open Keyed (OrderFree)
open Std (TreeMap)

variable {E : Env} {W W' : Context} {bucket : ℕ}

/-! ## The fetch loop -/

/-- The turns of the fetch loop, with the buckets that they fetch. -/
inductive Fetches (E : Env) (W : Context) (bucket : ℕ) :
    World → List (Outcome Answer) → List (TaskID × GoString) → List (List KeyValue) → Prop
  /-- The loop ends. -/
  | nil (w : World) : Fetches E W bucket w [] [] []
  /-- A bucket is fetched. -/
  | cons {w : World} {outs outs' : List (Outcome Answer)} {y : Run RpcCall (Except GoString _)}
      {mapTaskID : TaskID} {producerAddress : GoString} {outputs : List (TaskID × GoString)}
      {bucketContents : List KeyValue} {fetched : List (List KeyValue)}
      (turn : (fetchOutput W bucket mapTaskID producerAddress).run E w outs = some y)
      (value : y.value = .ok bucketContents)
      (rest : Fetches E W bucket y.world outs' outputs fetched) :
      Fetches E W bucket w (outs ++ outs') ((mapTaskID, producerAddress) :: outputs)
        (bucketContents :: fetched)

/-- **The fetch loop gives the buckets that its turns fetch**, one after the other. -/
theorem fetchLoop_ok_iff {w : World} {outs : List (Outcome Answer)}
    {outputs : List (TaskID × GoString)} {before mappedContents : List KeyValue} :
    (∃ x, (fetchLoop W bucket outputs before).run E w outs = some x ∧
      x.value = .ok mappedContents) ↔
    ∃ fetched, Fetches E W bucket w outs outputs fetched ∧
      mappedContents = before ++ fetched.flatten := by
  induction outputs generalizing w outs before with
  | nil =>
      constructor
      · rintro ⟨x, hrun, hvalue⟩
        cases outs with
        | nil =>
            obtain rfl := Option.some.inj hrun
            refine ⟨[], .nil w, ?_⟩
            rw [List.flatten_nil, List.append_nil]
            exact (Except.ok.inj hvalue).symm
        | cons out outs => exact absurd hrun (by simp [fetchLoop, Prog.run])
      · rintro ⟨fetched, hfetches, rfl⟩
        cases hfetches
        refine ⟨_, rfl, ?_⟩
        rw [List.flatten_nil, List.append_nil]
  | cons output outputs ih =>
      obtain ⟨mapTaskID, producerAddress⟩ := output
      constructor
      · rintro ⟨x, hrun, hvalue⟩
        obtain ⟨outs₁, outs₂, y, z, rfl, hturn, hrest, rfl⟩ := Prog.run_bind_iff.mp hrun
        cases hy : y.value with
        | error err =>
            rw [hy] at hrest
            have herror : Ensures E y.world (reportMissingMapOutputs mapTaskID >>= fun _ =>
                (pure (.error err) : WorkerProg (Except GoString (List KeyValue))))
                fun z => z.value = .error err := Ensures.op fun _ _ _ _ => Ensures.ret rfl
            exact absurd ((herror outs₂ z hrest).symm.trans hvalue) (by simp)
        | ok bucketContents =>
            rw [hy] at hrest
            obtain ⟨fetched, hfetches, hflatten⟩ := ih.mp ⟨z, hrest, hvalue⟩
            refine ⟨bucketContents :: fetched, .cons hturn hy hfetches, ?_⟩
            rw [hflatten, List.flatten_cons, List.append_assoc]
      · rintro ⟨fetched, hfetches, rfl⟩
        cases hfetches with
        | cons turn value rest =>
            rename_i outs₁ outs₂ y bucketContents fetched
            have hflatten : before ++ (bucketContents :: fetched).flatten =
                before ++ bucketContents ++ fetched.flatten := by
              rw [List.flatten_cons, List.append_assoc]
            obtain ⟨z, hz, hvalue⟩ := ih.mpr ⟨fetched, rest, hflatten⟩
            refine ⟨_, Prog.run_bind_iff.mpr ⟨outs₁, outs₂, y, z, rfl, turn, ?_, rfl⟩, hvalue⟩
            rw [value]
            exact hz

/-! ## Executions -/

/-- Every map is enumerated by its keys. -/
def Context.EnumeratesKeys (W : Context) : Prop := ∀ grouped, (W.keyOrder grouped).Perm grouped.keys

/-- An execution of the fetch loop, up to its result. -/
structure ReduceExecution (W : Context) (bucket : ℕ) where
  /-- Where the worker runs. -/
  env : Env
  /-- The files at the start. -/
  world : World
  /-- `MapTaskOutputs`, in the order of the loop. -/
  outputs : List (TaskID × GoString)
  /-- The outcomes of the calls. -/
  outs : List (Outcome Answer)
  /-- The pairs that were fetched. -/
  mappedContents : List KeyValue
  /-- The loop has run. -/
  runs : ∃ x, (fetchLoop W bucket outputs []).run env world outs = some x ∧
    x.value = .ok mappedContents

namespace ReduceExecution

/-- The buckets that the execution has fetched. -/
def Fetched (X : ReduceExecution W bucket) (fetched : List (List KeyValue)) : Prop :=
  Fetches X.env W bucket X.world X.outs X.outputs fetched

/-- What `groupByKey` and `reduceContents` make of the pairs. -/
def reducedContents (X : ReduceExecution W bucket) : List KeyValue := reducedOf W X.mappedContents

/-- The pairs are those of the buckets. -/
theorem Fetched.mappedContents_eq {X : ReduceExecution W bucket} {fetched : List (List KeyValue)}
    (h : X.Fetched fetched) : X.mappedContents = fetched.flatten := by
  obtain ⟨x, hrun, hvalue⟩ := X.runs
  obtain ⟨x', hrun', hvalue'⟩ := fetchLoop_ok_iff.mpr ⟨fetched, h, rfl⟩
  obtain rfl := Option.some.inj (hrun.symm.trans hrun')
  exact Except.ok.inj (hvalue.symm.trans hvalue')

/-- Every execution has fetched buckets. -/
theorem exists_fetched (X : ReduceExecution W bucket) : ∃ fetched, X.Fetched fetched := by
  obtain ⟨fetched, hfetches, -⟩ := fetchLoop_ok_iff.mp X.runs
  exact ⟨fetched, hfetches⟩

end ReduceExecution

/-- **A reduce task that is executed again reproduces its output**: the pairs may be fetched in
another order, by another worker, and from buckets that were made again. -/
theorem reducedContents_reproducible {reducef : Key → List Value → Value}
    (hfree : OrderFree reducef) (hW : W.reducef = reducef) (hW' : W'.reducef = reducef)
    (hkeys : W.EnumeratesKeys) (hkeys' : W'.EnumeratesKeys) (X : ReduceExecution W bucket)
    (X' : ReduceExecution W' bucket)
    {fetched fetched' : List (List KeyValue)} (hfetched : X.Fetched fetched)
    (hfetched' : X'.Fetched fetched') (hperm : fetched.flatten.Perm fetched'.flatten) :
    X.reducedContents = X'.reducedContents ∧
    ∃ keys : List Key, keys.SortedLT ∧ (∀ key, key ∈ keys ↔ ∃ kv ∈ fetched.flatten, kv.key = key) ∧
      X.reducedContents = keys.map fun key =>
        { key := key, value := reducef key (valuesUnder fetched.flatten key) } := by
  unfold ReduceExecution.reducedContents reducedOf
  dsimp only
  rw [hfetched.mappedContents_eq, hfetched'.mappedContents_eq, hW, hW']
  constructor
  · rw [reduceContents_eq_of_perm hfree hperm (hkeys _),
      reduceContents_eq_of_perm hfree (List.Perm.refl _) (hkeys' _)]
  · obtain ⟨hnodup, hmem⟩ := sortedKeys_nodup (hkeys (groupByKey fetched.flatten))
    refine ⟨_, ?_, fun key => ?_, reduceContents_groupByKey _⟩
    · exact List.sortedLE_insertionSort.sortedLT_of_nodup hnodup
    · rw [hmem, List.mem_map]

/-- A worker that counts the values of a key. -/
def exampleCounter : Context :=
  { exampleContext with reducef := fun _ values => itoa values.length }

/-- Another one, which enumerates its maps the other way. -/
def otherCounter : Context :=
  { exampleCounter with keyOrder := fun grouped => grouped.keys.reverse }

/-- The output of two map tasks is fetched from another worker. -/
def exampleFetch : ReduceExecution exampleCounter 0 where
  env := exampleDirectory
  world := emptyDirectory
  outputs := [(0, []), (1, [])]
  outs := [.answer (some [⟨.ofString "a", .ofString "1"⟩, ⟨.ofString "b", .ofString "1"⟩]),
    .answer (some [⟨.ofString "a", .ofString "2"⟩])]
  mappedContents := [⟨.ofString "a", .ofString "1"⟩, ⟨.ofString "b", .ofString "1"⟩,
    ⟨.ofString "a", .ofString "2"⟩]
  runs := ⟨_, rfl, rfl⟩

/-- It is fetched again, in another order and with the pairs of one bucket in another order. -/
def otherFetch : ReduceExecution otherCounter 0 where
  env := exampleDirectory
  world := emptyDirectory
  outputs := [(1, []), (0, [])]
  outs := [.answer (some [⟨.ofString "a", .ofString "2"⟩]),
    .answer (some [⟨.ofString "b", .ofString "1"⟩, ⟨.ofString "a", .ofString "1"⟩])]
  mappedContents := [⟨.ofString "a", .ofString "2"⟩, ⟨.ofString "b", .ofString "1"⟩,
    ⟨.ofString "a", .ofString "1"⟩]
  runs := ⟨_, rfl, rfl⟩

/-- Both executions count the same words. -/
theorem reducedContents_reproducible_other :
    exampleFetch.reducedContents = otherFetch.reducedContents := by
  obtain ⟨fetched, hfetched⟩ := exampleFetch.exists_fetched
  obtain ⟨fetched', hfetched'⟩ := otherFetch.exists_fetched
  have hkeys' : otherCounter.EnumeratesKeys := fun grouped => List.reverse_perm _
  have hperm : fetched.flatten.Perm fetched'.flatten := by
    rw [← hfetched.mappedContents_eq, ← hfetched'.mappedContents_eq]
    decide
  exact (reducedContents_reproducible (orderFree_length fun _ n => itoa n) rfl rfl
    (fun _ => List.Perm.refl _) hkeys' exampleFetch otherFetch hfetched hfetched' hperm).1

end DistributedSystems.MapReduce.TaskPrograms
