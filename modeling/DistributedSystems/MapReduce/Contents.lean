import DistributedSystems.MapReduce.Task
import DistributedSystems.Grouping.KeyedLists

/-! # What workers do with key/value pairs

`bucketContents`, `groupByKey` and `reduceContents` of `worker.go`, and the line format of
`writeReducedContentsToBucketFile`. The hash of a key is a parameter; the code's is `ihash`. The
specifications relate them to the grouping library: a bucket is a filter of the pairs, and the
reduced contents are the reduction by key, listed in the order of the keys. A `Job` is what a
MapReduce run is asked to do. -/

namespace DistributedSystems.MapReduce

open Std (TreeMap)
open Keyed (valuesOf reduceByKey OrderFree)

/-- The values emitted under a key. -/
abbrev valuesUnder (keyValues : List KeyValue) (key : Key) : List Value :=
  valuesOf KeyValue.key KeyValue.value keyValues key

/-- The output line of a key with its values. -/
def reducedLine (reducef : Key → List Value → Value) (key : Key) (values : List Value) : KeyValue :=
  { key := key, value := reducef key values }

/-! ## Buckets -/

/-- `bucketContents`: each pair is appended to the bucket of its key. -/
def bucketContents (hash : Key → ℕ) (keyValues : List KeyValue) (nBuckets : ℕ) :
    List (List KeyValue) :=
  keyValues.foldl (fun buckets kv => buckets.modify (hash kv.key % nBuckets) (· ++ [kv]))
    (List.replicate nBuckets [])

/-- The pairs of one bucket. -/
def inBucket (hash : Key → ℕ) (nBuckets b : ℕ) (keyValues : List KeyValue) : List KeyValue :=
  keyValues.filter fun kv => hash kv.key % nBuckets = b

/-- The loop of `bucketContents`: every bucket is extended by its own pairs. -/
theorem foldl_bucket_getElem? (hash : Key → ℕ) (n : ℕ) (keyValues : List KeyValue)
    (buckets : List (List KeyValue)) (b : ℕ) :
    (keyValues.foldl (fun buckets kv => buckets.modify (hash kv.key % n) (· ++ [kv])) buckets)[b]? =
      buckets[b]?.map (· ++ inBucket hash n b keyValues) := by
  induction keyValues generalizing buckets with
  | nil => simp [inBucket]
  | cons kv keyValues ih =>
      rw [List.foldl_cons, ih, List.getElem?_modify]
      cases buckets[b]? with
      | none => rfl
      | some bucket =>
          -- the pair goes to bucket `b` or leaves it as it is
          by_cases h : hash kv.key % n = b
          · simp [inBucket, h]
          · simp [inBucket, h]

/-- **A bucket is the filter of the pairs by their bucket.** -/
theorem bucketContents_getElem? (hash : Key → ℕ) (keyValues : List KeyValue) {n b : ℕ} (hb : b < n) :
    (bucketContents hash keyValues n)[b]? = some (inBucket hash n b keyValues) := by
  rw [bucketContents, foldl_bucket_getElem?, List.getElem?_replicate, if_pos hb]
  rfl

/-- There are `nBuckets` buckets. -/
@[simp] theorem length_bucketContents (hash : Key → ℕ) (keyValues : List KeyValue) (n : ℕ) :
    (bucketContents hash keyValues n).length = n := by
  have hfold (buckets : List (List KeyValue)) :
      (keyValues.foldl (fun buckets kv => buckets.modify (hash kv.key % n) (· ++ [kv]))
        buckets).length = buckets.length := by
    induction keyValues generalizing buckets with
    | nil => rfl
    | cons kv keyValues ih => rw [List.foldl_cons, ih, List.length_modify]
  rw [bucketContents, hfold, List.length_replicate]

/-! ## Groups -/

/-- `groupByKey`: the values of each key, in the order of the pairs. -/
def groupByKey (keyValues : List KeyValue) : TreeMap Key (List Value) :=
  keyValues.foldl (fun grouped kv => grouped.insert kv.key (grouped[kv.key]?.getD [] ++ [kv.value])) ∅

theorem groupByKey_concat (keyValues : List KeyValue) (kv : KeyValue) :
    groupByKey (keyValues ++ [kv]) = (groupByKey keyValues).insert kv.key
      ((groupByKey keyValues)[kv.key]?.getD [] ++ [kv.value]) := by
  rw [groupByKey, List.foldl_append]
  rfl

/-- The group of a key holds the values emitted under it. -/
theorem groupByKey_getD (keyValues : List KeyValue) (key : Key) :
    (groupByKey keyValues)[key]?.getD [] = valuesUnder keyValues key := by
  induction keyValues using List.reverseRecOn with
  | nil => simp [groupByKey, valuesOf]
  | append_singleton keyValues kv ih =>
      rw [groupByKey_concat, TreeMap.getElem?_insert]
      by_cases h : kv.key = key
      · subst h
        simp [ih, valuesOf]
      · rw [if_neg (by simpa using h), ih]
        simp [valuesOf, h]

/-- The keys of the groups are the keys that were emitted. -/
theorem mem_keys_groupByKey (keyValues : List KeyValue) (key : Key) :
    key ∈ (groupByKey keyValues).keys ↔ key ∈ keyValues.map KeyValue.key := by
  rw [TreeMap.mem_keys]
  induction keyValues using List.reverseRecOn with
  | nil => simp [groupByKey]
  | append_singleton keyValues kv ih =>
      rw [groupByKey_concat, TreeMap.mem_insert, ih, Std.LawfulEqCmp.compare_eq_iff_eq]
      simp [or_comm, eq_comm]

/-! ## Reduced contents -/

/-- `reduceContents`, with the order in which the keys of the groups are enumerated: the keys are
sorted, and each is reduced with its group. -/
def reduceContents (groupedContents : TreeMap Key (List Value)) (reducef : Key → List Value → Value)
    (order : List Key) : List KeyValue :=
  -- `sort.Strings`: the keys are distinct, so every sort gives the same list
  let sortedKeys := order.insertionSort (· ≤ ·)
  sortedKeys.map fun key => reducedLine reducef key (groupedContents[key]?.getD [])

/-- The reduced contents of a list of pairs, with the keys enumerated in their own order. -/
def reducedContents (reducef : Key → List Value → Value) (keyValues : List KeyValue) : List KeyValue :=
  reduceContents (groupByKey keyValues) reducef (groupByKey keyValues).keys

variable {reducef : Key → List Value → Value} {keyValues : List KeyValue} {order : List Key}

/-- Sorting the keys of the groups gives a list of the keys without repetition. -/
theorem sortedKeys_nodup (horder : order.Perm (groupByKey keyValues).keys) :
    (order.insertionSort (· ≤ ·)).Nodup ∧
      ∀ key, key ∈ order.insertionSort (· ≤ ·) ↔ key ∈ keyValues.map KeyValue.key := by
  have hperm := (List.perm_insertionSort (· ≤ ·) order).trans horder
  refine ⟨hperm.nodup_iff.mpr TreeMap.nodup_keys, fun key => ?_⟩
  rw [hperm.mem_iff, mem_keys_groupByKey]

/-- `reduceContents` after `groupByKey`, without the map of groups. -/
theorem reduceContents_groupByKey (order : List Key) :
    reduceContents (groupByKey keyValues) reducef order =
      (order.insertionSort (· ≤ ·)).map fun key =>
        reducedLine reducef key (valuesUnder keyValues key) := by
  simp only [reduceContents, groupByKey_getD]

/-- **The reduced contents are the reduction by key.** -/
theorem coe_reduceContents (horder : order.Perm (groupByKey keyValues).keys) :
    (reduceContents (groupByKey keyValues) reducef order : Multiset KeyValue) =
      reduceByKey KeyValue.key KeyValue.value (reducedLine reducef) keyValues := by
  obtain ⟨hnodup, hmem⟩ := sortedKeys_nodup horder
  rw [reduceContents_groupByKey]
  exact Keyed.coe_map_eq_reduceByKey hnodup hmem

/-- The output line is order free when the reduce function is. -/
theorem orderFree_reducedLine (h : OrderFree reducef) : OrderFree (reducedLine reducef) := by
  intro key vs ws hperm
  rw [reducedLine, reducedLine, h key vs ws hperm]

/-- A reduce function that only counts the values, as that of a word count, is order free. -/
theorem orderFree_length (f : Key → ℕ → Value) :
    OrderFree fun key (values : List Value) => f key values.length := by
  intro key vs ws hperm
  simp only [hperm.length_eq]

/-- **The reduced contents do not depend on the order of the pairs** nor on the order in which the
groups are enumerated, when the reduce function does not depend on the order of its values. -/
theorem reduceContents_eq_of_perm (h : OrderFree reducef) {keyValues' : List KeyValue}
    (hperm : keyValues.Perm keyValues') (horder : order.Perm (groupByKey keyValues).keys) :
    reduceContents (groupByKey keyValues) reducef order = reducedContents reducef keyValues' := by
  obtain ⟨hnodup, hmem⟩ := sortedKeys_nodup horder
  obtain ⟨hnodup', hmem'⟩ := sortedKeys_nodup (List.Perm.refl (groupByKey keyValues').keys)
  -- both sorts are of the same keys without repetition, so the sorted keys are equal
  have hkeys : order.insertionSort (· ≤ ·) =
      (groupByKey keyValues').keys.insertionSort (· ≤ ·) := by
    refine List.Perm.eq_of_sortedLE List.sortedLE_insertionSort List.sortedLE_insertionSort ?_
    rw [List.perm_ext_iff_of_nodup hnodup hnodup']
    intro key
    rw [hmem, hmem', (hperm.map KeyValue.key).mem_iff]
  rw [reducedContents, reduceContents_groupByKey, reduceContents_groupByKey, hkeys]
  -- each key has the same values up to order
  refine List.map_congr_left fun key _ => ?_
  exact orderFree_reducedLine h key _ _ (Keyed.valuesOf_perm hperm key)

/-! ## Output lines -/

/-- The bytes of an output line, `"%v %v\n"`. -/
def formatLine (kv : KeyValue) : GoString := kv.key ++ .ofString " " ++ kv.value ++ .ofString "\n"

/-! ## Jobs -/

/-- A **job**: the input files with their contents, the number of reduce tasks, and the
application's map and reduce functions. -/
structure Job where
  /-- The counter of `getGlobalID` before the coordinator is made. -/
  globalID : ℤ := 0
  /-- The input files. -/
  files : List GoString
  /-- The number of reduce tasks. -/
  nReduceTasks : ℕ
  /-- The contents of the input files. -/
  content : GoString → GoString
  /-- The map function: the pairs it emits for a file. -/
  mapf : GoString → GoString → List KeyValue
  /-- The reduce function. -/
  reducef : Key → List Value → Value
  /-- The hash of a key. -/
  hash : Key → ℕ := ihash

namespace Job

variable (J : Job)

/-- The pairs the map function emits for a file. -/
def mapped (file : GoString) : List KeyValue := J.mapf file (J.content file)

/-- The pairs of a file that belong to a bucket. -/
def bucketOf (file : GoString) (b : ℕ) : List KeyValue :=
  inBucket J.hash J.nReduceTasks b (J.mapped file)

/-- All pairs of the job that belong to a bucket. -/
def pairs (b : ℕ) : List KeyValue := J.files.flatMap fun file => J.bucketOf file b

/-- The output of a bucket: its keys in order, each reduced with all its values. -/
def lines (b : ℕ) : List KeyValue := reducedContents J.reducef (J.pairs b)

/-- All pairs of the job. -/
def intermediate : List KeyValue := J.files.flatMap J.mapped

/-- The pairs of a bucket, taken file by file, are the bucket of all pairs. -/
theorem pairs_eq_inBucket (b : ℕ) :
    J.pairs b = inBucket J.hash J.nReduceTasks b J.intermediate := by
  rw [inBucket, intermediate, List.filter_flatMap]
  rfl

/-- Ranging over the files by index is ranging over the files. -/
theorem flatMap_range_files (f : GoString → List KeyValue) :
    ((List.range J.files.length).flatMap fun i => J.files[i]?.elim [] f) = J.files.flatMap f := by
  have hrange : (List.range J.files.length).map (fun i => J.files[i]?) = J.files.map some := by
    refine List.ext_getElem? fun i => ?_
    rcases Nat.lt_or_ge i J.files.length with hi | hi
    · simp [hi]
    · simp [hi]
  rw [← List.flatMap_map (fun i => J.files[i]?) (fun file => file.elim [] f), hrange,
    List.flatMap_map]
  rfl

end Job

end DistributedSystems.MapReduce
