import DistributedSystems.MapReduce.Contents

/-! # Distributed MapReduce computes what sequential MapReduce computes

The data flow of a job without its coordination: every file is mapped and split into buckets, the
buckets of one number are concatenated in some order of the files, grouped and reduced. The
reference is `mrsequential.go`: one sort of all pairs by key and a two-index scan of its runs.

* `coe_sequentialLoop` — the scan of a sorted list is the reduction by key;
* `distributed_eq_sequential` — the lines of all buckets together are the lines of the scan, and
  every key has one line in one bucket. -/

namespace DistributedSystems.MapReduce

open Keyed (reduceByKey OrderFree)

/-! ## The sequential loop -/

/-- The inner loop of `mrsequential`: the first index from `j` on whose pair has another key. -/
def runEnd (intermediate : List KeyValue) (key : Key) (j : ℕ) : ℕ :=
  if h : j < intermediate.length then
    if (intermediate.get ⟨j, h⟩).key = key then runEnd intermediate key (j + 1) else j
  else j
termination_by intermediate.length - j

/-- The inner loop stops after the pairs with the key that start at `j`. -/
theorem runEnd_eq (intermediate : List KeyValue) (key : Key) (j : ℕ) :
    runEnd intermediate key j =
      j + ((intermediate.drop j).takeWhile fun kv => kv.key = key).length := by
  induction j using runEnd.induct intermediate key with
  | case1 j h hkey ih =>
      rw [runEnd, dif_pos h, if_pos hkey, ih, List.drop_eq_getElem_cons h,
        List.takeWhile_cons_of_pos (by simpa using hkey), List.length_cons]
      omega
  | case2 j h hkey =>
      rw [runEnd, dif_pos h, if_neg hkey, List.drop_eq_getElem_cons h,
        List.takeWhile_cons_of_neg (by simpa using hkey)]
      rfl
  | case3 j h =>
      rw [runEnd, dif_neg h, List.drop_eq_nil_of_le (Nat.le_of_not_lt h)]
      rfl

theorem le_runEnd (intermediate : List KeyValue) (key : Key) (j : ℕ) :
    j ≤ runEnd intermediate key j := by
  rw [runEnd_eq]
  exact Nat.le_add_right _ _

/-- The outer loop of `mrsequential` from index `i` on: the pairs of the run that starts at `i` are
reduced to one line, and the loop goes on behind the run. -/
def sequentialLoop (reducef : Key → List Value → Value) (intermediate : List KeyValue) (i : ℕ) :
    List KeyValue :=
  if h : i < intermediate.length then
    let key := (intermediate.get ⟨i, h⟩).key
    let j := runEnd intermediate key (i + 1)
    let values := ((intermediate.take j).drop i).map KeyValue.value
    reducedLine reducef key values :: sequentialLoop reducef intermediate j
  else []
termination_by intermediate.length - i
decreasing_by
  have hle := le_runEnd intermediate (intermediate.get ⟨i, h⟩).key (i + 1)
  omega

/-- **The scan of a sorted list is the reduction by key** of what it has not read yet. -/
theorem coe_sequentialLoop {reducef : Key → List Value → Value} {intermediate : List KeyValue}
    (hsorted : intermediate.Pairwise fun a b => a.key ≤ b.key) (i : ℕ) :
    (sequentialLoop reducef intermediate i : Multiset KeyValue) =
      reduceByKey KeyValue.key KeyValue.value (reducedLine reducef) (intermediate.drop i) := by
  induction i using sequentialLoop.induct intermediate with
  | case1 i h key j ih =>
      have hdrop := List.drop_eq_getElem_cons h
      have hpair := hsorted.drop (i := i)
      rw [hdrop] at hpair
      -- the run is the first pair and the pairs of its key that follow it
      have hj : j = i + 1 + ((intermediate.drop (i + 1)).takeWhile fun kv => kv.key = key).length :=
        runEnd_eq intermediate key (i + 1)
      have hsplit := List.takeWhile_append_dropWhile (p := fun kv : KeyValue => kv.key = key)
        (l := intermediate.drop (i + 1))
      rw [sequentialLoop, dif_pos h, ← Multiset.cons_coe, ih, hdrop, Keyed.reduceByKey_run hpair]
      -- from here on only the run and the rest matter, not how they were found
      generalize (intermediate.drop (i + 1)).takeWhile (fun kv => kv.key = key) = run at hj hsplit ⊢
      generalize (intermediate.drop (i + 1)).dropWhile (fun kv => kv.key = key) = rest at hsplit ⊢
      have hrest : intermediate.drop j = rest := by
        rw [hj, ← List.drop_drop, ← hsplit, List.drop_left]
      have hrun : (intermediate.take j).drop i = intermediate[i] :: run := by
        have hlen : j - i = run.length + 1 := by omega
        rw [List.drop_take, hdrop, hlen, List.take_succ_cons, ← hsplit, List.take_left]
      show reducedLine reducef key (((intermediate.take j).drop i).map KeyValue.value) ::ₘ
        reduceByKey _ _ _ (intermediate.drop j) = _
      rw [hrest, hrun]
      rfl
  | case2 i h =>
      rw [sequentialLoop, dif_neg h, List.drop_eq_nil_of_le (Nat.le_of_not_lt h)]
      rfl

/-! ## The distributed data flow -/

namespace Job

variable (J : Job)

/-- What the reduce task of bucket `b` reads: the bucket's files of all map tasks, in the order in
which it takes the map tasks. -/
def reduceInput (b : ℕ) (order : List ℕ) : List KeyValue :=
  order.flatMap fun i => J.files[i]?.elim [] fun file =>
    (bucketContents J.hash (J.mapf file (J.content file)) J.nReduceTasks)[b]?.getD []

/-- What the reduce task of bucket `b` writes, with the order in which it enumerates its groups. -/
def reduceOutput (b : ℕ) (order : List ℕ) (keyOrder : List Key) : List KeyValue :=
  reduceContents (groupByKey (J.reduceInput b order)) J.reducef keyOrder

/-- Reading the map tasks in any order gives the pairs of the bucket, in some order. -/
theorem reduceInput_perm {b : ℕ} (hb : b < J.nReduceTasks) {order : List ℕ}
    (horder : order.Perm (List.range J.files.length)) : (J.reduceInput b order).Perm (J.pairs b) := by
  have hbucket : J.reduceInput b order =
      order.flatMap fun i => J.files[i]?.elim [] fun file => J.bucketOf file b := by
    simp only [reduceInput, bucketContents_getElem? _ _ hb, Option.getD_some]
    rfl
  rw [hbucket, pairs, ← J.flatMap_range_files]
  exact horder.flatMap_right _

end Job

/-- The outputs of all buckets together. -/
theorem coe_flatMap_range (f : ℕ → List KeyValue) (n : ℕ) :
    ((List.range n).flatMap f : Multiset KeyValue) =
      ∑ b ∈ Finset.range n, (f b : Multiset KeyValue) := by
  induction n with
  | zero => rfl
  | succ n ih =>
      rw [List.range_succ, List.flatMap_append, ← Multiset.coe_add, ih, Finset.sum_range_succ]
      simp

/-- A list whose multiset is a reduction by key has every key on one line. -/
theorem count_key_of_coe_eq {l keyValues : List KeyValue} {reducef : Key → List Value → Value}
    (h : (l : Multiset KeyValue) =
      reduceByKey KeyValue.key KeyValue.value (reducedLine reducef) keyValues) (key : Key) :
    (l.map KeyValue.key).count key = if key ∈ keyValues.map KeyValue.key then 1 else 0 := by
  have hperm := (Multiset.coe_eq_coe.mp h).map KeyValue.key
  rw [List.map_map] at hperm
  have hid : (KeyValue.key ∘ fun k => reducedLine reducef k (valuesUnder keyValues k)) = id := rfl
  rw [hid, List.map_id] at hperm
  rw [hperm.count_eq]
  split
  · next hkey => exact List.count_eq_one_of_mem (List.nodup_dedup _) (List.mem_dedup.mpr hkey)
  · next hkey => exact List.count_eq_zero.mpr fun h => hkey (List.mem_dedup.mp h)

/-- **Distributed MapReduce equals sequential MapReduce.** For every job with at least one bucket
and a reduce function that does not depend on the order of its values, whatever the order in which
each reduce task reads the map outputs and enumerates its groups, and whatever list the sort of
`mrsequential` returns: the lines of all buckets are, up to order, the lines of the sequential loop;
and every key that is emitted has exactly one line in exactly one bucket. -/
theorem distributed_eq_sequential (J : Job) (hn : 0 < J.nReduceTasks) (hreducef : OrderFree J.reducef)
    (orders : ℕ → List ℕ)
    (horders : ∀ b < J.nReduceTasks, (orders b).Perm (List.range J.files.length))
    (keyOrders : ℕ → List Key)
    (hkeyOrders : ∀ b < J.nReduceTasks,
      (keyOrders b).Perm (groupByKey (J.reduceInput b (orders b))).keys)
    (sorted : List KeyValue) (hperm : sorted.Perm J.intermediate)
    (hsorted : sorted.Pairwise fun a b => a.key ≤ b.key) :
    ((List.range J.nReduceTasks).flatMap fun b =>
      J.reduceOutput b (orders b) (keyOrders b)).Perm (sequentialLoop J.reducef sorted 0) ∧
    ∀ key ∈ J.intermediate.map KeyValue.key, ∃ b < J.nReduceTasks,
      ((J.reduceOutput b (orders b) (keyOrders b)).map KeyValue.key).count key = 1 ∧
      ∀ b' < J.nReduceTasks, b' ≠ b →
        key ∉ (J.reduceOutput b' (orders b') (keyOrders b')).map KeyValue.key := by
  have hline := orderFree_reducedLine hreducef
  -- each output file is the reduction of the pairs of its bucket
  have houtput (b : ℕ) (hb : b < J.nReduceTasks) :
      (J.reduceOutput b (orders b) (keyOrders b) : Multiset KeyValue) =
        reduceByKey KeyValue.key KeyValue.value (reducedLine J.reducef)
          (inBucket J.hash J.nReduceTasks b J.intermediate) := by
    rw [Job.reduceOutput, coe_reduceContents (hkeyOrders b hb),
      Keyed.reduceByKey_perm hline (J.reduceInput_perm hb (horders b hb)), J.pairs_eq_inBucket]
  constructor
  · rw [← Multiset.coe_eq_coe, coe_flatMap_range, coe_sequentialLoop hsorted, List.drop_zero,
      Keyed.reduceByKey_perm hline hperm]
    -- the buckets partition the keys, so their reductions sum to that of all pairs
    rw [Finset.sum_congr rfl fun b hb => houtput b (Finset.mem_range.mp hb)]
    exact Keyed.sum_reduceByKey (fun key => J.hash key % J.nReduceTasks) J.intermediate
      fun kv _ => Nat.mod_lt _ hn
  · intro key hkey
    -- the key occurs in the bucket its hash names and in no other
    have hmem (b : ℕ) : key ∈ (inBucket J.hash J.nReduceTasks b J.intermediate).map KeyValue.key ↔
        J.hash key % J.nReduceTasks = b := by
      obtain ⟨kv, hkv, rfl⟩ := List.mem_map.mp hkey
      simp only [inBucket, List.mem_map, List.mem_filter, decide_eq_true_eq]
      constructor
      · rintro ⟨kv', ⟨-, hb⟩, heq⟩
        rwa [heq] at hb
      · exact fun hb => ⟨kv, ⟨hkv, hb⟩, rfl⟩
    refine ⟨J.hash key % J.nReduceTasks, Nat.mod_lt _ hn, ?_, fun b' hb' hne => ?_⟩
    · rw [count_key_of_coe_eq (houtput _ (Nat.mod_lt _ hn)), if_pos ((hmem _).mpr rfl)]
    · rw [← List.count_eq_zero, count_key_of_coe_eq (houtput b' hb'),
        if_neg fun h => hne ((hmem b').mp h).symm]

/-- Word count over two files: each byte of a file is a word, and a word is reduced to one byte for
each of its occurrences. -/
def wordCount : Job where
  files := [[1], [2]]
  nReduceTasks := 2
  content file := file ++ [7, 8, 7]
  mapf _ content := content.map fun byte => ⟨[byte], [1]⟩
  reducef _ values := List.replicate values.length 1

/-- Word count distributed over two buckets, with the map outputs read in reverse order. -/
theorem distributed_eq_sequential_wordCount :
    ((List.range 2).flatMap fun b => wordCount.reduceOutput b [1, 0]
      (groupByKey (wordCount.reduceInput b [1, 0])).keys).Perm
    (sequentialLoop wordCount.reducef
      [⟨[1], [1]⟩, ⟨[2], [1]⟩, ⟨[7], [1]⟩, ⟨[7], [1]⟩, ⟨[7], [1]⟩, ⟨[7], [1]⟩, ⟨[8], [1]⟩,
        ⟨[8], [1]⟩] 0) := by
  exact (distributed_eq_sequential wordCount (by decide)
    (orderFree_length fun _ n => List.replicate n 1) (fun _ => [1, 0])
    (fun _ _ => by decide) (fun b => (groupByKey (wordCount.reduceInput b [1, 0])).keys)
    (fun _ _ => List.Perm.refl _) _ (by decide) (by decide)).1

end DistributedSystems.MapReduce
