import DistributedSystems.MapReduce.TaskFiles
import DistributedSystems.Storage.FileAlone

/-! # Intermediate files from the writer to the reader

A map task writes its buckets to files, and reduce tasks read them. What is written is the JSON of
the pairs, so a reader gets them with their strings coerced to valid UTF-8.

* `wp_writeBucketsFrom` — the writer keeps to the rules of publishing files, and without an error it
  has published every bucket;
* `ensures_writeBucketsFrom` — so a map task that runs alone has stored every bucket;
* `Stored.readsBack` — what a reader gets from a stored bucket;
* `losesNothing_iff` — the files lose nothing exactly when all strings are valid UTF-8. -/

namespace DistributedSystems.MapReduce.TaskPrograms

open FileSystem
open Prog (Ensures)

variable {E : Env} {w : World}

/-- An intermediate file. -/
def Intermediate (E : Env) (l : Location) : Prop :=
  ∃ m b, l = E.locate (taskIntermediateFileName m b)

theorem intermediate_self (m : TaskID) (b : ℕ) :
    Intermediate E (E.locate (taskIntermediateFileName m b)) := ⟨m, b, rfl⟩

/-- A temporary file is no intermediate file. -/
theorem temp_not_intermediate {random : GoString} (hrandom : ∀ x ∈ random, 48 ≤ x ∧ x ≤ 57) :
    ¬ Intermediate E (E.locate (tempName [GoPath.dot] (.ofString "mr-bucket-*") random)) := by
  rintro ⟨m, b, h⟩
  exact temp_ne_intermediate hrandom m b h

/-! ## Writing -/

/-- Only the removal of the temporary name has failed. -/
def OnlyRemovesFailed (events : List (Event RpcCall)) : Prop :=
  ∀ e ∈ events, e.failed = true → ∃ path, e.op = .remove path

/-- A bucket was published under its name. -/
structure Written (E : Env) (m : TaskID) (b : ℕ) (keyValues : List KeyValue)
    (log : List (Entry RpcCall)) (events : List (Event RpcCall)) : Prop where
  /-- Its file was published with the records of the pairs. -/
  published : .published (E.locate (taskIntermediateFileName m b))
    (keyValues.flatMap encodeKeyValue) ∈ log
  /-- A file was renamed to its name. -/
  renamed : ∃ tmp, ⟨.rename tmp (taskIntermediateFileName m b), false⟩ ∈ events

variable {C : Contract RpcCall} {log : List (Entry RpcCall)}

/-- The records are written to the temporary file; without an error all of them are. -/
theorem wp_encodeLoop {tmp : OpenFile} {written : GoString} (hoffset : tmp.offset = written.length)
    (keyValues : List KeyValue) :
    wpEvents E C (encodeLoop tmp keyValues)
      (fun own log' events r => log' = log ∧ ∃ bytes, own = .holds tmp.name tmp.inode bytes ∧
        (r = none → bytes = written ++ keyValues.flatMap encodeKeyValue ∧
          ∀ e ∈ events, e.failed = false))
      (.holds tmp.name tmp.inode written) log := by
  induction keyValues generalizing tmp written with
  | nil => exact ⟨rfl, written, rfl, fun _ => by simp⟩
  | cons kv keyValues ih =>
      refine ⟨written, rfl, hoffset, ?_, fun err n hn => ?_⟩
      · have hoffset' : (tmp.advance (encodeKeyValue kv).length).offset =
            (written ++ encodeKeyValue kv).length := by
          simp [OpenFile.advance, hoffset]
        refine wpEvents_mono ?_ (ih hoffset')
        rintro own log' events r ⟨rfl, bytes, rfl, hr⟩
        refine ⟨rfl, bytes, rfl, fun hnone => ?_⟩
        obtain ⟨rfl, hevents⟩ := hr hnone
        exact ⟨by simp, List.forall_mem_cons.mpr ⟨rfl, hevents⟩⟩
      · exact ⟨rfl, _, rfl, fun h => absurd h (by simp)⟩

/-- Before the deferred call the temporary file is published as a whole, or kept with an error. -/
theorem wp_publishBucket {tmp : OpenFile} (hoffset : tmp.offset = 0) {filename : GoString}
    {keyValues : List KeyValue} (hvisible : C.visible (E.locate filename))
    (hpublishes : C.publishes (E.locate filename) (keyValues.flatMap encodeKeyValue)) :
    wpEvents E C (publishBucket tmp filename keyValues)
      (fun own log' events r =>
        (own = .spent tmp.name ∧
          log' = log ++ [.published (E.locate filename) (keyValues.flatMap encodeKeyValue)] ∧
          (∀ e ∈ events, e.failed = false) ∧ ⟨.rename tmp.name filename, false⟩ ∈ events) ∨
        (∃ bytes, own = .holds tmp.name tmp.inode bytes) ∧ log' = log ∧ r ≠ none)
      (.holds tmp.name tmp.inode []) log := by
  refine wpEvents_bind (wpEvents_mono ?_ (wp_encodeLoop hoffset keyValues))
  rintro own log' events r ⟨rfl, bytes, rfl, hr⟩
  cases r with
  | some err =>
      exact ⟨Or.inr ⟨⟨bytes, rfl⟩, rfl, by simp⟩, fun err' => Or.inr ⟨⟨bytes, rfl⟩, rfl, by simp⟩⟩
  | none =>
      obtain ⟨rfl, hevents⟩ := hr rfl
      refine ⟨⟨tmp.inode, _, rfl, hvisible, hpublishes, Or.inl ⟨rfl, rfl, ?_, ?_⟩, fun err => ?_⟩,
        fun err => ?_⟩
      · refine List.forall_mem_append.mpr ⟨hevents, ?_⟩
        simp [Op.failed]
      · simp [Op.failed]
      · exact Or.inr ⟨⟨_, rfl⟩, rfl, by simp⟩
      · exact Or.inr ⟨⟨_, rfl⟩, rfl, by simp⟩

/-- A bucket is published as a whole, or there is an error; nothing is left behind. -/
theorem wp_writeBucketToFile
    (hhidden : ∀ random : GoString, (∀ x ∈ random, 48 ≤ x ∧ x ≤ 57) →
      ¬ C.visible (E.locate (tempName [GoPath.dot] (.ofString "mr-bucket-*") random)))
    {m : TaskID} {b : ℕ} {keyValues : List KeyValue}
    (hvisible : C.visible (E.locate (taskIntermediateFileName m b)))
    (hpublishes : C.publishes (E.locate (taskIntermediateFileName m b))
      (keyValues.flatMap encodeKeyValue)) :
    wpEvents E C (writeBucketToFile m b keyValues)
      (fun own log' events r => own = .idle ∧ log ⊆ log' ∧
        (r = none → OnlyRemovesFailed events ∧ Written E m b keyValues log' events))
      .idle log := by
  unfold writeBucketToFile
  dsimp only
  rw [dir_intermediate]
  refine ⟨rfl, hhidden, fun err => ⟨rfl, List.Subset.refl _, fun h => absurd h (by simp)⟩,
    fun tmp hoffset => ?_⟩
  refine wpEvents_bind (p := publishBucket tmp _ keyValues)
    (wpEvents_mono ?_ (wp_publishBucket hoffset hvisible hpublishes))
  rintro own log' events r (⟨rfl, rfl, hevents, hrename⟩ | ⟨⟨bytes, rfl⟩, rfl, hr⟩)
  · -- the file was renamed: its temporary name is not found
    refine ⟨Or.inr rfl, fun err => ⟨rfl, ?_, fun _ => ⟨fun e he hfailed => ?_, ?_, tmp.name, ?_⟩⟩⟩
    · exact fun e he => List.mem_append_left _ (List.mem_append_left _ he)
    · rcases List.mem_cons.mp he with rfl | he
      · exact absurd hfailed (by simp [Op.failed])
      · rcases List.mem_append.mp he with he | he
        · exact absurd ((hevents e he).symm.trans hfailed) (by simp)
        · obtain rfl := List.mem_singleton.mp he
          exact ⟨_, rfl⟩
    · exact List.mem_append_left _ (List.mem_append_right _ (List.mem_singleton_self _))
    · exact List.mem_cons_of_mem _ (List.mem_append_left _ hrename)
  · refine ⟨Or.inl ⟨⟨tmp.inode, bytes, rfl⟩, rfl, List.Subset.refl _, fun h => absurd h hr⟩,
      fun err => ⟨rfl, List.subset_append_left _ _, fun h => absurd h hr⟩⟩

/-- The buckets are published one after the other; without an error all of them are. -/
theorem wp_writeBucketsFrom
    (hhidden : ∀ random : GoString, (∀ x ∈ random, 48 ≤ x ∧ x ≤ 57) →
      ¬ C.visible (E.locate (tempName [GoPath.dot] (.ofString "mr-bucket-*") random)))
    {m : TaskID} (hvisible : ∀ b, C.visible (E.locate (taskIntermediateFileName m b)))
    (buckets : List (List KeyValue)) {b : ℕ}
    (hpublishes : ∀ j keyValues, buckets[j]? = some keyValues →
      C.publishes (E.locate (taskIntermediateFileName m (b + j)))
        (keyValues.flatMap encodeKeyValue)) :
    wpEvents E C (writeBucketsFrom m b buckets)
      (fun own log' events r => own = .idle ∧ log ⊆ log' ∧
        (r = none → OnlyRemovesFailed events ∧
          ∀ j keyValues, buckets[j]? = some keyValues → Written E m (b + j) keyValues log' events))
      .idle log := by
  induction buckets generalizing b log with
  | nil =>
      refine ⟨rfl, List.Subset.refl _, fun _ => ⟨fun e he => absurd he List.not_mem_nil, ?_⟩⟩
      exact fun j _ hj => absurd hj (by simp)
  | cons keyValues buckets ih =>
      refine wpEvents_bind (wpEvents_mono ?_ (wp_writeBucketToFile hhidden (hvisible b)
        (hpublishes 0 keyValues rfl)))
      rintro own log' events r ⟨rfl, hsub, hr⟩
      cases r with
      | some err => exact ⟨rfl, hsub, fun h => absurd h (by simp)⟩
      | none =>
          obtain ⟨hevents, hwritten⟩ := hr rfl
          have hshift (j : ℕ) : b + 1 + j = b + (j + 1) := by omega
          refine wpEvents_mono ?_ (ih (b := b + 1) fun j keyValues' hj => ?_)
          rotate_left
          · rw [hshift]
            exact hpublishes (j + 1) keyValues' hj
          rintro own log'' events' r ⟨rfl, hsub', hr'⟩
          refine ⟨rfl, fun e he => hsub' (hsub he), fun hnone => ?_⟩
          obtain ⟨hevents', hwritten'⟩ := hr' hnone
          refine ⟨List.forall_mem_append.mpr ⟨hevents, hevents'⟩, fun j keyValues' hj => ?_⟩
          cases j with
          | zero =>
              obtain rfl := Option.some.inj hj
              obtain ⟨tmp, htmp⟩ := hwritten.renamed
              exact ⟨hsub' hwritten.published, tmp, List.mem_append_left _ htmp⟩
          | succ j =>
              rw [← hshift]
              obtain ⟨hpublished, tmp, htmp⟩ := hwritten' j keyValues' hj
              exact ⟨hpublished, tmp, List.mem_append_right _ htmp⟩

/-- The file of a bucket holds its pairs, and can be opened. -/
structure Stored (E : Env) (w : World) (m : TaskID) (b : ℕ) (keyValues : List KeyValue) :
    Prop where
  /-- Its name is taken by calls. -/
  named : E.bad (taskIntermediateFileName m b) = none
  /-- It is below directories. -/
  above : w.blocked (E.locate (taskIntermediateFileName m b)) = none
  /-- It has the records of the pairs. -/
  file : w.HasFile (E.locate (taskIntermediateFileName m b)) (keyValues.flatMap encodeKeyValue)

/-- What the writer of a map task may do when it runs alone: publish the buckets of the task. -/
def bucketContract (E : Env) (m : TaskID) (b : ℕ) (buckets : List (List KeyValue)) :
    Contract RpcCall where
  visible := Intermediate E
  publishes l bytes := ∀ j keyValues, buckets[j]? = some keyValues →
    l = E.locate (taskIntermediateFileName m (b + j)) → bytes = keyValues.flatMap encodeKeyValue
  mayCall _ _ := False

/-- A bucket may be published with its records. -/
theorem bucketContract_publishes {m : TaskID} {b j : ℕ} {buckets : List (List KeyValue)}
    {keyValues : List KeyValue} (hj : buckets[j]? = some keyValues) :
    (bucketContract E m b buckets).publishes (E.locate (taskIntermediateFileName m (b + j)))
      (keyValues.flatMap encodeKeyValue) := by
  intro j' keyValues' hj' hl
  obtain ⟨-, hb⟩ := locate_intermediate_injective hl
  obtain rfl : j = j' := Nat.add_left_cancel hb
  rw [Option.some.inj (hj.symm.trans hj')]

/-- Without an error every bucket is in its file, when the writer runs alone. -/
theorem ensures_writeBucketsFrom (m : TaskID) (buckets : List (List KeyValue)) (b : ℕ) :
    Ensures E w (writeBucketsFrom m b buckets) fun x => x.value = none →
      OnlyRemovesFailed x.events ∧
      ∀ j keyValues, buckets[j]? = some keyValues → Stored E x.world m (b + j) keyValues := by
  have hstart : Alone E (bucketContract E m b buckets) w .idle [] := .start
  intro outs x hrun hnone
  obtain ⟨own, log, ⟨-, -, hr⟩, halone⟩ := ensures_of_wpEvents
    (wp_writeBucketsFrom (fun _ => temp_not_intermediate) (intermediate_self m) buckets
      fun _ _ => bucketContract_publishes) hstart outs x hrun
  obtain ⟨hevents, hwritten⟩ := hr hnone
  refine ⟨hevents, fun j keyValues hj => ?_⟩
  obtain ⟨hpublished, tmp, hrenamed⟩ := hwritten j keyValues hj
  obtain ⟨-, habove, i, hlt, hnode, hdata, -⟩ := halone.published hpublished
  obtain ⟨w', hrefuses⟩ := Prog.ensures_not_refused _ w outs x hrun _ hrenamed rfl
  simp only [World.refuses, Option.or_eq_none_iff] at hrefuses
  exact ⟨hrefuses.1.1.2, habove, i, hlt, hnode, hdata j keyValues hj rfl⟩

/-! ## Reading -/

/-- Unless a call fails, `readBucketFile` returns the pairs. -/
structure ReadsBack (E : Env) (w : World) (m : TaskID) (b : ℕ) (keyValues : List KeyValue) :
    Prop where
  /-- The calls can succeed. -/
  runs : ∃ outs y, (readBucketFile m b).run E w outs = some y ∧ ∀ e ∈ y.events, e.failed = false
  /-- If they do, it returns the pairs. -/
  value : Ensures E w (readBucketFile m b) fun y =>
    (∀ e ∈ y.events, e.failed = false) → y.value = .ok keyValues

/-- At most one list of pairs is returned. -/
theorem ReadsBack.unique {m : TaskID} {b : ℕ} {keyValues keyValues' : List KeyValue}
    (h : ReadsBack E w m b keyValues) (h' : ReadsBack E w m b keyValues') :
    keyValues = keyValues' := by
  obtain ⟨outs, y, hrun, hok⟩ := h.runs
  exact Except.ok.inj ((h.value outs y hrun hok).symm.trans (h'.value outs y hrun hok))

/-- **What a reader gets from a stored bucket**: its pairs, coerced to valid UTF-8. -/
theorem Stored.readsBack {m : TaskID} {b : ℕ} {keyValues : List KeyValue}
    (h : Stored E w m b keyValues) : ReadsBack E w m b (keyValues.map coerce) := by
  obtain ⟨i, -, hnode, hdata⟩ := h.file
  have hsuccess : success (Q := RpcCall) (R := Answer) E w
      (.openFile (taskIntermediateFileName m b)) .done =
      some (.ok ⟨taskIntermediateFileName m b, i, 0⟩, w) := by
    simp [success, World.openAt, hnode]
  have hvalue : decodeBucket (taskIntermediateFileName m b) (.ok ((w.data i).drop 0)) =
      .ok (keyValues.map coerce) := by
    rw [List.drop_zero, hdata, decodeBucket, decodeKeyValues_encode]
  constructor
  · have hrefuses : w.refuses E (.openFile (taskIntermediateFileName m b) : Op RpcCall) = none := by
      refine Option.or_eq_none_iff.mpr ⟨h.named, ?_⟩
      exact w.missing_eq_none.mpr ⟨h.above, i, hnode⟩
    have hopen := (perform_done hrefuses).trans hsuccess
    refine ⟨[.done, .done, .done], _,
      Prog.run_op hopen (Prog.run_op rfl (Prog.run_op rfl rfl)), ?_⟩
    simp [Outcome.failed]
  · refine Ensures.op fun out r w₁ hopen => ?_
    by_cases hout : out.failed = false
    · obtain ⟨rfl, rfl⟩ := Prod.mk.inj (Option.some.inj
        (hsuccess.symm.trans (success_of_not_failed rfl hout hopen)))
      refine Ensures.op fun out r w₁ hread => Ensures.op fun out' r' w₂ _ => Ensures.ret ?_
      intro hok
      have hout := hok _ (List.mem_cons_of_mem _ List.mem_cons_self)
      obtain ⟨rfl, -⟩ := Prod.mk.inj (Option.some.inj (success_of_not_failed rfl hout hread))
      exact hvalue
    · exact fun outs y _ hok => absurd (hok _ List.mem_cons_self) hout

/-! ## Buckets -/

/-- **The intermediate files of a map task lose nothing.** -/
structure LosesNothing (E : Env) (w : World) (m : TaskID) (n : ℕ) (keyValues : List KeyValue) :
    Prop where
  /-- Every bucket is read as it was made. -/
  bucket : ∀ b bucket, (bucketContents ihash keyValues n)[b]? = some bucket →
    ReadsBack E w m b bucket
  /-- A key that is read from a bucket belongs there. -/
  hash : ∀ b < n, ∀ bucket, ReadsBack E w m b bucket → ∀ kv ∈ bucket, ihash kv.key % n = b
  /-- No key is in two buckets. -/
  disjoint : ∀ b < n, ∀ c < n, ∀ bucket bucket',
    ReadsBack E w m b bucket → ReadsBack E w m c bucket' →
      ∀ kv ∈ bucket, ∀ kv' ∈ bucket', kv.key = kv'.key → b = c

/-- **When the intermediate files lose nothing**: exactly when every string is valid UTF-8. -/
theorem losesNothing_iff {m : TaskID} {n : ℕ} (hn : 0 < n) {keyValues : List KeyValue}
    {outs : List (Outcome Answer)} {x : Run RpcCall (Option GoString)}
    (hrun : (writeBucketsToFiles m (bucketContents ihash keyValues n)).run E w outs = some x)
    (hvalue : x.value = none) :
    LosesNothing E x.world m n keyValues ↔
      ∀ kv ∈ keyValues, Utf8.valid kv.key = true ∧ Utf8.valid kv.value = true := by
  obtain ⟨-, hstored⟩ := ensures_writeBucketsFrom m _ 0 outs x hrun hvalue
  have hreads {b : ℕ} (hb : b < n) :
      ReadsBack E x.world m b ((inBucket ihash n b keyValues).map coerce) := by
    have h := (hstored b _ (bucketContents_getElem? ihash keyValues hb)).readsBack
    rwa [Nat.zero_add] at h
  constructor
  · intro h kv hkv
    -- the pair is in its bucket, and the bucket is read back unchanged
    have hb : ihash kv.key % n < n := Nat.mod_lt _ hn
    have hbucket := h.bucket _ _ (bucketContents_getElem? ihash keyValues hb)
    have hself := ((hreads hb).unique hbucket).trans (List.map_id _).symm
    have hmem : kv ∈ inBucket ihash n (ihash kv.key % n) keyValues := by
      simp [inBucket, hkv]
    exact coerce_eq_self.mp (List.map_inj_left.mp hself kv hmem)
  · intro hvalid
    have hself (b : ℕ) :
        (inBucket ihash n b keyValues).map coerce = inBucket ihash n b keyValues := by
      refine (List.map_congr_left fun kv hkv => coerce_eq_self.mpr ?_).trans (List.map_id' _)
      exact hvalid kv (List.mem_of_mem_filter hkv)
    have hhash (b : ℕ) (hb : b < n) (bucket : List KeyValue)
        (hbucket : ReadsBack E x.world m b bucket) (kv : KeyValue) (hkv : kv ∈ bucket) :
        ihash kv.key % n = b := by
      rw [hbucket.unique (hreads hb), hself] at hkv
      simpa using List.of_mem_filter hkv
    refine ⟨fun b bucket hbucket => ?_, hhash, ?_⟩
    · have hb : b < n := by
        have hlt := (List.getElem?_eq_some_iff.mp hbucket).1
        rwa [length_bucketContents] at hlt
      rw [bucketContents_getElem? ihash keyValues hb] at hbucket
      rw [← Option.some.inj hbucket, ← hself]
      exact hreads hb
    · intro b hb c hc bucket bucket' hbucket hbucket' kv hkv kv' hkv' hkey
      rw [← hhash b hb bucket hbucket kv hkv, hkey, hhash c hc bucket' hbucket' kv' hkv']

/-- Pairs of three keys; the second key has a bucket of its own. -/
def examplePairs : List KeyValue :=
  [⟨.ofString "a", .ofString "1"⟩, ⟨.ofString "b", .ofString "2"⟩, ⟨.ofString "a", .ofString "3"⟩,
    ⟨.ofString "c", .ofString "4"⟩]

/-- The buckets of valid keys are read back. -/
theorem losesNothing_iff_valid : ∃ x,
    (writeBucketsToFiles 0 (bucketContents ihash examplePairs 2)).run exampleDirectory emptyDirectory
      [.temp (.ofString "0"), .done, .done, .done, .done, .done, .fail .noEntry 0,
        .temp (.ofString "1"), .done, .done, .done, .fail .noEntry 0] = some x ∧
    LosesNothing exampleDirectory x.world 0 2 examplePairs := by
  have hrun : ((writeBucketsToFiles 0 (bucketContents ihash examplePairs 2)).run exampleDirectory
      emptyDirectory
      [.temp (.ofString "0"), .done, .done, .done, .done, .done, .fail .noEntry 0,
        .temp (.ofString "1"), .done, .done, .done, .fail .noEntry 0]).map (·.value) =
      some none := by
    decide +kernel
  obtain ⟨x, hx, hvalue⟩ := Option.map_eq_some_iff.mp hrun
  exact ⟨x, hx, (losesNothing_iff Nat.two_pos hx hvalue).mpr (by decide)⟩

/-- A key that is not valid UTF-8, and the key that it is read as. -/
def exampleKeys : List KeyValue :=
  [⟨[0xff], .ofString "1"⟩, ⟨[0xef, 0xbf, 0xbd], .ofString "1"⟩]

/-- **A key in two buckets**: the two keys hash to different buckets, and are read as the same. -/
theorem key_in_two_buckets : ∃ x,
    (writeBucketsToFiles 0 (bucketContents ihash exampleKeys 3)).run exampleDirectory emptyDirectory
      [.temp (.ofString "0"), .done, .done, .fail .noEntry 0,
        .temp (.ofString "1"), .done, .done, .done, .fail .noEntry 0,
        .temp (.ofString "2"), .done, .done, .done, .fail .noEntry 0] = some x ∧ x.value = none ∧
    ReadsBack exampleDirectory x.world 0 1 [⟨[0xef, 0xbf, 0xbd], .ofString "1"⟩] ∧
    ReadsBack exampleDirectory x.world 0 2 [⟨[0xef, 0xbf, 0xbd], .ofString "1"⟩] ∧
    ¬ LosesNothing exampleDirectory x.world 0 3 exampleKeys := by
  have hrun : ((writeBucketsToFiles 0 (bucketContents ihash exampleKeys 3)).run exampleDirectory
      emptyDirectory
      [.temp (.ofString "0"), .done, .done, .fail .noEntry 0,
        .temp (.ofString "1"), .done, .done, .done, .fail .noEntry 0,
        .temp (.ofString "2"), .done, .done, .done, .fail .noEntry 0]).map (·.value) =
      some none := by
    decide +kernel
  obtain ⟨x, hx, hvalue⟩ := Option.map_eq_some_iff.mp hrun
  obtain ⟨-, hstored⟩ := ensures_writeBucketsFrom 0 _ 0 _ x hx hvalue
  have hone := (hstored 1 [⟨[0xef, 0xbf, 0xbd], .ofString "1"⟩] (by decide)).readsBack
  have htwo := (hstored 2 [⟨[0xff], .ofString "1"⟩] (by decide)).readsBack
  refine ⟨x, hx, hvalue, hone, htwo, fun h => ?_⟩
  have hsame := h.disjoint 1 (by decide) 2 (by decide) _ _ hone htwo _ (List.mem_singleton_self _) _
    (List.mem_singleton_self _) (by decide)
  exact absurd hsame (by decide)

end DistributedSystems.MapReduce.TaskPrograms
