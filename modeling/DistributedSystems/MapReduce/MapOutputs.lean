import DistributedSystems.MapReduce.IntermediateFiles
import DistributedSystems.Storage.FilePoolSafety

/-! # Map outputs are complete before they are announced

Any number of workers share a directory: they execute map tasks, also the same one several times,
and read buckets, one file operation at a time. Every operation may fail, and a worker may crash
between two of them. The programs keep to the discipline of publishing files by a rename
(`mapOutputs`), and `mapOutputs_atomic` says what follows for the intermediate files. -/

namespace DistributedSystems.MapReduce.TaskPrograms

open FileSystem

/-! ## What workers do with the directory -/

/-- The execution of a map task. -/
structure MapExecution where
  /-- The worker. -/
  context : Context
  /-- The reply of the coordinator. -/
  reply : TaskReply
  /-- Its task. -/
  task : Task
  /-- The data of the task. -/
  data : MapTaskData
  /-- The reply assigns the map task. -/
  isMap : MapReduce.executeTask reply = .runMapTask task data

namespace MapExecution

variable (x : MapExecution)

/-- The buckets that the execution writes. -/
def buckets : List (List KeyValue) :=
  bucketContents ihash (x.context.mapf x.data.key x.data.content) x.data.buckets

/-- The pairs of one bucket. -/
def bucket (b : ℕ) : List KeyValue := x.buckets[b]?.getD []

end MapExecution

/-- What a worker does with the directory. -/
inductive Access
  /-- It executes a map task. -/
  | execute (x : MapExecution)
  /-- It reads a bucket, for itself or for another worker. -/
  | read (taskID : TaskID) (bucket : ℕ)

/-- What it returns. -/
inductive AccessResult
  /-- The error of `executeTask`. -/
  | executed (err : Option GoString)
  /-- The result of `readBucketFile`. -/
  | read (result : Except GoString (List KeyValue))

/-- Its program. -/
def Access.prog : Access → WorkerProg AccessResult
  | .execute x => do
      let err ← executeTask x.context x.reply
      pure (.executed err)
  | .read taskID bucket => do
      let result ← readBucketFile taskID bucket
      pure (.read result)

variable (E : Env)

/-- What an execution publishes: the complete buckets of its task. -/
def Publishes : Access → Location → GoString → Prop
  | .execute x, l, bytes => ∃ b < x.data.buckets,
      l = E.locate (taskIntermediateFileName x.task.id b) ∧
        bytes = (x.bucket b).flatMap encodeKeyValue
  | .read .., _, _ => False

/-- What is sent: the completion of the task, once all its buckets are published. -/
def MayCall : Access → List (Entry RpcCall) → RpcCall → Prop
  | .execute x, log, request =>
      request = .reportTaskCompletion ⟨x.task, x.context.workerAddress⟩ ∧
        ∀ b < x.data.buckets, .published (E.locate (taskIntermediateFileName x.task.id b))
          ((x.bucket b).flatMap encodeKeyValue) ∈ log
  | .read .., _, _ => False

/-- What is returned: a bucket is decoded from what was read of its file. -/
def Returns : Access → List (Entry RpcCall) → AccessResult → Prop
  | .read taskID bucket, log, .read (.ok keyValues) =>
      ∃ bytes, .read (E.locate (taskIntermediateFileName taskID bucket)) bytes ∈ log ∧
        decodeKeyValues bytes = some keyValues
  | _, _, _ => True

variable {E} {C : Contract RpcCall} {log : List (Entry RpcCall)}

/-! ## The programs keep to the rules -/

/-- A bucket that was read is decoded from its file. -/
theorem wp_readBucketFile {m : TaskID} {b : ℕ} :
    wp E C (readBucketFile m b)
      (fun own log' r => own = .idle ∧ ∀ keyValues, r = .ok keyValues →
        ∃ bytes, .read (E.locate (taskIntermediateFileName m b)) bytes ∈ log' ∧
          decodeKeyValues bytes = some keyValues)
      .idle log := by
  have hend {log' : List (Entry RpcCall)} {bytes : Except FileError GoString}
      (h : ∀ contents, bytes = .ok contents →
        .read (E.locate (taskIntermediateFileName m b)) contents ∈ log') :
      Own.idle = .idle ∧ ∀ keyValues,
        decodeBucket (taskIntermediateFileName m b) bytes = .ok keyValues →
          ∃ bytes, .read (E.locate (taskIntermediateFileName m b)) bytes ∈ log' ∧
            decodeKeyValues bytes = some keyValues := by
    refine ⟨rfl, fun keyValues hok => ?_⟩
    obtain ⟨contents, hcontents, hdecode⟩ := decodeBucket_eq_ok hok
    exact ⟨contents, h contents hcontents, hdecode⟩
  refine ⟨rfl, fun err => ⟨rfl, fun _ h => absurd h (by simp)⟩, fun file hname _ => ⟨rfl,
    fun err => ?_, fun bytes => ?_⟩⟩
  · exact ⟨hend fun _ h => absurd h (by simp), fun _ => hend fun _ h => absurd h (by simp)⟩
  · have hread (contents : GoString) (h : Except.ok (ε := FileError) bytes = .ok contents) :
        .read (E.locate (taskIntermediateFileName m b)) contents ∈
          log ++ [.read (E.locate file.name) bytes] := by
      rw [hname, Except.ok.inj h]
      exact List.mem_append_right _ (List.mem_singleton_self _)
    exact ⟨hend hread, fun _ => hend hread⟩

/-! ## Atomic map outputs -/

/-- An execution of a map task publishes its buckets, and announces them when all are published. -/
theorem wp_execute (x : MapExecution) :
    wp E ⟨Intermediate E, Publishes E (.execute x), MayCall E (.execute x)⟩
      (executeTask x.context x.reply) (fun own _ _ => own = .idle) .idle [] := by
  have hbucket {b : ℕ} {keyValues : List KeyValue} (h : x.buckets[b]? = some keyValues) :
      b < x.data.buckets ∧ keyValues = x.bucket b := by
    obtain ⟨hlt, -⟩ := List.getElem?_eq_some_iff.mp h
    rw [MapExecution.buckets, length_bucketContents] at hlt
    exact ⟨hlt, by rw [MapExecution.bucket, h]; rfl⟩
  unfold executeTask
  rw [x.isMap]
  refine wp_bind ?_
  unfold runMapTask
  dsimp only
  split
  · exact rfl
  · refine wpEvents_mono ?_ (wp_writeBucketsFrom (fun _ => temp_not_intermediate)
      (intermediate_self _) x.buckets fun j keyValues hj => ?_)
    · rintro own log events r ⟨rfl, -, hr⟩
      cases r with
      | some err => exact rfl
      | none =>
          refine ⟨⟨rfl, fun b hb => ?_⟩, fun _ => rfl⟩
          have hlt : b < x.buckets.length := by
            rw [MapExecution.buckets, length_bucketContents]
            exact hb
          have hpublished := ((hr rfl).2 b _ (List.getElem?_eq_getElem hlt)).published
          rw [(hbucket (List.getElem?_eq_getElem hlt)).2, Nat.zero_add] at hpublished
          exact hpublished
    · obtain ⟨hlt, rfl⟩ := hbucket hj
      exact ⟨j, hlt, by rw [Nat.zero_add], rfl⟩

/-- The workers of a directory as a discipline of publishing files. -/
def mapOutputs (E : Env) : Discipline E RpcCall Answer Access AccessResult where
  visible := Intermediate E
  prog := Access.prog
  publishes := Publishes E
  mayCall := MayCall E
  returns := Returns E
  safe job := by
    cases job with
    | execute x => exact wp_bind (wp_mono (fun own log err h => ⟨h, trivial⟩) (wp_execute x))
    | read taskID bucket =>
        refine wp_bind (wp_mono ?_ wp_readBucketFile)
        rintro own log r ⟨rfl, hr⟩
        cases r with
        | error err => exact ⟨rfl, trivial⟩
        | ok keyValues => exact ⟨rfl, hr keyValues rfl⟩

/-- The pairs are a complete bucket of an execution of a map task. -/
def BucketOf (s : Pool RpcCall Answer Access AccessResult) (m : TaskID) (b : ℕ)
    (keyValues : List KeyValue) : Prop :=
  ∃ i t x, s.threads i = some t ∧ t.job = .execute x ∧ x.task.id = m ∧ b < x.data.buckets ∧
    keyValues = x.bucket b

/-- What is published for a bucket is a complete bucket. -/
theorem bucketOf_of_publishes {s : Pool RpcCall Answer Access AccessResult} {i : ℕ}
    {t : Thread RpcCall Answer Access AccessResult} (ht : s.threads i = some t) {m : TaskID} {b : ℕ}
    {bytes : GoString} (h : Publishes E t.job (E.locate (taskIntermediateFileName m b)) bytes) :
    ∃ keyValues, BucketOf s m b keyValues ∧ bytes = keyValues.flatMap encodeKeyValue := by
  cases hjob : t.job with
  | read =>
      rw [hjob] at h
      exact False.elim h
  | execute x =>
      rw [hjob] at h
      obtain ⟨b', hb', hl, rfl⟩ := h
      obtain ⟨rfl, rfl⟩ := locate_intermediate_injective hl
      exact ⟨_, ⟨i, t, x, ht, hjob, rfl, hb', rfl⟩, rfl⟩

/-- **Map outputs are atomic and complete before they are announced.** In every run of any number
of workers that execute map tasks and read buckets in one directory, which has no intermediate
files at the start:

* every intermediate file holds a complete bucket of one execution of its task;
* a bucket that is read is a complete bucket of one execution, with its strings coerced to valid
  UTF-8 by the encoding;
* once the completion of a task is reported, all its files are there, and they stay there and stay
  complete. -/
theorem mapOutputs_atomic {w₀ : World} (hfresh : w₀.Fresh)
    (hinit : ∀ m b, w₀.content (E.locate (taskIntermediateFileName m b)) = none) :
    (∀ s m b bytes, (pool E Access.prog w₀).Reachable s →
      s.world.content (E.locate (taskIntermediateFileName m b)) = some bytes →
        ∃ keyValues, BucketOf s m b keyValues ∧ bytes = keyValues.flatMap encodeKeyValue) ∧
    (∀ s i t m b read, (pool E Access.prog w₀).Reachable s → s.threads i = some t →
      t.job = .read m b → t.rest = .ret (.read (.ok read)) →
        ∃ keyValues, BucketOf s m b keyValues ∧ read = keyValues.map coerce) ∧
    (∀ s i t args as s', (pool E Access.prog w₀).Reachable s → s.threads i = some t →
      .called (.reportTaskCompletion args) ∈ t.log →
      (pool E Access.prog w₀).exec s as = some s' →
        ∃ x, t.job = .execute x ∧ args.task = x.task ∧ ∀ b < x.data.buckets,
          ∃ keyValues, BucketOf s' x.task.id b keyValues ∧
            s'.world.content (E.locate (taskIntermediateFileName x.task.id b)) =
              some (keyValues.flatMap encodeKeyValue)) := by
  have hcomplete (s m b bytes) (hs : (pool E Access.prog w₀).Reachable s)
      (hcontent : s.world.content (E.locate (taskIntermediateFileName m b)) = some bytes) :
      ∃ keyValues, BucketOf s m b keyValues ∧ bytes = keyValues.flatMap encodeKeyValue := by
    rcases (mapOutputs E).content_published hfresh hs ⟨m, b, rfl⟩ hcontent with
      h | ⟨i, t, ht, -, hpublishes⟩
    · exact absurd ((hinit m b).symm.trans h) (by simp)
    · exact bucketOf_of_publishes ht hpublishes
  refine ⟨hcomplete, ?_, ?_⟩
  · intro s i t m b read hs ht hjob hrest
    have hreturns := (mapOutputs E).returned hfresh hs ht hrest
    rw [hjob] at hreturns
    obtain ⟨bytes, hread, hdecode⟩ := hreturns
    rcases (mapOutputs E).read_published hfresh hs ht hread ⟨m, b, rfl⟩ with
      h | ⟨j, t', ht', -, hpublishes⟩
    · exact absurd ((hinit m b).symm.trans h) (by simp)
    · obtain ⟨keyValues, hbucket, rfl⟩ := bucketOf_of_publishes ht' hpublishes
      rw [decodeKeyValues_encode] at hdecode
      exact ⟨keyValues, hbucket, (Option.some.inj hdecode).symm⟩
  · intro s i t args as s' hs ht hcalled has
    obtain ⟨before, hbefore, hmay⟩ := (mapOutputs E).called_allowed hfresh hs ht hcalled
    cases hjob : t.job with
    | read =>
        rw [hjob] at hmay
        exact False.elim hmay
    | execute x =>
        rw [hjob] at hmay
        obtain ⟨hargs, hpublished⟩ := hmay
        obtain rfl := RpcCall.reportTaskCompletion.inj hargs
        refine ⟨x, rfl, rfl, fun b hb => ?_⟩
        -- what was published stays in the log, and its file in the directory
        obtain ⟨t', ht', -, hlog⟩ := Pool.exec_thread has ht
        have hs' := hs.exec has
        obtain ⟨-, bytes, hcontent⟩ := (mapOutputs E).published_stays hfresh hs' ht'
          (hlog.subset (hbefore.subset (hpublished b hb)))
        obtain ⟨keyValues, hbucket, rfl⟩ := hcomplete s' x.task.id b bytes hs' hcontent
        exact ⟨keyValues, hbucket, hcontent⟩

/-- An execution of map task 0, with one bucket. -/
def exampleExecution : MapExecution where
  context := exampleContext
  reply := ⟨some ⟨0, .map, .none, 0⟩, some ⟨.ofString "in", [], 1⟩, none⟩
  task := ⟨0, .map, .none, 0⟩
  data := ⟨.ofString "in", [], 1⟩
  isMap := rfl

/-- Two executions of the same task at the same time: the first one is announced, the second one
crashes while it writes, and a worker reads the bucket. -/
def exampleAccesses : List (Label Answer Access) :=
  [.start 0 (.execute exampleExecution), .start 1 (.execute exampleExecution), .start 2 (.read 0 0),
    .step 0 (.temp (.ofString "1")), .step 0 .done, .step 1 (.temp (.ofString "2")), .step 0 .done,
    .step 1 (.fail ⟨.other, .ofString "no space left on device"⟩ 3), .crash 1, .step 0 .done,
    .step 0 (.fail .noEntry 0), .step 0 (.answer none), .step 2 .done, .step 2 .done, .step 2 .done]

/-- The file of the bucket is complete. -/
theorem mapOutputs_atomic_two : emptyDirectory.Fresh ∧
    (∀ m b, emptyDirectory.content (exampleDirectory.locate (taskIntermediateFileName m b)) =
      none) ∧
    ∃ s, (pool exampleDirectory Access.prog emptyDirectory).Reachable s ∧
      s.world.content (exampleDirectory.locate (taskIntermediateFileName 0 0)) =
        some (encodeKeyValue ⟨.ofString "a", .ofString "1"⟩) ∧
      ∃ keyValues, BucketOf s 0 0 keyValues ∧
        encodeKeyValue ⟨.ofString "a", .ofString "1"⟩ = keyValues.flatMap encodeKeyValue := by
  have hnode (l : Location) (i : ℕ) : emptyDirectory.node l ≠ some (.file i) := by
    unfold emptyDirectory
    dsimp only
    split
    · simp
    · simp
  have hfresh : emptyDirectory.Fresh := ⟨rfl, fun {l i} h => absurd h (hnode l i)⟩
  have hinit (m : TaskID) (b : ℕ) :
      emptyDirectory.content (exampleDirectory.locate (taskIntermediateFileName m b)) = none := by
    unfold World.content
    split
    · next i h => exact absurd h (hnode _ i)
    · rfl
  have hrun : ((pool exampleDirectory Access.prog emptyDirectory).exec { world := emptyDirectory }
      exampleAccesses).map
        (fun s => s.world.content (exampleDirectory.locate (taskIntermediateFileName 0 0))) =
      some (some (encodeKeyValue ⟨.ofString "a", .ofString "1"⟩)) := by
    decide +kernel
  obtain ⟨s, hs, hcontent⟩ := Option.map_eq_some_iff.mp hrun
  have hreachable : (pool exampleDirectory Access.prog emptyDirectory).Reachable s :=
    ⟨exampleAccesses, hs⟩
  exact ⟨hfresh, hinit, s, hreachable, hcontent,
    (mapOutputs_atomic hfresh hinit).1 s 0 0 _ hreachable hcontent⟩

end DistributedSystems.MapReduce.TaskPrograms
