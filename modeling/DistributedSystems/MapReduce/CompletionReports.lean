import DistributedSystems.MapReduce.IntermediateFiles

/-! # Completion reports and the output of a task

A worker executes one task, and any of its file operations may fail. The writer of intermediate
files checks every operation, so a map task is reported only with its complete output. The writer
of `mr-out-*` files checks only the creation: a record that is not written, or a close that fails,
is not noticed, and the task is reported all the same.

* `ReportsFaithfully` — a report is sent only with the complete output, and after a failure there is
  an error and no report;
* `reportsFaithfully_iff` — an execution is faithful exactly when no record of the output file of a
  reduce task is lost and its close does not fail. -/

namespace DistributedSystems.MapReduce.TaskPrograms

open FileSystem
open Prog (Ensures)
open Std (TreeMap)

variable {E : Env} {w : World} {W : Context}

/-! ## What an execution has done -/

/-- The operation writes or finalises an output file. Every file that a task reads is an
intermediate file. -/
def IsOutput : Op RpcCall → Prop
  | .createTemp .. | .create .. | .write .. | .rename .. => True
  | .close f => ∀ m b, f.name ≠ taskIntermediateFileName m b
  | _ => False

/-- The operation writes a record to the output file of a reduce task, or closes it. -/
def IsRecord (bucket : ℕ) : Op RpcCall → Prop
  | .write .. => True
  | .close f => f.name = reduceOutputFileName bucket
  | _ => False

instance (bucket : ℕ) : DecidablePred (IsRecord bucket)
  | .write .. => isTrue trivial
  | .close f => inferInstanceAs (Decidable (f.name = reduceOutputFileName bucket))
  | .createTemp .. | .create .. | .openFile .. | .sync .. | .readAll .. | .rename .. | .remove ..
  | .stat .. | .call .. => isFalse id

/-- An operation on the output file is an output operation. -/
theorem IsRecord.isOutput {bucket : ℕ} {o : Op RpcCall} (h : IsRecord bucket o) : IsOutput o := by
  cases o with
  | write => trivial
  | close f =>
      intro m b hname
      exact output_ne_intermediate bucket b m (h.symm.trans hname)
  | _ => exact False.elim h

variable {α : Type}

/-- The completion of the task was reported. -/
def Reported (x : Run RpcCall α) : Prop :=
  ∃ e ∈ x.events, ∃ args, e.op = .call (.reportTaskCompletion args)

/-- An output operation has failed. -/
def OutputFailed (x : Run RpcCall α) : Prop := ∃ e ∈ x.events, IsOutput e.op ∧ e.failed = true

/-- The file of a reduce task holds what the task computes from the pairs that it has fetched. The
fetches are the first calls of the execution, and `outs` are the outcomes of its calls. -/
def ReducesFetched (E : Env) (w : World) (W : Context) (data : ReduceTaskData)
    (outs : List (Outcome Answer)) (w' : World) : Prop :=
  ∃ fetches y mappedContents, fetches <+: outs ∧
    (fetchLoop W data.bucket (W.outputOrder data.mapTaskOutputs) []).run E w fetches = some y ∧
    y.value = .ok mappedContents ∧
    w'.content (E.locate (reduceOutputFileName data.bucket)) =
      some ((reducedOf W mappedContents).flatMap formatLine)

/-- The output of the task is complete: the files of a map task hold its buckets, and the file of
a reduce task holds what it computes from the pairs that it has fetched. -/
def OutputComplete (E : Env) (w : World) (W : Context) (reply : TaskReply)
    (outs : List (Outcome Answer)) (x : Run RpcCall α) : Prop :=
  match MapReduce.executeTask reply with
  | .runMapTask task data =>
      ∀ b < data.buckets, x.world.content (E.locate (taskIntermediateFileName task.id b)) =
        some (((bucketContents ihash (W.mapf data.key data.content)
          data.buckets)[b]?.getD []).flatMap encodeKeyValue)
  | .runReduceTask _ data => ReducesFetched E w W data outs x.world
  | _ => True

/-- **The execution reports faithfully.** -/
structure ReportsFaithfully (E : Env) (w : World) (W : Context) (reply : TaskReply)
    (outs : List (Outcome Answer)) (x : Run RpcCall (Option GoString)) : Prop where
  /-- The completion is reported only when every output operation has succeeded and the output is
  complete. -/
  reported : Reported x → ¬ OutputFailed x ∧ OutputComplete E w W reply outs x
  /-- When an output operation fails, there is an error and no report. -/
  failed : OutputFailed x → x.value ≠ none ∧ ¬ Reported x

/-! ## Map tasks -/

/-- Without an error a map task has its complete output, and no output operation has failed. -/
theorem ensures_runMapTask (task : Task) (data : MapTaskData) :
    Ensures E w (runMapTask W task data) fun x => x.value = none →
      OnlyRemovesFailed x.events ∧
      ∀ b < data.buckets, x.world.content (E.locate (taskIntermediateFileName task.id b)) =
        some (((bucketContents ihash (W.mapf data.key data.content)
          data.buckets)[b]?.getD []).flatMap encodeKeyValue) := by
  unfold runMapTask
  dsimp only
  split
  · exact Ensures.ret fun h => absurd h (by simp)
  · refine (ensures_writeBucketsFrom task.id _ 0).mono fun x hx hnone => ?_
    obtain ⟨hevents, hfiles⟩ := hx hnone
    refine ⟨hevents, fun b hb => ?_⟩
    have hbucket := bucketContents_getElem? ihash (W.mapf data.key data.content) hb
    have hfile := hfiles b _ hbucket
    rw [Nat.zero_add] at hfile
    rw [hfile.file.content, hbucket, Option.getD_some]

/-! ## Who sends reports -/

/-- The operation is no completion report. -/
def Silent (o : Op RpcCall) : Prop := ∀ args, o ≠ .call (.reportTaskCompletion args)

instance : DecidablePred Silent
  | .call (.reportTaskCompletion args) => isFalse fun h => h args rfl
  | .call (.reportMissingMapOutputs _) | .call (.fetchBucket ..) => isTrue (by simp [Silent])
  | .createTemp .. | .create .. | .openFile .. | .write .. | .sync .. | .close .. | .readAll ..
  | .rename .. | .remove .. | .stat .. => isTrue (by simp [Silent])

theorem silent_encodeLoop (tmp : OpenFile) (keyValues : List KeyValue) :
    (encodeLoop tmp keyValues).All Silent := by
  induction keyValues generalizing tmp with
  | nil => trivial
  | cons kv keyValues ih =>
      refine ⟨by simp [Silent], fun r => ?_⟩
      rcases r with ⟨n, err | _⟩
      · exact ih _
      · trivial

theorem silent_writeBucketsFrom (m : TaskID) (buckets : List (List KeyValue)) (b : ℕ) :
    (writeBucketsFrom m b buckets).All Silent := by
  have hbucket (b : ℕ) (keyValues : List KeyValue) :
      (writeBucketToFile m b keyValues).All Silent := by
    refine ⟨by simp [Silent], fun r => ?_⟩
    rcases r with err | tmp
    · trivial
    · refine Prog.All.bind (p := publishBucket tmp _ keyValues)
        (Prog.All.bind (silent_encodeLoop tmp keyValues) fun r => ?_)
        fun r => ⟨by simp [Silent], fun _ => trivial⟩
      cases r with
      | some err => exact ⟨by simp [Silent], fun _ => trivial⟩
      | none =>
          refine ⟨by simp [Silent], fun r => ?_⟩
          cases r with
          | some err => trivial
          | none =>
              refine ⟨by simp [Silent], fun r => ?_⟩
              cases r with
              | some err => trivial
              | none => trivial
  induction buckets generalizing b with
  | nil => trivial
  | cons keyValues buckets ih =>
      refine Prog.All.bind (hbucket b keyValues) fun r => ?_
      cases r with
      | some err => trivial
      | none => exact ih (b + 1)

theorem silent_runMapTask (task : Task) (data : MapTaskData) :
    (runMapTask W task data).All Silent := by
  unfold runMapTask
  dsimp only
  split
  · trivial
  · exact silent_writeBucketsFrom _ _ _

theorem silent_fetchLoop (bucket : ℕ) (outputs : List (TaskID × GoString))
    (mappedContents : List KeyValue) : (fetchLoop W bucket outputs mappedContents).All Silent := by
  induction outputs generalizing mappedContents with
  | nil => trivial
  | cons output outputs ih =>
      obtain ⟨mapTaskID, producerAddress⟩ := output
      refine Prog.All.bind (p := fetchOutput W bucket mapTaskID producerAddress) ?_
        fun fetched => ?_
      · unfold fetchOutput
        split
        · refine ⟨by simp [Silent], fun r => ?_⟩
          rcases r with err | file
          · trivial
          · exact ⟨by simp [Silent], fun r => ⟨by simp [Silent], fun _ => trivial⟩⟩
        · refine ⟨by simp [Silent], fun r => ?_⟩
          cases r with
          | none => trivial
          | some keyValues => trivial
      · rcases fetched with err | keyValues
        · exact ⟨by simp [Silent], fun _ => trivial⟩
        · exact ih _

theorem silent_printLoop (file : OpenFile) (reducedContents : List KeyValue) :
    (printLoop file reducedContents).All Silent := by
  induction reducedContents generalizing file with
  | nil => trivial
  | cons kv reducedContents ih => exact ⟨by simp [Silent], fun r => ih _⟩

/-! ## Reduce tasks -/

/-- Reading a bucket is no output operation: the file that is closed is an intermediate file. -/
theorem ensures_fetchOutput (bucket : ℕ) (mapTaskID : TaskID) (producerAddress : GoString) :
    Ensures E w (fetchOutput W bucket mapTaskID producerAddress) fun x =>
      ∀ e ∈ x.events, ¬ IsOutput e.op := by
  have hnil : ∀ e ∈ ([] : List (Event RpcCall)), ¬ IsOutput e.op := by simp
  unfold fetchOutput
  split
  · refine Ensures.op fun out r w₁ hopen => ?_
    rcases r with err | file
    · exact Ensures.ret (List.forall_mem_cons.mpr ⟨id, hnil⟩)
    · have hname := perform_openFile hopen
      refine Ensures.op fun out r w₂ _ => Ensures.op fun out r w₃ _ => Ensures.ret ?_
      refine List.forall_mem_cons.mpr ⟨id, List.forall_mem_cons.mpr ⟨id, ?_⟩⟩
      exact List.forall_mem_cons.mpr ⟨fun hclose => hclose _ _ hname, hnil⟩
  · refine Ensures.op fun out r w₁ _ => ?_
    cases r with
    | none => exact Ensures.ret (List.forall_mem_cons.mpr ⟨id, hnil⟩)
    | some keyValues => exact Ensures.ret (List.forall_mem_cons.mpr ⟨id, hnil⟩)

/-- Nor is any operation of the loop. -/
theorem ensures_fetchLoop (bucket : ℕ) (outputs : List (TaskID × GoString))
    (mappedContents : List KeyValue) :
    Ensures E w (fetchLoop W bucket outputs mappedContents) fun x =>
      ∀ e ∈ x.events, ¬ IsOutput e.op := by
  induction outputs generalizing mappedContents w with
  | nil => exact Ensures.ret fun e he => absurd he List.not_mem_nil
  | cons output outputs ih =>
      obtain ⟨mapTaskID, producerAddress⟩ := output
      refine Ensures.bind ((ensures_fetchOutput bucket mapTaskID producerAddress).mono ?_)
      rintro ⟨events, w₁, r⟩ hevents
      rcases r with err | keyValues
      · refine Ensures.op fun out r w₂ _ => Ensures.ret ?_
        refine List.forall_mem_append.mpr ⟨hevents, ?_⟩
        exact List.forall_mem_cons.mpr ⟨id, fun e he => absurd he List.not_mem_nil⟩
      · exact (ih _).mono fun y hy => List.forall_mem_append.mpr ⟨hevents, hy⟩

/-- The records are written to the output file, if no write fails. -/
theorem ensures_printLoop (bucket : ℕ) {file : OpenFile}
    (reducedContents : List KeyValue) :
    Ensures E w (printLoop file reducedContents) fun x =>
      (∀ e ∈ x.events, IsRecord bucket e.op) ∧
      (file.offset = (w.data file.inode).length → (∀ e ∈ x.events, e.failed = false) →
        x.world =
          w.setData file.inode (w.data file.inode ++ reducedContents.flatMap formatLine)) := by
  induction reducedContents generalizing file w with
  | nil =>
      refine Ensures.ret ⟨fun e he => absurd he List.not_mem_nil, fun _ _ => ?_⟩
      rw [List.flatMap_nil, List.append_nil, World.setData_self]
  | cons kv reducedContents ih =>
      refine Ensures.op fun out r w₁ hwrite => (ih (w := w₁)).mono fun x ⟨hrecords, hworld⟩ => ?_
      refine ⟨List.forall_mem_cons.mpr ⟨trivial, hrecords⟩, fun hoffset hok => ?_⟩
      obtain ⟨hout, hok⟩ := List.forall_mem_cons.mp hok
      rcases perform_write hwrite with ⟨hfailed, -⟩ | ⟨-, rfl, rfl⟩
      · exact absurd (hout.symm.trans hfailed) (by simp)
      · have hwritten : w.writeData file.inode file.offset (formatLine kv) =
            w.setData file.inode (w.data file.inode ++ formatLine kv) := by
          rw [hoffset, World.writeData_end]
        rw [hwritten] at hworld
        refine (hworld (by simp [OpenFile.advance, hoffset]) hok).trans ?_
        simp [OpenFile.advance]

/-- **What `writeReducedContentsToBucketFile` notices**: only that the file cannot be created. The
file holds every record if none of its operations fails. -/
theorem ensures_writeReducedContents (bucket : ℕ) (reducedContents : List KeyValue) :
    Ensures E w (writeReducedContentsToBucketFile bucket reducedContents) fun x =>
      (x.value ≠ none ∧ ∀ e ∈ x.events, ¬ IsRecord bucket e.op) ∨
      x.value = none ∧ (∀ e ∈ x.events, e.failed = true → IsRecord bucket e.op) ∧
        ((∀ e ∈ x.events, e.failed = false) →
          x.world.content (E.locate (reduceOutputFileName bucket)) =
            some (reducedContents.flatMap formatLine)) := by
  refine Ensures.op fun out r w₁ hcreate => ?_
  rcases r with err | file
  · refine Ensures.ret (Or.inl ⟨by simp, List.forall_mem_cons.mpr ⟨id, ?_⟩⟩)
    exact fun e he => absurd he List.not_mem_nil
  · obtain ⟨hout, hname, hoffset, hnode, hdata⟩ := perform_create hcreate
    refine Ensures.bind (p := printLoop file reducedContents)
      ((ensures_printLoop bucket reducedContents).mono ?_)
    rintro ⟨events, w₂, u⟩ ⟨hrecords, hworld⟩
    refine Ensures.op fun out' r w₃ hclose => Ensures.ret (Or.inr ⟨rfl, ?_, ?_⟩)
    · refine List.forall_mem_cons.mpr ⟨fun h => absurd (hout.symm.trans h) (by simp), ?_⟩
      refine List.forall_mem_append.mpr ⟨fun e he _ => hrecords e he, ?_⟩
      exact List.forall_mem_cons.mpr ⟨fun _ => hname, fun e he => absurd he List.not_mem_nil⟩
    · intro hok
      obtain ⟨hok, -⟩ := List.forall_mem_append.mp (List.forall_mem_cons.mp hok).2
      obtain ⟨rfl, -⟩ := perform_close hclose
      obtain rfl : w₃ = _ := hworld (by rw [hoffset, hdata]; rfl) hok
      have hnode' : (w₁.setData file.inode (w₁.data file.inode ++
          reducedContents.flatMap formatLine)).node (E.locate (reduceOutputFileName bucket)) =
          some (.file file.inode) := hnode
      refine (World.content_of_node _ hnode').trans ?_
      rw [World.data_setData_self, hdata, List.nil_append]

theorem silent_runReduceTask (data : ReduceTaskData) : (runReduceTask W data).All Silent := by
  refine Prog.All.bind (silent_fetchLoop _ _ _) fun r => ?_
  rcases r with err | mappedContents
  · trivial
  · refine ⟨by simp [Silent], fun r => ?_⟩
    rcases r with err | file
    · trivial
    · exact Prog.All.bind (p := printLoop file _) (silent_printLoop file _)
        fun _ => ⟨by simp [Silent], fun _ => trivial⟩

/-- A reduce task returns an error before it writes a record, or it returns none; then the output
is complete if no operation on its file fails. -/
theorem runReduceTask_cases {data : ReduceTaskData} {outs : List (Outcome Answer)}
    {x : Run RpcCall (Option GoString)} (hrun : (runReduceTask W data).run E w outs = some x) :
    (x.value ≠ none ∧ ∀ e ∈ x.events, ¬ IsRecord data.bucket e.op) ∨
      x.value = none ∧
        (∀ e ∈ x.events, IsOutput e.op → e.failed = true → IsRecord data.bucket e.op) ∧
        ((∀ e ∈ x.events, IsRecord data.bucket e.op → e.failed = false) →
          ReducesFetched E w W data outs x.world) := by
  obtain ⟨fetches, writes, y, z, rfl, hfetches, hwrites, rfl⟩ := Prog.run_bind_iff.mp hrun
  have hfetch := ensures_fetchLoop _ _ _ fetches y hfetches
  cases hvalue : y.value with
  | error err =>
      rw [hvalue] at hwrites
      obtain rfl := Prog.eq_of_run_ret hwrites
      refine Or.inl ⟨by simp, List.forall_mem_append.mpr ⟨?_, by simp⟩⟩
      exact fun e he hrecord => hfetch e he hrecord.isOutput
  | ok mappedContents =>
      rw [hvalue] at hwrites
      rcases ensures_writeReducedContents data.bucket (reducedOf W mappedContents) writes z hwrites
        with ⟨hnone, hrecords⟩ | ⟨hnone, hfailed, hcontent⟩
      · refine Or.inl ⟨hnone, List.forall_mem_append.mpr ⟨?_, hrecords⟩⟩
        exact fun e he hrecord => hfetch e he hrecord.isOutput
      · refine Or.inr ⟨hnone, List.forall_mem_append.mpr ⟨?_, ?_⟩, fun hok => ?_⟩
        · exact fun e he hout => absurd hout (hfetch e he)
        · exact fun e he _ => hfailed e he
        · refine ⟨fetches, y, mappedContents, List.prefix_append _ _, hfetches, hvalue,
            hcontent ?_⟩
          -- what fails is a record, and no record fails
          intro e he
          by_contra hne
          have hrecord := hfailed e he (Bool.eq_true_of_not_eq_false hne)
          exact hne (hok e (List.mem_append_right _ he) hrecord)

/-! ## Reports -/

/-- How the execution of a task ends: with the error of the task, or with a report after it. -/
theorem finish_cases {task : Task} {run : WorkerProg (Option GoString)}
    {outs : List (Outcome Answer)} {z : Run RpcCall (Option GoString)}
    (h : (finish W task run).run E w outs = some z) :
    ∃ outs₁ x, outs₁ <+: outs ∧ run.run E w outs₁ = some x ∧
      (x.value ≠ none ∧ z = x ∨
        x.value = none ∧ z = { x with events := x.events ++
          [⟨.call (.reportTaskCompletion ⟨task, W.workerAddress⟩), false⟩] }) := by
  obtain ⟨outs₁, outs₂, ⟨events, w₁, r⟩, y, rfl, hx, hy, rfl⟩ := Prog.run_bind_iff.mp h
  refine ⟨outs₁, _, List.prefix_append _ _, hx, ?_⟩
  cases r with
  | some err =>
      obtain rfl := Prog.eq_of_run_ret hy
      exact Or.inl ⟨by simp, by rw [List.append_nil]⟩
  | none =>
      have hreport : Ensures E w₁ (do let _ ← reportTaskCompletion W task; pure none) fun y =>
          y = ⟨[⟨.call (.reportTaskCompletion ⟨task, W.workerAddress⟩), false⟩], w₁,
            (none : Option GoString)⟩ := by
        refine Ensures.op fun out r w₂ hcall => Ensures.ret ?_
        obtain ⟨hout, rfl⟩ := perform_call hcall
        rw [hout]
      exact Or.inr ⟨rfl, by rw [hreport outs₂ y hy]⟩

/-- A report is the operation that is not silent. -/
theorem reported_iff {x : Run RpcCall α} : Reported x ↔ ∃ e ∈ x.events, ¬ Silent e.op := by
  simp [Reported, Silent]

/-- A run without a report. -/
theorem not_reported {x : Run RpcCall α} (h : ∀ e ∈ x.events, Silent e.op) : ¬ Reported x := by
  rw [reported_iff]
  rintro ⟨e, he, hreport⟩
  exact hreport (h e he)

/-- An execution with an error and without a report is faithful. -/
theorem ReportsFaithfully.of_error {reply : TaskReply} {outs : List (Outcome Answer)}
    {x : Run RpcCall (Option GoString)} (hvalue : x.value ≠ none) (hsilent : ¬ Reported x) :
    ReportsFaithfully E w W reply outs x :=
  ⟨fun h => absurd h hsilent, fun _ => ⟨hvalue, hsilent⟩⟩

/-- An execution with a complete output and without a failed output operation is faithful. -/
theorem ReportsFaithfully.of_complete {reply : TaskReply} {outs : List (Outcome Answer)}
    {x : Run RpcCall (Option GoString)} (hok : ¬ OutputFailed x)
    (hcomplete : OutputComplete E w W reply outs x) : ReportsFaithfully E w W reply outs x :=
  ⟨fun _ => ⟨hok, hcomplete⟩, fun h => absurd h hok⟩

/-- The report at the end of an execution is no output operation. -/
theorem outputFailed_report {x : Run RpcCall α} {args : ReportTaskCompletionArgs}
    (h : OutputFailed { x with
      events := x.events ++ [⟨.call (.reportTaskCompletion args), false⟩] }) : OutputFailed x := by
  obtain ⟨e, he, hout, hfailed⟩ := h
  rcases List.mem_append.mp he with he | he
  · exact ⟨e, he, hout, hfailed⟩
  · obtain rfl := List.mem_singleton.mp he
    exact absurd hfailed (by simp)

/-- An execution without operations is faithful. -/
theorem faithful_idle {reply : TaskReply} {r : Option GoString} {outs : List (Outcome Answer)}
    {x : Run RpcCall (Option GoString)} (hrun : (pure r : WorkerProg _).run E w outs = some x) :
    ReportsFaithfully E w W reply outs x := by
  obtain rfl := Prog.eq_of_run_ret hrun
  constructor
  · rintro ⟨e, he, -⟩
    exact absurd he List.not_mem_nil
  · rintro ⟨e, he, -⟩
    exact absurd he List.not_mem_nil

/-- A map task is always reported faithfully. -/
theorem faithful_mapTask {reply : TaskReply} {task : Task} {data : MapTaskData}
    (hreply : MapReduce.executeTask reply = .runMapTask task data) {outs : List (Outcome Answer)}
    {z : Run RpcCall (Option GoString)}
    (hrun : (finish W task (runMapTask W task data)).run E w outs = some z) :
    ReportsFaithfully E w W reply outs z := by
  obtain ⟨outs₁, x, -, hx, ⟨hne, rfl⟩ | ⟨hnone, rfl⟩⟩ := finish_cases hrun
  · exact .of_error hne (not_reported ((silent_runMapTask task data).ensures w outs₁ _ hx))
  · obtain ⟨hremoves, hfiles⟩ := ensures_runMapTask task data outs₁ x hx hnone
    refine .of_complete (fun h => ?_) ?_
    · obtain ⟨e, he, hout, hfailed⟩ := outputFailed_report h
      obtain ⟨path, hpath⟩ := hremoves e he hfailed
      rw [hpath] at hout
      exact hout
    · unfold OutputComplete
      rw [hreply]
      exact hfiles

/-- A reduce task is reported faithfully exactly when no record fails. -/
theorem faithful_reduceTask_iff {reply : TaskReply} {task : Task} {data : ReduceTaskData}
    (hreply : MapReduce.executeTask reply = .runReduceTask task data) {outs : List (Outcome Answer)}
    {z : Run RpcCall (Option GoString)}
    (hrun : (finish W task (runReduceTask W data)).run E w outs = some z) :
    ReportsFaithfully E w W reply outs z ↔
      ∀ e ∈ z.events, IsRecord data.bucket e.op → e.failed = false := by
  obtain ⟨outs₁, x, hprefix, hx, ⟨hne, rfl⟩ | ⟨hnone, rfl⟩⟩ := finish_cases hrun
  · refine iff_of_true ?_ ?_
    · exact .of_error hne (not_reported ((silent_runReduceTask data).ensures w outs₁ _ hx))
    · rcases runReduceTask_cases hx with ⟨-, hnever⟩ | ⟨hnone, -⟩
      · exact fun e he hrecord => absurd hrecord (hnever e he)
      · exact absurd hnone hne
  · constructor
    · -- the report is sent, so no output operation has failed
      intro h
      have hreport :=
        (h.reported ⟨_, List.mem_append_right _ (List.mem_singleton_self _), _, rfl⟩).1
      intro e he hrecord
      by_contra hfailed
      exact hreport ⟨e, he, hrecord.isOutput, Bool.eq_true_of_not_eq_false hfailed⟩
    · intro hok
      have hrecords : ∀ e ∈ x.events, IsRecord data.bucket e.op → e.failed = false :=
        fun e he => hok e (List.mem_append_left _ he)
      rcases runReduceTask_cases hx with ⟨hne, -⟩ | ⟨-, hfailed, hcontent⟩
      · exact absurd hnone hne
      · refine .of_complete (fun h => ?_) ?_
        · obtain ⟨e, he, hout, hfail⟩ := outputFailed_report h
          exact absurd ((hrecords e he (hfailed e he hout hfail)).symm.trans hfail) (by simp)
        · unfold OutputComplete
          rw [hreply]
          obtain ⟨fetches, y, mappedContents, hfetches, hrest⟩ := hcontent hrecords
          exact ⟨fetches, y, mappedContents, hfetches.trans hprefix, hrest⟩

/-- **When an execution reports faithfully**: always, unless a record of the output file of a reduce
task is not written, or its close fails. -/
theorem reportsFaithfully_iff {reply : TaskReply} {outs : List (Outcome Answer)}
    {x : Run RpcCall (Option GoString)} (hrun : (executeTask W reply).run E w outs = some x) :
    ReportsFaithfully E w W reply outs x ↔
      ∀ task data, MapReduce.executeTask reply = .runReduceTask task data →
        ∀ e ∈ x.events, IsRecord data.bucket e.op → e.failed = false := by
  unfold executeTask at hrun
  cases hreply : MapReduce.executeTask reply with
  | runMapTask task data =>
      rw [hreply] at hrun
      exact iff_of_true (faithful_mapTask hreply hrun) fun _ _ h => absurd h (by simp)
  | runReduceTask task data =>
      rw [hreply] at hrun
      refine Iff.trans (faithful_reduceTask_iff hreply hrun) ⟨fun hok task' data' h => ?_, ?_⟩
      · obtain ⟨-, rfl⟩ := Execution.runReduceTask.inj h
        exact hok
      · exact fun h => h task data rfl
  | sleep =>
      rw [hreply] at hrun
      exact iff_of_true (faithful_idle hrun) fun _ _ h => absurd h (by simp)
  | error err =>
      rw [hreply] at hrun
      exact iff_of_true (faithful_idle hrun) fun _ _ h => absurd h (by simp)

/-- Reduce task 0, with the output of one map task at another worker. -/
def exampleReduce : TaskReply :=
  ⟨some ⟨0, .reduce, .none, 0⟩, none, some ⟨0, TreeMap.empty.insert 0 (.ofString "127.0.0.1:4321")⟩⟩

/-- The pairs that the other worker sends. -/
def exampleBucket : List KeyValue :=
  [⟨.ofString "a", .ofString "1"⟩, ⟨.ofString "b", .ofString "1"⟩]

/-- Without a failure the report is faithful. -/
theorem reportsFaithfully_iff_done : ∃ x,
    (executeTask exampleContext exampleReduce).run exampleDirectory emptyDirectory
      [.answer (some exampleBucket), .done, .done, .done, .done, .answer none] = some x ∧
    Reported x ∧
    ReportsFaithfully exampleDirectory emptyDirectory exampleContext exampleReduce
      [.answer (some exampleBucket), .done, .done, .done, .done, .answer none] x := by
  have hrun : ((executeTask exampleContext exampleReduce).run exampleDirectory emptyDirectory
      [.answer (some exampleBucket), .done, .done, .done, .done, .answer none]).map
        (fun x => (decide (∃ e ∈ x.events, ¬ Silent e.op),
          decide (∀ e ∈ x.events, IsRecord 0 e.op → e.failed = false))) = some (true, true) := by
    decide +kernel
  obtain ⟨x, hx, h⟩ := Option.map_eq_some_iff.mp hrun
  obtain ⟨hreport, hok⟩ := Prod.mk.inj h
  refine ⟨x, hx, reported_iff.mpr (of_decide_eq_true hreport), ?_⟩
  refine (reportsFaithfully_iff hx).mpr fun task data h => ?_
  obtain ⟨-, rfl⟩ := Execution.runReduceTask.inj h
  exact of_decide_eq_true hok

/-- **A lost record is not noticed**: the disk is full when the first record is written. The task
is reported, and its output lacks the record. -/
theorem reported_without_record : ∃ x,
    (executeTask exampleContext exampleReduce).run exampleDirectory emptyDirectory
      [.answer (some exampleBucket), .done,
        .fail ⟨.other, .ofString "no space left on device"⟩ 0, .done, .done, .answer none] =
      some x ∧
    Reported x ∧ x.value = none ∧
    x.world.content (exampleDirectory.locate (reduceOutputFileName 0)) =
      some (.ofString "b 1\n") ∧
    ¬ ReportsFaithfully exampleDirectory emptyDirectory exampleContext exampleReduce
      [.answer (some exampleBucket), .done,
        .fail ⟨.other, .ofString "no space left on device"⟩ 0, .done, .done, .answer none] x := by
  have hrun : ((executeTask exampleContext exampleReduce).run exampleDirectory emptyDirectory
      [.answer (some exampleBucket), .done,
        .fail ⟨.other, .ofString "no space left on device"⟩ 0, .done, .done, .answer none]).map
        (fun x => (decide (∃ e ∈ x.events, ¬ Silent e.op),
          decide (∃ e ∈ x.events, IsRecord 0 e.op ∧ e.failed = true), x.value,
          x.world.content (exampleDirectory.locate (reduceOutputFileName 0)))) =
      some (true, true, none, some (.ofString "b 1\n")) := by
    decide +kernel
  obtain ⟨x, hx, h⟩ := Option.map_eq_some_iff.mp hrun
  simp only [Prod.mk.injEq, decide_eq_true_eq] at h
  obtain ⟨hreport, ⟨e, he, hrecord, hfailed⟩, hvalue, hcontent⟩ := h
  refine ⟨x, hx, reported_iff.mpr hreport, hvalue, hcontent, fun hfaithful => ?_⟩
  exact (hfaithful.reported (reported_iff.mpr hreport)).1 ⟨e, he, hrecord.isOutput, hfailed⟩

end DistributedSystems.MapReduce.TaskPrograms
