import DistributedSystems.MapReduce.ClusterSafety
import DistributedSystems.MapReduce.CoordinatorAssignment

/-! # The output files

`writeReducedContentsToBucketFile` creates `mr-out-b` in place, truncating what is there, and writes
it line by line. Executions of one reduce task may overlap; each writes the same lines at its own
offset.

* `output_final` — the output of a done reduce task is complete and final in every run in which no
  execution creates the file of a done task, no completion is handled while an execution of the task
  is in the middle of its file, no worker dies there, and no line is lost.
* `output_truncated` — a slow execution truncates the output of a finished job. -/

namespace DistributedSystems.MapReduce

open Std (TreeMap)
open ByteFile (Agrees SegmentOf writeAt)
open Keyed (OrderFree)

/-- The bytes of the complete output file of a bucket. -/
def Job.outputBytes (J : Job) (b : ℕ) : List Byte := (J.lines b).flatMap formatLine

/-- The task whose output file a process is in the middle of. -/
def Phase.unfinished : Phase → Option TaskID
  | .writing task _ _ (_ :: _) _ => some task.id
  | _ => none

/-- The process has an output file open. -/
def Phase.isWriting : Phase → Bool
  | .writing .. => true
  | _ => false

namespace Cluster

/-- The step endangers no output file: it does not create the file of a done task, does not finish a
task while an execution of it is in the middle of its file, does not kill a process there, and does
not lose a line. -/
def keepsOutputs (s : Cluster) : Action → Bool
  | .createOutput w _ =>
      match s.phase w with
      | .fetching task .. => s.coordinator.reduceTasks[task.id]?.all fun t => t.task.state ≠ .done
      | _ => true
  | .handleCompletion i =>
      match s.completions[i]? with
      | some msg => s.writes.all fun call =>
          (s.phase call.worker).unfinished ≠ some msg.args.task.id
      | none => true
  | .crash w => (s.phase w).unfinished.isNone
  | .loseLine _ => false
  | _ => true

variable {J : Job} {s s' : Cluster} {a : Action} {w : ℕ}

/-! ## What a step does to the output files -/

/-- The step leaves the output files alone, and every process with an open file. -/
structure Quiet (s s' : Cluster) : Prop where
  /-- The output files. -/
  outputs : s'.outputs = s.outputs
  /-- The calls that write them. -/
  writes : s'.writes = s.writes
  /-- A process that moves was not in the middle of a file, and has no file open. -/
  phases : ∀ v, s'.phase v = s.phase v ∨
    ((s.phase v).unfinished = none ∧ (s'.phase v).isWriting = false)

/-- A process without an unfinished file moves to a phase without an open file. -/
theorem phases_setPhase (hold : (s.phase w).unfinished = none) {p : Phase}
    (hnew : p.isWriting = false) (v : ℕ) : (s.setPhase w p).phase v = s.phase v ∨
      ((s.phase v).unfinished = none ∧ ((s.setPhase w p).phase v).isWriting = false) := by
  rw [setPhase_phase]
  split
  · next hv => exact Or.inr ⟨hv ▸ hold, hnew⟩
  · exact Or.inl rfl

/-- A phase in which the task may be given up has no open file. -/
theorem unfinished_of_mayGiveUp {p : Phase} (h : p.mayGiveUp = true) : p.unfinished = none := by
  cases p with
  | writing => cases h
  | _ => rfl

/-- **A step creates an output file, writes a line, or is quiet.** -/
theorem Transition.output_cases (ht : s.Transition J a s') (hkeeps : s.keepsOutputs a = true) :
    (∃ w keyOrder task data read contents, a = .createOutput w keyOrder ∧
      s.phase w = .fetching task data [] read contents ∧
      keyOrder.Perm (groupByKey contents).keys ∧
      s' = { (s.setOutput data.bucket []).setPhase w (.writing task data read
              (reduceContents (groupByKey contents) J.reducef keyOrder) 0) with
            writes := s.writes ++
              [⟨w, data.bucket, reduceContents (groupByKey contents) J.reducef keyOrder⟩] }) ∨
    (∃ w task data read kv lines offset, a = .writeLine w ∧
      s.phase w = .writing task data read (kv :: lines) offset ∧
      s' = (s.setOutput data.bucket (writeAt 0 ((s.outputs data.bucket).getD []) offset
        (formatLine kv))).setPhase w
          (.writing task data read lines (offset + (formatLine kv).length))) ∨
    Quiet s s' := by
  cases ht with
  | @start w address dir hphase =>
      refine Or.inr (Or.inr ⟨rfl, rfl, fun v => ?_⟩)
      rw [start_phase]
      split
      · next hv => exact Or.inr ⟨by rw [hv, hphase]; rfl, rfl⟩
      · exact Or.inl rfl
  | @crash w halive =>
      exact Or.inr (Or.inr ⟨rfl, rfl, phases_setPhase (by simpa [keepsOutputs] using hkeeps) rfl⟩)
  | @createOutput w keyOrder task data read contents reduced hphase hperm hreduced =>
      subst hreduced
      exact Or.inl ⟨w, keyOrder, task, data, read, contents, rfl, hphase, hperm, rfl⟩
  | @writeLine w task data read kv lines offset hphase =>
      exact Or.inr (Or.inl ⟨w, task, data, read, kv, lines, offset, rfl, hphase, rfl⟩)
  -- excluded by the condition on the step
  | loseLine => cases hkeeps
  | giveUp hphase =>
      exact Or.inr (Or.inr ⟨rfl, rfl, phases_setPhase (unfinished_of_mayGiveUp hphase) rfl⟩)
  | ask hphase | deliver hphase | deliverError hphase | loseRequest hphase | callMapf hphase
  | writeBucket hphase | startReduce hphase | fetchBucket hphase | fetchFails hphase
  | reportMap hphase | reportReduce hphase | returnCall hphase =>
      exact Or.inr (Or.inr ⟨rfl, rfl, phases_setPhase (s := s) (by rw [hphase]; rfl) rfl⟩)
  | _ => exact Or.inr (Or.inr ⟨rfl, rfl, fun v => Or.inl rfl⟩)

/-! ## The invariant -/

/-- An execution is in the middle of the file of a bucket, and the file agrees with the complete
output up to its offset. -/
def Underway (J : Job) (s : Cluster) (b : ℕ) (f : List Byte) : Prop :=
  ∃ w task data read kv lines offset, s.phase w = .writing task data read (kv :: lines) offset ∧
    data.bucket = b ∧ Agrees f (J.outputBytes b) offset

/-- **The state of the output files**, in runs whose steps endanger none. -/
structure OutputsOk (J : Job) (s : Cluster) : Prop where
  /-- An execution with an open file has written a first part of the lines of its bucket, the file
  exists, and the call is recorded. -/
  writers : ∀ w task data read lines offset, s.phase w = .writing task data read lines offset →
    (∃ written, written ++ lines = J.lines data.bucket ∧
      offset = (written.flatMap formatLine).length) ∧
    (∃ f, s.outputs data.bucket = some f) ∧ ∃ call ∈ s.writes, call.worker = w
  /-- A file is not longer than the complete output, and it is complete or still being written. -/
  files : ∀ b f, s.outputs b = some f → f.length ≤ (J.outputBytes b).length ∧
    (f = J.outputBytes b ∨ Underway J s b f)
  /-- A completion report of a reduce task comes after its file was created. -/
  completions : ∀ msg ∈ s.completions, msg.args.task.type = .reduce →
    ∀ b, msg.args.task.id = J.reduceID b → ∃ f, s.outputs b = some f
  /-- The file of a done task is complete, and nobody is in the middle of it. -/
  done : ∀ b t, s.coordinator.reduceTasks[J.reduceID b]? = some t → t.task.state = .done →
    s.outputs b = some (J.outputBytes b) ∧ ∀ w, (s.phase w).unfinished ≠ some (J.reduceID b)

/-- The executions with an open file after a quiet step. -/
theorem Quiet.phase_writing (hq : Quiet s s') {v : ℕ} {task : Task} {data : ReduceTaskData}
    {read : List TaskID} {lines : List KeyValue} {offset : ℕ}
    (hphase : s'.phase v = .writing task data read lines offset) :
    s.phase v = .writing task data read lines offset := by
  rcases hq.phases v with heq | ⟨-, hnot⟩
  · rw [← heq, hphase]
  · rw [hphase] at hnot
    cases hnot

/-- An unfinished file is unfinished after a quiet step. -/
theorem Quiet.underway (hq : Quiet s s') {b : ℕ} {f : List Byte} (h : Underway J s b f) :
    Underway J s' b f := by
  obtain ⟨w, task, data, read, kv, lines, offset, hphase, hb, hagrees⟩ := h
  refine ⟨w, task, data, read, kv, lines, offset, ?_, hb, hagrees⟩
  rcases hq.phases w with heq | ⟨hnone, -⟩
  · rw [heq, hphase]
  · rw [hphase] at hnone
    cases hnone

theorem Quiet.unfinished (hq : Quiet s s') {v : ℕ} {id : TaskID}
    (h : (s'.phase v).unfinished = some id) : (s.phase v).unfinished = some id := by
  rcases hq.phases v with heq | ⟨-, hnot⟩
  · rw [← heq, h]
  · cases hp : s'.phase v <;> simp [hp, Phase.unfinished, Phase.isWriting] at h hnot

/-- The complete output, split at the next line of an execution. -/
theorem outputBytes_split {written lines : List KeyValue} {kv : KeyValue} {b : ℕ}
    (h : written ++ kv :: lines = J.lines b) :
    J.outputBytes b =
      written.flatMap formatLine ++ formatLine kv ++ lines.flatMap formatLine := by
  rw [Job.outputBytes, ← h, List.flatMap_append, List.flatMap_cons, List.append_assoc]

/-- The task of an execution with an open file is that of its bucket. -/
theorem id_of_writing (hassigned : s.Assigned J) {task : Task} {data : ReduceTaskData}
    {read : List TaskID} {lines : List KeyValue} {offset : ℕ}
    (hphase : s.phase w = .writing task data read lines offset) :
    task.id = J.reduceID data.bucket := (hassigned.phase_eq hphase).1.id

/-- A process `w` writes to the output file of a bucket: it goes on with `lines` at `offset`, and
the file becomes `f`. -/
structure WritesTo (s s' : Cluster) (w : ℕ) (task : Task) (data : ReduceTaskData)
    (read : List TaskID) (lines : List KeyValue) (offset : ℕ) (f : List Byte) : Prop where
  /-- The phase of the process after the step. -/
  phase_self : s'.phase w = .writing task data read lines offset
  /-- The other processes do not move. -/
  phase_ne : ∀ v, v ≠ w → s'.phase v = s.phase v
  /-- The output files after the step. -/
  outputs : ∀ b, s'.outputs b = if b = data.bucket then some f else s.outputs b
  /-- The coordinator is not involved. -/
  coordinator : s'.coordinator = s.coordinator
  /-- Nor is the network. -/
  completions : s'.completions = s.completions
  /-- The call is recorded. -/
  writes : s.writes ⊆ s'.writes ∧ ∃ call ∈ s'.writes, call.worker = w

/-- A process that moves on leaves the files of other buckets underway. -/
theorem WritesTo.underway {task : Task} {data : ReduceTaskData} {read : List TaskID}
    {lines : List KeyValue} {offset : ℕ} {f g : List Byte} {b : ℕ}
    (hw : WritesTo s s' w task data read lines offset f)
    (hself : ∀ task' data' read' lines' offset', s.phase w = .writing task' data' read' lines' offset' →
      data'.bucket ≠ b) (h : Underway J s b g) : Underway J s' b g := by
  obtain ⟨u, task', data', read', kv, lines', offset', hu, hb, hagrees⟩ := h
  refine ⟨u, task', data', read', kv, lines', offset', ?_, hb, hagrees⟩
  rw [hw.phase_ne u, hu]
  rintro rfl
  exact hself _ _ _ _ _ hu hb

/-- **A write to the output file of a task that is not done** keeps the invariant, when what the
process has written and the new file are right. -/
theorem OutputsOk.write (h : s.OutputsOk J) {task : Task} {data : ReduceTaskData}
    {read : List TaskID} {lines : List KeyValue} {offset : ℕ} {f : List Byte}
    (hw : WritesTo s s' w task data read lines offset f)
    (hid : task.id = J.reduceID data.bucket)
    (hnot : ∀ t, s.coordinator.reduceTasks[J.reduceID data.bucket]? = some t →
      t.task.state ≠ .done)
    (hself : ∀ task' data' read' lines' offset', s.phase w = .writing task' data' read' lines' offset' →
      data'.bucket = data.bucket)
    (hwritten : ∃ written, written ++ lines = J.lines data.bucket ∧
      offset = (written.flatMap formatLine).length)
    (hlen : f.length ≤ (J.outputBytes data.bucket).length)
    (hfile : f = J.outputBytes data.bucket ∨ Underway J s' data.bucket f) : s'.OutputsOk J where
  writers v task' data' read' lines' offset' hv := by
    by_cases hvw : v = w
    · subst hvw
      rw [hw.phase_self] at hv
      obtain ⟨rfl, rfl, rfl, rfl, rfl⟩ := Phase.writing.inj hv
      exact ⟨hwritten, ⟨f, by rw [hw.outputs, if_pos rfl]⟩, hw.writes.2⟩
    · rw [hw.phase_ne v hvw] at hv
      obtain ⟨hwritten', ⟨g, hg⟩, call, hcall, rfl⟩ := h.writers v task' data' read' lines' offset' hv
      refine ⟨hwritten', ?_, call, hw.writes.1 hcall, rfl⟩
      rw [hw.outputs]
      split
      · exact ⟨f, rfl⟩
      · exact ⟨g, hg⟩
  files b g hg := by
    rw [hw.outputs] at hg
    split at hg
    · next hb =>
      obtain rfl := Option.some.inj hg
      subst hb
      exact ⟨hlen, hfile⟩
    · next hb =>
      obtain ⟨hlen', hfull | hunder⟩ := h.files b g hg
      · exact ⟨hlen', Or.inl hfull⟩
      · refine ⟨hlen', Or.inr (hw.underway (fun _ _ _ _ _ hp => ?_) hunder)⟩
        rw [hself _ _ _ _ _ hp]
        exact Ne.symm hb
  completions msg hmem htype b hb := by
    rw [hw.completions] at hmem
    obtain ⟨g, hg⟩ := h.completions msg hmem htype b hb
    rw [hw.outputs]
    split
    · exact ⟨f, rfl⟩
    · exact ⟨g, hg⟩
  done b t ht hdone := by
    rw [hw.coordinator] at ht
    -- the task that is written is not done, so `b` is another bucket
    have hne : b ≠ data.bucket := by
      rintro rfl
      exact hnot t ht hdone
    obtain ⟨hfull, hnobody⟩ := h.done b t ht hdone
    refine ⟨by rw [hw.outputs, if_neg hne, hfull], fun v => ?_⟩
    by_cases hvw : v = w
    · subst hvw
      rw [hw.phase_self]
      cases lines with
      | nil => simp [Phase.unfinished]
      | cons kv lines =>
          intro heq
          exact hne (J.reduceID_inj ((Option.some.inj heq).symm.trans hid))
    · rw [hw.phase_ne v hvw]
      exact hnobody v

/-- **Creating the output file** of a task that is not done: it is empty, and nothing is written. -/
theorem OutputsOk.create (h : s.OutputsOk J) {task : Task} {data : ReduceTaskData}
    {read : List TaskID} {contents : List KeyValue}
    (hphase : s.phase w = .fetching task data [] read contents)
    (hw : WritesTo s s' w task data read (J.lines data.bucket) 0 [])
    (hid : task.id = J.reduceID data.bucket)
    (hnot : ∀ t, s.coordinator.reduceTasks[J.reduceID data.bucket]? = some t →
      t.task.state ≠ .done) : s'.OutputsOk J := by
  refine h.write hw hid hnot (fun _ _ _ _ _ hp => ?_) ⟨[], rfl, rfl⟩ (Nat.zero_le _) ?_
  · rw [hphase] at hp
    cases hp
  · have hself := hw.phase_self
    -- a bucket without lines is complete at once
    cases hlines : J.lines data.bucket with
    | nil => exact Or.inl (by rw [Job.outputBytes, hlines]; rfl)
    | cons kv lines =>
        rw [hlines] at hself
        exact Or.inr ⟨w, task, data, read, kv, lines, 0, hself, rfl, Agrees.zero⟩

/-- **Writing a line**: the file stays complete if it is, stays underway with the process it is
underway with, and is complete after the last line. -/
theorem OutputsOk.line (hassigned : s.Assigned J) (h : s.OutputsOk J) {task : Task}
    {data : ReduceTaskData} {read : List TaskID} {kv : KeyValue} {lines : List KeyValue} {offset : ℕ}
    (hphase : s.phase w = .writing task data read (kv :: lines) offset) {g : List Byte}
    (hg : s.outputs data.bucket = some g)
    (hw : WritesTo s s' w task data read lines (offset + (formatLine kv).length)
      (writeAt 0 g offset (formatLine kv))) : s'.OutputsOk J := by
  have hid := id_of_writing hassigned hphase
  obtain ⟨⟨written, hwritten, rfl⟩, -⟩ := h.writers w _ _ _ _ _ hphase
  have hsplit := outputBytes_split hwritten
  have hseg : SegmentOf (J.outputBytes data.bucket) (written.flatMap formatLine).length
      (formatLine kv) := hsplit ▸ ByteFile.segmentOf_append _ _ _
  have hfull : (written.flatMap formatLine).length + (formatLine kv).length +
      (lines.flatMap formatLine).length = (J.outputBytes data.bucket).length := by
    rw [hsplit, List.length_append, List.length_append]
  obtain ⟨hlen, hfile⟩ := h.files _ g hg
  have hlen' : (writeAt 0 g (written.flatMap formatLine).length (formatLine kv)).length ≤
      (J.outputBytes data.bucket).length := by
    rw [ByteFile.length_writeAt]
    omega
  refine h.write hw hid (fun t ht hdone => ?_) (fun _ _ _ _ _ hp => ?_)
    ⟨written ++ [kv], by simpa using hwritten, by simp⟩ hlen' ?_
  · -- nobody is in the middle of the file of a done task
    refine (h.done _ t ht hdone).2 w ?_
    rw [hphase, ← hid]
    rfl
  · rw [hphase] at hp
    obtain ⟨-, rfl, -⟩ := Phase.writing.inj hp
    rfl
  · rcases hfile with rfl | ⟨u, task', data', read', kv', lines', offset', hu, hb, hagrees⟩
    -- a complete file: the process writes what is there already
    · have hall : Agrees (J.outputBytes data.bucket) (J.outputBytes data.bucket)
        (J.outputBytes data.bucket).length := fun _ _ => rfl
      exact Or.inl ((hall.writeAt le_rfl hseg).eq_of_length_le hlen')
    -- an unfinished file: it is this process that is ahead, or another one
    · by_cases huw : u = w
      · subst huw
        rw [hphase] at hu
        obtain ⟨rfl, rfl, rfl, hcons, rfl⟩ := Phase.writing.inj hu
        have hagrees' : Agrees (writeAt 0 g (written.flatMap formatLine).length (formatLine kv))
            (J.outputBytes data.bucket)
            ((written.flatMap formatLine).length + (formatLine kv).length) :=
          hagrees.writeAt_self (by omega) hseg
        cases lines with
        | nil =>
            -- after its last line the process has written everything
            rw [List.flatMap_nil, List.length_nil, Nat.add_zero] at hfull
            rw [hfull] at hagrees'
            exact Or.inl (hagrees'.eq_of_length_le hlen')
        | cons kv'' lines'' =>
            exact Or.inr ⟨u, task, data, read, kv'', lines'', _, hw.phase_self, rfl, hagrees'⟩
      · refine Or.inr ⟨u, task', data', read', kv', lines', offset', ?_, hb, ?_⟩
        · rw [hw.phase_ne u huw, hu]
        -- the other process has written a first part of the same bytes, which the line keeps
        · obtain ⟨⟨written', hwritten', hoffset⟩, -⟩ := h.writers u _ _ _ _ _ hu
          refine hagrees.writeAt ?_ hseg
          rw [hb] at hwritten'
          rw [hoffset, outputBytes_split hwritten', List.append_assoc, List.length_append]
          exact Nat.le_add_right _ _

/-- **A quiet step** keeps the invariant, if a completion that it sends or handles is one of a task
with a complete file. -/
theorem OutputsOk.quiet (hassigned : s.Assigned J) (h : s.OutputsOk J) (hq : Quiet s s')
    (hcompletions : ∀ msg ∈ s'.completions, msg.args.task.type = .reduce →
      ∀ b, msg.args.task.id = J.reduceID b → ∃ f, s.outputs b = some f)
    (hdone : ∀ b t, s'.coordinator.reduceTasks[J.reduceID b]? = some t → t.task.state = .done →
      (∃ t, s.coordinator.reduceTasks[J.reduceID b]? = some t ∧ t.task.state = .done) ∨
      (∃ f, s.outputs b = some f) ∧ ∀ w, (s.phase w).unfinished ≠ some (J.reduceID b)) :
    s'.OutputsOk J where
  writers v task data read lines offset hv := by
    rw [hq.outputs, hq.writes]
    exact h.writers v task data read lines offset (hq.phase_writing hv)
  files b f hf := by
    rw [hq.outputs] at hf
    obtain ⟨hlen, hfile⟩ := h.files b f hf
    exact ⟨hlen, hfile.imp_right hq.underway⟩
  completions := by
    rw [hq.outputs]
    exact hcompletions
  done b t ht hstate := by
    rw [hq.outputs]
    have hnow : s.outputs b = some (J.outputBytes b) ∧
        ∀ w, (s.phase w).unfinished ≠ some (J.reduceID b) := by
      -- done before the step, or finished by it with nobody in the middle of the file
      rcases hdone b t ht hstate with ⟨t₀, ht₀, hstate₀⟩ | ⟨⟨f, hf⟩, hnobody⟩
      · exact h.done b t₀ ht₀ hstate₀
      · refine ⟨?_, hnobody⟩
        obtain ⟨-, rfl | ⟨w, task, data, read, kv, lines, offset, hphase, rfl, -⟩⟩ := h.files b f hf
        · exact hf
        · refine absurd ?_ (hnobody w)
          rw [hphase, ← id_of_writing hassigned hphase]
          rfl
    exact ⟨hnow.1, fun w hw => hnow.2 w (hq.unfinished hw)⟩

/-- The reduce task whose file is created is not done. -/
theorem not_done_of_keepsOutputs {keyOrder : List Key}
    (hkeeps : s.keepsOutputs (.createOutput w keyOrder) = true) {task : Task} {data : ReduceTaskData}
    {todo : List (TaskID × GoString)} {read : List TaskID} {contents : List KeyValue}
    (hphase : s.phase w = .fetching task data todo read contents) {t : ReduceTask}
    (ht : s.coordinator.reduceTasks[task.id]? = some t) : t.task.state ≠ .done := by
  simpa [keepsOutputs, hphase, ht] using hkeeps

/-- Nobody is in the middle of the file of a task whose completion is handled. -/
theorem nobody_of_keepsOutputs {i : ℕ} (hkeeps : s.keepsOutputs (.handleCompletion i) = true)
    {msg : Completion} (hmsg : s.completions[i]? = some msg) (h : s.OutputsOk J) (v : ℕ) :
    (s.phase v).unfinished ≠ some msg.args.task.id := by
  intro hv
  have hcalls : ∀ call ∈ s.writes, (s.phase call.worker).unfinished ≠ some msg.args.task.id := by
    simpa [keepsOutputs, hmsg] using hkeeps
  cases hp : s.phase v with
  | writing task data read lines offset =>
      obtain ⟨-, -, call, hcall, rfl⟩ := h.writers v task data read lines offset hp
      exact hcalls call hcall hv
  | _ => rw [hp] at hv; cases hv

/-- **One step that endangers no output file keeps the invariant.** -/
theorem OutputsOk.step (hreducef : OrderFree J.reducef) (hreach : J.cluster.Reachable s)
    (hreach' : J.cluster.Reachable s') (hassigned : s.Assigned J) (hstored : s.Stored J)
    (h : s.OutputsOk J) (hkeeps : s.keepsOutputs a = true) (ht : s.Transition J a s') :
    s'.OutputsOk J := by
  rcases ht.output_cases hkeeps with
    ⟨w, keyOrder, task, data, read, contents, rfl, hphase, hperm, hs'⟩ |
    ⟨w, task, data, read, kv, lines, offset, rfl, hphase, hs'⟩ | hq
  · obtain ⟨hreduce, -⟩ := hassigned.phase_eq hphase
    rw [reduced_eq_lines hreducef hassigned hstored hphase hperm] at hs'
    have hw : WritesTo s s' w task data read (J.lines data.bucket) 0 [] := by
      rw [hs']
      exact ⟨(setPhase_phase _ w w _).trans (if_pos rfl),
        fun v hv => (setPhase_phase _ w v _).trans (if_neg hv),
        setOutput_outputs s data.bucket [], rfl, rfl, List.subset_append_left _ _, _,
        List.mem_append_right _ (List.mem_singleton_self _), rfl⟩
    exact h.create hphase hw hreduce.id fun t htask =>
      not_done_of_keepsOutputs hkeeps hphase (hreduce.id ▸ htask)
  · obtain ⟨-, ⟨g, hg⟩, hcall⟩ := h.writers w _ _ _ _ _ hphase
    rw [hg, Option.getD_some] at hs'
    refine h.line hassigned hphase hg ?_
    rw [hs']
    exact ⟨(setPhase_phase _ w w _).trans (if_pos rfl),
      fun v hv => (setPhase_phase _ w v _).trans (if_neg hv),
      setOutput_outputs s data.bucket _, rfl, rfl, List.Subset.refl _, hcall⟩
  · refine h.quiet hassigned hq ?_ ?_
    · intro msg hmem htype b hid
      rcases ht.reduce_completion_cases hassigned hmem htype hid with
        hold | ⟨w, task, data, read, offset, hphase, rfl⟩
      · exact h.completions msg hold htype b hid
      · exact (h.writers w _ _ _ _ _ hphase).2.1
    · intro b t htask hdone
      rcases ht.reduce_done_cases hreach hreach' htask hdone with
        ⟨t₀, ht₀, hdone₀, -⟩ | ⟨i, msg, rfl, hmsg, htype, hid⟩
      · exact Or.inl ⟨t₀, ht₀, hdone₀⟩
      · refine Or.inr ⟨h.completions msg (List.mem_of_getElem? hmsg) htype b hid, fun v => ?_⟩
        rw [← hid]
        exact nobody_of_keepsOutputs hkeeps hmsg h v

/-- There is no output file at the start. -/
theorem outputsOk_init : J.cluster.init.OutputsOk J where
  writers _ _ _ _ _ _ hphase := by cases hphase
  files _ _ hf := by cases hf
  completions _ hmem := by cases hmem
  done b t ht hdone := by
    obtain ⟨b, -, -, rfl⟩ := (makeCoordinator_reduceTasks _ _ _ _ t).mp ht
    cases hdone

/-- The step keeps a reply together with its encoding, and endangers no output file. -/
def keepsOutputsAtomic (s : Cluster) (a : Action) : Prop :=
  a.atomic = true ∧ s.keepsOutputs a = true

instance (s : Cluster) (a : Action) : Decidable (s.keepsOutputsAtomic a) :=
  inferInstanceAs (Decidable (_ ∧ _))

/-- **Along a run whose steps endanger no output file, the invariant holds.** -/
theorem outputsOk_exec (hreducef : OrderFree J.reducef) {as : List Action}
    (h : J.cluster.exec J.cluster.init as = some s)
    (hcond : J.cluster.Along keepsOutputsAtomic J.cluster.init as) : s.OutputsOk J := by
  refine (System.Along.invariant
    (P := fun s => J.cluster.Reachable s ∧ s.Assigned J ∧ s.Stored J ∧ s.OutputsOk J)
    ⟨System.Reachable.init, assigned_init, stored_init, outputsOk_init⟩ ?_ hcond h).2.2.2
  rintro s a t ⟨hreach, hassigned, hstored, hs⟩ ⟨hatomic, hkeeps⟩ hstep
  have ht := step_transition hstep
  have hreach' := hreach.step hstep
  exact ⟨hreach', hassigned.step hreach (encodesWhenDone_of_atomic s hatomic) ht,
    hstored.step hreducef hreach hreach' hassigned ht,
    hs.step hreducef hreach hreach' hassigned hstored hkeeps ht⟩

end Cluster

open Cluster in
/-- **The output of a finished reduce task is final.** In every run with atomic replies in which no
execution creates the output file of a done task, no completion is handled while an execution of the
task is in the middle of its file, no process is killed there and no line is lost: in every state in
which the reduce task of bucket `b` is done, `mr-out-b` is exactly the complete list of lines of the
bucket, and it still is in every later state; in particular in every state in which `Done` is
true. -/
theorem output_final (J : Job) (hreducef : OrderFree J.reducef) (as bs : List Action)
    (s s' : Cluster) (h : J.cluster.exec J.cluster.init as = some s)
    (h' : J.cluster.exec s bs = some s')
    (hcond : J.cluster.Along keepsOutputsAtomic J.cluster.init (as ++ bs)) :
    (∀ b t, s.coordinator.reduceTasks[J.reduceID b]? = some t → t.task.state = .done →
      s.outputs b = some (J.outputBytes b) ∧ s'.outputs b = some (J.outputBytes b)) ∧
    (s.coordinator.done = true → ∀ b < J.nReduceTasks,
      s.outputs b = some (J.outputBytes b) ∧ s'.outputs b = some (J.outputBytes b)) := by
  have hs := outputsOk_exec hreducef h hcond.left
  have hrun : J.cluster.exec J.cluster.init (as ++ bs) = some s' := by
    rw [System.exec_append, h, Option.bind_some, h']
  have hs' := outputsOk_exec hreducef hrun hcond
  have hfinal (b : ℕ) (t : ReduceTask)
      (ht : s.coordinator.reduceTasks[J.reduceID b]? = some t) (hdone : t.task.state = .done) :
      s.outputs b = some (J.outputBytes b) ∧ s'.outputs b = some (J.outputBytes b) := by
    -- a reduce task that is done stays done, so the invariant holds of it at the end as well
    obtain ⟨t', ht', hdone'⟩ := Coordinator.reduce_done_exec (coordinator_exec h') ht hdone
    exact ⟨(hs.done b t ht hdone).1, (hs'.done b t' ht' hdone').1⟩
  refine ⟨hfinal, fun hdone b hb => ?_⟩
  obtain ⟨t, ht, -⟩ := Job.exists_reduceTask (coordinator_reachable ⟨as, h⟩) hb
  exact hfinal b t ht ((Coordinator.done_iff s.coordinator).mp hdone |>.2 _ t ht)

/-- Worker 0 maps. Worker 1 gets the reduce task and reads the map output, and is slow; after the
timeout worker 2 gets the task as well, writes the output and reports it, and the job is done. -/
def slowReducer : List Action :=
  [.start 0 [10] 0, .ask 0, .requestTask 0 0 [1] [2] none, .deliver 0, .callMapf 0 [⟨[7], [1]⟩],
    .writeBucket 0, .report 0, .handleCompletion 0,
    .start 1 [11] 1, .ask 1, .requestTask 1 1 [1] [2] none, .deliver 1,
    .startReduce 1 [(1, [10])], .fetchBucket 1 0,
    .start 2 [12] 2, .ask 2, .requestTask 2 (1 + taskTimeout) [1] [2] none, .deliver 2,
    .startReduce 2 [(1, [10])], .fetchBucket 2 0, .createOutput 2 [[7]], .writeLine 2, .report 2,
    .handleCompletion 0]

open Cluster in
/-- As long as worker 1 does not go on, the output that worker 2 wrote stays. -/
theorem output_final_slowReducer :
    ∃ s s', oneBucket.cluster.exec oneBucket.cluster.init slowReducer = some s ∧
      oneBucket.cluster.exec s [.returnCall 2] = some s' ∧ s.coordinator.done = true ∧
      s.outputs 0 = some (oneBucket.outputBytes 0) ∧
      s'.outputs 0 = some (oneBucket.outputBytes 0) := by
  have hrun : ((oneBucket.cluster.exec oneBucket.cluster.init slowReducer).bind fun s =>
      (oneBucket.cluster.exec s [.returnCall 2]).map fun _ => s.coordinator.done) = some true := by
    decide +kernel
  obtain ⟨s, hs, hrun⟩ := Option.bind_eq_some_iff.mp hrun
  obtain ⟨s', hs', hdone⟩ := Option.map_eq_some_iff.mp hrun
  exact ⟨s, s', hs, hs', hdone, (output_final oneBucket
    (orderFree_length fun _ n => List.replicate n 1) slowReducer [.returnCall 2] s s' hs hs'
    (by decide +kernel)).2 hdone 0 (by decide)⟩

/-- **A finished output is truncated.** The job is done and its output file complete; then worker 1
creates the file again, and while `Done` is still true the file is empty. -/
theorem output_truncated :
    ∃ s s', oneBucket.cluster.exec oneBucket.cluster.init slowReducer = some s ∧
      oneBucket.cluster.step s (.createOutput 1 [[7]]) = some s' ∧
      s.coordinator.done = true ∧ s.outputs 0 = some (oneBucket.outputBytes 0) ∧
      s'.coordinator.done = true ∧ s'.outputs 0 = some [] ∧ oneBucket.outputBytes 0 ≠ [] := by
  have hrun : ((oneBucket.cluster.exec oneBucket.cluster.init slowReducer).bind fun s =>
      (oneBucket.cluster.step s (.createOutput 1 [[7]])).map fun s' =>
        (s.coordinator.done, s.outputs 0, s'.coordinator.done, s'.outputs 0)) =
      some (true, some (oneBucket.outputBytes 0), true, some []) := by
    decide +kernel
  obtain ⟨s, hs, hrun⟩ := Option.bind_eq_some_iff.mp hrun
  obtain ⟨s', hs', hstate⟩ := Option.map_eq_some_iff.mp hrun
  simp only [Prod.mk.injEq] at hstate
  obtain ⟨hdone, hout, hdone', hout'⟩ := hstate
  exact ⟨s, s', hs, hs', hdone, hout, hdone', hout', by decide⟩

end DistributedSystems.MapReduce
