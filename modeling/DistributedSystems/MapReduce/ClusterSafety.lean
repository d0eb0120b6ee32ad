import DistributedSystems.MapReduce.ReplyEncoding

/-! # End-to-end safety of a job

What is stored in the cluster is right: every intermediate file that exists holds its bucket of its
file, up to order; a reduce execution has collected the buckets of the map tasks it has read; and an
output is written only with all pairs of its bucket. Files may be missing at any time, through
crashes and emptied directories; nothing wrong is ever read.

* `Stored.step`, `stored_exec` — the invariant, along the runs whose assignments are complete;
* `done_reduce_written` — when the reduce task of a bucket is done, some worker has called
  `writeReducedContentsToBucketFile` with exactly the reduced contents of the bucket. -/

namespace DistributedSystems.MapReduce

open Std (TreeMap)
open Keyed (OrderFree)

/-! ## Buckets of a map task -/

namespace Job

variable (J : Job)

/-- The file of a map task. -/
def fileOf (m : TaskID) : Option GoString := J.files[(m - (J.globalID + 1)).toNat]?

@[simp] theorem fileOf_mapID (i : ℕ) : J.fileOf (J.mapID i) = J.files[i]? := by
  have hsub : J.mapID i - (J.globalID + 1) = i := by
    rw [mapID]
    ring
  rw [fileOf, hsub, Int.toNat_natCast]

/-- The pairs of a map task that belong to a bucket. -/
def bucketAt (m : TaskID) (b : ℕ) : List KeyValue := (J.fileOf m).elim [] fun file => J.bucketOf file b

/-- The buckets of all map tasks, in any order, are the pairs of the bucket. -/
theorem flatMap_bucketAt {read : List TaskID} (hread : read.Perm J.mapIDs) (b : ℕ) :
    (read.flatMap fun m => J.bucketAt m b).Perm (J.pairs b) := by
  refine (hread.flatMap_right _).trans (List.Perm.of_eq ?_)
  rw [mapIDs, List.flatMap_map, pairs, ← J.flatMap_range_files]
  simp only [bucketAt, fileOf_mapID]

/-- Some worker has called `writeReducedContentsToBucketFile` with the reduced contents of a
bucket. -/
def Written (writes : List Write) (b : ℕ) : Prop := ∃ w, ⟨w, b, J.lines b⟩ ∈ writes

/-- What a reduce execution holds: the buckets of the map tasks it has read, or an output file
created with the reduced contents. -/
def HoldsOk (writes : List Write) : Phase → Prop
  | .fetching _ data _ read contents =>
      contents.Perm (read.flatMap fun m => J.bucketAt m data.bucket)
  | .writing _ data _ _ _ => J.Written writes data.bucket
  | _ => True

variable {J}

theorem Written.mono {writes writes' : List Write} (h : writes ⊆ writes') {b : ℕ}
    (hb : J.Written writes b) : J.Written writes' b := by
  obtain ⟨w, hw⟩ := hb
  exact ⟨w, h hw⟩

theorem HoldsOk.mono {writes writes' : List Write} (h : writes ⊆ writes') {p : Phase}
    (hp : J.HoldsOk writes p) : J.HoldsOk writes' p := by
  cases p with
  | writing => exact Written.mono h hp
  | _ => exact hp

end Job

/-! ## The invariant -/

namespace Cluster

variable {J : Job} {s s' : Cluster} {a : Action} {w : ℕ}

/-- **What is stored is right.** -/
structure Stored (J : Job) (s : Cluster) : Prop where
  /-- Every intermediate file holds the bucket of its map task. -/
  files : ∀ dir m b keyValues, s.files dir (m, b) = some keyValues → keyValues.Perm (J.bucketAt m b)
  /-- Every execution holds what it has read. -/
  holds : ∀ w, J.HoldsOk s.writes (s.phase w)
  /-- A completion report of a reduce task comes after its output was written. -/
  completions : ∀ msg ∈ s.completions, msg.args.task.type = .reduce →
    ∀ b, msg.args.task.id = J.reduceID b → J.Written s.writes b
  /-- The output of a done reduce task was written. -/
  done : ∀ (id : TaskID) (t : ReduceTask), s.coordinator.reduceTasks[id]? = some t →
    t.task.state = .done → J.Written s.writes t.bucket

/-- The calls of `writeReducedContentsToBucketFile` are never forgotten. -/
theorem Transition.writes_subset (ht : s.Transition J a s') : s.writes ⊆ s'.writes := by
  cases ht with
  | createOutput => exact List.subset_append_left _ _
  | _ => exact List.Subset.refl _

/-- A reduce task is done after a step only if its output was written before the step. -/
theorem Stored.done_step (hreach : J.cluster.Reachable s) (hreach' : J.cluster.Reachable s')
    (h : s.Stored J) (ht : s.Transition J a s') {id : TaskID} {t' : ReduceTask}
    (ht' : s'.coordinator.reduceTasks[id]? = some t') (hdone : t'.task.state = .done) :
    J.Written s.writes t'.bucket := by
  rcases ht.reduce_done_cases hreach hreach' ht' hdone with
    ⟨t, hold, hstate, hbucket⟩ | ⟨i, msg, -, hmsg, htype, hid⟩
  · exact hbucket ▸ h.done id t hold hstate
  -- the report that finishes the task came after its output was written
  · obtain ⟨-, rfl, -⟩ := Job.reduceTask_spec (coordinator_reachable hreach') ht'
    exact h.completions msg (List.mem_of_getElem? hmsg) htype _ hid

/-- The invariant when one more call is recorded. -/
theorem Stored.mono_writes (h : s.Stored J) (call : Write) :
    { s with writes := s.writes ++ [call] }.Stored J where
  files := h.files
  holds v := (h.holds v).mono (List.subset_append_left _ _)
  completions msg hmem htype b hid :=
    (h.completions msg hmem htype b hid).mono (List.subset_append_left _ _)
  done id t ht hdone := (h.done id t ht hdone).mono (List.subset_append_left _ _)

/-- A worker moves to another phase. -/
theorem Stored.holds_setPhase (h : s.Stored J) {p : Phase} (hp : J.HoldsOk s.writes p) (v : ℕ) :
    J.HoldsOk s.writes ((s.setPhase w p).phase v) :=
  forall_phase_setPhase w v h.holds hp

/-- The phase of a worker, once it is known. -/
theorem Stored.holds_eq (h : s.Stored J) {p : Phase} (hphase : s.phase w = p) :
    J.HoldsOk s.writes p := hphase ▸ h.holds w

/-- The bucket that a map execution writes next is the bucket of its map task. -/
theorem bucket_perm (hassigned : s.Assigned J) {task : Task} {buckets : List (List KeyValue)}
    {next : ℕ} {keyValues : List KeyValue} (hphase : s.phase w = .storing task buckets next)
    (hnext : buckets[next]? = some keyValues) : keyValues.Perm (J.bucketAt task.id next) := by
  obtain ⟨i, file, mapped, hfile, -, hid, hperm, rfl⟩ := hassigned.phase_eq hphase
  have hlt : next < J.nReduceTasks := by
    have := (List.getElem?_eq_some_iff.mp hnext).1
    simpa using this
  rw [bucketContents_getElem? _ _ hlt] at hnext
  obtain rfl := Option.some.inj hnext
  rw [hid, Job.bucketAt, Job.fileOf_mapID, hfile]
  exact hperm.filter _

/-- **A reduce execution that has read everything writes the lines of its bucket.** -/
theorem reduced_eq_lines (hreducef : OrderFree J.reducef) (hassigned : s.Assigned J)
    (h : s.Stored J) {task : Task} {data : ReduceTaskData} {read : List TaskID}
    {contents : List KeyValue} {keyOrder : List Key}
    (hphase : s.phase w = .fetching task data [] read contents)
    (hperm : keyOrder.Perm (groupByKey contents).keys) :
    reduceContents (groupByKey contents) J.reducef keyOrder = J.lines data.bucket := by
  obtain ⟨-, hread⟩ := hassigned.phase_eq hphase
  -- nothing is left to read
  rw [List.map_nil, List.append_nil] at hread
  have hcontents := h.holds_eq hphase
  exact reduceContents_eq_of_perm hreducef (hcontents.trans (J.flatMap_bucketAt hread _)) hperm

/-- The intermediate files after a step. -/
theorem Stored.files_step (hassigned : s.Assigned J) (h : s.Stored J) (ht : s.Transition J a s') :
    ∀ dir m b keyValues, s'.files dir (m, b) = some keyValues → keyValues.Perm (J.bucketAt m b) := by
  cases ht with
  | @wipe dir =>
      intro dir' m b keyValues hfile
      -- an emptied directory has no file, the others keep theirs
      by_cases hdir : dir' = dir
      · subst hdir
        simp at hfile
      · simp only [Function.update_of_ne hdir] at hfile
        exact h.files dir' m b keyValues hfile
  | @writeBucket w task buckets next keyValues' hphase hnext =>
      intro dir m b keyValues hfile
      have hfile' : (s.storeBucket w (task.id, next) keyValues').files dir (m, b) = some keyValues :=
        hfile
      -- the new file is the bucket that was computed, and replaces at most an equal one
      rw [storeBucket_files] at hfile'
      split at hfile'
      · next hname =>
        obtain ⟨-, hname⟩ := hname
        obtain ⟨rfl, rfl⟩ := Prod.mk.inj hname
        obtain rfl := Option.some.inj hfile'
        exact bucket_perm hassigned hphase hnext
      · exact h.files dir m b keyValues hfile'
  | _ => exact h.files

/-- What the executions hold after a step. -/
theorem Stored.holds_step (hreducef : OrderFree J.reducef) (hassigned : s.Assigned J)
    (h : s.Stored J) (ht : s.Transition J a s') (v : ℕ) : J.HoldsOk s'.writes (s'.phase v) := by
  cases ht with
  | @start w address dir hphase =>
      exact forall_phase_start w v h.holds trivial address dir
  | @startReduce w order reply task data hphase hexec hperm =>
      exact h.holds_setPhase (p := .fetching task data order [] []) (List.Perm.refl []) v
  | @fetchBucket w producer task data m address todo read contents keyValues hphase hserves hfile =>
      have hcontents := h.holds_eq hphase
      -- whichever process serves the bucket, its file is right
      have hkeyValues := h.files _ m data.bucket keyValues hfile
      refine h.holds_setPhase
        (p := .fetching task data todo (read ++ [m]) (contents ++ keyValues)) ?_ v
      show (contents ++ keyValues).Perm ((read ++ [m]).flatMap fun m => J.bucketAt m data.bucket)
      rw [List.flatMap_append, List.flatMap_singleton]
      exact hcontents.append hkeyValues
  | @createOutput w keyOrder task data read contents reduced hphase hperm hreduced =>
      -- everything is read, so what is reduced are the pairs of the bucket
      rw [reduced_eq_lines hreducef hassigned h hphase hperm] at hreduced
      subst hreduced
      refine (h.mono_writes ⟨w, data.bucket, J.lines data.bucket⟩).holds_setPhase
        (w := w) (p := .writing task data read _ 0) ?_ v
      exact ⟨w, List.mem_append_right _ (List.mem_singleton_self _)⟩
  | @writeLine w task data read kv lines offset hphase =>
      have hwritten := h.holds_eq hphase
      exact h.holds_setPhase
        (p := .writing task data read lines (offset + (formatLine kv).length)) hwritten v
  | @loseLine w task data read kv lines offset hphase =>
      have hwritten := h.holds_eq hphase
      exact h.holds_setPhase (p := .writing task data read lines offset) hwritten v
  | crash | ask | deliver | deliverError | loseRequest | callMapf | writeBucket | fetchFails
  | giveUp | reportMap | reportReduce | returnCall => exact h.holds_setPhase (by trivial) v
  | _ => exact h.holds v

/-- The completion reports after a step. -/
theorem Stored.completions_step (hassigned : s.Assigned J) (h : s.Stored J)
    (ht : s.Transition J a s') {msg : Completion} (hmem : msg ∈ s'.completions)
    (htype : msg.args.task.type = .reduce) {b : ℕ} (hid : msg.args.task.id = J.reduceID b) :
    J.Written s.writes b := by
  rcases ht.reduce_completion_cases hassigned hmem htype hid with
    hold | ⟨w, task, data, read, offset, hphase, rfl⟩
  · exact h.completions msg hold htype b hid
  · exact h.holds_eq hphase

/-- **One step keeps what is stored right.** -/
theorem Stored.step (hreducef : OrderFree J.reducef) (hreach : J.cluster.Reachable s)
    (hreach' : J.cluster.Reachable s') (hassigned : s.Assigned J) (h : s.Stored J)
    (ht : s.Transition J a s') : s'.Stored J where
  files := h.files_step hassigned ht
  holds := h.holds_step hreducef hassigned ht
  completions _ hmem htype _ hid :=
    (h.completions_step hassigned ht hmem htype hid).mono ht.writes_subset
  done _ _ ht' hdone := (h.done_step hreach hreach' ht ht' hdone).mono ht.writes_subset

/-- Nothing is stored at the start. -/
theorem stored_init : J.cluster.init.Stored J where
  files _ _ _ _ hfile := by cases hfile
  holds _ := trivial
  completions _ hmem := by cases hmem
  done id t ht hdone := by
    obtain ⟨b, -, -, rfl⟩ := (makeCoordinator_reduceTasks _ _ _ id t).mp ht
    cases hdone

/-- **Along a run whose reduce replies are all encoded while every map task is done, what is stored
is right.** -/
theorem stored_exec (hreducef : OrderFree J.reducef) {as : List Action}
    (h : J.cluster.exec J.cluster.init as = some s)
    (hcond : J.cluster.Along (fun s a => s.encodesWhenDone a = true) J.cluster.init as) :
    s.Stored J := by
  refine (System.Along.invariant
    (P := fun s => J.cluster.Reachable s ∧ s.Assigned J ∧ s.Stored J)
    ⟨System.Reachable.init, assigned_init, stored_init⟩ ?_ hcond h).2.2
  rintro s a t ⟨hreach, hassigned, hs⟩ ha hstep
  have ht := step_transition hstep
  exact ⟨hreach.step hstep, hassigned.step hreach ha ht,
    hs.step hreducef hreach (hreach.step hstep) hassigned ht⟩

end Cluster

/-! ## Runs with atomic replies -/

/-- The action does not separate the decision of a reply from its encoding. -/
def Action.atomic : Action → Bool
  | .decideTask .. => false
  | .encodeReply _ => false
  | _ => true

/-- An atomic action encodes no reply late. -/
theorem encodesWhenDone_of_atomic (s : Cluster) {a : Action} (h : a.atomic = true) :
    s.encodesWhenDone a = true := by
  cases a with
  | encodeReply w => cases h
  | _ => rfl

/-- A run with atomic replies encodes no reply late. -/
theorem along_encodesWhenDone_of_atomic {J : Job} {as : List Action}
    (h : ∀ a ∈ as, a.atomic = true) :
    J.cluster.Along (fun s a => s.encodesWhenDone a = true) J.cluster.init as := by
  rw [System.along_iff]
  rintro bs a cs t rfl -
  exact encodesWhenDone_of_atomic t (h a (by simp))

/-- **End-to-end safety.** In every run with atomic replies, with any number of workers, failures,
crashes, restarts and lost, delayed or reordered reports, and a reduce function that does not depend
on the order of its values: when the reduce task of bucket `b` is done, some worker has called
`writeReducedContentsToBucketFile` for bucket `b` with the reduced contents of all pairs of the
bucket that the job's files have. -/
theorem done_reduce_written (J : Job) (hreducef : OrderFree J.reducef) (as : List Action) (s : Cluster)
    (h : J.cluster.exec J.cluster.init as = some s) (hatomic : ∀ a ∈ as, a.atomic = true) (b : ℕ)
    (t : ReduceTask) (ht : s.coordinator.reduceTasks[J.reduceID b]? = some t)
    (hdone : t.task.state = .done) :
    ∃ w, ⟨w, b, reducedContents J.reducef (J.pairs b)⟩ ∈ s.writes := by
  obtain ⟨-, hid, -⟩ := Job.reduceTask_spec (Cluster.coordinator_reachable ⟨as, h⟩) ht
  obtain rfl := J.reduceID_inj hid
  exact (Cluster.stored_exec hreducef h (along_encodesWhenDone_of_atomic hatomic)).done _ t ht hdone

/-- Worker 0 maps and is killed; worker 1 fails to fetch its output, reports it missing, maps again
and reduces both buckets. -/
def recoveringRun : List Action :=
  [.start 0 [10] 0, .ask 0, .requestTask 0 0 [1] [2, 3] none, .deliver 0, .callMapf 0 [⟨[7], [1]⟩],
    .writeBucket 0, .writeBucket 0, .report 0, .handleCompletion 0, .crash 0,
    .start 1 [11] 1, .ask 1, .requestTask 1 1 [1] [2, 3] none, .deliver 1,
    .startReduce 1 [(1, [10])], .fetchFails 1, .handleMissing 0, .returnCall 1,
    .ask 1, .requestTask 1 2 [1] [2, 3] none, .deliver 1, .callMapf 1 [⟨[7], [1]⟩],
    .writeBucket 1, .writeBucket 1, .report 1, .handleCompletion 0, .returnCall 1,
    .ask 1, .requestTask 1 (1 + taskTimeout) [1] [2, 3] none, .deliver 1,
    .startReduce 1 [(1, [11])], .fetchBucket 1 1, .createOutput 1 [[7]], .writeLine 1, .report 1,
    .handleCompletion 0]

/-- After the recovery, the output of bucket 0 was written with its one line. -/
theorem done_reduce_written_recoveringRun :
    ∃ s, twoBuckets.cluster.exec twoBuckets.cluster.init recoveringRun = some s ∧
      ∃ w, ⟨w, 0, reducedContents twoBuckets.reducef (twoBuckets.pairs 0)⟩ ∈ s.writes := by
  have hdone : ((twoBuckets.cluster.exec twoBuckets.cluster.init recoveringRun).bind fun s =>
      s.coordinator.reduceTasks[twoBuckets.reduceID 0]?.map (·.task.state)) = some .done := by
    decide +kernel
  obtain ⟨s, hs, hdone⟩ := Option.bind_eq_some_iff.mp hdone
  obtain ⟨t, ht, hstate⟩ := Option.map_eq_some_iff.mp hdone
  exact ⟨s, hs, done_reduce_written twoBuckets (orderFree_length fun _ n => List.replicate n 1)
    recoveringRun s hs (by decide) 0 t ht hstate⟩

end DistributedSystems.MapReduce
