import DistributedSystems.MapReduce.ClusterSteps

/-! # Replies and the moment they are encoded

The reply of `RequestTask` refers to the coordinator's own `MapTaskOutputs`, so that what a worker
receives is what the map holds when the reply is encoded. This module follows the assignments
through the cluster: from the reply to the encoded answer, the execution of the task and its
completion report.

* `Assigned.step`, `assigned_exec` — as long as every reduce reply is encoded while all map tasks
  are done, every assignment is one of a task of the job, and a reduce assignment lists every map
  task.
* `complete_iff_encodesWhenDone` — along a run every reduce assignment is complete, and every
  reduce task is marked done on the basis of all map outputs, exactly when every reduce reply is
  encoded while all map tasks are done.
* `incomplete_assignment` — a run in which a reset comes between the decision and the encoding. -/

namespace DistributedSystems.MapReduce

open Std (TreeMap)

namespace Job

variable (J : Job)

/-! ## Assignments of the job -/

/-- A reply of `RequestTask` that refers to tasks of the job. -/
inductive PendingOk : Reply → Prop
  /-- A map assignment, with the data of its file. -/
  | map {i : ℕ} {file : GoString} (hfile : J.files[i]? = some file) :
      PendingOk { task := .mapTask (J.mapID i)
                  mapData := some ⟨file, J.content file, J.nReduceTasks⟩ }
  /-- A reduce assignment, which refers to the producers of its task. -/
  | reduce {b : ℕ} (hb : b < J.nReduceTasks) :
      PendingOk { task := .reduceTask (J.reduceID b), reduceData := some ⟨b, J.reduceID b⟩ }
  /-- No assignment. -/
  | wait {now : Time} : PendingOk (Coordinator.waitReply now)

/-- An assignment of a reduce task of the job that lists every map task. -/
structure ReduceOk (task : Task) (data : ReduceTaskData) : Prop where
  /-- The task is a reduce task. -/
  type : task.type = .reduce
  /-- The bucket is one of the job. -/
  bucket : data.bucket < J.nReduceTasks
  /-- The task is the one of the bucket. -/
  id : task.id = J.reduceID data.bucket
  /-- Every map task has a producer. -/
  complete : data.mapTaskOutputs.keys.Perm J.mapIDs

/-- An answer that assigns a task of the job, completely, or none. -/
inductive AnswerOk : TaskReply → Prop
  /-- A map assignment, with the data of its file. -/
  | map {i : ℕ} {file : GoString} {task : Task} (hfile : J.files[i]? = some file)
      (htype : task.type = .map) (hid : task.id = J.mapID i) :
      AnswerOk ⟨some task, some ⟨file, J.content file, J.nReduceTasks⟩, none⟩
  /-- A complete reduce assignment. -/
  | reduce {task : Task} {data : ReduceTaskData} (h : J.ReduceOk task data) :
      AnswerOk ⟨some task, none, some data⟩
  /-- No assignment. -/
  | wait {task : Task} (htype : task.type = .wait) : AnswerOk ⟨some task, none, none⟩

variable {J} {c : Coordinator}

/-- A successful read of an input file returns its content. -/
theorem content_of_readFile {readErr : Option GoString} {file content : GoString}
    (h : J.readFile readErr file = .ok content) : content = J.content file := by
  cases readErr with
  | none => exact (Except.ok.inj h).symm
  | some err => cases h

/-- **What `RequestTask` replies**: an assignment of the job, and a reduce assignment only when
every map task is done. -/
theorem pendingOk_of_requestTask (h : (coordinatorSystem J.coordinator).Reachable c) {now : Time}
    {mapOrder reduceOrder : List TaskID} {readErr : Option GoString}
    (hord : (Call.requestTask mapOrder reduceOrder (J.readFile readErr)).Ordered c)
    {q : Coordinator.Requested}
    (hq : c.requestTask now mapOrder reduceOrder (J.readFile readErr) = q) (herr : q.err = none) :
    J.PendingOk q.reply ∧
      (q.reply.reduceData.isSome = true → q.coordinator.allMapTasksDoneLocked = true) := by
  rcases c.requestTask_cases now (J.readFile readErr) hord.1 hord.2 with
    ⟨id, t, ht, -, -, hreply, hnone, hread⟩ | ⟨-, -, heq⟩ | ⟨hall, id, t, ht, -, heq⟩ |
    ⟨-, -, heq⟩
  -- a map task: the reply has the content of its file, or the call fails
  · rw [hq] at hreply hnone hread
    rcases hread with ⟨err, -, -, hsome⟩ | ⟨content, hcontent, hdata, -⟩
    · rw [herr] at hsome; cases hsome
    · obtain ⟨i, hfile, rfl, -, -, hbuckets⟩ := mapTask_spec h ht
      obtain rfl := content_of_readFile hcontent
      have hform : q.reply = { task := .mapTask (J.mapID i)
                               mapData := some ⟨t.file, J.content t.file, J.nReduceTasks⟩ } := by
        cases hr : q.reply
        simp_all
      rw [hform]
      exact ⟨.map hfile, fun hsome => by cases hsome⟩
  · rw [← hq, heq]
    exact ⟨.wait, fun hsome => by cases hsome⟩
  -- a reduce task: picked only behind the check of the map tasks
  · obtain ⟨hb, hid, -⟩ := reduceTask_spec h ht
    rw [← hq, heq, hid]
    exact ⟨.reduce hb, fun _ => hall⟩
  · rw [← hq, heq]
    exact ⟨.wait, fun hsome => by cases hsome⟩

/-- **What the encoding of a reply holds**: a reply encoded while every map task is done, or one
that is no reduce assignment, is complete. -/
theorem answerOk_encode (h : (coordinatorSystem J.coordinator).Reachable c) {reply : Reply}
    (hreply : J.PendingOk reply)
    (hdone : reply.reduceData.isSome = true → c.allMapTasksDoneLocked = true) :
    J.AnswerOk (c.encode reply) := by
  cases hreply with
  | @map i file hfile =>
      have hmem : J.mapID i ∈ c.mapTasks := (mem_mapTasks_iff h _).mpr <|
        List.mem_map_of_mem (List.mem_range.mpr (List.getElem?_eq_some_iff.mp hfile).1)
      obtain ⟨t, ht⟩ := mem_iff_exists.mp hmem
      obtain ⟨-, -, -, hid, htype, -⟩ := mapTask_spec h ht
      simp only [Coordinator.encode, Coordinator.deref, ht]
      exact .map hfile htype hid
  | @reduce b hb =>
      -- the encoding reads the producers now, and now they are those of all map tasks
      obtain ⟨t, ht, hbucket⟩ := exists_reduceTask h hb
      obtain ⟨-, -, hid, htype⟩ := reduceTask_spec h ht
      simp only [Coordinator.encode, Coordinator.deref, Option.bind_some, ht, Option.map_some]
      exact .reduce ⟨htype, hb, hid, outputs_perm_of_allDone h ht (hdone rfl)⟩
  | wait => exact .wait rfl

/-- The map task that an answer makes a worker run. -/
theorem AnswerOk.runMapTask {reply : TaskReply} (h : J.AnswerOk reply) {task : Task}
    {data : MapTaskData} (hexec : executeTask reply = .runMapTask task data) :
    ∃ i file, J.files[i]? = some file ∧ task.type = .map ∧ task.id = J.mapID i ∧
      data = ⟨file, J.content file, J.nReduceTasks⟩ := by
  cases h with
  | @map i file task' hfile htype hid =>
      simp only [executeTask, htype] at hexec
      obtain ⟨rfl, rfl⟩ := Execution.runMapTask.inj hexec
      exact ⟨i, file, hfile, htype, hid, rfl⟩
  | reduce h => simp only [executeTask, h.type] at hexec; cases hexec
  | wait htype => simp only [executeTask, htype] at hexec; cases hexec

/-- The reduce task that an answer makes a worker run. -/
theorem AnswerOk.runReduceTask {reply : TaskReply} (h : J.AnswerOk reply) {task : Task}
    {data : ReduceTaskData} (hexec : executeTask reply = .runReduceTask task data) :
    J.ReduceOk task data := by
  cases h with
  | map hfile htype hid => simp only [executeTask, htype] at hexec; cases hexec
  | reduce h =>
      simp only [executeTask, h.type] at hexec
      obtain ⟨rfl, rfl⟩ := Execution.runReduceTask.inj hexec
      exact h
  | wait htype => simp only [executeTask, htype] at hexec; cases hexec

/-! ## The invariant -/

variable (J)

/-- A `RequestTask` call carries an assignment of the job. -/
def RequestOk : Request → Prop
  | .decided reply => J.PendingOk reply
  | .answered (some reply) => J.AnswerOk reply
  | _ => True

/-- A worker executes an assignment of the job. A map execution stores the buckets of its file; a
reduce execution has read, or has still to read, each map output once. -/
def PhaseOk : Phase → Prop
  | .executing reply => J.AnswerOk reply
  | .storing task buckets _ =>
      ∃ i file keyValues, J.files[i]? = some file ∧ task.type = .map ∧ task.id = J.mapID i ∧
        keyValues.Perm (J.mapped file) ∧ buckets = bucketContents J.hash keyValues J.nReduceTasks
  | .fetching task data todo read _ =>
      J.ReduceOk task data ∧ (read ++ todo.map Prod.fst).Perm J.mapIDs
  | .writing task data read _ _ => J.ReduceOk task data ∧ read.Perm J.mapIDs
  | _ => True

/-- A completion report of a reduce task names a task of the job, whose execution has read every map
output. -/
def CompletionOk (msg : Completion) : Prop :=
  msg.args.task.type = .reduce →
    (∃ b < J.nReduceTasks, msg.args.task.id = J.reduceID b) ∧ msg.read.Perm J.mapIDs

end Job

namespace Cluster

variable {J : Job} {s s' : Cluster} {a : Action} {w : ℕ}

/-- **Assignments are those of the job**, and complete, on their whole way through the cluster. -/
structure Assigned (J : Job) (s : Cluster) : Prop where
  /-- In the calls. -/
  requests : ∀ w, J.RequestOk (s.requests w)
  /-- At the workers. -/
  phases : ∀ w, J.PhaseOk (s.phase w)
  /-- In the completion reports. -/
  completions : ∀ msg ∈ s.completions, J.CompletionOk msg

/-- A reduce reply is encoded only while every map task is done. -/
def encodesWhenDone (s : Cluster) : Action → Bool
  | .encodeReply w =>
      match s.requests w with
      | .decided reply => !reply.reduceData.isSome || s.coordinator.allMapTasksDoneLocked
      | _ => true
  | _ => true

theorem allDone_of_encodesWhenDone (h : s.encodesWhenDone (.encodeReply w) = true) {reply : Reply}
    (hrequest : s.requests w = .decided reply) (hsome : reply.reduceData.isSome = true) :
    s.coordinator.allMapTasksDoneLocked = true := by
  simpa [encodesWhenDone, hrequest, hsome] using h

theorem Assigned.setPhase (h : s.Assigned J) {p : Phase} (hp : J.PhaseOk p) :
    (s.setPhase w p).Assigned J where
  requests := h.requests
  phases v := forall_phase_setPhase w v h.phases hp
  completions := h.completions

theorem Assigned.setRequest (h : s.Assigned J) {r : Request} (hr : J.RequestOk r) :
    (s.setRequest w r).Assigned J where
  requests v := forall_setRequest w v h.requests hr
  phases := h.phases
  completions := h.completions

/-- The invariant does not mention the coordinator. -/
theorem Assigned.withCoordinator (h : s.Assigned J) (c : Coordinator) :
    { s with coordinator := c }.Assigned J := ⟨h.requests, h.phases, h.completions⟩

/-- The phase of a worker, once it is known. -/
theorem Assigned.phase_eq (h : s.Assigned J) {p : Phase} (hphase : s.phase w = p) : J.PhaseOk p :=
  hphase ▸ h.phases w

/-- A report is added to the network. -/
theorem Assigned.report (h : s.Assigned J) {msg : Completion} (hmsg : J.CompletionOk msg) :
    { s.setPhase w .reporting with completions := s.completions ++ [msg] }.Assigned J where
  requests := h.requests
  phases := (h.setPhase (w := w) (p := .reporting) trivial).phases
  completions msg' hmem := by
    rcases List.mem_append.mp hmem with hmem | hmem
    · exact h.completions msg' hmem
    · rw [List.mem_singleton.mp hmem]
      exact hmsg

/-- **One step keeps the assignments complete**, if it does not encode a reduce reply while some map
task is not done. -/
theorem Assigned.step (hreach : J.cluster.Reachable s) (h : s.Assigned J)
    (hcond : s.encodesWhenDone a = true) (ht : s.Transition J a s') : s'.Assigned J := by
  have hc := coordinator_reachable hreach
  cases ht with
  | @start w address dir hphase =>
      exact ⟨h.requests, fun v => forall_phase_start w v h.phases trivial address dir, h.completions⟩
  | crash => exact h.setPhase trivial
  | wipe => exact ⟨h.requests, h.phases, h.completions⟩
  | ask => exact (h.setPhase (p := .asking) trivial).setRequest trivial
  | @requestTask w now mapOrder reduceOrder readErr hrequest hmain hord q hq =>
      refine (h.withCoordinator q.coordinator).setRequest ?_
      cases herr : q.err with
      | some err => simp only [Coordinator.Requested.answer, herr, Job.RequestOk]
      | none =>
          obtain ⟨hreply, hdone⟩ := Job.pendingOk_of_requestTask hc hord hq herr
          -- the reply is encoded in the state that the handler leaves
          have hc' : (coordinatorSystem J.coordinator).Reachable q.coordinator :=
            hc.step (a := ⟨now, .requestTask mapOrder reduceOrder (J.readFile readErr)⟩)
              (coordinatorSystem_step.mpr ⟨hord, by rw [Coordinator.handle_requestTask, hq]⟩)
          simp only [Coordinator.Requested.answer, herr, Job.RequestOk]
          exact Job.answerOk_encode hc' hreply hdone
  | @decideTask w now mapOrder reduceOrder readErr hrequest hmain hord q hq =>
      refine (h.withCoordinator q.coordinator).setRequest ?_
      cases herr : q.err with
      | some err => simp only [Coordinator.Requested.decided, herr, Job.RequestOk]
      | none =>
          simp only [Coordinator.Requested.decided, herr, Job.RequestOk]
          exact (Job.pendingOk_of_requestTask hc hord hq herr).1
  | @encodeReply w reply hrequest =>
      have hreply := h.requests w
      rw [hrequest] at hreply
      -- the one step for which the condition on the run is needed
      exact h.setRequest
        (Job.answerOk_encode hc hreply (allDone_of_encodesWhenDone hcond hrequest))
  | @deliver w reply hphase hrequest =>
      have hreply := h.requests w
      rw [hrequest] at hreply
      exact (h.setPhase (p := .executing reply) hreply).setRequest trivial
  | deliverError => exact (h.setPhase (p := .returned) trivial).setRequest trivial
  | loseRequest => exact h.setPhase trivial
  | @callMapf w keyValues reply task data hphase hexec hperm =>
      obtain ⟨i, file, hfile, htype, hid, rfl⟩ :=
        Job.AnswerOk.runMapTask (h.phase_eq hphase) hexec
      exact h.setPhase ⟨i, file, keyValues, hfile, htype, hid, hperm, rfl⟩
  | @writeBucket w task buckets next keyValues hphase hnext =>
      have hstore : (s.storeBucket w (task.id, next) keyValues).Assigned J :=
        ⟨h.requests, h.phases, h.completions⟩
      have hok := h.phase_eq hphase
      exact hstore.setPhase hok
  | @startReduce w order reply task data hphase hexec hperm =>
      have hreduce := Job.AnswerOk.runReduceTask (h.phase_eq hphase) hexec
      refine h.setPhase ⟨hreduce, ?_⟩
      rw [List.nil_append]
      refine (hperm.map Prod.fst).trans ?_
      rw [TreeMap.map_fst_toList_eq_keys]
      exact hreduce.complete
  | @fetchBucket w producer task data m address todo read contents keyValues hphase =>
      obtain ⟨hreduce, hperm⟩ := h.phase_eq hphase
      refine h.setPhase ⟨hreduce, ?_⟩
      -- the map output moves from those to read to those read
      rw [List.append_assoc]
      exact hperm
  | @fetchFails w =>
      have hrep := h.setPhase (w := w) (p := .reporting) trivial
      exact ⟨hrep.requests, hrep.phases, hrep.completions⟩
  | @createOutput w keyOrder task data read contents reduced hphase =>
      obtain ⟨hreduce, hperm⟩ := h.phase_eq hphase
      rw [List.map_nil, List.append_nil] at hperm
      have hwrite := h.setPhase (w := w) (p := .writing task data read reduced 0) ⟨hreduce, hperm⟩
      exact ⟨hwrite.requests, hwrite.phases, hwrite.completions⟩
  | @writeLine w task data read kv lines offset hphase =>
      have hok := h.phase_eq hphase
      have hwrite := h.setPhase (w := w)
        (p := .writing task data read lines (offset + (formatLine kv).length)) hok
      exact ⟨hwrite.requests, hwrite.phases, hwrite.completions⟩
  | loseLine hphase =>
      have hok := h.phase_eq hphase
      exact h.setPhase hok
  | giveUp => exact h.setPhase trivial
  | @reportMap w task buckets hphase =>
      -- a map execution reports a map task, which the invariant does not constrain
      refine h.report fun htype => ?_
      obtain ⟨i, file, keyValues, -, hmap, -⟩ := h.phase_eq hphase
      rw [show task.type = .reduce from htype] at hmap
      cases hmap
  | @reportReduce w task data read offset hphase =>
      obtain ⟨hreduce, hperm⟩ := h.phase_eq hphase
      exact h.report fun _ => ⟨⟨data.bucket, hreduce.bucket, hreduce.id⟩, hperm⟩
  | returnCall => exact h.setPhase trivial
  | handleCompletion =>
      exact ⟨h.requests, h.phases, fun msg hmem => h.completions msg (List.mem_of_mem_eraseIdx hmem)⟩
  | handleMissing => exact ⟨h.requests, h.phases, h.completions⟩
  | pollDone => exact ⟨h.requests, h.phases, h.completions⟩
  | exit => exact ⟨h.requests, h.phases, h.completions⟩

/-- Where a completion report of a reduce task comes from: an execution of the task that has written
its output. -/
theorem Transition.reduce_completion_cases (ht : s.Transition J a s') (h : s.Assigned J)
    {msg : Completion} (hmem : msg ∈ s'.completions) (htype : msg.args.task.type = .reduce) {b : ℕ}
    (hid : msg.args.task.id = J.reduceID b) :
    msg ∈ s.completions ∨
      ∃ w task data read offset, s.phase w = .writing task data read [] offset ∧ data.bucket = b := by
  cases ht with
  | @reportMap w task buckets hphase =>
      refine (List.mem_append.mp hmem).imp_right fun hmem => ?_
      obtain ⟨i, file, keyValues, -, hmap, -⟩ := h.phase_eq hphase
      rw [List.mem_singleton.mp hmem] at htype
      rw [show task.type = .reduce from htype] at hmap
      cases hmap
  | @reportReduce w task data read offset hphase =>
      refine (List.mem_append.mp hmem).imp_right fun hmem => ?_
      obtain ⟨hreduce, -⟩ := h.phase_eq hphase
      rw [List.mem_singleton.mp hmem] at hid
      exact ⟨w, task, data, read, offset, hphase, J.reduceID_inj (hreduce.id.symm.trans hid)⟩
  | handleCompletion => exact Or.inl (List.mem_of_mem_eraseIdx hmem)
  | _ => exact Or.inl hmem

/-- Nothing is assigned at the start. -/
theorem assigned_init : J.cluster.init.Assigned J where
  requests _ := trivial
  phases _ := trivial
  completions msg hmem := by cases hmem

/-- **Along a run whose reduce replies are all encoded while every map task is done, the assignments
are complete.** -/
theorem assigned_exec {as : List Action} (h : J.cluster.exec J.cluster.init as = some s)
    (hcond : J.cluster.Along (fun s a => s.encodesWhenDone a = true) J.cluster.init as) :
    s.Assigned J := by
  refine (System.Along.invariant (P := fun s => J.cluster.Reachable s ∧ s.Assigned J)
    ⟨System.Reachable.init, assigned_init⟩ ?_ hcond h).2
  rintro s a t ⟨hreach, hs⟩ ha hstep
  exact ⟨hreach.step hstep, hs.step hreach ha (step_transition hstep)⟩

/-- Where a reply that waits to be encoded comes from. -/
theorem Transition.decided (hreach : J.cluster.Reachable s) (ht : s.Transition J a s')
    {reply : Reply} (hrequest : s'.requests w = .decided reply) :
    s.requests w = .decided reply ∨ J.PendingOk reply := by
  cases ht with
  | @decideTask v now mapOrder reduceOrder readErr hsent hmain hord q hq =>
      rw [setRequest_requests] at hrequest
      split at hrequest
      · refine Or.inr ?_
        cases herr : q.err with
        | some err => simp [Coordinator.Requested.decided, herr] at hrequest
        | none =>
            simp only [Coordinator.Requested.decided, herr, Request.decided.injEq] at hrequest
            exact hrequest ▸
              (Job.pendingOk_of_requestTask (coordinator_reachable hreach) hord hq herr).1
      · exact Or.inl hrequest
  | ask | requestTask | encodeReply | deliver | deliverError =>
      rw [setRequest_requests] at hrequest
      split at hrequest
      · cases hrequest
      · exact Or.inl hrequest
  | _ => exact Or.inl hrequest

/-- A reply that waits to be encoded refers to tasks of the job, in every reachable state. -/
theorem pendingOk_of_reachable (h : J.cluster.Reachable s) {reply : Reply}
    (hrequest : s.requests w = .decided reply) : J.PendingOk reply := by
  revert w reply
  refine h.invariant (P := fun s => ∀ {w reply}, s.requests w = .decided reply → J.PendingOk reply)
    (fun hrequest => by cases hrequest) ?_
  intro s a t hreach ih hstep w reply hrequest
  rcases (step_transition hstep).decided hreach hrequest with hold | hnew
  · exact ih hold
  · exact hnew

/-! ## Complete assignments -/

/-- An assignment lists a producer for every map task of the job. -/
def Complete (J : Job) (data : ReduceTaskData) : Prop := ∀ m ∈ J.mapIDs, m ∈ data.mapTaskOutputs

/-- Every reduce assignment that is on its way to a worker is complete, in every state of the
run. -/
def DeliversComplete (J : Job) (as : List Action) : Prop :=
  ∀ bs cs s, as = bs ++ cs → J.cluster.exec J.cluster.init bs = some s →
    ∀ w reply data, s.requests w = .answered (some reply) → reply.reduceData = some data →
      Complete J data

/-- Every step of the run that marks a reduce task done handles a report of an execution that has
read the outputs of all map tasks. -/
def FinishesOnAllOutputs (J : Job) (as : List Action) : Prop :=
  ∀ bs a cs s s', as = bs ++ a :: cs → J.cluster.exec J.cluster.init bs = some s →
    s.step J a = some s' → ∀ (id : TaskID) (t t' : ReduceTask),
      s.coordinator.reduceTasks[id]? = some t → t.task.state ≠ .done →
      s'.coordinator.reduceTasks[id]? = some t' → t'.task.state = .done →
      ∃ i msg, a = .handleCompletion i ∧ s.completions[i]? = some msg ∧
        msg.args.task.id = id ∧ ∀ m ∈ J.mapIDs, m ∈ msg.read

/-- An answer of the job that assigns a reduce task lists every map task. -/
theorem complete_of_answerOk {reply : TaskReply} (h : J.AnswerOk reply) {data : ReduceTaskData}
    (hdata : reply.reduceData = some data) : Complete J data := by
  cases h with
  | map => cases hdata
  | reduce h =>
      obtain rfl := Option.some.inj hdata
      exact fun m hm => TreeMap.mem_keys.mp (h.complete.mem_iff.mpr hm)
  | wait => cases hdata

/-- A reduce reply whose encoding is complete was encoded while every map task was done. -/
theorem allDone_of_encode_complete (hreach : J.cluster.Reachable s) {reply : Reply}
    (hreply : J.PendingOk reply) (hsome : reply.reduceData.isSome = true)
    (hcomplete : ∀ data, (s.coordinator.encode reply).reduceData = some data → Complete J data) :
    s.coordinator.allMapTasksDoneLocked = true := by
  have hc := coordinator_reachable hreach
  cases hreply with
  | map => cases hsome
  | @reduce b hb =>
      obtain ⟨t, ht, -⟩ := Job.exists_reduceTask hc hb
      refine Job.allDone_of_outputs hc ht (hcomplete ⟨b, t.mapTaskOutputs⟩ ?_)
      simp only [Coordinator.encode, Option.bind_some, ht, Option.map_some]
  | wait => cases hsome

/-- An encoding whose answer is complete, if it assigns a reduce task, happens while every map task
is done. -/
theorem encodesWhenDone_of_complete (hreach : J.cluster.Reachable s)
    (ht : s.Transition J (.encodeReply w) s')
    (hcomplete : ∀ reply data, s'.requests w = .answered (some reply) →
      reply.reduceData = some data → Complete J data) : s.encodesWhenDone (.encodeReply w) = true := by
  cases ht with
  | @encodeReply _ reply hrequest =>
      simp only [encodesWhenDone, hrequest, Bool.or_eq_true, Bool.not_eq_true']
      by_cases hsome : reply.reduceData.isSome = true
      · refine Or.inr (allDone_of_encode_complete hreach (pendingOk_of_reachable hreach hrequest) hsome
          fun data hdata => hcomplete _ data ?_ hdata)
        rw [setRequest_requests, if_pos rfl]
      · exact Or.inl (by simpa using hsome)

end Cluster

open Cluster in
/-- **Complete assignments, exactly.** Along a run of the cluster, every reduce assignment that is
sent to a worker lists a producer for every map task, and every reduce task is marked done on the
basis of the outputs of all map tasks, if and only if every reduce reply is encoded while every map
task is done. -/
theorem complete_iff_encodesWhenDone (J : Job) (as : List Action) (s : Cluster)
    (h : J.cluster.exec J.cluster.init as = some s) :
    J.cluster.Along (fun s a => s.encodesWhenDone a = true) J.cluster.init as ↔
      DeliversComplete J as ∧ FinishesOnAllOutputs J as := by
  constructor
  -- the condition gives the invariant in every state of the run
  · intro hcond
    constructor
    · rintro bs cs t rfl ht w reply data hrequest hdata
      have hreply := (assigned_exec ht hcond.left).requests w
      rw [hrequest] at hreply
      exact complete_of_answerOk hreply hdata
    · rintro bs a cs t t' rfl ht hstep id rt rt' hrt hne hrt' hdone
      obtain ⟨i, msg, rfl, hmsg, htype, hid⟩ :=
        (step_transition hstep).finishes_reduce hrt hne hrt' hdone
      have hread := ((assigned_exec ht hcond.left).completions msg (List.mem_of_getElem? hmsg) htype).2
      exact ⟨i, msg, rfl, hmsg, hid, fun m hm => hread.mem_iff.mpr hm⟩
  · rintro ⟨hdeliver, -⟩
    -- only encodings matter, and a complete one happens while every map task is done
    rw [System.along_iff]
    rintro bs a cs t rfl ht
    cases a with
    | encodeReply w =>
        obtain ⟨t', u, ht', hstep, -⟩ := System.exec_split h
        obtain rfl : t = t' := Option.some.inj (ht.symm.trans ht')
        exact encodesWhenDone_of_complete ⟨bs, ht⟩ (step_transition hstep)
          (hdeliver (bs ++ [.encodeReply w]) cs u (by simp) (System.exec_concat ht hstep) w)
    | _ => rfl

/-- Two buckets over one file, whose only pair belongs to bucket 0. -/
def twoBuckets : Job where
  files := [[1]]
  nReduceTasks := 2
  content _ := [7]
  mapf _ content := [⟨content, [1]⟩]
  reducef _ values := List.replicate values.length 1

example : twoBuckets.lines 0 = [⟨[7], [1]⟩] ∧ twoBuckets.lines 1 = [] := by decide

/-- One bucket over the same file. -/
def oneBucket : Job := { twoBuckets with nReduceTasks := 1 }

/-- Worker 0 runs the map task and the reduce task of bucket 0, with every reply encoded after the
call that decided it. -/
def completeRun : List Action :=
  [.start 0 [10] 0, .ask 0, .decideTask 0 0 [1] [2, 3] none, .encodeReply 0, .deliver 0,
    .callMapf 0 [⟨[7], [1]⟩], .writeBucket 0, .writeBucket 0, .report 0, .handleCompletion 0,
    .returnCall 0, .ask 0, .decideTask 0 1 [1] [2, 3] none, .encodeReply 0, .deliver 0,
    .startReduce 0 [(1, [10])], .fetchBucket 0 0, .createOutput 0 [[7]], .writeLine 0, .report 0,
    .handleCompletion 0]

open Cluster in
/-- In the run of one worker, every reduce reply is encoded while the map task is done. -/
theorem complete_iff_encodesWhenDone_completeRun :
    DeliversComplete twoBuckets completeRun ∧ FinishesOnAllOutputs twoBuckets completeRun :=
  (complete_iff_encodesWhenDone twoBuckets completeRun _ rfl).mp (by decide)

/-! ## A reset between the decision and the encoding -/

/-- Worker 0 runs the map task. Worker 1 is to reduce bucket 1, but worker 0 is gone, and it reports
the map output missing. The coordinator decides to let worker 2 reduce bucket 0, handles the report,
and then encodes the reply to worker 2. -/
def resetBeforeEncoding : List Action :=
  [.start 0 [10] 0, .ask 0, .requestTask 0 0 [1] [2, 3] none, .deliver 0, .callMapf 0 [⟨[7], [1]⟩],
    .writeBucket 0, .writeBucket 0, .report 0, .handleCompletion 0,
    .start 1 [11] 1, .ask 1, .requestTask 1 1 [1] [3, 2] none, .deliver 1,
    .startReduce 1 [(1, [10])], .crash 0, .fetchFails 1,
    .start 2 [12] 2, .ask 2, .decideTask 2 2 [1] [2, 3] none, .handleMissing 0, .encodeReply 2]

/-- Worker 2 reads no map output, writes an empty output and reports its task complete. -/
def reduceNothing : List Action :=
  [.deliver 2, .startReduce 2 [], .createOutput 2 [], .report 2]

open Cluster in
/-- **An incomplete assignment.** The reply to worker 2 lists no producer, and bucket 0 is marked
done on the basis of no map output at all, although the job has a pair in it. -/
theorem incomplete_assignment :
    (∃ s, twoBuckets.cluster.exec twoBuckets.cluster.init
      (resetBeforeEncoding ++ reduceNothing ++ [.handleCompletion 0]) = some s ∧
      s.writes = [⟨2, 0, []⟩]) ∧ twoBuckets.lines 0 ≠ [] ∧
    ¬ DeliversComplete twoBuckets resetBeforeEncoding ∧
    ¬ FinishesOnAllOutputs twoBuckets
      (resetBeforeEncoding ++ reduceNothing ++ [.handleCompletion 0]) := by
  refine ⟨⟨_, rfl, rfl⟩, by decide, fun h => ?_, fun h => ?_⟩
  -- the answer to worker 2 does not list map task 1
  · have hmem := h resetBeforeEncoding [] _ (by simp) rfl 2 _ _ rfl rfl 1 (by decide)
    revert hmem
    decide
  -- the report of worker 2 marks task 2 done, and has read nothing
  · obtain ⟨i, msg, hi, hmsg, -, hread⟩ := h (resetBeforeEncoding ++ reduceNothing)
      (.handleCompletion 0) [] _ _ rfl rfl rfl 2 _ _ rfl (by decide) rfl rfl
    obtain rfl := Action.handleCompletion.inj hi
    obtain rfl := Option.some.inj hmsg
    exact absurd (hread 1 (by decide)) List.not_mem_nil

end DistributedSystems.MapReduce
