import DistributedSystems.MapReduce.Cluster
import DistributedSystems.MapReduce.CoordinatorBookkeeping

/-! # What each step of the cluster does

`Transition` lists the steps with what they require and what they leave; `step_transition` is the
inversion of the step function that all invariants use, and `Transition.step` its converse.
`coordinator_exec` projects a run of the cluster to a run of the coordinator, so that the bookkeeping
of the coordinator holds in every state of the cluster. -/

namespace DistributedSystems.MapReduce

open Std (TreeMap)

namespace Cluster

/-! ## Updates -/

section Updates

variable (s : Cluster) (w v : ℕ)

theorem setPhase_phase (p : Phase) : (s.setPhase w p).phase v = if v = w then p else s.phase v := by
  simp only [phase, setPhase, Function.update_apply]
  split <;> rfl

theorem start_phase (address : GoString) (dir : ℕ) :
    { s with
      workers := Function.update s.workers w ⟨address, dir, .idle⟩ }.phase v =
      if v = w then .idle else s.phase v := by
  simp only [phase, Function.update_apply]
  split <;> rfl

theorem setRequest_requests (r : Request) :
    (s.setRequest w r).requests v = if v = w then r else s.requests v := by
  simp only [setRequest, Function.update_apply]

variable {s} in
/-- What holds of every phase and of the new phase of a worker, holds after the worker moves. -/
theorem forall_phase_setPhase {P : Phase → Prop} (h : ∀ v, P (s.phase v)) {p : Phase} (hp : P p) :
    P ((s.setPhase w p).phase v) := by
  rw [setPhase_phase]
  split
  · exact hp
  · exact h v

variable {s} in
/-- What holds of every phase and of an idle worker, holds after a worker starts. -/
theorem forall_phase_start {P : Phase → Prop} (h : ∀ v, P (s.phase v)) (hidle : P .idle)
    (address : GoString) (dir : ℕ) :
    P ({ s with
      workers := Function.update s.workers w ⟨address, dir, .idle⟩ }.phase v) := by
  rw [start_phase]
  split
  · exact hidle
  · exact h v

variable {s} in
/-- What holds of every call and of the new state of a call, holds after the call changes. -/
theorem forall_setRequest {P : Request → Prop} (h : ∀ v, P (s.requests v)) {r : Request} (hr : P r) :
    P ((s.setRequest w r).requests v) := by
  rw [setRequest_requests]
  split
  · exact hr
  · exact h v

theorem storeBucket_files (name : TaskID × ℕ) (keyValues : List KeyValue) (dir : ℕ)
    (name' : TaskID × ℕ) :
    (s.storeBucket w name keyValues).files dir name' =
      if dir = (s.workers w).dir ∧ name' = name then some keyValues else s.files dir name' := by
  simp only [storeBucket, Function.update_apply]
  by_cases hdir : dir = (s.workers w).dir
  · subst hdir
    simp [Function.update_apply]
  · simp [hdir]

theorem setOutput_outputs (b : ℕ) (bytes : List Byte) (b' : ℕ) :
    (s.setOutput b bytes).outputs b' = if b' = b then some bytes else s.outputs b' := by
  simp only [setOutput, Function.update_apply]

end Updates

/-! ## The inversion of a step -/

/-- **The steps of the cluster**: what each action requires, and the state it leaves. -/
inductive Transition (J : Job) (s : Cluster) : Action → Cluster → Prop
  | start {w : ℕ} {address : GoString} {dir : ℕ} (hphase : s.phase w = .absent) :
      Transition J s (.start w address dir) { s with
        workers := Function.update s.workers w { address := address, dir := dir, phase := .idle } }
  | crash {w : ℕ} (halive : (s.phase w).alive = true) :
      Transition J s (.crash w) (s.setPhase w .dead)
  | wipe {dir : ℕ} :
      Transition J s (.wipe dir) { s with files := Function.update s.files dir fun _ => none }
  | ask {w : ℕ} (hphase : s.phase w = .idle) :
      Transition J s (.ask w) ((s.setPhase w .asking).setRequest w .sent)
  | requestTask {w : ℕ} {now : Time} {mapOrder reduceOrder : List TaskID} {readErr : Option GoString}
      (hrequest : s.requests w = .sent) (hmain : s.main ≠ .exited)
      (hord : (Call.requestTask mapOrder reduceOrder (J.readFile readErr)).Ordered s.coordinator)
      {q : Coordinator.Requested}
      (hq : s.coordinator.requestTask now mapOrder reduceOrder (J.readFile readErr) = q) :
      Transition J s (.requestTask w now mapOrder reduceOrder readErr)
        ({ s with coordinator := q.coordinator }.setRequest w (.answered q.answer))
  | decideTask {w : ℕ} {now : Time} {mapOrder reduceOrder : List TaskID} {readErr : Option GoString}
      (hrequest : s.requests w = .sent) (hmain : s.main ≠ .exited)
      (hord : (Call.requestTask mapOrder reduceOrder (J.readFile readErr)).Ordered s.coordinator)
      {q : Coordinator.Requested}
      (hq : s.coordinator.requestTask now mapOrder reduceOrder (J.readFile readErr) = q) :
      Transition J s (.decideTask w now mapOrder reduceOrder readErr)
        ({ s with coordinator := q.coordinator }.setRequest w q.decided)
  | encodeReply {w : ℕ} {reply : Reply} (hrequest : s.requests w = .decided reply)
      (hmain : s.main ≠ .exited) :
      Transition J s (.encodeReply w)
        (s.setRequest w (.answered (some (s.coordinator.encode reply))))
  | deliver {w : ℕ} {reply : TaskReply} (hphase : s.phase w = .asking)
      (hrequest : s.requests w = .answered (some reply)) :
      Transition J s (.deliver w) ((s.setPhase w (.executing reply)).setRequest w .none)
  | deliverError {w : ℕ} (hphase : s.phase w = .asking) (hrequest : s.requests w = .answered none) :
      Transition J s (.deliver w) ((s.setPhase w .returned).setRequest w .none)
  | loseRequest {w : ℕ} (hphase : s.phase w = .asking) :
      Transition J s (.loseRequest w) (s.setPhase w .returned)
  | callMapf {w : ℕ} {keyValues : List KeyValue} {reply : TaskReply} {task : Task}
      {data : MapTaskData} (hphase : s.phase w = .executing reply)
      (hexec : executeTask reply = .runMapTask task data)
      (hperm : keyValues.Perm (J.mapf data.key data.content))
      (hbuckets : data.buckets = 0 → keyValues = []) :
      Transition J s (.callMapf w keyValues)
        (s.setPhase w (.storing task (bucketContents J.hash keyValues data.buckets) 0))
  | writeBucket {w : ℕ} {task : Task} {buckets : List (List KeyValue)} {next : ℕ}
      {keyValues : List KeyValue} (hphase : s.phase w = .storing task buckets next)
      (hnext : buckets[next]? = some keyValues) :
      Transition J s (.writeBucket w) ((s.storeBucket w (task.id, next) keyValues).setPhase w
        (.storing task buckets (next + 1)))
  | startReduce {w : ℕ} {order : List (TaskID × GoString)} {reply : TaskReply} {task : Task}
      {data : ReduceTaskData} (hphase : s.phase w = .executing reply)
      (hexec : executeTask reply = .runReduceTask task data)
      (hperm : order.Perm data.mapTaskOutputs.toList) :
      Transition J s (.startReduce w order) (s.setPhase w (.fetching task data order [] []))
  | fetchBucket {w producer : ℕ} {task : Task} {data : ReduceTaskData} {m : TaskID}
      {address : GoString} {todo : List (TaskID × GoString)} {read : List TaskID}
      {contents keyValues : List KeyValue}
      (hphase : s.phase w = .fetching task data ((m, address) :: todo) read contents)
      (hserves : s.Serves w address producer)
      (hfile : s.files (s.workers producer).dir (m, data.bucket) = some keyValues) :
      Transition J s (.fetchBucket w producer)
        (s.setPhase w (.fetching task data todo (read ++ [m]) (contents ++ keyValues)))
  | fetchFails {w : ℕ} {task : Task} {data : ReduceTaskData} {m : TaskID} {address : GoString}
      {todo : List (TaskID × GoString)} {read : List TaskID} {contents : List KeyValue}
      (hphase : s.phase w = .fetching task data ((m, address) :: todo) read contents) :
      Transition J s (.fetchFails w)
        { s.setPhase w .reporting with missing := s.missing ++ [⟨⟨m⟩, address⟩] }
  | createOutput {w : ℕ} {keyOrder : List Key} {task : Task} {data : ReduceTaskData}
      {read : List TaskID} {contents reduced : List KeyValue}
      (hphase : s.phase w = .fetching task data [] read contents)
      (hperm : keyOrder.Perm (groupByKey contents).keys)
      (hreduced : reduceContents (groupByKey contents) J.reducef keyOrder = reduced) :
      Transition J s (.createOutput w keyOrder)
        { (s.setOutput data.bucket []).setPhase w (.writing task data read reduced 0) with
          writes := s.writes ++ [⟨w, data.bucket, reduced⟩] }
  | writeLine {w : ℕ} {task : Task} {data : ReduceTaskData} {read : List TaskID} {kv : KeyValue}
      {lines : List KeyValue} {offset : ℕ}
      (hphase : s.phase w = .writing task data read (kv :: lines) offset) :
      Transition J s (.writeLine w)
        ((s.setOutput data.bucket (ByteFile.writeAt 0 ((s.outputs data.bucket).getD []) offset
          (formatLine kv))).setPhase w
            (.writing task data read lines (offset + (formatLine kv).length)))
  | loseLine {w : ℕ} {task : Task} {data : ReduceTaskData} {read : List TaskID} {kv : KeyValue}
      {lines : List KeyValue} {offset : ℕ}
      (hphase : s.phase w = .writing task data read (kv :: lines) offset) :
      Transition J s (.loseLine w) (s.setPhase w (.writing task data read lines offset))
  | giveUp {w : ℕ} (hphase : (s.phase w).mayGiveUp = true) :
      Transition J s (.giveUp w) (s.setPhase w .idle)
  | reportMap {w : ℕ} {task : Task} {buckets : List (List KeyValue)}
      (hphase : s.phase w = .storing task buckets buckets.length) :
      Transition J s (.report w) { s.setPhase w .reporting with
        completions := s.completions ++ [⟨⟨task, (s.workers w).address⟩, []⟩] }
  | reportReduce {w : ℕ} {task : Task} {data : ReduceTaskData} {read : List TaskID} {offset : ℕ}
      (hphase : s.phase w = .writing task data read [] offset) :
      Transition J s (.report w) { s.setPhase w .reporting with
        completions := s.completions ++ [⟨⟨task, (s.workers w).address⟩, read⟩] }
  | returnCall {w : ℕ} (hphase : s.phase w = .reporting) :
      Transition J s (.returnCall w) (s.setPhase w .idle)
  | handleCompletion {i : ℕ} {msg : Completion} (hmsg : s.completions[i]? = some msg)
      (hmain : s.main ≠ .exited) :
      Transition J s (.handleCompletion i)
        { s with coordinator := s.coordinator.reportTaskCompletion msg.args
                 completions := s.completions.eraseIdx i }
  | handleMissing {i : ℕ} {msg : Missing} (hmsg : s.missing[i]? = some msg)
      (hmain : s.main ≠ .exited) :
      Transition J s (.handleMissing i)
        { s with coordinator := s.coordinator.reportMissingMapOutputs msg.args
                 missing := s.missing.eraseIdx i }
  | pollDone (hmain : s.main = .polling) (hdone : s.coordinator.done = true) :
      Transition J s .pollDone { s with main := .leaving }
  | exit (hmain : s.main = .leaving) : Transition J s .exit { s with main := .exited }

/-- Every step of the cluster is one of the transitions. -/
theorem step_transition {J : Job} {s s' : Cluster} {a : Action} (h : s.step J a = some s') :
    s.Transition J a s' := by
  cases a with
  | start w address dir =>
      simp only [step] at h
      split at h
      · next hphase => cases h; exact .start hphase
      · cases h
  | crash w =>
      simp only [step] at h
      split at h
      · next halive => cases h; exact .crash halive
      · cases h
  | wipe dir => cases h; exact .wipe
  | ask w =>
      simp only [step] at h
      split at h
      · next hphase => cases h; exact .ask hphase
      · cases h
  | requestTask w now mapOrder reduceOrder readErr =>
      simp only [step] at h
      split at h
      · next hrequest =>
        split at h
        · next hcond => cases h; exact .requestTask hrequest hcond.1 hcond.2 rfl
        · cases h
      · cases h
  | decideTask w now mapOrder reduceOrder readErr =>
      simp only [step] at h
      split at h
      · next hrequest =>
        split at h
        · next hcond => cases h; exact .decideTask hrequest hcond.1 hcond.2 rfl
        · cases h
      · cases h
  | encodeReply w =>
      simp only [step] at h
      split at h
      · next hrequest =>
        split at h
        · next hmain => cases h; exact .encodeReply hrequest hmain
        · cases h
      · cases h
  | deliver w =>
      simp only [step] at h
      split at h
      · next hphase hrequest => cases h; exact .deliver hphase hrequest
      · next hphase hrequest => cases h; exact .deliverError hphase hrequest
      · cases h
  | loseRequest w =>
      simp only [step] at h
      split at h
      · next hphase => cases h; exact .loseRequest hphase
      · cases h
  | callMapf w keyValues =>
      simp only [step] at h
      split at h
      · next hphase =>
        split at h
        · next hexec =>
          split at h
          · next hcond => cases h; exact .callMapf hphase hexec hcond.1 hcond.2
          · cases h
        · cases h
      · cases h
  | writeBucket w =>
      simp only [step] at h
      split at h
      · next hphase =>
        split at h
        · next hnext => cases h; exact .writeBucket hphase hnext
        · cases h
      · cases h
  | startReduce w order =>
      simp only [step] at h
      split at h
      · next hphase =>
        split at h
        · next hexec =>
          split at h
          · next hperm => cases h; exact .startReduce hphase hexec hperm
          · cases h
        · cases h
      · cases h
  | fetchBucket w producer =>
      simp only [step] at h
      split at h
      · next hphase =>
        split at h
        · next hserves =>
          split at h
          · next hfile => cases h; exact .fetchBucket hphase hserves hfile
          · cases h
        · cases h
      · cases h
  | fetchFails w =>
      simp only [step] at h
      split at h
      · next hphase => cases h; exact .fetchFails hphase
      · cases h
  | createOutput w keyOrder =>
      simp only [step] at h
      split at h
      · next hphase =>
        split at h
        · next hperm => cases h; exact .createOutput hphase hperm rfl
        · cases h
      · cases h
  | writeLine w =>
      simp only [step] at h
      split at h
      · next hphase => cases h; exact .writeLine hphase
      · cases h
  | loseLine w =>
      simp only [step] at h
      split at h
      · next hphase => cases h; exact .loseLine hphase
      · cases h
  | giveUp w =>
      simp only [step] at h
      split at h
      · next hphase => cases h; exact .giveUp hphase
      · cases h
  | report w =>
      simp only [step] at h
      split at h
      · next hphase =>
        split at h
        · next hnext => cases h; exact .reportMap (hnext ▸ hphase)
        · cases h
      · next hphase => cases h; exact .reportReduce hphase
      · cases h
  | returnCall w =>
      simp only [step] at h
      split at h
      · next hphase => cases h; exact .returnCall hphase
      · cases h
  | handleCompletion i =>
      simp only [step] at h
      split at h
      · next hmsg =>
        split at h
        · next hmain => cases h; exact .handleCompletion hmsg hmain
        · cases h
      · cases h
  | handleMissing i =>
      simp only [step] at h
      split at h
      · next hmsg =>
        split at h
        · next hmain => cases h; exact .handleMissing hmsg hmain
        · cases h
      · cases h
  | pollDone =>
      simp only [step] at h
      split at h
      · next hcond => cases h; exact .pollDone hcond.1 hcond.2
      · cases h
  | exit =>
      simp only [step] at h
      split at h
      · next hmain => cases h; exact .exit hmain
      · cases h

/-- Every transition is a step of the cluster. -/
theorem Transition.step {J : Job} {s s' : Cluster} {a : Action} (h : s.Transition J a s') :
    J.cluster.step s a = some s' := by
  show Cluster.step J s a = some s'
  cases h with
  | crash halive => rw [Cluster.step, if_pos halive]
  | requestTask hrequest hmain hord hq | decideTask hrequest hmain hord hq =>
      simp only [Cluster.step, hrequest, if_pos (And.intro hmain hord), ← hq]
  | callMapf hphase hexec hperm hbuckets =>
      simp only [Cluster.step, hphase, hexec, if_pos (And.intro hperm hbuckets)]
  | createOutput hphase hperm hreduced =>
      simp only [Cluster.step, hphase, if_pos hperm, hreduced]
  | giveUp hphase => rw [Cluster.step, if_pos hphase]
  | _ => simp only [Cluster.step, if_true, ne_eq, not_false_eq_true, and_self, *]

/-! ## The calls of a run -/

/-- The call that the coordinator handles in a step. -/
def call (J : Job) (s : Cluster) : Action → Option TimedCall
  | .requestTask _ now mapOrder reduceOrder readErr =>
      some ⟨now, .requestTask mapOrder reduceOrder (J.readFile readErr)⟩
  | .decideTask _ now mapOrder reduceOrder readErr =>
      some ⟨now, .requestTask mapOrder reduceOrder (J.readFile readErr)⟩
  | .handleCompletion i => s.completions[i]?.map fun msg => ⟨0, .reportTaskCompletion msg.args⟩
  | .handleMissing i => s.missing[i]?.map fun msg => ⟨0, .reportMissingMapOutputs msg.args⟩
  | _ => none

variable {J : Job} {s s' : Cluster} {a : Action}

/-- A step of the cluster is a call of the coordinator, or leaves the coordinator alone. -/
theorem Transition.coordinator (h : s.Transition J a s') :
    (s.call J a = none ∧ s'.coordinator = s.coordinator) ∨
      ∃ r, s.call J a = some r ∧ r.call.Ordered s.coordinator ∧
        s'.coordinator = s.coordinator.handle r := by
  cases h with
  | requestTask hrequest hmain hord hq | decideTask hrequest hmain hord hq =>
      exact Or.inr ⟨_, rfl, hord, by rw [Coordinator.handle_requestTask, hq]; rfl⟩
  | handleCompletion hmsg | handleMissing hmsg =>
      -- a report ranges over no map in an order of its own, so `Ordered` asks nothing
      refine Or.inr ⟨_, by rw [call, hmsg]; rfl, ?_, rfl⟩
      trivial
  | _ => exact Or.inl ⟨rfl, rfl⟩

/-- A handled completion report comes from the network. -/
theorem eq_handleCompletion_of_call {r : TimedCall} (h : s.call J a = some r)
    {args : ReportTaskCompletionArgs} (hcall : r.call = .reportTaskCompletion args) :
    ∃ i msg, a = .handleCompletion i ∧ s.completions[i]? = some msg ∧ msg.args = args := by
  cases a with
  | requestTask | decideTask =>
      obtain rfl := Option.some.inj h
      cases hcall
  | handleCompletion i =>
      obtain ⟨msg, hmsg, rfl⟩ := Option.map_eq_some_iff.mp h
      exact ⟨i, msg, rfl, hmsg, Call.reportTaskCompletion.inj hcall⟩
  | handleMissing i =>
      obtain ⟨msg, hmsg, rfl⟩ := Option.map_eq_some_iff.mp h
      cases hcall
  | _ => cases h

/-- **The calls of a run of the cluster are a run of its coordinator.** -/
theorem coordinator_exec {as : List Action} (h : J.cluster.exec s as = some s') :
    (coordinatorSystem J.coordinator).exec s.coordinator (J.cluster.observe (call J) s as) =
      some s'.coordinator := by
  refine System.exec_observe Cluster.coordinator (fun s a s' hstep => ?_) h
  rcases (step_transition hstep).coordinator with ⟨hcall, hc⟩ | ⟨r, hcall, hord, hc⟩
  · rw [hcall, hc]
    rfl
  · rw [hcall, Option.toList_some, System.exec_cons, coordinatorSystem_step.mpr ⟨hord, hc⟩]
    rfl

/-- **The coordinator of a reachable cluster is reachable.** -/
theorem coordinator_reachable (h : J.cluster.Reachable s) :
    (coordinatorSystem J.coordinator).Reachable s.coordinator := by
  obtain ⟨as, has⟩ := h
  exact ⟨_, coordinator_exec has⟩

end Cluster

/-- A call that takes a reduce task to the done state is a completion report of that task. -/
theorem Coordinator.Effect.finishes_reduce {c c' : Coordinator} {r : TimedCall} (h : c.Effect r c')
    {id : TaskID} {t t' : ReduceTask} (ht : c.reduceTasks[id]? = some t)
    (hne : t.task.state ≠ .done) (ht' : c'.reduceTasks[id]? = some t')
    (hdone : t'.task.state = .done) :
    ∃ args, r.call = .reportTaskCompletion args ∧ args.task.type = .reduce ∧ args.task.id = id := by
  -- a call that leaves the task as it was cannot have finished it
  have same (heq : t' = t) : False := hne (heq ▸ hdone)
  cases h with
  | @finishReduce args t'' hcall htype ht'' =>
      by_cases hid : args.task.id = id
      · exact ⟨args, hcall, htype, hid⟩
      · rw [finishReduce_reduceTasks, if_neg hid, ht] at ht'
        exact (same (Option.some.inj ht').symm).elim
  | @assignReduce id' t'' =>
      rw [markReduceRunning_reduceTasks, ht] at ht'
      split at ht'
      · obtain rfl := Option.some.inj ht'
        cases hdone
      · exact (same (Option.some.inj ht').symm).elim
  | finishMap =>
      rw [finishMap_reduceTasks, ht] at ht'
      obtain rfl := Option.some.inj ht'
      exact absurd hdone hne
  | resetMap =>
      rw [resetMap_reduceTasks, ht] at ht'
      obtain rfl := Option.some.inj ht'
      exact absurd hdone hne
  | assignMap | wait | finishMapAgain | finishUnknown | resetIdle =>
      exact (same (Option.some.inj (ht'.symm.trans ht))).elim

/-- A step of the cluster that takes a reduce task to the done state handles a completion report of
that task. -/
theorem Cluster.Transition.finishes_reduce {J : Job} {s s' : Cluster} {a : Action}
    (h : s.Transition J a s') {id : TaskID} {t t' : ReduceTask}
    (ht : s.coordinator.reduceTasks[id]? = some t) (hne : t.task.state ≠ .done)
    (ht' : s'.coordinator.reduceTasks[id]? = some t') (hdone : t'.task.state = .done) :
    ∃ i msg, a = .handleCompletion i ∧ s.completions[i]? = some msg ∧
      msg.args.task.type = .reduce ∧ msg.args.task.id = id := by
  rcases h.coordinator with ⟨-, hc⟩ | ⟨r, hr, hord, hc⟩
  -- a step without a call leaves every task as it was
  · rw [hc] at ht'
    obtain rfl := Option.some.inj (ht.symm.trans ht')
    exact absurd hdone hne
  · rw [hc] at ht'
    obtain ⟨args, hcall, htype, hid⟩ :=
      (s.coordinator.handle_effect hord).finishes_reduce ht hne ht' hdone
    obtain ⟨i, msg, rfl, hmsg, rfl⟩ := eq_handleCompletion_of_call hr hcall
    exact ⟨i, msg, rfl, hmsg, htype, hid⟩

/-! ## The tasks of a job -/

namespace Job

variable (J : Job)

/-- The identifier of the map task of the `i`-th file. -/
def mapID (i : ℕ) : TaskID := J.globalID + 1 + i

/-- The identifier of the reduce task of a bucket. -/
def reduceID (b : ℕ) : TaskID := J.globalID + J.files.length + 1 + b

/-- The identifiers of the map tasks. -/
def mapIDs : List TaskID := (List.range J.files.length).map J.mapID

theorem mapID_inj {i j : ℕ} (h : J.mapID i = J.mapID j) : i = j := by
  have h' : J.globalID + 1 + (i : ℤ) = J.globalID + 1 + (j : ℤ) := h
  omega

theorem reduceID_inj {b b' : ℕ} (h : J.reduceID b = J.reduceID b') : b = b' := by
  have h' : J.globalID + J.files.length + 1 + (b : ℤ) = J.globalID + J.files.length + 1 + (b' : ℤ) := h
  omega

theorem nodup_mapIDs : J.mapIDs.Nodup := List.nodup_range.map fun _ _ => J.mapID_inj

variable {J} {c : Coordinator}

/-- The map tasks of a reachable coordinator are those of the files. -/
theorem mapTask_spec (h : (coordinatorSystem J.coordinator).Reachable c) {id : TaskID} {t : MapTask}
    (ht : c.mapTasks[id]? = some t) :
    ∃ i, J.files[i]? = some t.file ∧ id = J.mapID i ∧ t.task.id = id ∧ t.task.type = .map ∧
      t.buckets = J.nReduceTasks := by
  obtain ⟨rs, hrs⟩ := h
  obtain ⟨t₀, ht₀, heq⟩ := Coordinator.exists_mapTask_start hrs ht
  obtain ⟨i, file, hi, rfl, rfl⟩ := (makeCoordinator_mapTasks _ _ _ id t₀).mp ht₀
  obtain ⟨hid, htype, hfile, hbuckets⟩ : _ = _ ∧ _ = _ ∧ _ = _ ∧ _ = _ := by
    simpa [MapTask.identity] using heq
  exact ⟨i, hfile ▸ hi, rfl, hid.symm, htype.symm, hbuckets.symm⟩

/-- The reduce tasks of a reachable coordinator are those of the buckets. -/
theorem reduceTask_spec (h : (coordinatorSystem J.coordinator).Reachable c) {id : TaskID}
    {t : ReduceTask} (ht : c.reduceTasks[id]? = some t) :
    t.bucket < J.nReduceTasks ∧ id = J.reduceID t.bucket ∧ t.task.id = id ∧
      t.task.type = .reduce := by
  obtain ⟨rs, hrs⟩ := h
  obtain ⟨t₀, ht₀, heq⟩ := Coordinator.exists_reduceTask_start hrs ht
  obtain ⟨b, hb, rfl, rfl⟩ := (makeCoordinator_reduceTasks _ _ _ id t₀).mp ht₀
  obtain ⟨hid, htype, hbucket⟩ : _ = _ ∧ _ = _ ∧ _ = _ := by
    simpa [ReduceTask.identity] using heq
  exact ⟨hbucket ▸ hb, by rw [← hbucket]; rfl, hid.symm, htype.symm⟩

/-- Every bucket has a reduce task. -/
theorem exists_reduceTask (h : (coordinatorSystem J.coordinator).Reachable c) {b : ℕ}
    (hb : b < J.nReduceTasks) : ∃ t, c.reduceTasks[J.reduceID b]? = some t ∧ t.bucket = b := by
  obtain ⟨rs, hrs⟩ := h
  have ht₀ := (makeCoordinator_reduceTasks J.globalID J.files J.nReduceTasks (J.reduceID b) _).mpr
    ⟨b, hb, rfl, rfl⟩
  obtain ⟨t, ht, heq⟩ := Coordinator.exists_reduceTask hrs ht₀
  exact ⟨t, ht, (congrArg (fun p => p.2.2) heq)⟩

/-- The map tasks of a reachable coordinator have the identifiers of the job. -/
theorem mem_mapTasks_iff (h : (coordinatorSystem J.coordinator).Reachable c) (m : TaskID) :
    m ∈ c.mapTasks ↔ m ∈ J.mapIDs := by
  rw [mem_iff_exists, mapIDs, List.mem_map]
  constructor
  · rintro ⟨t, ht⟩
    obtain ⟨i, hi, rfl, -⟩ := mapTask_spec h ht
    exact ⟨i, List.mem_range.mpr (List.getElem?_eq_some_iff.mp hi).1, rfl⟩
  · rintro ⟨i, hi, rfl⟩
    obtain ⟨rs, hrs⟩ := h
    have hfile := List.getElem?_eq_getElem (List.mem_range.mp hi)
    have ht₀ := (makeCoordinator_mapTasks J.globalID J.files J.nReduceTasks (J.mapID i) _).mpr
      ⟨i, _, hfile, rfl, rfl⟩
    obtain ⟨t, ht, -⟩ := Coordinator.exists_mapTask hrs ht₀
    exact ⟨t, ht⟩

/-- When the producers of a reduce task are complete, every map task is done. -/
theorem allDone_of_outputs (h : (coordinatorSystem J.coordinator).Reachable c) {id : TaskID}
    {t : ReduceTask} (ht : c.reduceTasks[id]? = some t)
    (hall : ∀ m ∈ J.mapIDs, m ∈ t.mapTaskOutputs) : c.allMapTasksDoneLocked = true := by
  have hmem := mem_mapTasks_iff h
  obtain ⟨rs, hrs⟩ := h
  rw [Coordinator.allMapTasksDoneLocked_iff]
  intro m tm htm
  -- a producer is registered for `m`, and only done map tasks are registered
  have hm : m ∈ c.mapTasks := mem_iff_exists.mpr ⟨_, htm⟩
  obtain ⟨tm', htm', hdone⟩ := (Coordinator.mem_mapTaskOutputs_iff
    (Coordinator.fresh_make J.globalID J.files J.nReduceTasks) hrs ht m).mp (hall m ((hmem m).mp hm))
  obtain rfl : tm = tm' := Option.some.inj (htm.symm.trans htm')
  exact hdone

/-- When every map task is done, the producers of a reduce task are those of all map tasks. -/
theorem outputs_perm_of_allDone (h : (coordinatorSystem J.coordinator).Reachable c) {id : TaskID}
    {t : ReduceTask} (ht : c.reduceTasks[id]? = some t) (hall : c.allMapTasksDoneLocked = true) :
    t.mapTaskOutputs.keys.Perm J.mapIDs := by
  have hmem := mem_mapTasks_iff h
  obtain ⟨rs, hrs⟩ := h
  rw [List.perm_ext_iff_of_nodup TreeMap.nodup_keys J.nodup_mapIDs]
  intro m
  rw [TreeMap.mem_keys, ← hmem, Coordinator.mem_mapTaskOutputs_of_allDone
    (Coordinator.fresh_make J.globalID J.files J.nReduceTasks) hrs hall ht]

end Job

/-- A reduce task that is done after a step was done before, or the step handles a completion report
of it. -/
theorem Cluster.Transition.reduce_done_cases {J : Job} {s s' : Cluster} {a : Action}
    (hreach : J.cluster.Reachable s) (hreach' : J.cluster.Reachable s') (h : s.Transition J a s')
    {id : TaskID} {t' : ReduceTask} (ht' : s'.coordinator.reduceTasks[id]? = some t')
    (hdone : t'.task.state = .done) :
    (∃ t, s.coordinator.reduceTasks[id]? = some t ∧ t.task.state = .done ∧ t.bucket = t'.bucket) ∨
    ∃ i msg, a = .handleCompletion i ∧ s.completions[i]? = some msg ∧
      msg.args.task.type = .reduce ∧ msg.args.task.id = id := by
  -- the reduce tasks of the two states are those of the buckets, so the task was there before
  obtain ⟨hb, rfl, -⟩ := Job.reduceTask_spec (coordinator_reachable hreach') ht'
  obtain ⟨t, ht, hbucket⟩ := Job.exists_reduceTask (coordinator_reachable hreach) hb
  by_cases hstate : t.task.state = .done
  · exact Or.inl ⟨t, ht, hstate, hbucket⟩
  · exact Or.inr (h.finishes_reduce ht hstate ht' hdone)

end DistributedSystems.MapReduce
