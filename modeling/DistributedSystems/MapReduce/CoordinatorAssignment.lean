import DistributedSystems.MapReduce.CoordinatorBookkeeping
import Mathlib.Tactic.Linarith

/-! # When the coordinator hands out tasks

Two temporal properties of `RequestTask`, both read off the leases of the tasks.

* `coordinator_never_stuck` — the coordinator replies `TaskWait` exactly when every task of the
  current phase that is not done was handed out less than `taskTimeout` ago, so that once
  `taskTimeout` has passed without a call an unfinished job always has a task to hand out.
* `no_needless_reexecution` — a task is handed out again only after its timeout, or after its
  completed output was reported missing; a done reduce task is never handed out again; and a job
  whose tasks are all reported in time hands out every task exactly once. -/

namespace DistributedSystems.MapReduce

open Std (TreeMap)

/-- The reply tells the worker to wait. -/
def Reply.IsWait (r : Reply) : Prop := ∃ task, r.task = .fresh task ∧ task.type = .wait

namespace Coordinator

variable {c c' c₀ : Coordinator} {r : TimedCall} {id : TaskID}

/-- `RequestTask` handed out a map task of the coordinator, or failed to read its input file, or
handed out a reduce task of the coordinator. -/
def Requested.HandsOut (q : Requested) (c : Coordinator)
    (readFile : GoString → Except GoString GoString) : Prop :=
  (∃ (id : TaskID) (t : MapTask), c.mapTasks[id]? = some t ∧ q.reply.task = .mapTask id ∧
    ((q.err = none ∧ q.reply.mapData.isSome) ∨
      (q.err.isSome ∧ ∃ err, readFile t.file = .error err))) ∨
  ∃ (id : TaskID) (t : ReduceTask), c.reduceTasks[id]? = some t ∧ q.reply.task = .reduceTask id ∧
    q.err = none ∧ q.reply.reduceData.isSome

theorem waitReply_isWait (now : Time) : (waitReply now).IsWait := ⟨_, rfl, rfl⟩

/-- The time at which a task was handed out last in a history of calls. -/
def lastAssigned (c₀ : Coordinator) (rs : List TimedCall) (id : TaskID) : Option Time :=
  Lease.lastGrant (taskEvents c₀ rs id)

/-- A task was handed out less than `taskTimeout` before `now`. -/
def RecentlyAssigned (c₀ : Coordinator) (rs : List TimedCall) (id : TaskID) (now : Time) : Prop :=
  ∃ t₀, lastAssigned c₀ rs id = some t₀ ∧ now - t₀ < taskTimeout

/-- The last assignment of a task is the time of one of the calls. -/
theorem lastAssigned_mem {rs : List TimedCall} (h : (coordinatorSystem c₀).exec c₀ rs = some c)
    {t₀ : Time} (ht₀ : lastAssigned c₀ rs id = some t₀) : ∃ r ∈ rs, r.time = t₀ := by
  obtain ⟨bs, r, cs, t, rfl, -, hr⟩ := System.mem_observe h (Lease.grant_mem_of_lastGrant ht₀)
  refine ⟨r, by simp, ?_⟩
  obtain ⟨now, call⟩ := r
  cases call with
  | requestTask mapOrder reduceOrder readFile =>
      simp only [taskEvent] at hr
      split at hr
      · simpa using hr
      · cases hr
  | reportTaskCompletion args =>
      simp only [taskEvent] at hr
      split at hr <;> cases hr
  | reportMissingMapOutputs args =>
      simp only [taskEvent] at hr
      split at hr <;> cases hr

/-- A task that reflects its lease is not assignable exactly when it is done, or running and handed
out less than `taskTimeout` ago. -/
theorem not_assignable_iff {rs : List TimedCall} {task : Task}
    (hl : task.Reflects (taskLease c₀ rs id)) (now : Time) :
    shouldAssignTask now task = false ↔
      (task.state ≠ .done → task.state = .running ∧ RecentlyAssigned c₀ rs id now) := by
  rw [Bool.eq_false_iff, Ne, shouldAssignTask_iff]
  cases hlease : taskLease c₀ rs id with
  | free =>
      rw [hlease] at hl
      have hstate : task.state = .unassigned := hl
      simp [hstate]
  | held since =>
      rw [hlease] at hl
      obtain ⟨hstate, hat⟩ := hl
      have hlast : lastAssigned c₀ rs id = some since := Lease.lastGrant_of_after_held hlease
      simp [hstate, hat, RecentlyAssigned, hlast]
  | finished p =>
      rw [hlease] at hl
      have hstate : task.state = .done := hl
      simp [hstate]

/-- The lease of a map task along a run, from the task found in the state reached. -/
theorem map_reflects_of_getElem? (hfresh : c₀.Fresh) {rs : List TimedCall}
    (h : (coordinatorSystem c₀).exec c₀ rs = some c) {t : MapTask} (ht : c.mapTasks[id]? = some t) :
    t.task.Reflects (taskLease c₀ rs id) := by
  obtain ⟨t₀, ht₀, -⟩ := exists_mapTask_start h ht
  obtain ⟨⟨⟨t', ht', hl⟩, -⟩, -⟩ := map_reflects hfresh h ht₀
  obtain rfl : t = t' := Option.some.inj (ht.symm.trans ht')
  exact hl

/-- The lease of a reduce task along a run, from the task found in the state reached. -/
theorem reduce_reflects_of_getElem? (hfresh : c₀.Fresh) {rs : List TimedCall}
    (h : (coordinatorSystem c₀).exec c₀ rs = some c) {t : ReduceTask}
    (ht : c.reduceTasks[id]? = some t) : t.task.Reflects (taskLease c₀ rs id) := by
  obtain ⟨t₀, ht₀, -⟩ := exists_reduceTask_start h ht
  obtain ⟨⟨t', ht', hl⟩, -⟩ := reduce_reflects hfresh h ht₀
  obtain rfl : t = t' := Option.some.inj (ht.symm.trans ht')
  exact hl

/-- Every map task that is not done was handed out less than `taskTimeout` ago. -/
def MapsBusy (c₀ : Coordinator) (rs : List TimedCall) (c : Coordinator) (now : Time) : Prop :=
  ∀ (id : TaskID) (t : MapTask), c.mapTasks[id]? = some t → t.task.state ≠ .done →
    t.task.state = .running ∧ RecentlyAssigned c₀ rs id now

/-- Every reduce task that is not done was handed out less than `taskTimeout` ago. -/
def ReducesBusy (c₀ : Coordinator) (rs : List TimedCall) (c : Coordinator) (now : Time) : Prop :=
  ∀ (id : TaskID) (t : ReduceTask), c.reduceTasks[id]? = some t → t.task.state ≠ .done →
    t.task.state = .running ∧ RecentlyAssigned c₀ rs id now

/-- **`TaskWait`, exactly.** `RequestTask` replies `TaskWait` when some map task is not done and all
such map tasks are busy, or when every map task is done and all reduce tasks not done are busy, and
at no other time. -/
theorem requestTask_isWait_iff (hfresh : c₀.Fresh) {rs : List TimedCall}
    (h : (coordinatorSystem c₀).exec c₀ rs = some c) (now : Time) {mapOrder reduceOrder : List TaskID}
    (readFile : GoString → Except GoString GoString) (hmap : mapOrder.Perm c.mapTasks.keys)
    (hreduce : reduceOrder.Perm c.reduceTasks.keys) :
    (c.requestTask now mapOrder reduceOrder readFile).reply.IsWait ↔
      (c.allMapTasksDoneLocked = false ∧ MapsBusy c₀ rs c now) ∨
      (c.allMapTasksDoneLocked = true ∧ ReducesBusy c₀ rs c now) := by
  have hmapTask := fun (id : TaskID) (t : MapTask) (ht : c.mapTasks[id]? = some t) =>
    not_assignable_iff (map_reflects_of_getElem? hfresh h ht) now
  have hreduceTask := fun (id : TaskID) (t : ReduceTask) (ht : c.reduceTasks[id]? = some t) =>
    not_assignable_iff (reduce_reflects_of_getElem? hfresh h ht) now
  rcases c.requestTask_cases now readFile hmap hreduce with
    ⟨id, t, ht, hassign, -, hreply, -⟩ | ⟨hnone, hall, heq⟩ | ⟨hall, id, t, ht, hassign, heq⟩ |
    ⟨hall, hnone, heq⟩
  · -- a map task was assignable: nobody waits, and the task is neither done nor busy
    refine iff_of_false ?_ ?_
    · rintro ⟨task, htask, -⟩
      rw [hreply] at htask; cases htask
    · have hbusy := (hmapTask id t ht).not.mp (by rw [hassign]; simp)
      rintro (⟨-, hall⟩ | ⟨hall, -⟩)
      · exact hbusy (hall id t ht)
      · exact hbusy fun hne => absurd ((allMapTasksDoneLocked_iff c).mp hall id t ht) hne
  · refine iff_of_true (by rw [heq]; exact waitReply_isWait now) (Or.inl ⟨hall, ?_⟩)
    exact fun id t ht => (hmapTask id t ht).mp (hnone id t ht)
  · refine iff_of_false ?_ ?_
    · rw [heq]
      rintro ⟨task, htask, -⟩
      cases htask
    · have hbusy := (hreduceTask id t ht).not.mp (by rw [hassign]; simp)
      rintro (⟨hall', -⟩ | ⟨-, hbusy'⟩)
      · rw [hall] at hall'; cases hall'
      · exact hbusy (hbusy' id t ht)
  · refine iff_of_true (by rw [heq]; exact waitReply_isWait now) (Or.inr ⟨hall, ?_⟩)
    exact fun id t ht => (hreduceTask id t ht).mp (hnone id t ht)

/-- A reply of `RequestTask` that does not tell the worker to wait hands out a task. -/
theorem handsOut_of_not_isWait (now : Time) {mapOrder reduceOrder : List TaskID}
    (readFile : GoString → Except GoString GoString) (hmap : mapOrder.Perm c.mapTasks.keys)
    (hreduce : reduceOrder.Perm c.reduceTasks.keys)
    (hwait : ¬ (c.requestTask now mapOrder reduceOrder readFile).reply.IsWait) :
    (c.requestTask now mapOrder reduceOrder readFile).HandsOut c readFile := by
  rcases c.requestTask_cases now readFile hmap hreduce with
    ⟨id, t, ht, -, -, hreply, -, hread⟩ | ⟨-, -, heq⟩ | ⟨-, id, t, ht, -, heq⟩ | ⟨-, -, heq⟩
  · refine Or.inl ⟨id, t, ht, hreply, ?_⟩
    rcases hread with ⟨err, herr, -, hq⟩ | ⟨content, -, hdata, hq⟩
    · exact Or.inr ⟨by rw [hq]; rfl, err, herr⟩
    · exact Or.inl ⟨hq, by rw [hdata]; rfl⟩
  · exact absurd (by rw [heq]; exact waitReply_isWait now) hwait
  · exact Or.inr ⟨id, t, ht, by rw [heq], by rw [heq], by rw [heq]; rfl⟩
  · exact absurd (by rw [heq]; exact waitReply_isWait now) hwait

/-- Once `taskTimeout` has passed since the last call, no task counts as recently handed out. -/
theorem not_recentlyAssigned {rs : List TimedCall} (h : (coordinatorSystem c₀).exec c₀ rs = some c)
    {t now : Time} (htime : ∀ r ∈ rs, r.time ≤ t) (hnow : t + taskTimeout ≤ now) :
    ¬ RecentlyAssigned c₀ rs id now := by
  rintro ⟨t₀, hlast, hlt⟩
  obtain ⟨r, hr, rfl⟩ := lastAssigned_mem h hlast
  have hle := htime r hr
  linarith

end Coordinator

/-- **The coordinator is never stuck.** After every sequence of calls: a `RequestTask` made at least
`taskTimeout` after the last of them hands out a task of an unfinished job (or fails to read the
input file of the map task it chose) and does not reply `TaskWait`; and at any time it replies
`TaskWait` exactly when some map task is not done and all such map tasks were handed out less than
`taskTimeout` ago, or all map tasks are done and all reduce tasks not done were handed out less than
`taskTimeout` ago. -/
theorem coordinator_never_stuck (g : ℤ) (files : List GoString) (n : ℕ) (rs : List TimedCall)
    (c : Coordinator)
    (h : (coordinatorSystem (makeCoordinator g files n).1).exec (makeCoordinator g files n).1 rs =
      some c)
    (now : Time) (mapOrder reduceOrder : List TaskID) (readFile : GoString → Except GoString GoString)
    (hord : (Call.requestTask mapOrder reduceOrder readFile).Ordered c) :
    (∀ t : Time, (∀ r ∈ rs, r.time ≤ t) → c.done = false → t + taskTimeout ≤ now →
      (c.requestTask now mapOrder reduceOrder readFile).HandsOut c readFile ∧
        ¬ (c.requestTask now mapOrder reduceOrder readFile).reply.IsWait) ∧
    ((c.requestTask now mapOrder reduceOrder readFile).reply.IsWait ↔
      (c.allMapTasksDoneLocked = false ∧
        Coordinator.MapsBusy (makeCoordinator g files n).1 rs c now) ∨
      (c.allMapTasksDoneLocked = true ∧
        Coordinator.ReducesBusy (makeCoordinator g files n).1 rs c now)) := by
  have hfresh := Coordinator.fresh_make g files n
  have hiff := Coordinator.requestTask_isWait_iff hfresh h now readFile hord.1 hord.2
  refine ⟨fun t htime hdone hnow => ?_, hiff⟩
  have hnot (id : TaskID) :
      ¬ Coordinator.RecentlyAssigned (makeCoordinator g files n).1 rs id now :=
    Coordinator.not_recentlyAssigned h htime hnow
  -- if everything unfinished were busy, everything would be finished, and the job done
  have hwait : ¬ (c.requestTask now mapOrder reduceOrder readFile).reply.IsWait := by
    rw [hiff]
    rintro (⟨hall, hbusy⟩ | ⟨hall, hbusy⟩)
    · refine absurd ((Coordinator.allMapTasksDoneLocked_iff c).mpr ?_) (by rw [hall]; simp)
      intro id t ht
      by_contra hne
      exact hnot id (hbusy id t ht hne).2
    · rw [Coordinator.done, hall, Bool.true_and] at hdone
      refine absurd ((Coordinator.allReduceTasksDoneLocked_iff c).mpr ?_) (by rw [hdone]; simp)
      intro id t ht
      by_contra hne
      exact hnot id (hbusy id t ht hne).2
  exact ⟨Coordinator.handsOut_of_not_isWait now readFile hord.1 hord.2 hwait, hwait⟩

/-- The map task of a one-file job is handed out at time 0; at time `taskTimeout` it is handed out
again. -/
theorem coordinator_never_stuck_after_timeout :
    ∃ c, (coordinatorSystem (makeCoordinator 0 [[1]] 1).1).exec (makeCoordinator 0 [[1]] 1).1
        [⟨0, .requestTask [1] [2] fun _ => .ok []⟩] = some c ∧
      (c.requestTask taskTimeout [1] [2] fun _ => .ok []).HandsOut c (fun _ => .ok []) ∧
      ¬ (c.requestTask taskTimeout [1] [2] fun _ => .ok []).reply.IsWait := by
  refine ⟨(makeCoordinator 0 [[1]] 1).1.markMapRunning 1 0, rfl, ?_⟩
  refine (coordinator_never_stuck 0 [[1]] 1 [⟨0, .requestTask [1] [2] fun _ => .ok []⟩] _ rfl
    taskTimeout [1] [2] _ (by decide)).1 0 (by simp) (by decide) (by decide)

/-! ## Assignments of one task -/

/-- The call is a completion report of the task with an identifier. -/
def TimedCall.Completes (c : Coordinator) (r : TimedCall) (id : TaskID) : Prop :=
  ∃ args, r.call = .reportTaskCompletion args ∧ args.task.id = id ∧
    c.taskType id = some args.task.type

/-- The call reports that the outputs of the map task with an identifier are missing. -/
def TimedCall.ReportsMissing (r : TimedCall) (id : TaskID) : Prop :=
  r.call = .reportMissingMapOutputs ⟨id⟩

namespace Coordinator

variable {c c' c₀ : Coordinator} {r : TimedCall} {id : TaskID}

/-- The grants of a task are the calls that mark it running. -/
theorem taskEvent_grant_iff {now : Time} :
    taskEvent id c r = some (.grant now) ↔ c.marked r = some id ∧ r.time = now := by
  obtain ⟨time, call⟩ := r
  cases call with
  | requestTask mapOrder reduceOrder readFile =>
      simp only [taskEvent]
      split
      · next h => simp [h]
      · next h => simp [h]
  | reportTaskCompletion args =>
      simp only [taskEvent, marked]
      split <;> simp
  | reportMissingMapOutputs args =>
      simp only [taskEvent, marked]
      split <;> simp

/-- The completions of a task are its completion reports. -/
theorem taskEvent_finish_iff : (∃ a, taskEvent id c r = some (.finish a)) ↔ r.Completes c id := by
  obtain ⟨time, call⟩ := r
  cases call with
  | requestTask mapOrder reduceOrder readFile =>
      simp only [taskEvent, TimedCall.Completes]
      split <;> simp
  | reportTaskCompletion args =>
      simp only [taskEvent, TimedCall.Completes, Call.reportTaskCompletion.injEq, exists_eq_left']
      split
      · next h => simp [h]
      · next h => simpa using fun h₁ h₂ => h ⟨h₁, h₂⟩
  | reportMissingMapOutputs args =>
      simp only [taskEvent, TimedCall.Completes]
      split <;> simp

/-- The revocations of a task are the reports that its outputs are missing, for a map task. -/
theorem taskEvent_revoke_iff :
    taskEvent id c r = some .revoke ↔ r.ReportsMissing id ∧ c.taskType id = some .map := by
  obtain ⟨time, call⟩ := r
  cases call with
  | requestTask mapOrder reduceOrder readFile =>
      simp only [taskEvent, TimedCall.ReportsMissing]
      split <;> simp
  | reportTaskCompletion args =>
      simp only [taskEvent, TimedCall.ReportsMissing]
      split <;> simp
  | reportMissingMapOutputs args =>
      obtain ⟨m⟩ := args
      simp only [taskEvent, TimedCall.ReportsMissing]
      split
      · next h => simp [h]
      · next h => simpa using fun h₁ h₂ => h ⟨h₁, h₂⟩

/-- The type of a task never changes. -/
theorem taskType_exec {rs : List TimedCall} (h : (coordinatorSystem c₀).exec c₀ rs = some c)
    (id : TaskID) : c.taskType id = c₀.taskType id := by
  simp only [taskType, mem_mapTasks_exec h id, mem_reduceTasks_exec h id]

/-- A task that a call marks running is an assignable task of the coordinator. -/
theorem Effect.assignable_of_marked (heff : c.Effect r c') (hmarked : c.marked r = some id) :
    (∃ t, c.mapTasks[id]? = some t ∧ shouldAssignTask r.time t.task = true) ∨
      ∃ t, c.reduceTasks[id]? = some t ∧ shouldAssignTask r.time t.task = true := by
  have report {args : ReportTaskCompletionArgs} (hcall : r.call = .reportTaskCompletion args) :
      c.marked r ≠ some id := by simp [marked, hcall]
  have missing {args : ReportMissingMapOutputsArgs} (hcall : r.call = .reportMissingMapOutputs args) :
      c.marked r ≠ some id := by simp [marked, hcall]
  cases heff with
  | @assignMap id' t hmarked' ht hassign =>
      obtain rfl : id' = id := Option.some.inj (hmarked'.symm.trans hmarked)
      exact Or.inl ⟨t, ht, hassign⟩
  | @assignReduce id' t hmarked' hall ht hassign =>
      obtain rfl : id' = id := Option.some.inj (hmarked'.symm.trans hmarked)
      exact Or.inr ⟨t, ht, hassign⟩
  | wait hcall hmarked' => rw [hmarked'] at hmarked; cases hmarked
  | finishMap hcall => exact absurd hmarked (report hcall)
  | finishMapAgain hcall => exact absurd hmarked (report hcall)
  | finishReduce hcall => exact absurd hmarked (report hcall)
  | finishUnknown hcall => exact absurd hmarked (report hcall)
  | resetMap hcall => exact absurd hmarked (missing hcall)
  | resetIdle hcall => exact absurd hmarked (missing hcall)

/-- No call takes a reduce task out of the done state. -/
theorem Effect.reduce_done (heff : c.Effect r c') {t : ReduceTask} (ht : c.reduceTasks[id]? = some t)
    (hdone : t.task.state = .done) :
    ∃ t', c'.reduceTasks[id]? = some t' ∧ t'.task.state = .done := by
  cases heff with
  | @assignReduce id' t' hmarked hall ht' hassign =>
      have hid : id' ≠ id := by
        rintro rfl
        obtain rfl : t = t' := Option.some.inj (ht.symm.trans ht')
        rw [shouldAssignTask_iff, hdone] at hassign
        simp at hassign
      exact ⟨t, by rw [markReduceRunning_reduceTasks, if_neg hid, ht], hdone⟩
  | finishMap =>
      rw [finishMap_reduceTasks, ht]
      exact ⟨_, rfl, hdone⟩
  | @finishReduce args =>
      rw [finishReduce_reduceTasks, ht]
      split
      · exact ⟨_, rfl, rfl⟩
      · exact ⟨t, rfl, hdone⟩
  | resetMap =>
      rw [resetMap_reduceTasks, ht]
      exact ⟨_, rfl, hdone⟩
  | assignMap => exact ⟨t, ht, hdone⟩
  | wait => exact ⟨t, ht, hdone⟩
  | finishMapAgain => exact ⟨t, ht, hdone⟩
  | finishUnknown => exact ⟨t, ht, hdone⟩
  | resetIdle => exact ⟨t, ht, hdone⟩

/-- A done reduce task stays done along every run. -/
theorem reduce_done_exec {rs : List TimedCall} (h : (coordinatorSystem c₀).exec c rs = some c')
    {t : ReduceTask} (ht : c.reduceTasks[id]? = some t) (hdone : t.task.state = .done) :
    ∃ t', c'.reduceTasks[id]? = some t' ∧ t'.task.state = .done := by
  refine System.exec_induction
    (P := fun _ c' => ∃ t', c'.reduceTasks[id]? = some t' ∧ t'.task.state = .done) ⟨t, ht, hdone⟩ ?_ h
  rintro rs c r c' - ⟨t', ht', hdone'⟩ hstep
  obtain ⟨hord, rfl⟩ := coordinatorSystem_step.mp hstep
  exact (c.handle_effect hord).reduce_done ht' hdone'

/-- A done reduce task is not handed out by any call. -/
theorem marked_ne_of_reduce_done (hwf : c.WellFormed) (hord : r.call.Ordered c) {t : ReduceTask}
    (ht : c.reduceTasks[id]? = some t) (hdone : t.task.state = .done) : c.marked r ≠ some id := by
  intro hmarked
  rcases (c.handle_effect hord).assignable_of_marked hmarked with ⟨t', ht', -⟩ | ⟨t', ht', hassign⟩
  · rw [hwf.disjoint id t' ht'] at ht
    cases ht
  · obtain rfl : t = t' := Option.some.inj (ht.symm.trans ht')
    rw [shouldAssignTask_iff, hdone] at hassign
    simp at hassign

/-- The call `r` after the calls `rs` marks the task with an identifier running. -/
def MarksAfter (c₀ : Coordinator) (rs : List TimedCall) (r : TimedCall) (id : TaskID) : Prop :=
  ∃ c, (coordinatorSystem c₀).exec c₀ rs = some c ∧ c.marked r = some id

/-- The times at which a task was handed out in a history of calls. -/
def assignments (c₀ : Coordinator) (rs : List TimedCall) (id : TaskID) : List Time :=
  Lease.grantTimes (taskEvents c₀ rs id)

/-- A task of the coordinator a run starts from. -/
def IsTask (c : Coordinator) (id : TaskID) : Prop := id ∈ c.mapTasks ∨ id ∈ c.reduceTasks

theorem isTask_iff : c.IsTask id ↔
    (∃ t, c.mapTasks[id]? = some t) ∨ ∃ t, c.reduceTasks[id]? = some t := by
  simp only [IsTask, mem_iff_exists]

/-- The assignments of every task are guarded by its lease. -/
theorem taskEvents_guarded (hfresh : c₀.Fresh) {rs : List TimedCall}
    (h : (coordinatorSystem c₀).exec c₀ rs = some c) (hid : c₀.IsTask id) :
    Lease.free.Guarded Expired (taskEvents c₀ rs id) := by
  rcases isTask_iff.mp hid with ⟨t, ht⟩ | ⟨t, ht⟩
  · exact (map_reflects hfresh h ht).2
  · exact (reduce_reflects hfresh h ht).2

/-- A call marks only tasks of the coordinator. -/
theorem MarksAfter.isTask {rs : List TimedCall} (h : MarksAfter c₀ rs r id)
    (hord : ∀ c, (coordinatorSystem c₀).exec c₀ rs = some c → r.call.Ordered c) : c₀.IsTask id := by
  obtain ⟨c, hc, hmarked⟩ := h
  rw [isTask_iff]
  rcases (c.handle_effect (hord c hc)).assignable_of_marked hmarked with ⟨t, ht, -⟩ | ⟨t, ht, -⟩
  · obtain ⟨t₀, ht₀, -⟩ := exists_mapTask_start hc ht
    exact Or.inl ⟨t₀, ht₀⟩
  · obtain ⟨t₀, ht₀, -⟩ := exists_reduceTask_start hc ht
    exact Or.inr ⟨t₀, ht₀⟩

/-- Between two consecutive assignments of a task, at `r₁` and `r₂`, the task was never completed
and the first assignment had timed out, or it is a map task that was completed, and was done when a
report that its outputs are missing arrived. -/
def Reassigned (c₀ : Coordinator) (rs₁ : List TimedCall) (r₁ : TimedCall) (mid : List TimedCall)
    (r₂ : TimedCall) (id : TaskID) : Prop :=
  ((∀ p ∈ mid, ¬ p.Completes c₀ id) ∧ taskTimeout ≤ r₂.time - r₁.time) ∨
  (id ∈ c₀.mapTasks ∧ ∃ xs p ys q zs c t, mid = xs ++ p :: ys ++ q :: zs ∧ p.Completes c₀ id ∧
    q.ReportsMissing id ∧ (coordinatorSystem c₀).exec c₀ (rs₁ ++ r₁ :: (xs ++ p :: ys)) = some c ∧
    c.mapTasks[id]? = some t ∧ t.task.state = .done)

/-- **Two consecutive assignments of a task.** -/
theorem reassigned_of_consecutive (hfresh : c₀.Fresh) {rs₁ mid rs₂ : List TimedCall}
    {r₁ r₂ : TimedCall}
    (h : (coordinatorSystem c₀).exec c₀ (rs₁ ++ r₁ :: (mid ++ r₂ :: rs₂)) = some c)
    (h₁ : MarksAfter c₀ rs₁ r₁ id) (h₂ : MarksAfter c₀ (rs₁ ++ r₁ :: mid) r₂ id)
    (hno : ∀ xs r ys, mid = xs ++ r :: ys → ¬ MarksAfter c₀ (rs₁ ++ r₁ :: xs) r id) :
    Reassigned c₀ rs₁ r₁ mid r₂ id := by
  obtain ⟨c₁, c₁', hc₁, hr₁, hrest⟩ := System.exec_split h
  obtain ⟨c₂, c₂', hc₂, hr₂, -⟩ := System.exec_split hrest
  have hfront {xs : List TimedCall} {c : Coordinator}
      (hxs : (coordinatorSystem c₀).exec c₁' xs = some c) :
      (coordinatorSystem c₀).exec c₀ (rs₁ ++ r₁ :: xs) = some c := by
    rw [System.exec_append, hc₁, Option.bind_some, System.exec_cons, hr₁, Option.bind_some, hxs]
  obtain ⟨d₁, hd₁, hmark₁⟩ := h₁
  obtain rfl : c₁ = d₁ := Option.some.inj (hc₁.symm.trans hd₁)
  obtain ⟨d₂, hd₂, hmark₂⟩ := h₂
  obtain rfl : c₂ = d₂ := Option.some.inj ((hfront hc₂).symm.trans hd₂)
  have hid : c₀.IsTask id := MarksAfter.isTask ⟨c₁, hc₁, hmark₁⟩ fun d hd => by
    obtain rfl : c₁ = d := Option.some.inj (hc₁.symm.trans hd)
    exact (coordinatorSystem_step.mp hr₁).1
  -- the events of the task, split at the two assignments
  have hev₁ {xs : List TimedCall} : taskEvents c₀ (rs₁ ++ r₁ :: xs) id = taskEvents c₀ rs₁ id ++
      .grant r₁.time :: (coordinatorSystem c₀).observe (taskEvent id) c₁' xs := by
    rw [taskEvents, System.observe_append hc₁, System.observe_cons hr₁,
      taskEvent_grant_iff.mpr ⟨hmark₁, rfl⟩]
    rfl
  have hguarded := taskEvents_guarded hfresh h hid
  rw [hev₁, System.observe_append hc₂, System.observe_cons hr₂,
    taskEvent_grant_iff.mpr ⟨hmark₂, rfl⟩] at hguarded
  have hnogrant (t : Time) : .grant t ∉ (coordinatorSystem c₀).observe (taskEvent id) c₁' mid := by
    intro ht
    obtain ⟨xs, r, ys, d, rfl, hd, hr⟩ := System.mem_observe hc₂ ht
    exact hno xs r ys rfl ⟨d, hfront hd, (taskEvent_grant_iff.mp hr).1⟩
  -- the lease says what lies between two grants; carry it back to the calls
  rcases Lease.consecutive_grants hguarded hnogrant with ⟨hfin, hexp⟩ | ⟨X, p, Y, Z, q, hmid, hq⟩
  · refine Or.inl ⟨fun p hp hcompl => ?_, hexp⟩
    obtain ⟨xs, ys, rfl⟩ := List.append_of_mem hp
    obtain ⟨d, d', hd, hpd, -⟩ := System.exec_split hc₂
    rw [TimedCall.Completes, ← taskType_exec (hfront hd) id] at hcompl
    obtain ⟨a, ha⟩ := taskEvent_finish_iff.mpr hcompl
    exact hfin a (System.observe_mem hd hpd ha)
  · obtain ⟨bs, miss, zs, d, d', rfl, hd, -, hmiss, hbs, -⟩ := System.observe_split hc₂ hmid
    obtain ⟨xs, compl, ys, e, e', rfl, he, -, hcompl, -, -⟩ := System.observe_split hd hbs
    obtain ⟨hmissing, htype⟩ := taskEvent_revoke_iff.mp hmiss
    have hcompletes := taskEvent_finish_iff.mp ⟨_, hcompl⟩
    rw [taskType_exec (hfront hd)] at htype
    rw [TimedCall.Completes, taskType_exec (hfront he)] at hcompletes
    -- only map tasks can be reported missing
    have hmem : id ∈ c₀.mapTasks := by
      by_contra hnot
      rw [taskType, if_neg hnot] at htype
      split at htype <;> cases htype
    obtain ⟨t₀, ht₀⟩ := mem_iff_exists.mp hmem
    obtain ⟨⟨⟨t, ht, hl⟩, -⟩, -⟩ := map_reflects hfresh (hfront hd) ht₀
    have hlease : taskLease c₀ (rs₁ ++ r₁ :: (xs ++ compl :: ys)) id = .finished q := by
      rw [taskLease, hev₁, hbs, Lease.after_append, Lease.after_cons, ← hq]
      rfl
    rw [hlease] at hl
    exact Or.inr ⟨hmem, xs, compl, ys, miss, zs, d, t, rfl, hcompletes, hmissing, hfront hd, ht, hl⟩

/-- A run in which every task is reported within `taskTimeout` of each assignment, nothing is
reported missing, and only tasks that were handed out are reported complete. -/
structure Prompt (c₀ : Coordinator) (rs : List TimedCall) : Prop where
  /-- The clock does not go back. -/
  clock : rs.Pairwise fun r r' => r.time ≤ r'.time
  /-- Every assignment is followed by a completion report within `taskTimeout`. -/
  reported : ∀ xs r ys id, rs = xs ++ r :: ys → MarksAfter c₀ xs r id →
    ∃ p ∈ ys, p.Completes c₀ id ∧ p.time - r.time < taskTimeout
  /-- No output is reported missing. -/
  nothingMissing : ∀ r ∈ rs, ∀ id, ¬ r.ReportsMissing id
  /-- A task is reported complete only after it was handed out. -/
  handedOut : ∀ xs p ys id, rs = xs ++ p :: ys → p.Completes c₀ id →
    ∃ us r vs, xs = us ++ r :: vs ∧ MarksAfter c₀ us r id

/-- A call that marks a task running is not a completion report. -/
theorem not_completes_of_marked (hmarked : c.marked r = some id) : ¬ r.Completes c₀ id := by
  rintro ⟨args, hcall, -⟩
  simp [marked, hcall] at hmarked

/-- In a prompt run a task is not handed out twice. -/
theorem Prompt.assignments_length_le_one (hfresh : c₀.Fresh) {rs later : List TimedCall}
    (h : (coordinatorSystem c₀).exec c₀ rs = some c) (hprompt : Prompt c₀ (rs ++ later)) :
    (assignments c₀ rs id).length ≤ 1 := by
  by_contra hgt
  -- take two consecutive assignments and find the calls that made them
  obtain ⟨E, t₁, M, t₂, G, hev, hno⟩ := Lease.exists_consecutive (Nat.lt_of_not_le hgt)
  obtain ⟨rs₁, r₁, rest, c₁, c₁', rfl, hc₁, hr₁, hg₁, -, hrest⟩ := System.observe_split h hev
  obtain ⟨d, d', hd, hd', hexec⟩ := System.exec_split h
  obtain rfl : c₁ = d := Option.some.inj (hc₁.symm.trans hd)
  obtain rfl : c₁' = d' := Option.some.inj (hr₁.symm.trans hd')
  obtain ⟨mid, r₂, rs₂, c₂, c₂', rfl, hc₂, hr₂, hg₂, hM, -⟩ := System.observe_split hexec hrest
  obtain ⟨hmark₁, rfl⟩ := taskEvent_grant_iff.mp hg₁
  obtain ⟨hmark₂, rfl⟩ := taskEvent_grant_iff.mp hg₂
  have hfront {xs : List TimedCall} : (coordinatorSystem c₀).exec c₀ (rs₁ ++ r₁ :: xs) =
      (coordinatorSystem c₀).exec c₁' xs := by
    rw [System.exec_append, hc₁, Option.bind_some, System.exec_cons, hr₁, Option.bind_some]
  have hre := reassigned_of_consecutive hfresh h ⟨c₁, hc₁, hmark₁⟩ ⟨c₂, hfront.trans hc₂, hmark₂⟩ <| by
    rintro xs r ys rfl ⟨e, he, hmark⟩
    obtain ⟨f, f', hf, hf', -⟩ := System.exec_split hc₂
    obtain rfl : f = e := Option.some.inj (hf.symm.trans (hfront.symm.trans he))
    refine hno r.time ?_
    rw [← hM]
    exact System.observe_mem hf hf' (taskEvent_grant_iff.mpr ⟨hmark, rfl⟩)
  rcases hre with ⟨hcompl, hexp⟩ | ⟨-, xs, p, ys, q, zs, e, t, rfl, -, hq, -⟩
  · -- the report of the first assignment comes after the second one, too late
    obtain ⟨p, hp, hpid, hlt⟩ :=
      hprompt.reported rs₁ r₁ (mid ++ r₂ :: rs₂ ++ later) id (by simp) ⟨c₁, hc₁, hmark₁⟩
    have hle : r₂.time ≤ p.time := by
      have hclock := hprompt.clock
      rw [List.append_assoc, List.cons_append, List.append_assoc, List.cons_append] at hclock
      have hclock₂ := ((List.pairwise_append.mp hclock).2.1).tail
      have hclock₃ := (List.pairwise_append.mp hclock₂).2.1
      simp only [List.append_assoc, List.cons_append, List.mem_append, List.mem_cons] at hp
      rcases hp with hp | rfl | hp
      · exact absurd hpid (hcompl p hp)
      · exact absurd hpid (not_completes_of_marked hmark₂)
      · exact List.rel_of_pairwise_cons hclock₃ (List.mem_append.mpr hp)
    linarith
  · exact hprompt.nothingMissing q (by simp) id hq

/-- When a task of a prompt run is done it was handed out. -/
theorem Prompt.assignments_length_pos {rs later : List TimedCall}
    (h : (coordinatorSystem c₀).exec c₀ rs = some c) (hprompt : Prompt c₀ (rs ++ later))
    {p : GoString} (hdone : taskLease c₀ rs id = .finished p) : 0 < (assignments c₀ rs id).length := by
  obtain ⟨q, hq⟩ := Lease.finish_mem_of_after_finished hdone
  obtain ⟨xs, r, ys, d, rfl, hd, hr⟩ := System.mem_observe h hq
  have hcompl := taskEvent_finish_iff.mp ⟨q, hr⟩
  rw [TimedCall.Completes, taskType_exec hd] at hcompl
  -- a finished task was completed, and so handed out before
  obtain ⟨us, r', vs, rfl, e, he, hmark⟩ := hprompt.handedOut xs r (ys ++ later) id (by simp) hcompl
  obtain ⟨f, f', hf, hf', -⟩ := System.exec_split hd
  obtain rfl : e = f := Option.some.inj (he.symm.trans hf)
  have hgrant : .grant r'.time ∈ taskEvents c₀ (us ++ r' :: vs ++ r :: ys) id := by
    rw [taskEvents, List.append_assoc, List.cons_append]
    exact System.observe_mem hf hf' (taskEvent_grant_iff.mpr ⟨hmark, rfl⟩)
  exact List.length_pos_of_mem (List.mem_filterMap.mpr ⟨_, hgrant, rfl⟩)

/-- When `Done` holds, every task has a finished lease. -/
theorem taskLease_of_done (hfresh : c₀.Fresh) {rs : List TimedCall}
    (h : (coordinatorSystem c₀).exec c₀ rs = some c) (hdone : c.done = true) (hid : c₀.IsTask id) :
    ∃ p, taskLease c₀ rs id = .finished p := by
  obtain ⟨hmaps, hreduces⟩ := c.done_iff.mp hdone
  rcases isTask_iff.mp hid with ⟨t₀, ht₀⟩ | ⟨t₀, ht₀⟩
  · obtain ⟨t, ht, -⟩ := exists_mapTask h ht₀
    exact (map_reflects_of_getElem? hfresh h ht).done_iff.mp (hmaps id t ht)
  · obtain ⟨t, ht, -⟩ := exists_reduceTask h ht₀
    exact (reduce_reflects_of_getElem? hfresh h ht).done_iff.mp (hreduces id t ht)

end Coordinator

open Coordinator in
/-- **No needless re-execution.** From the coordinator that `MakeCoordinator` makes: between two
consecutive assignments of a task the task was not completed and the first assignment timed out, or
it is a map task that was completed and then reset; a done reduce task is never handed out again;
and when `Done` becomes true in a job whose tasks are all reported in time and whose outputs are
never reported missing, every task was handed out exactly once. -/
theorem no_needless_reexecution (g : ℤ) (files : List GoString) (n : ℕ) :
    (∀ (rs₁ : List TimedCall) (r₁ : TimedCall) (mid : List TimedCall) (r₂ : TimedCall)
      (rs₂ : List TimedCall) (c : Coordinator) (id : TaskID),
      (coordinatorSystem (makeCoordinator g files n).1).exec (makeCoordinator g files n).1
        (rs₁ ++ r₁ :: (mid ++ r₂ :: rs₂)) = some c →
      MarksAfter (makeCoordinator g files n).1 rs₁ r₁ id →
      MarksAfter (makeCoordinator g files n).1 (rs₁ ++ r₁ :: mid) r₂ id →
      (∀ xs r ys, mid = xs ++ r :: ys →
        ¬ MarksAfter (makeCoordinator g files n).1 (rs₁ ++ r₁ :: xs) r id) →
      Reassigned (makeCoordinator g files n).1 rs₁ r₁ mid r₂ id) ∧
    (∀ (rs : List TimedCall) (c : Coordinator) (id : TaskID) (t : ReduceTask),
      (coordinatorSystem (makeCoordinator g files n).1).exec (makeCoordinator g files n).1 rs = some c →
      c.reduceTasks[id]? = some t → t.task.state = .done →
      ∀ (rs' : List TimedCall) (r : TimedCall) (c' : Coordinator),
        (coordinatorSystem (makeCoordinator g files n).1).exec c (rs' ++ [r]) = some c' →
        ¬ MarksAfter (makeCoordinator g files n).1 (rs ++ rs') r id) ∧
    (∀ (rs later : List TimedCall) (c : Coordinator),
      (coordinatorSystem (makeCoordinator g files n).1).exec (makeCoordinator g files n).1 rs = some c →
      c.done = true → Prompt (makeCoordinator g files n).1 (rs ++ later) →
      ∀ id, (makeCoordinator g files n).1.IsTask id →
        (assignments (makeCoordinator g files n).1 rs id).length = 1) := by
  have hfresh := fresh_make g files n
  refine ⟨?_, ?_, ?_⟩
  · intro rs₁ r₁ mid r₂ rs₂ c id h h₁ h₂ hno
    exact reassigned_of_consecutive hfresh h h₁ h₂ hno
  · rintro rs c id t h ht hdone rs' r c' h' ⟨d, hd, hmarked⟩
    rw [System.exec_append, h, Option.bind_some] at hd
    obtain ⟨e, e', he, he', -⟩ := System.exec_split h'
    obtain rfl : e = d := Option.some.inj (he.symm.trans hd)
    obtain ⟨t', ht', hdone'⟩ := reduce_done_exec he ht hdone
    have hfrom : (coordinatorSystem (makeCoordinator g files n).1).exec (makeCoordinator g files n).1
        (rs ++ rs') = some e := by
      rw [System.exec_append, h, Option.bind_some, he]
    exact marked_ne_of_reduce_done (hfresh.toWellFormed.exec hfrom) (coordinatorSystem_step.mp he').1
      ht' hdone' hmarked
  · intro rs later c h hdone hprompt id hid
    obtain ⟨p, hp⟩ := taskLease_of_done hfresh h hdone hid
    have hle : (assignments (makeCoordinator g files n).1 rs id).length ≤ 1 :=
      hprompt.assignments_length_le_one hfresh h
    have hpos := hprompt.assignments_length_pos h hp
    omega

/-- A one-file, one-bucket job without failures. -/
def promptCalls : List TimedCall :=
  [⟨0, .requestTask [1] [2] fun _ => .ok []⟩,
    ⟨1, .reportTaskCompletion ⟨{ id := 1, type := .map }, [7]⟩⟩,
    ⟨2, .requestTask [1] [2] fun _ => .ok []⟩,
    ⟨3, .reportTaskCompletion ⟨{ id := 2, type := .reduce }, [7]⟩⟩]

open Coordinator in
/-- The job without failures is prompt. -/
theorem prompt_promptCalls : Prompt (makeCoordinator 0 [[1]] 1).1 promptCalls where
  clock := by simp [promptCalls]
  reported xs r ys id heq hmarks := by
    obtain ⟨c, hc, hmarked⟩ := hmarks
    rcases xs with _ | ⟨x₁, _ | ⟨x₂, _ | ⟨x₃, _ | ⟨x₄, xs⟩⟩⟩⟩
    · obtain ⟨rfl, rfl⟩ := List.cons.inj heq
      obtain rfl := Option.some.inj hc
      obtain rfl : (1 : TaskID) = id := Option.some.inj hmarked
      exact ⟨_, List.mem_cons_self, ⟨_, rfl, rfl, by decide⟩, by decide⟩
    · simp only [promptCalls, List.cons_append, List.nil_append, List.cons.injEq] at heq
      obtain ⟨rfl, rfl, rfl⟩ := heq
      cases hmarked
    · simp only [promptCalls, List.cons_append, List.nil_append, List.cons.injEq] at heq
      obtain ⟨rfl, rfl, rfl, rfl⟩ := heq
      obtain rfl := Option.some.inj hc
      obtain rfl : (2 : TaskID) = id := Option.some.inj hmarked
      exact ⟨_, List.mem_cons_self, ⟨_, rfl, rfl, by decide⟩, by decide⟩
    · simp only [promptCalls, List.cons_append, List.nil_append, List.cons.injEq] at heq
      obtain ⟨rfl, rfl, rfl, rfl, rfl⟩ := heq
      cases hmarked
    · simp [promptCalls] at heq
  nothingMissing := by simp [promptCalls, TimedCall.ReportsMissing]
  handedOut xs p ys id heq hcompl := by
    obtain ⟨args, hcall, rfl, htype⟩ := hcompl
    rcases xs with _ | ⟨x₁, _ | ⟨x₂, _ | ⟨x₃, _ | ⟨x₄, xs⟩⟩⟩⟩
    · obtain ⟨rfl, rfl⟩ := List.cons.inj heq
      cases hcall
    · simp only [promptCalls, List.cons_append, List.nil_append, List.cons.injEq] at heq
      obtain ⟨rfl, rfl, rfl⟩ := heq
      obtain rfl := Call.reportTaskCompletion.inj hcall
      exact ⟨[], _, [], rfl, _, rfl, rfl⟩
    · simp only [promptCalls, List.cons_append, List.nil_append, List.cons.injEq] at heq
      obtain ⟨rfl, rfl, rfl, rfl⟩ := heq
      cases hcall
    · simp only [promptCalls, List.cons_append, List.nil_append, List.cons.injEq] at heq
      obtain ⟨rfl, rfl, rfl, rfl, rfl⟩ := heq
      obtain rfl := Call.reportTaskCompletion.inj hcall
      exact ⟨[_, _], _, [], rfl, _, rfl, rfl⟩
    · simp [promptCalls] at heq

open Coordinator in
/-- In the job without failures the map task is handed out exactly once; and a map task handed out
at time 0 that is never reported is handed out again at time `taskTimeout`, not earlier. -/
theorem no_needless_reexecution_at_calls :
    (assignments (makeCoordinator 0 [[1]] 1).1 promptCalls 1).length = 1 ∧
    Reassigned (makeCoordinator 0 [[1]] 1).1 [] ⟨0, .requestTask [1] [2] fun _ => .ok []⟩ []
      ⟨taskTimeout, .requestTask [1] [2] fun _ => .ok []⟩ 1 := by
  constructor
  · exact (no_needless_reexecution 0 [[1]] 1).2.2 promptCalls [] _ rfl (by decide)
      prompt_promptCalls 1 (Or.inl (by decide))
  · exact (no_needless_reexecution 0 [[1]] 1).1 [] _ [] _ [] _ 1 rfl ⟨_, rfl, rfl⟩ ⟨_, rfl, rfl⟩
      (by simp)

end DistributedSystems.MapReduce
