import DistributedSystems.MapReduce.CoordinatorSpec
import DistributedSystems.Transition.Lease

/-! # Every task is a lease

The coordinator keeps the state of a task in several places: `State` and `AssignedAt` of the task
itself, and, for a map task, one entry in the `MapTaskOutputs` of every reduce task. This module
shows that all of them are views of one `Lease`: along every run, a task reflects the lease obtained
from the assignments, completion reports and resets of that task (`taskLease`), and the entry of a
map task in every reduce task is the payload of its lease. `map_reflects` and `reduce_reflects` are
the simulation; they also say that assignments respect the timeout. -/

namespace DistributedSystems.MapReduce

open Std (TreeMap)

/-! ## Identities -/

/-- What never changes of a map task. -/
def MapTask.identity (t : MapTask) : TaskID × TaskType × GoString × ℕ :=
  (t.task.id, t.task.type, t.file, t.buckets)

/-- What never changes of a reduce task. -/
def ReduceTask.identity (t : ReduceTask) : TaskID × TaskType × ℕ :=
  (t.task.id, t.task.type, t.bucket)

namespace Coordinator

variable {c c' c₀ : Coordinator} {r : TimedCall}

/-- No call changes the identity of a map task. -/
theorem Effect.mapIdentity (h : c.Effect r c') (id : TaskID) :
    c'.mapTasks[id]?.map MapTask.identity = c.mapTasks[id]?.map MapTask.identity := by
  cases h <;> simp only [markMapRunning_mapTasks, markReduceRunning_mapTasks, finishMap_mapTasks,
    finishReduce_mapTasks, resetMap_mapTasks]
  all_goals
    split
    · rw [Option.map_map]; rfl
    · rfl

/-- No call changes the identity of a reduce task. -/
theorem Effect.reduceIdentity (h : c.Effect r c') (id : TaskID) :
    c'.reduceTasks[id]?.map ReduceTask.identity = c.reduceTasks[id]?.map ReduceTask.identity := by
  cases h <;> simp only [markMapRunning_reduceTasks, markReduceRunning_reduceTasks,
    finishMap_reduceTasks, finishReduce_reduceTasks, resetMap_reduceTasks]
  case finishMap => rw [Option.map_map]; rfl
  case resetMap => rw [Option.map_map]; rfl
  all_goals
    split
    · rw [Option.map_map]; rfl
    · rfl

/-- Along every run the map tasks keep their identities. -/
theorem mapIdentity_exec {rs : List TimedCall} (h : (coordinatorSystem c₀).exec c₀ rs = some c)
    (id : TaskID) : c.mapTasks[id]?.map MapTask.identity = c₀.mapTasks[id]?.map MapTask.identity := by
  refine System.exec_induction
    (P := fun _ c => c.mapTasks[id]?.map MapTask.identity = c₀.mapTasks[id]?.map MapTask.identity)
    rfl ?_ h
  intro rs c r c' _ ih hstep
  obtain ⟨hord, rfl⟩ := coordinatorSystem_step.mp hstep
  rw [(c.handle_effect hord).mapIdentity, ih]

/-- Along every run the reduce tasks keep their identities. -/
theorem reduceIdentity_exec {rs : List TimedCall} (h : (coordinatorSystem c₀).exec c₀ rs = some c)
    (id : TaskID) :
    c.reduceTasks[id]?.map ReduceTask.identity = c₀.reduceTasks[id]?.map ReduceTask.identity := by
  refine System.exec_induction (P := fun _ c =>
    c.reduceTasks[id]?.map ReduceTask.identity = c₀.reduceTasks[id]?.map ReduceTask.identity) rfl ?_ h
  intro rs c r c' _ ih hstep
  obtain ⟨hord, rfl⟩ := coordinatorSystem_step.mp hstep
  rw [(c.handle_effect hord).reduceIdentity, ih]

/-- The map tasks along a run, found by those of the coordinator it starts from. -/
theorem exists_mapTask {rs : List TimedCall} (h : (coordinatorSystem c₀).exec c₀ rs = some c)
    {id : TaskID} {t₀ : MapTask} (ht : c₀.mapTasks[id]? = some t₀) :
    ∃ t, c.mapTasks[id]? = some t ∧ t.identity = t₀.identity := by
  have hid := mapIdentity_exec h id
  rw [ht, Option.map_some, Option.map_eq_some_iff] at hid
  exact hid

/-- The reduce tasks along a run, found by those of the coordinator it starts from. -/
theorem exists_reduceTask {rs : List TimedCall} (h : (coordinatorSystem c₀).exec c₀ rs = some c)
    {id : TaskID} {t₀ : ReduceTask} (ht : c₀.reduceTasks[id]? = some t₀) :
    ∃ t, c.reduceTasks[id]? = some t ∧ t.identity = t₀.identity := by
  have hid := reduceIdentity_exec h id
  rw [ht, Option.map_some, Option.map_eq_some_iff] at hid
  exact hid

/-- Where the map tasks along a run come from. -/
theorem exists_mapTask_start {rs : List TimedCall} (h : (coordinatorSystem c₀).exec c₀ rs = some c)
    {id : TaskID} {t : MapTask} (ht : c.mapTasks[id]? = some t) :
    ∃ t₀, c₀.mapTasks[id]? = some t₀ ∧ t₀.identity = t.identity := by
  have hid := mapIdentity_exec h id
  rw [ht, Option.map_some, eq_comm, Option.map_eq_some_iff] at hid
  exact hid

/-- Where the reduce tasks along a run come from. -/
theorem exists_reduceTask_start {rs : List TimedCall}
    (h : (coordinatorSystem c₀).exec c₀ rs = some c)
    {id : TaskID} {t : ReduceTask} (ht : c.reduceTasks[id]? = some t) :
    ∃ t₀, c₀.reduceTasks[id]? = some t₀ ∧ t₀.identity = t.identity := by
  have hid := reduceIdentity_exec h id
  rw [ht, Option.map_some, eq_comm, Option.map_eq_some_iff] at hid
  exact hid

/-- An identifier that is no map task at the start is none later. -/
theorem mapTask_none {rs : List TimedCall} (h : (coordinatorSystem c₀).exec c₀ rs = some c)
    {id : TaskID} (hid : c₀.mapTasks[id]? = none) : c.mapTasks[id]? = none := by
  have hsame := mapIdentity_exec h id
  rw [hid, Option.map_none, Option.map_eq_none_iff] at hsame
  exact hsame

/-- The map tasks of a coordinator are those it started with. -/
theorem mem_mapTasks_exec {rs : List TimedCall} (h : (coordinatorSystem c₀).exec c₀ rs = some c)
    (id : TaskID) : id ∈ c.mapTasks ↔ id ∈ c₀.mapTasks := by
  have hid := congrArg Option.isSome (mapIdentity_exec h id)
  rw [Option.isSome_map, Option.isSome_map] at hid
  rw [TreeMap.mem_iff_isSome_getElem?, TreeMap.mem_iff_isSome_getElem?, hid]

/-- The reduce tasks of a coordinator are those it started with. -/
theorem mem_reduceTasks_exec {rs : List TimedCall} (h : (coordinatorSystem c₀).exec c₀ rs = some c)
    (id : TaskID) : id ∈ c.reduceTasks ↔ id ∈ c₀.reduceTasks := by
  have hid := congrArg Option.isSome (reduceIdentity_exec h id)
  rw [Option.isSome_map, Option.isSome_map] at hid
  rw [TreeMap.mem_iff_isSome_getElem?, TreeMap.mem_iff_isSome_getElem?, hid]

/-- A coordinator is **well formed** when every task is stored under its own identifier and no
identifier names both a map and a reduce task. -/
structure WellFormed (c : Coordinator) : Prop where
  /-- A map task is stored under its identifier. -/
  mapID : ∀ (id : TaskID) (t : MapTask), c.mapTasks[id]? = some t → t.task.id = id
  /-- A reduce task is stored under its identifier. -/
  reduceID : ∀ (id : TaskID) (t : ReduceTask), c.reduceTasks[id]? = some t → t.task.id = id
  /-- Map and reduce tasks have different identifiers. -/
  disjoint : ∀ (id : TaskID) (t : MapTask), c.mapTasks[id]? = some t → c.reduceTasks[id]? = none

/-- A new coordinator is well formed. -/
theorem wellFormed_make (g : ℤ) (files : List GoString) (n : ℕ) :
    (makeCoordinator g files n).1.WellFormed where
  mapID id t ht := by
    obtain ⟨i, file, -, -, rfl⟩ := (makeCoordinator_mapTasks g files n id t).mp ht
    rfl
  reduceID id t ht := by
    obtain ⟨b, -, -, rfl⟩ := (makeCoordinator_reduceTasks g files n id t).mp ht
    rfl
  disjoint id t ht := by
    obtain ⟨i, file, hi, rfl, -⟩ := (makeCoordinator_mapTasks g files n id t).mp ht
    rw [Option.eq_none_iff_forall_ne_some]
    intro t' ht'
    obtain ⟨b, -, hid, -⟩ := (makeCoordinator_reduceTasks g files n _ t').mp ht'
    obtain ⟨hlt, -⟩ := List.getElem?_eq_some_iff.mp hi
    -- a map task has one of the first `files.length` identifiers, a reduce task a later one
    have hid' : g + 1 + (i : ℤ) = g + files.length + 1 + b := hid
    omega

/-- Well-formedness is kept along every run. -/
theorem WellFormed.exec (hwf : c₀.WellFormed) {rs : List TimedCall}
    (h : (coordinatorSystem c₀).exec c₀ rs = some c) : c.WellFormed where
  mapID id t ht := by
    obtain ⟨t₀, ht₀, heq⟩ := exists_mapTask_start h ht
    rw [← hwf.mapID id t₀ ht₀]
    exact (congrArg Prod.fst heq).symm
  reduceID id t ht := by
    obtain ⟨t₀, ht₀, heq⟩ := exists_reduceTask_start h ht
    rw [← hwf.reduceID id t₀ ht₀]
    exact (congrArg Prod.fst heq).symm
  disjoint id t ht := by
    obtain ⟨t₀, ht₀, -⟩ := exists_mapTask_start h ht
    have hid := reduceIdentity_exec h id
    rw [hwf.disjoint id t₀ ht₀, Option.map_none, Option.map_eq_none_iff] at hid
    exact hid

/-! ## The events of a task -/

/-- The type of the task with an identifier, if there is one. -/
def taskType (c : Coordinator) (id : TaskID) : Option TaskType :=
  if id ∈ c.mapTasks then some .map else if id ∈ c.reduceTasks then some .reduce else none

theorem taskType_map {id : TaskID} {t : MapTask} (ht : c.mapTasks[id]? = some t) :
    c.taskType id = some .map := by
  have hmem : id ∈ c.mapTasks := mem_iff_exists.mpr ⟨_, ht⟩
  rw [taskType, if_pos hmem]

theorem taskType_reduce (hwf : c.WellFormed) {id : TaskID} {t : ReduceTask}
    (ht : c.reduceTasks[id]? = some t) : c.taskType id = some .reduce := by
  have hmem : id ∈ c.reduceTasks := mem_iff_exists.mpr ⟨_, ht⟩
  have hnot : id ∉ c.mapTasks := by
    intro hid
    obtain ⟨t', ht'⟩ := mem_iff_exists.mp hid
    rw [hwf.disjoint id t' ht'] at ht
    cases ht
  rw [taskType, if_neg hnot, if_pos hmem]

/-- What a call is for the task with an identifier: the assignment of that task, a completion report
of it, or a report that its outputs are missing. -/
def taskEvent (id : TaskID) (c : Coordinator) (r : TimedCall) : Option (LeaseEvent Time GoString) :=
  match r.call with
  | .requestTask .. => if c.marked r = some id then some (.grant r.time) else none
  -- the handler looks the task up among the tasks of the type that the report gives
  | .reportTaskCompletion args =>
      if args.task.id = id ∧ c.taskType id = some args.task.type then
        some (.finish args.workerAddress)
      else none
  | .reportMissingMapOutputs args =>
      if args.mapTaskID = id ∧ c.taskType id = some .map then some .revoke else none

theorem taskEvent_completion {args : ReportTaskCompletionArgs} (id : TaskID)
    (hcall : r.call = .reportTaskCompletion args) : taskEvent id c r =
      if args.task.id = id ∧ c.taskType id = some args.task.type then
        some (.finish args.workerAddress) else none := by
  rw [taskEvent, hcall]

theorem taskEvent_missing {args : ReportMissingMapOutputsArgs} (id : TaskID)
    (hcall : r.call = .reportMissingMapOutputs args) : taskEvent id c r =
      if args.mapTaskID = id ∧ c.taskType id = some .map then some .revoke else none := by
  rw [taskEvent, hcall]

/-- A call that marks a task running is the assignment of that task. -/
theorem taskEvent_marked {id id' : TaskID} (hmarked : c.marked r = some id') :
    taskEvent id c r = if id' = id then some (.grant r.time) else none := by
  obtain ⟨now, call⟩ := r
  cases call with
  | requestTask => simp only [taskEvent, hmarked, Option.some.injEq]
  | reportTaskCompletion => simp [marked] at hmarked
  | reportMissingMapOutputs => simp [marked] at hmarked

/-- A `RequestTask` that hands out nothing is no event of any task. -/
theorem taskEvent_wait {id : TaskID} {mapOrder reduceOrder : List TaskID}
    {readFile : GoString → Except GoString GoString}
    (hcall : r.call = .requestTask mapOrder reduceOrder readFile) (hmarked : c.marked r = none) :
    taskEvent id c r = none := by
  simp [taskEvent, hcall, hmarked]

end Coordinator

/-! ## Tasks reflect their leases -/

/-- A lease held since `since` has expired at `now`. -/
def Expired (since now : Time) : Prop := taskTimeout ≤ now - since

/-- A task **reflects** a lease: unassigned, running since the grant, or done. -/
def Task.Reflects (t : Task) : Lease Time GoString → Prop
  | .free => t.state = .unassigned
  | .held since => t.state = .running ∧ t.assignedAt = since
  | .finished _ => t.state = .done

/-- An assignable task reflects a grantable lease, which has no payload. -/
theorem Task.Reflects.grantable {t : Task} {l : Lease Time GoString} (h : t.Reflects l) {now : Time}
    (hassign : Coordinator.shouldAssignTask now t = true) :
    l.Grantable Expired now ∧ l.payload = none := by
  rw [Coordinator.shouldAssignTask_iff] at hassign
  cases l with
  | free => exact ⟨trivial, rfl⟩
  | held since =>
      obtain ⟨hstate, hat⟩ := h
      rcases hassign with hfree | ⟨-, hexp⟩
      · rw [hstate] at hfree; cases hfree
      · rw [hat] at hexp
        exact ⟨hexp, rfl⟩
  | finished p =>
      have hstate : t.state = .done := h
      rcases hassign with hfree | ⟨hrun, -⟩
      · rw [hstate] at hfree; cases hfree
      · rw [hstate] at hrun; cases hrun

/-- A task reflects a finished lease exactly when it is done. -/
theorem Task.Reflects.done_iff {t : Task} {l : Lease Time GoString} (h : t.Reflects l) :
    t.state = .done ↔ ∃ p, l = .finished p := by
  cases l with
  | free =>
      have hstate : t.state = .unassigned := h
      simp [hstate]
  | held since => simp [h.1]
  | finished p =>
      have hstate : t.state = .done := h
      simp [hstate]

namespace Coordinator

variable {c c' c₀ : Coordinator} {r : TimedCall} {id : TaskID} {l : Lease Time GoString}

/-- The entry of a map task in the `MapTaskOutputs` of every reduce task is `address`. -/
def Registered (c : Coordinator) (id : TaskID) (address : Option GoString) : Prop :=
  ∀ (rid : TaskID) (rt : ReduceTask), c.reduceTasks[rid]? = some rt → rt.mapTaskOutputs[id]? = address

/-- A map task and its registrations reflect a lease. -/
def MapReflects (c : Coordinator) (id : TaskID) (l : Lease Time GoString) : Prop :=
  (∃ t, c.mapTasks[id]? = some t ∧ t.task.Reflects l) ∧ c.Registered id l.payload

/-- A reduce task reflects a lease. -/
def ReduceReflects (c : Coordinator) (id : TaskID) (l : Lease Time GoString) : Prop :=
  ∃ t, c.reduceTasks[id]? = some t ∧ t.task.Reflects l

/-- Updating only the tasks of the reduce tasks keeps the registrations. -/
theorem Registered.of_modify {address : Option GoString} (h : c.Registered id address)
    {id' : TaskID} {f : Task → Task}
    (hc : ∀ rid, c'.reduceTasks[rid]? = if id' = rid then
      c.reduceTasks[rid]?.map fun t => { t with task := f t.task } else c.reduceTasks[rid]?) :
    c'.Registered id address := by
  intro rid rt hrt
  rw [hc rid] at hrt
  split at hrt
  · obtain ⟨rt', hrt', rfl⟩ := Option.map_eq_some_iff.mp hrt
    exact h rid rt' hrt'
  · exact h rid rt hrt

/-- The first completion of another map task keeps the registrations of a map task. -/
theorem Registered.finishMap {address : Option GoString} (h : c.Registered id address)
    (id' : TaskID) {t : MapTask} (hne : t.task.id ≠ id) (workerAddress : GoString) :
    (c.finishMap id' t workerAddress).Registered id address := by
  intro rid rt hrt
  rw [finishMap_reduceTasks] at hrt
  obtain ⟨rt', hrt', rfl⟩ := Option.map_eq_some_iff.mp hrt
  rw [TreeMap.getElem?_insert, if_neg (by simpa using hne)]
  exact h rid rt' hrt'

/-- The first completion of a map task registers it. -/
theorem registered_finishMap (id' : TaskID) (t : MapTask) (workerAddress : GoString) :
    (c.finishMap id' t workerAddress).Registered t.task.id (some workerAddress) := by
  intro rid rt hrt
  rw [finishMap_reduceTasks] at hrt
  obtain ⟨rt', -, rfl⟩ := Option.map_eq_some_iff.mp hrt
  simp

/-- The reset of another map task keeps the registrations of a map task. -/
theorem Registered.resetMap {address : Option GoString} (h : c.Registered id address)
    (id' : TaskID) {t : MapTask} (hne : t.task.id ≠ id) :
    (c.resetMap id' t).Registered id address := by
  intro rid rt hrt
  rw [resetMap_reduceTasks] at hrt
  obtain ⟨rt', hrt', rfl⟩ := Option.map_eq_some_iff.mp hrt
  rw [TreeMap.getElem?_erase, if_neg (by simpa using hne)]
  exact h rid rt' hrt'

/-- The reset of a map task removes its registrations. -/
theorem registered_resetMap (id' : TaskID) (t : MapTask) :
    (c.resetMap id' t).Registered t.task.id none := by
  intro rid rt hrt
  rw [resetMap_reduceTasks] at hrt
  obtain ⟨rt', -, rfl⟩ := Option.map_eq_some_iff.mp hrt
  simp

/-- A call that is no event of a task leaves its lease alone. -/
theorem step_of_no_event {R : Coordinator → TaskID → Lease Time GoString → Prop}
    (hevent : taskEvent id c r = none) (h : R c' id l) :
    R c' id (l.after (taskEvent id c r).toList) ∧
      ∀ now, taskEvent id c r = some (.grant now) → l.Grantable Expired now := by
  rw [hevent]
  exact ⟨h, fun now hnow => by cases hnow⟩

/-- A call that is an event of a task moves its lease. -/
theorem step_of_event {R : Coordinator → TaskID → Lease Time GoString → Prop}
    {e : LeaseEvent Time GoString} (hevent : taskEvent id c r = some e) (h : R c' id (l.next e))
    (hgrant : ∀ now, e = .grant now → l.Grantable Expired now) :
    R c' id (l.after (taskEvent id c r).toList) ∧
      ∀ now, taskEvent id c r = some (.grant now) → l.Grantable Expired now := by
  rw [hevent]
  exact ⟨h, fun now hnow => hgrant now (Option.some.inj hnow)⟩

/-- **One call, one map task**: the task and its registrations keep reflecting the lease of the
task, and an assignment happens only when the lease can be granted. -/
theorem MapReflects.step (hwf : c.WellFormed) (heff : c.Effect r c') (h : c.MapReflects id l) :
    c'.MapReflects id (l.after (taskEvent id c r).toList) ∧
      ∀ now, taskEvent id c r = some (.grant now) → l.Grantable Expired now := by
  obtain ⟨⟨t, ht, hl⟩, hreg⟩ := h
  have htype := taskType_map ht
  cases heff with
  | @assignMap id' t' hmarked ht' hassign =>
      by_cases hid : id' = id
      · subst hid
        obtain rfl : t = t' := Option.some.inj (ht.symm.trans ht')
        -- an assignable task has no registration, before and after the grant
        obtain ⟨hgrant, hpay⟩ := hl.grantable hassign
        have hnew : (c.markMapRunning id' r.time).mapTasks[id']? =
            some { t with task := t.task.markRunning r.time } := by
          rw [markMapRunning_mapTasks, if_pos rfl, ht, Option.map_some]
        have hevent : taskEvent id' c r = some (.grant r.time) := by
          rw [taskEvent_marked hmarked, if_pos rfl]
        rw [hpay] at hreg
        refine step_of_event hevent ⟨⟨_, hnew, rfl, rfl⟩, hreg⟩ ?_
        rintro now ⟨⟩
        exact hgrant
      · exact step_of_no_event (by rw [taskEvent_marked hmarked, if_neg hid])
          ⟨⟨t, by rw [markMapRunning_mapTasks, if_neg hid, ht], hl⟩, hreg⟩
  | @assignReduce id' t' hmarked hall ht' hassign =>
      -- a reduce task has another identifier, and its outputs stay as they are
      have hid : id' ≠ id := by
        rintro rfl
        rw [hwf.disjoint id' t ht] at ht'
        cases ht'
      exact step_of_no_event (by rw [taskEvent_marked hmarked, if_neg hid])
        ⟨⟨t, ht, hl⟩, hreg.of_modify (f := (·.markRunning r.time))
          (c.markReduceRunning_reduceTasks id' · r.time)⟩
  | wait hcall hmarked =>
      exact step_of_no_event (taskEvent_wait hcall hmarked) ⟨⟨t, ht, hl⟩, hreg⟩
  | @finishMap args t' hcall htype' ht' hstate =>
      have hkey := hwf.mapID _ t' ht'
      have hevent := taskEvent_completion (c := c) id hcall
      rw [htype, htype'] at hevent
      by_cases hid : args.task.id = id
      · subst hid
        obtain rfl : t = t' := Option.some.inj (ht.symm.trans ht')
        rw [if_pos ⟨rfl, rfl⟩] at hevent
        -- the task is not done, so this completion is the one that counts
        have hnext : l.next (.finish args.workerAddress) = .finished args.workerAddress := by
          cases l with
          | free => rfl
          | held since => rfl
          | finished p => exact absurd hl hstate
        have hnew : (c.finishMap args.task.id t args.workerAddress).mapTasks[args.task.id]? =
            some { t with task := { t.task with state := .done } } := by
          rw [finishMap_mapTasks, if_pos rfl, ht, Option.map_some]
        have hnewReg := c.registered_finishMap args.task.id t args.workerAddress
        rw [hkey] at hnewReg
        refine step_of_event hevent ?_ (by rintro now ⟨⟩)
        rw [hnext]
        exact ⟨⟨_, hnew, rfl⟩, hnewReg⟩
      · rw [if_neg (fun h => hid h.1)] at hevent
        exact step_of_no_event hevent ⟨⟨t, by rw [finishMap_mapTasks, if_neg hid, ht], hl⟩,
          hreg.finishMap args.task.id (hkey ▸ hid) args.workerAddress⟩
  | @finishMapAgain args t' hcall htype' ht' hstate =>
      have hevent := taskEvent_completion (c := c) id hcall
      rw [htype, htype'] at hevent
      by_cases hid : args.task.id = id
      · subst hid
        obtain rfl : t = t' := Option.some.inj (ht.symm.trans ht')
        -- a finished lease keeps its payload, as the code keeps the first address
        obtain ⟨p, rfl⟩ := hl.done_iff.mp hstate
        rw [if_pos ⟨rfl, rfl⟩] at hevent
        exact step_of_event hevent ⟨⟨t, ht, hl⟩, hreg⟩ (by rintro now ⟨⟩)
      · rw [if_neg (fun h => hid h.1)] at hevent
        exact step_of_no_event hevent ⟨⟨t, ht, hl⟩, hreg⟩
  | @finishReduce args t' hcall htype' ht' =>
      exact step_of_no_event
        (by rw [taskEvent_completion id hcall, htype, htype', if_neg (by simp)])
        ⟨⟨t, ht, hl⟩, hreg.of_modify (f := ({ · with state := .done }))
          (c.finishReduce_reduceTasks args.task.id)⟩
  | @finishUnknown args hcall hmap hreduce =>
      refine step_of_no_event ?_ ⟨⟨t, ht, hl⟩, hreg⟩
      rw [taskEvent_completion id hcall, htype, if_neg]
      rintro ⟨rfl, htype'⟩
      rw [hmap (Option.some.inj htype').symm] at ht
      cases ht
  | @resetMap args t' hcall ht' hstate =>
      have hkey := hwf.mapID _ t' ht'
      have hevent := taskEvent_missing (c := c) id hcall
      rw [htype] at hevent
      by_cases hid : args.mapTaskID = id
      · subst hid
        obtain rfl : t = t' := Option.some.inj (ht.symm.trans ht')
        obtain ⟨p, rfl⟩ := hl.done_iff.mp hstate
        rw [if_pos ⟨rfl, rfl⟩] at hevent
        have hnew : (c.resetMap args.mapTaskID t).mapTasks[args.mapTaskID]? =
            some { t with task := { t.task with state := .unassigned, assignedAt := 0 } } := by
          rw [resetMap_mapTasks, if_pos rfl, ht, Option.map_some]
        have hnewReg := c.registered_resetMap args.mapTaskID t
        rw [hkey] at hnewReg
        exact step_of_event hevent ⟨⟨_, hnew, rfl⟩, hnewReg⟩ (by rintro now ⟨⟩)
      · rw [if_neg (fun h => hid h.1)] at hevent
        exact step_of_no_event hevent ⟨⟨t, by rw [resetMap_mapTasks, if_neg hid, ht], hl⟩,
          hreg.resetMap args.mapTaskID (hkey ▸ hid)⟩
  | @resetIdle args hcall ht' =>
      have hevent := taskEvent_missing (c := c) id hcall
      rw [htype] at hevent
      by_cases hid : args.mapTaskID = id
      · subst hid
        rw [if_pos ⟨rfl, rfl⟩] at hevent
        -- revoking a lease that is not finished does nothing
        have hnext : l.next .revoke = l := by
          cases l with
          | free => rfl
          | held since => rfl
          | finished p => exact absurd (hl.done_iff.mpr ⟨p, rfl⟩) (ht' t ht)
        refine step_of_event hevent ?_ (by rintro now ⟨⟩)
        rw [hnext]
        exact ⟨⟨t, ht, hl⟩, hreg⟩
      · rw [if_neg (fun h => hid h.1)] at hevent
        exact step_of_no_event hevent ⟨⟨t, ht, hl⟩, hreg⟩

/-- **One call, one reduce task**: the task keeps reflecting the lease of the task, and an
assignment happens only when the lease can be granted. -/
theorem ReduceReflects.step (hwf : c.WellFormed) (heff : c.Effect r c') (h : c.ReduceReflects id l) :
    c'.ReduceReflects id (l.after (taskEvent id c r).toList) ∧
      ∀ now, taskEvent id c r = some (.grant now) → l.Grantable Expired now := by
  obtain ⟨t, ht, hl⟩ := h
  have htype := taskType_reduce hwf ht
  cases heff with
  | @assignMap id' t' hmarked ht' hassign =>
      have hid : id' ≠ id := by
        rintro rfl
        rw [hwf.disjoint id' t' ht'] at ht
        cases ht
      exact step_of_no_event (by rw [taskEvent_marked hmarked, if_neg hid]) ⟨t, ht, hl⟩
  | @assignReduce id' t' hmarked hall ht' hassign =>
      by_cases hid : id' = id
      · subst hid
        obtain rfl : t = t' := Option.some.inj (ht.symm.trans ht')
        have hnew : (c.markReduceRunning id' r.time).reduceTasks[id']? =
            some { t with task := t.task.markRunning r.time } := by
          rw [markReduceRunning_reduceTasks, if_pos rfl, ht, Option.map_some]
        have hevent : taskEvent id' c r = some (.grant r.time) := by
          rw [taskEvent_marked hmarked, if_pos rfl]
        refine step_of_event hevent ⟨_, hnew, rfl, rfl⟩ ?_
        rintro now ⟨⟩
        exact (hl.grantable hassign).1
      · exact step_of_no_event (by rw [taskEvent_marked hmarked, if_neg hid])
          ⟨t, by rw [markReduceRunning_reduceTasks, if_neg hid, ht], hl⟩
  | wait hcall hmarked =>
      exact step_of_no_event (taskEvent_wait hcall hmarked) ⟨t, ht, hl⟩
  | @finishMap args t' hcall htype' ht' hstate =>
      -- only the outputs of the reduce task change
      have hnew : (c.finishMap args.task.id t' args.workerAddress).reduceTasks[id]? = some { t with
          mapTaskOutputs := t.mapTaskOutputs.insert t'.task.id args.workerAddress } := by
        rw [finishMap_reduceTasks, ht, Option.map_some]
      exact step_of_no_event
        (by rw [taskEvent_completion id hcall, htype, htype', if_neg (by simp)]) ⟨_, hnew, hl⟩
  | @finishMapAgain args t' hcall htype' ht' hstate =>
      exact step_of_no_event
        (by rw [taskEvent_completion id hcall, htype, htype', if_neg (by simp)]) ⟨t, ht, hl⟩
  | @finishReduce args t' hcall htype' ht' =>
      have hevent := taskEvent_completion (c := c) id hcall
      rw [htype, htype'] at hevent
      by_cases hid : args.task.id = id
      · subst hid
        rw [if_pos ⟨rfl, rfl⟩] at hevent
        have hnew : (c.finishReduce args.task.id).reduceTasks[args.task.id]? =
            some { t with task := { t.task with state := .done } } := by
          rw [finishReduce_reduceTasks, if_pos rfl, ht, Option.map_some]
        -- unlike for a map task, a further completion is not ignored; the task stays done
        have hnext : ∃ p, l.next (.finish args.workerAddress) = .finished p := by
          cases l <;> exact ⟨_, rfl⟩
        obtain ⟨p, hp⟩ := hnext
        refine step_of_event hevent ?_ (by rintro now ⟨⟩)
        rw [hp]
        exact ⟨_, hnew, rfl⟩
      · rw [if_neg (fun h => hid h.1)] at hevent
        exact step_of_no_event hevent
          ⟨t, by rw [finishReduce_reduceTasks, if_neg hid, ht], hl⟩
  | @finishUnknown args hcall hmap hreduce =>
      refine step_of_no_event ?_ ⟨t, ht, hl⟩
      rw [taskEvent_completion id hcall, htype, if_neg]
      rintro ⟨rfl, htype'⟩
      rw [hreduce (Option.some.inj htype').symm] at ht
      cases ht
  | @resetMap args t' hcall ht' hstate =>
      have hnew : (c.resetMap args.mapTaskID t').reduceTasks[id]? =
          some { t with mapTaskOutputs := t.mapTaskOutputs.erase t'.task.id } := by
        rw [resetMap_reduceTasks, ht, Option.map_some]
      exact step_of_no_event (by rw [taskEvent_missing id hcall, htype, if_neg (by simp)])
        ⟨_, hnew, hl⟩
  | @resetIdle args hcall ht' =>
      exact step_of_no_event (by rw [taskEvent_missing id hcall, htype, if_neg (by simp)])
        ⟨t, ht, hl⟩

/-! ## The simulation along a run -/

/-- A coordinator as `MakeCoordinator` leaves it: well formed, with every task unassigned and
nothing registered. -/
structure Fresh (c : Coordinator) : Prop extends c.WellFormed where
  /-- Every map task is unassigned. -/
  map : ∀ (id : TaskID) (t : MapTask), c.mapTasks[id]? = some t → t.task.state = .unassigned
  /-- Every reduce task is unassigned. -/
  reduce : ∀ (id : TaskID) (t : ReduceTask), c.reduceTasks[id]? = some t → t.task.state = .unassigned
  /-- No map task is registered. -/
  registered : ∀ id, c.Registered id none

/-- A new coordinator is fresh. -/
theorem fresh_make (g : ℤ) (files : List GoString) (n : ℕ) : (makeCoordinator g files n).1.Fresh where
  toWellFormed := wellFormed_make g files n
  map id t ht := by
    obtain ⟨i, file, -, -, rfl⟩ := (makeCoordinator_mapTasks g files n id t).mp ht
    rfl
  reduce id t ht := by
    obtain ⟨b, -, -, rfl⟩ := (makeCoordinator_reduceTasks g files n id t).mp ht
    rfl
  registered id rid rt hrt := by
    obtain ⟨b, -, -, rfl⟩ := (makeCoordinator_reduceTasks g files n rid rt).mp hrt
    simp [newReduceTask]

/-- The events of one task along a run. -/
def taskEvents (c₀ : Coordinator) (rs : List TimedCall) (id : TaskID) :
    List (LeaseEvent Time GoString) :=
  (coordinatorSystem c₀).observe (taskEvent id) c₀ rs

/-- The lease of one task after a run. -/
def taskLease (c₀ : Coordinator) (rs : List TimedCall) (id : TaskID) : Lease Time GoString :=
  Lease.free.after (taskEvents c₀ rs id)

/-- The lease of a task after one more call. -/
theorem taskLease_concat {rs : List TimedCall} (h : (coordinatorSystem c₀).exec c₀ rs = some c)
    (hstep : (coordinatorSystem c₀).step c r = some c') :
    taskLease c₀ (rs ++ [r]) id = (taskLease c₀ rs id).after (taskEvent id c r).toList := by
  rw [taskLease, taskEvents, System.observe_concat h hstep, Lease.after_append]
  rfl

/-- Guardedness of the events of a task after one more call. -/
theorem guarded_concat {rs : List TimedCall} (h : (coordinatorSystem c₀).exec c₀ rs = some c)
    (hstep : (coordinatorSystem c₀).step c r = some c')
    (hg : Lease.free.Guarded Expired (taskEvents c₀ rs id))
    (hr : ∀ now, taskEvent id c r = some (.grant now) →
      (taskLease c₀ rs id).Grantable Expired now) :
    Lease.free.Guarded Expired (taskEvents c₀ (rs ++ [r]) id) := by
  rw [taskEvents, System.observe_concat h hstep]
  cases he : taskEvent id c r with
  | none =>
      rw [Option.toList_none, List.append_nil]
      exact hg
  | some e =>
      refine hg.concat fun now hnow => hr now ?_
      rw [he, hnow]

/-- What reflects the lease of a task at the start, and after every call if it does before it,
reflects the lease after every run, and the grants of the lease are all guarded. -/
theorem reflects_of_step {R : Coordinator → Lease Time GoString → Prop} (hfresh : c₀.Fresh)
    (hinit : R c₀ .free)
    (hstep : ∀ {c r c' l}, c.WellFormed → c.Effect r c' → R c l →
      R c' (l.after (taskEvent id c r).toList) ∧
        ∀ now, taskEvent id c r = some (.grant now) → l.Grantable Expired now)
    {rs : List TimedCall} (h : (coordinatorSystem c₀).exec c₀ rs = some c) :
    R c (taskLease c₀ rs id) ∧ Lease.free.Guarded Expired (taskEvents c₀ rs id) := by
  refine System.exec_induction (P := fun rs c => R c (taskLease c₀ rs id) ∧
    Lease.free.Guarded Expired (taskEvents c₀ rs id)) ⟨hinit, ?_⟩ ?_ h
  · intro fs t gs heq
    simp [taskEvents] at heq
  · intro rs c r c' hrun ⟨ih, hg⟩ hnext
    obtain ⟨hord, rfl⟩ := coordinatorSystem_step.mp hnext
    obtain ⟨hreflects, hgrant⟩ :=
      hstep (hfresh.toWellFormed.exec hrun) (c.handle_effect hord) ih
    rw [taskLease_concat hrun hnext]
    exact ⟨hreflects, guarded_concat hrun hnext hg hgrant⟩

/-- **The simulation for map tasks.** After every run from a fresh coordinator, a map task and its
registrations reflect the lease of the task, whose grants are all guarded. -/
theorem map_reflects (hfresh : c₀.Fresh) {rs : List TimedCall}
    (h : (coordinatorSystem c₀).exec c₀ rs = some c) {t₀ : MapTask}
    (ht₀ : c₀.mapTasks[id]? = some t₀) :
    c.MapReflects id (taskLease c₀ rs id) ∧ Lease.free.Guarded Expired (taskEvents c₀ rs id) := by
  apply reflects_of_step (R := fun c l => c.MapReflects id l) hfresh ?_ MapReflects.step h
  exact ⟨⟨t₀, ht₀, hfresh.map id t₀ ht₀⟩, hfresh.registered id⟩

/-- **The simulation for reduce tasks.** After every run from a fresh coordinator, a reduce task
reflects the lease of the task, whose grants are all guarded. -/
theorem reduce_reflects (hfresh : c₀.Fresh) {rs : List TimedCall}
    (h : (coordinatorSystem c₀).exec c₀ rs = some c) {t₀ : ReduceTask}
    (ht₀ : c₀.reduceTasks[id]? = some t₀) :
    c.ReduceReflects id (taskLease c₀ rs id) ∧ Lease.free.Guarded Expired (taskEvents c₀ rs id) := by
  apply reflects_of_step (R := fun c l => c.ReduceReflects id l) hfresh ?_ ReduceReflects.step h
  exact ⟨t₀, ht₀, hfresh.reduce id t₀ ht₀⟩

end Coordinator

end DistributedSystems.MapReduce
