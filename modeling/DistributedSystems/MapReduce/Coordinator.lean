import DistributedSystems.MapReduce.Task
import DistributedSystems.Transition.System
import Mathlib.Data.List.Perm.Basic

/-! # The coordinator

`coordinator.go` as functions on an explicit `Coordinator` state. Each handler runs under the lock,
so one call is one step; the clock reading of the call is `now`, and the iteration order of each map
the handler ranges over is a parameter.

`RequestTask` fills its reply with *references*: the task and the map of producers in it are the
coordinator's own. `Reply` keeps these references and `encode` reads them from the coordinator at
the moment the reply is encoded. -/

namespace DistributedSystems.MapReduce

open Std (TreeMap)

/-- The coordinator: its map and reduce tasks by identifier. -/
structure Coordinator where
  /-- The map tasks. -/
  mapTasks : TreeMap TaskID MapTask
  /-- The reduce tasks. -/
  reduceTasks : TreeMap TaskID ReduceTask

/-! ## Construction -/

/-- `getGlobalID`: the next value of the counter, which is also the identifier handed out. -/
def getGlobalID (globalID : ℤ) : ℤ := globalID + 1

/-- The map task that `MakeCoordinator` creates for a file. -/
def newMapTask (nReduceTasks : ℕ) (taskID : TaskID) (filePath : GoString) : MapTask :=
  { task := { id := taskID, type := .map, state := .unassigned }, file := filePath,
    buckets := nReduceTasks }

/-- The reduce task that `MakeCoordinator` creates for a bucket. -/
def newReduceTask (taskID : TaskID) (bucket : ℕ) : ReduceTask :=
  { task := { id := taskID, type := .reduce, state := .unassigned }, bucket := bucket,
    mapTaskOutputs := ∅ }

/-- The two loops of `MakeCoordinator`: for each item a fresh identifier and a task under it. -/
def addTasks {ι β : Type} (new : TaskID → ι → β) :
    List ι → TreeMap TaskID β × ℤ → TreeMap TaskID β × ℤ
  | [], acc => acc
  | item :: items, (tasks, globalID) =>
      let taskID := getGlobalID globalID
      addTasks new items (tasks.insert taskID (new taskID item), taskID)

/-- `MakeCoordinator`, with the counter `globalID` it starts from; the second component is the
counter afterwards. -/
def makeCoordinator (globalID : ℤ) (files : List GoString) (nReduceTasks : ℕ) : Coordinator × ℤ :=
  let (mapTasks, globalID) := addTasks (newMapTask nReduceTasks) files (∅, globalID)
  let (reduceTasks, globalID) := addTasks newReduceTask (List.range nReduceTasks) (∅, globalID)
  ({ mapTasks, reduceTasks }, globalID)

/-! ## Replies -/

/-- A `*Task` in a reply: a task of its own, or one of the coordinator's tasks. -/
inductive TaskRef
  /-- A task allocated for the reply. -/
  | fresh (task : Task)
  /-- The coordinator's map task with this identifier. -/
  | mapTask (id : TaskID)
  /-- The coordinator's reduce task with this identifier. -/
  | reduceTask (id : TaskID)
  deriving DecidableEq

/-- A `*ReduceTaskData` in a reply; its `MapTaskOutputs` is the map of one of the coordinator's
reduce tasks, not a copy of it. -/
structure ReduceTaskRef where
  /-- The bucket. -/
  bucket : ℕ
  /-- The reduce task whose `MapTaskOutputs` the reply refers to. -/
  mapTaskOutputs : TaskID
  deriving DecidableEq

/-- The reply that `RequestTask` fills in. -/
structure Reply where
  /-- The task. -/
  task : TaskRef
  /-- The data of a map task. -/
  mapData : Option MapTaskData := none
  /-- The data of a reduce task. -/
  reduceData : Option ReduceTaskRef := none
  deriving DecidableEq

/-- The task of the coordinator that a reply hands out, if it hands one out. -/
def Reply.assigned (r : Reply) : Option TaskID :=
  match r.task with
  | .fresh _ => none
  | .mapTask id => some id
  | .reduceTask id => some id

namespace Coordinator

/-- The task a reference points to. -/
def deref (c : Coordinator) : TaskRef → Option Task
  | .fresh task => some task
  | .mapTask id => c.mapTasks[id]?.map MapTask.task
  | .reduceTask id => c.reduceTasks[id]?.map ReduceTask.task

/-- The encoding of a reply, which reads what the reply refers to from the coordinator. -/
def encode (c : Coordinator) (r : Reply) : TaskReply :=
  { task := c.deref r.task
    mapData := r.mapData
    reduceData := r.reduceData.bind fun d => c.reduceTasks[d.mapTaskOutputs]?.map fun t =>
      { bucket := d.bucket, mapTaskOutputs := t.mapTaskOutputs } }

/-! ## Handlers -/

/-- `shouldAssignTask`: the task is unassigned, or running and timed out. -/
def shouldAssignTask (now : Time) (task : Task) : Bool :=
  task.state == .unassigned || (task.state == .running && task.isTimedOut now)

/-- `pickMapTaskLocked`: the first assignable map task in the iteration order. -/
def pickMapTaskLocked (c : Coordinator) (now : Time) (order : List TaskID) :
    Option (TaskID × MapTask) :=
  order.findSome? fun id => c.mapTasks[id]?.bind fun mapTask =>
    if shouldAssignTask now mapTask.task then some (id, mapTask) else none

/-- `pickReduceTaskLocked`: the first assignable reduce task in the iteration order. -/
def pickReduceTaskLocked (c : Coordinator) (now : Time) (order : List TaskID) :
    Option (TaskID × ReduceTask) :=
  order.findSome? fun id => c.reduceTasks[id]?.bind fun reduceTask =>
    if shouldAssignTask now reduceTask.task then some (id, reduceTask) else none

/-- `allMapTasksDoneLocked`. -/
def allMapTasksDoneLocked (c : Coordinator) : Bool :=
  c.mapTasks.toList.all fun entry => entry.2.task.state == .done

/-- `allReduceTasksDoneLocked`. -/
def allReduceTasksDoneLocked (c : Coordinator) : Bool :=
  c.reduceTasks.toList.all fun entry => entry.2.task.state == .done

/-- `Done`: every map and every reduce task is done. -/
def done (c : Coordinator) : Bool := c.allMapTasksDoneLocked && c.allReduceTasksDoneLocked

/-- A map task is marked running through the pointer in the reply. -/
def markMapRunning (c : Coordinator) (id : TaskID) (now : Time) : Coordinator :=
  { c with mapTasks := c.mapTasks.modify id fun t => { t with task := t.task.markRunning now } }

/-- A reduce task is marked running through the pointer in the reply. -/
def markReduceRunning (c : Coordinator) (id : TaskID) (now : Time) : Coordinator :=
  { c with reduceTasks := c.reduceTasks.modify id fun t => { t with task := t.task.markRunning now } }

/-- The `TaskWait` reply. -/
def waitReply (now : Time) : Reply :=
  { task := .fresh (({ id := 0, type := .wait } : Task).markRunning now) }

/-- What a call of `RequestTask` leaves: the coordinator, the reply it filled in and its error. -/
structure Requested where
  /-- The coordinator after the call. -/
  coordinator : Coordinator
  /-- The reply; it is sent to the worker only when there is no error. -/
  reply : Reply
  /-- The error, if the input file could not be read. -/
  err : Option GoString := none

/-- `RequestTask` at time `now`, with the iteration orders of the two maps and the outcome of
`os.ReadFile` for each file. -/
def requestTask (c : Coordinator) (now : Time) (mapOrder reduceOrder : List TaskID)
    (readFile : GoString → Except GoString GoString) : Requested :=
  match c.pickMapTaskLocked now mapOrder with
  | some (id, mapTask) =>
      -- the task is marked running before the file is read, and stays so when reading fails
      let c := c.markMapRunning id now
      match readFile mapTask.file with
      | .error err =>
          { coordinator := c, reply := { task := .mapTask id }
            err := some (.ofString "coordinator: cannot read file " ++ mapTask.file ++
              .ofString ": " ++ err) }
      | .ok fileContent =>
          let data : MapTaskData :=
            { key := mapTask.file, content := fileContent, buckets := mapTask.buckets }
          { coordinator := c, reply := { task := .mapTask id, mapData := some data } }
  | none =>
      if !c.allMapTasksDoneLocked then
        { coordinator := c, reply := waitReply now }
      else
        match c.pickReduceTaskLocked now reduceOrder with
        | some (id, reduceTask) =>
            let data : ReduceTaskRef := { bucket := reduceTask.bucket, mapTaskOutputs := id }
            { coordinator := c.markReduceRunning id now
              reply := { task := .reduceTask id, reduceData := some data } }
        | none => { coordinator := c, reply := waitReply now }

/-- The branch of `ReportTaskCompletion` that marks the map task found under `id` done and registers
it with every reduce task. -/
def finishMap (c : Coordinator) (id : TaskID) (mapTask : MapTask) (workerAddress : GoString) :
    Coordinator :=
  { mapTasks := c.mapTasks.modify id fun t => { t with task := { t.task with state := .done } }
    reduceTasks := c.reduceTasks.map fun _ t =>
      { t with mapTaskOutputs := t.mapTaskOutputs.insert mapTask.task.id workerAddress } }

/-- The branch of `ReportTaskCompletion` that marks a reduce task done. -/
def finishReduce (c : Coordinator) (id : TaskID) : Coordinator :=
  { c with reduceTasks := c.reduceTasks.modify id fun t =>
      { t with task := { t.task with state := .done } } }

/-- The branch of `ReportMissingMapOutputs` that reschedules the map task found under `id` and
removes it from every reduce task. -/
def resetMap (c : Coordinator) (id : TaskID) (mapTask : MapTask) : Coordinator :=
  { mapTasks := c.mapTasks.modify id fun t =>
      { t with task := { t.task with state := .unassigned, assignedAt := 0 } }
    reduceTasks := c.reduceTasks.map fun _ t =>
      { t with mapTaskOutputs := t.mapTaskOutputs.erase mapTask.task.id } }

/-- `ReportTaskCompletion`. -/
def reportTaskCompletion (c : Coordinator) (args : ReportTaskCompletionArgs) : Coordinator :=
  match args.task.type with
  | .map =>
      match c.mapTasks[args.task.id]? with
      | some mapTask =>
          if mapTask.task.state ≠ .done then
            c.finishMap args.task.id mapTask args.workerAddress
          else c
      | none => c
  | .reduce =>
      match c.reduceTasks[args.task.id]? with
      | some _ => c.finishReduce args.task.id
      | none => c
  | _ => c

/-- `ReportMissingMapOutputs`. -/
def reportMissingMapOutputs (c : Coordinator) (args : ReportMissingMapOutputsArgs) : Coordinator :=
  match c.mapTasks[args.mapTaskID]? with
  | some mapTask => if mapTask.task.state = .done then c.resetMap args.mapTaskID mapTask else c
  | none => c

end Coordinator

/-! ## Calls as a system -/

/-- A call to the coordinator, with the choices the call does not determine. -/
inductive Call
  /-- `RequestTask`, with the iteration orders of the two maps and the outcomes of `os.ReadFile`. -/
  | requestTask (mapOrder reduceOrder : List TaskID) (readFile : GoString → Except GoString GoString)
  /-- `ReportTaskCompletion`. -/
  | reportTaskCompletion (args : ReportTaskCompletionArgs)
  /-- `ReportMissingMapOutputs`. -/
  | reportMissingMapOutputs (args : ReportMissingMapOutputsArgs)

/-- A call with the time at which it is handled. -/
structure TimedCall where
  /-- The clock reading of the call. -/
  time : Time
  /-- The call. -/
  call : Call

/-- The iteration orders of a call are orders of the maps' keys. -/
def Call.Ordered (c : Coordinator) : Call → Prop
  | .requestTask mapOrder reduceOrder _ =>
      mapOrder.Perm c.mapTasks.keys ∧ reduceOrder.Perm c.reduceTasks.keys
  | _ => True

instance (c : Coordinator) : DecidablePred (Call.Ordered c)
  | .requestTask mapOrder reduceOrder _ =>
      inferInstanceAs (Decidable (mapOrder.Perm c.mapTasks.keys ∧ reduceOrder.Perm c.reduceTasks.keys))
  | .reportTaskCompletion _ => inferInstanceAs (Decidable True)
  | .reportMissingMapOutputs _ => inferInstanceAs (Decidable True)

/-- The coordinator after a call. -/
def Coordinator.handle (c : Coordinator) (r : TimedCall) : Coordinator :=
  match r.call with
  | .requestTask mapOrder reduceOrder readFile =>
      (c.requestTask r.time mapOrder reduceOrder readFile).coordinator
  | .reportTaskCompletion args => c.reportTaskCompletion args
  | .reportMissingMapOutputs args => c.reportMissingMapOutputs args

/-- The coordinator as a system whose labels are the calls. -/
def coordinatorSystem (c₀ : Coordinator) : System Coordinator TimedCall where
  init := c₀
  step c r := if r.call.Ordered c then some (c.handle r) else none

/-- A step of the coordinator handles a call with proper iteration orders. -/
theorem coordinatorSystem_step {c₀ c c' : Coordinator} {r : TimedCall} :
    (coordinatorSystem c₀).step c r = some c' ↔ r.call.Ordered c ∧ c' = c.handle r := by
  simp only [coordinatorSystem]
  split
  · next h => simp [h, eq_comm]
  · next h => simp [h]

end DistributedSystems.MapReduce
