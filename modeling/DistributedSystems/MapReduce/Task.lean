import DistributedSystems.GoLang.Strings

/-! # Tasks, key/value pairs and RPC messages of the MapReduce lab

The data types of `data.go`, `task.go` and `rpc.go`. A Go `map` is a `Std.TreeMap`: the keys are
kept apart from any iteration order, and code that iterates over a map takes the order of its keys
as a parameter. Times are nanoseconds since the zero `time.Time`. -/

namespace DistributedSystems.MapReduce

open Std (TreeMap)

/-! ## Key/value pairs (`data.go`) -/

/-- An intermediate or output key. -/
abbrev Key := GoString

/-- An intermediate or output value. -/
abbrev Value := GoString

/-- A key/value pair, as `mapf` emits it and as an output line prints it. -/
structure KeyValue where
  /-- The key. -/
  key : Key
  /-- The value. -/
  value : Value
  deriving DecidableEq

/-- The 32-bit FNV-1a hash of `hash/fnv`: for each byte, xor it in, then multiply by the prime. -/
def fnv32a (bytes : GoString) : UInt32 :=
  bytes.foldl (fun h b => (h ^^^ UInt32.ofNat b.val) * 16777619) 2166136261

/-- `ihash`: the FNV-1a hash of a key with its top bit cleared. -/
def ihash (key : Key) : ℕ := (fnv32a key &&& 0x7fffffff).toNat

example : fnv32a [] = 0x811c9dc5 ∧ fnv32a [97] = 0xe40c292c := by decide

/-! ## Tasks (`task.go`) -/

/-- A task identifier. -/
abbrev TaskID := ℤ

/-- The states of a task. -/
inductive TaskState
  /-- The zero value, which no task of a coordinator has. -/
  | none
  /-- Waiting to be handed out. -/
  | unassigned
  /-- Handed out. -/
  | running
  /-- Reported complete. -/
  | done
  deriving DecidableEq, Repr

/-- The types of a task. -/
inductive TaskType
  /-- The zero value. -/
  | none
  /-- Not a task: the worker sleeps and asks again. -/
  | wait
  /-- A map task. -/
  | map
  /-- A reduce task. -/
  | reduce
  deriving DecidableEq, Repr

/-- A point in time, in nanoseconds after the zero `time.Time`. -/
abbrev Time := ℤ

/-- `taskTimeout`: ten seconds. -/
def taskTimeout : ℤ := 10 * 1000000000

/-- The common part of map and reduce tasks. -/
structure Task where
  /-- The identifier. -/
  id : TaskID
  /-- Map, reduce, or wait. -/
  type : TaskType
  /-- The state; only the coordinator's own copy of it is ever read. -/
  state : TaskState := .none
  /-- When the task was handed out last; the zero time when it is not handed out. -/
  assignedAt : Time := 0
  deriving DecidableEq, Repr

/-- `IsTimedOut`: at least `taskTimeout` has passed since the task was handed out. -/
def Task.isTimedOut (t : Task) (now : Time) : Bool := decide (taskTimeout ≤ now - t.assignedAt)

/-- `MarkRunning`: the task is handed out at time `now`. -/
def Task.markRunning (t : Task) (now : Time) : Task := { t with state := .running, assignedAt := now }

/-- A map task: one input file, split into `buckets` intermediate files. -/
structure MapTask where
  /-- The common part. -/
  task : Task
  /-- The input file. -/
  file : GoString
  /-- The number of reduce buckets. -/
  buckets : ℕ

/-- A reduce task: one bucket, with the address of the worker that holds each map task's output. -/
structure ReduceTask where
  /-- The common part. -/
  task : Task
  /-- The bucket. -/
  bucket : ℕ
  /-- For each finished map task, the address of the worker that produced its output. -/
  mapTaskOutputs : TreeMap TaskID GoString

/-! ## RPC messages (`rpc.go`) -/

/-- The data of a map assignment. -/
structure MapTaskData where
  /-- The name of the input file. -/
  key : GoString
  /-- Its content. -/
  content : GoString
  /-- The number of reduce buckets. -/
  buckets : ℕ
  deriving DecidableEq

/-- The data of a reduce assignment. -/
structure ReduceTaskData where
  /-- The bucket. -/
  bucket : ℕ
  /-- The producers' addresses. -/
  mapTaskOutputs : TreeMap TaskID GoString

/-- The reply of `RequestTask` as it travels to the worker. -/
structure TaskReply where
  /-- The task, if any. -/
  task : Option Task
  /-- The data of a map task. -/
  mapData : Option MapTaskData
  /-- The data of a reduce task. -/
  reduceData : Option ReduceTaskData

/-- The arguments of `ReportTaskCompletion`. -/
structure ReportTaskCompletionArgs where
  /-- The task the worker completed. -/
  task : Task
  /-- The address of the worker. -/
  workerAddress : GoString
  deriving DecidableEq

/-- The arguments of `ReportMissingMapOutputs`. -/
structure ReportMissingMapOutputsArgs where
  /-- The map task whose output could not be read. -/
  mapTaskID : TaskID
  deriving DecidableEq

end DistributedSystems.MapReduce
