import DistributedSystems.GoLang.Decimal
import DistributedSystems.GoLang.Json
import DistributedSystems.MapReduce.Cluster
import DistributedSystems.Storage.FileProgram

/-! # Tasks as programs over files

`worker.go` and `bucket.go` call by call: `executeTask` with the file operations it makes and the
RPCs it sends. An encoder or `Fprintf` writes a record with one `Write`. -/

namespace DistributedSystems.MapReduce.TaskPrograms

open FileSystem Decimal
open Std (TreeMap)

/-! ## Messages -/

/-- An RPC of a worker. -/
inductive RpcCall
  /-- `ReportTaskCompletion` of the coordinator. -/
  | reportTaskCompletion (args : ReportTaskCompletionArgs)
  /-- `ReportMissingMapOutputs` of the coordinator. -/
  | reportMissingMapOutputs (args : ReportMissingMapOutputsArgs)
  /-- `FetchBucket` of another worker. -/
  | fetchBucket (address : GoString) (mapTaskID : TaskID) (bucket : ℕ)

/-- The answer of an RPC: `none` when the call fails, else the pairs of a `FetchBucketReply`; the
answers of reports are not used. -/
abbrev Answer := Option (List KeyValue)

/-- A program of a worker. -/
abbrev WorkerProg := Prog RpcCall Answer

/-- What a worker process brings along: its address, the functions of the application, and the
orders in which it enumerates maps. -/
structure Context where
  /-- `workerAddress`. -/
  workerAddress : GoString
  /-- The map function. -/
  mapf : GoString → GoString → List KeyValue
  /-- The reduce function. -/
  reducef : Key → List Value → Value
  /-- The order in which `MapTaskOutputs` is enumerated. -/
  outputOrder : TreeMap TaskID GoString → List (TaskID × GoString) := TreeMap.toList
  /-- The order in which the groups are enumerated. -/
  keyOrder : TreeMap Key (List Value) → List Key := TreeMap.keys

/-! ## File names and records -/

/-- `taskIntermediateFileName`. -/
def taskIntermediateFileName (taskID : TaskID) (bucket : ℕ) : GoString :=
  .ofString "mr-" ++ itoa taskID ++ .ofString "-" ++ itoa bucket

/-- `reduceOutputFileName`. -/
def reduceOutputFileName (bucket : ℕ) : GoString := .ofString "mr-out-" ++ itoa bucket

/-- The members of a `KeyValue` in JSON. -/
def members (kv : KeyValue) : List (GoString × GoString) :=
  [(.ofString "Key", kv.key), (.ofString "Value", kv.value)]

/-- What `Encode` writes for a `KeyValue`. -/
def encodeKeyValue (kv : KeyValue) : GoString := Json.encode (members kv)

/-- A `KeyValue` from its members. -/
def ofMembers (values : List GoString) : KeyValue :=
  { key := values[0]?.getD [], value := values[1]?.getD [] }

/-- The loop of `readBucketFile` on the contents of the file; `none` when `Decode` fails. -/
def decodeKeyValues (bytes : GoString) : Option (List KeyValue) :=
  (Json.decodeAll [.ofString "Key", .ofString "Value"] bytes).map (·.map ofMembers)

/-! ## Map tasks -/

/-- The loop of `writeBucketToFile`. -/
def encodeLoop (tmp : OpenFile) : List KeyValue → WorkerProg (Option FileError)
  | [] => pure none
  | kv :: keyValues => do
      match ← Prog.write tmp (encodeKeyValue kv) with
      | (_, some err) => pure (some err)
      | (n, none) => encodeLoop (tmp.advance n) keyValues

/-- `writeBucketToFile` before its deferred call. -/
def publishBucket (tmp : OpenFile) (filename : GoString) (keyValues : List KeyValue) :
    WorkerProg (Option GoString) := do
  match ← encodeLoop tmp keyValues with
  | some err => do
      let _ ← Prog.close tmp
      pure (some (.ofString "worker: cannot write " ++ filename ++ .ofString ": " ++ err.text))
  | none =>
      match ← Prog.close tmp with
      | some err => pure (some (.ofString "worker: cannot close temp file: " ++ err.text))
      | none =>
          match ← Prog.rename tmp.name filename with
          | some err =>
              pure (some (.ofString "worker: cannot rename temp file to " ++ filename ++
                .ofString ": " ++ err.text))
          | none => pure none

/-- `writeBucketToFile`. -/
def writeBucketToFile (taskID : TaskID) (bucket : ℕ) (keyValues : List KeyValue) :
    WorkerProg (Option GoString) := do
  let filename := taskIntermediateFileName taskID bucket
  match ← Prog.createTemp (GoPath.dir filename) (.ofString "mr-bucket-*") with
  | .error err => pure (some (.ofString "worker: cannot create temp file: " ++ err.text))
  | .ok tmp => do
      let err ← publishBucket tmp filename keyValues
      -- the deferred call
      let _ ← Prog.remove tmp.name
      pure err

/-- The loop of `writeBucketsToFiles` from a bucket on. -/
def writeBucketsFrom (taskID : TaskID) (bucket : ℕ) :
    List (List KeyValue) → WorkerProg (Option GoString)
  | [] => pure none
  | keyValues :: buckets => do
      match ← writeBucketToFile taskID bucket keyValues with
      | some err => pure (some err)
      | none => writeBucketsFrom taskID (bucket + 1) buckets

/-- `writeBucketsToFiles`. -/
def writeBucketsToFiles (taskID : TaskID) (buckets : List (List KeyValue)) :
    WorkerProg (Option GoString) := writeBucketsFrom taskID 0 buckets

/-- `runMapTask`. -/
def runMapTask (W : Context) (task : Task) (data : MapTaskData) : WorkerProg (Option GoString) :=
  let mappedContents := W.mapf data.key data.content
  -- `ihash(kv.Key) % nBuckets` panics, and nothing is written or sent
  if data.buckets = 0 ∧ mappedContents ≠ [] then
    pure (some (.ofString "runtime error: integer divide by zero"))
  else writeBucketsToFiles task.id (bucketContents ihash mappedContents data.buckets)

/-! ## Reduce tasks -/

/-- The result of `readBucketFile` for what the decoder reads from the file. -/
def decodeBucket (filename : GoString) :
    Except FileError GoString → Except GoString (List KeyValue)
  | .error err =>
      .error (.ofString "worker: cannot decode " ++ filename ++ .ofString ": " ++ err.text)
  | .ok bytes =>
      match decodeKeyValues bytes with
      | none =>
          .error (.ofString "worker: cannot decode " ++ filename ++ .ofString ": invalid JSON")
      | some keyValues => .ok keyValues

/-- `readBucketFile`. -/
def readBucketFile (taskID : TaskID) (bucket : ℕ) :
    WorkerProg (Except GoString (List KeyValue)) := do
  let filename := taskIntermediateFileName taskID bucket
  match ← Prog.openFile filename with
  | .error err =>
      pure (.error (.ofString "worker: cannot open " ++ filename ++ .ofString ": " ++ err.text))
  | .ok file => do
      -- the decoder reads the file to its end
      let bytes ← Prog.readAll file
      -- the deferred call
      let _ ← Prog.close file
      pure (decodeBucket filename bytes)

/-- `fetchBucketFromWorker`. -/
def fetchBucketFromWorker (address : GoString) (mapTaskID : TaskID) (bucket : ℕ) :
    WorkerProg (Except GoString (List KeyValue)) := do
  match ← Prog.call (.fetchBucket address mapTaskID bucket) with
  | none =>
      pure (.error (.ofString "worker: failed to fetch map " ++ itoa mapTaskID ++
        .ofString " bucket " ++ itoa bucket ++ .ofString " from " ++ address))
  | some keyValues => pure (.ok keyValues)

/-- `reportMissingMapOutputs`. -/
def reportMissingMapOutputs (mapTaskID : TaskID) : WorkerProg Answer :=
  Prog.call (.reportMissingMapOutputs { mapTaskID := mapTaskID })

/-- One turn of the loop of `runReduceTask`: the worker reads its own files itself. -/
def fetchOutput (W : Context) (bucket : ℕ) (mapTaskID : TaskID) (producerAddress : GoString) :
    WorkerProg (Except GoString (List KeyValue)) :=
  if producerAddress = W.workerAddress then readBucketFile mapTaskID bucket
  else fetchBucketFromWorker producerAddress mapTaskID bucket

/-- The loop of `runReduceTask`, with the pairs that were fetched before. -/
def fetchLoop (W : Context) (bucket : ℕ) :
    List (TaskID × GoString) → List KeyValue → WorkerProg (Except GoString (List KeyValue))
  | [], mappedContents => pure (.ok mappedContents)
  | (mapTaskID, producerAddress) :: outputs, mappedContents => do
      match ← fetchOutput W bucket mapTaskID producerAddress with
      | .error err => do
          let _ ← reportMissingMapOutputs mapTaskID
          pure (.error err)
      | .ok bucketContents => fetchLoop W bucket outputs (mappedContents ++ bucketContents)

/-- The loop of `writeReducedContentsToBucketFile`: the results of `Fprintf` are not used. -/
def printLoop (file : OpenFile) : List KeyValue → WorkerProg Unit
  | [] => pure ()
  | kv :: reducedContents => do
      let (n, _) ← Prog.write file (formatLine kv)
      printLoop (file.advance n) reducedContents

/-- `writeReducedContentsToBucketFile`. -/
def writeReducedContentsToBucketFile (bucket : ℕ) (reducedContents : List KeyValue) :
    WorkerProg (Option GoString) := do
  let filename := reduceOutputFileName bucket
  match ← Prog.create filename with
  | .error err =>
      pure (some (.ofString "worker: cannot create " ++ filename ++ .ofString ": " ++ err.text))
  | .ok file => do
      printLoop file reducedContents
      -- the deferred call
      let _ ← Prog.close file
      pure none

/-- What a reduce task writes for the pairs it has fetched. -/
def reducedOf (W : Context) (mappedContents : List KeyValue) : List KeyValue :=
  let groupedContents := groupByKey mappedContents
  reduceContents groupedContents W.reducef (W.keyOrder groupedContents)

/-- `runReduceTask`. -/
def runReduceTask (W : Context) (data : ReduceTaskData) : WorkerProg (Option GoString) := do
  match ← fetchLoop W data.bucket (W.outputOrder data.mapTaskOutputs) [] with
  | .error err => pure (some err)
  | .ok mappedContents =>
      writeReducedContentsToBucketFile data.bucket (reducedOf W mappedContents)

/-! ## Any task -/

/-- `reportTaskCompletion`. -/
def reportTaskCompletion (W : Context) (task : Task) : WorkerProg Answer :=
  Prog.call (.reportTaskCompletion { task := task, workerAddress := W.workerAddress })

/-- `executeTask` after running the task. -/
def finish (W : Context) (task : Task) (run : WorkerProg (Option GoString)) :
    WorkerProg (Option GoString) := do
  match ← run with
  | some err => pure (some err)
  | none => do
      let _ ← reportTaskCompletion W task
      pure none

/-- `executeTask`. -/
def executeTask (W : Context) (reply : TaskReply) : WorkerProg (Option GoString) :=
  match MapReduce.executeTask reply with
  | .runMapTask task data => finish W task (runMapTask W task data)
  | .runReduceTask task data => finish W task (runReduceTask W data)
  | .sleep => pure none
  | .error err => pure (some err)

end DistributedSystems.MapReduce.TaskPrograms
