import DistributedSystems.MapReduce.Contents
import DistributedSystems.MapReduce.Coordinator
import DistributedSystems.Storage.ByteFile
import Mathlib.Logic.Function.Basic

/-! # The cluster: a coordinator, its workers, the network and the files

`worker.go`, `bucket.go` and `mrcoordinator.go` around the coordinator, as a labelled system. A
worker process is in one `Phase` of its loop; the label of a step carries every choice that the code
does not make: which process moves, map iteration orders, clock readings, the order in which `mapf`
emits its pairs, and failures.

* A `RequestTask` call of a process is `sent`, then handled, then its reply is encoded and
  delivered. `requestTask` handles it and encodes the reply in one step; `decideTask` and
  `encodeReply` are the same in two steps.
* A report is in the network from the call on; it may be handled at any later time, in any order,
  or never, and the process that sent it may go on at any time.
* `files` are the intermediate files by directory, written by a rename; `outputs` are the
  `mr-out-*` files of the one shared output directory, written line by line at the offset of each
  writer.
* `writes`, the `read` of a reduce execution and the `address` of a missing report record the
  history; no step depends on them. -/

namespace DistributedSystems.MapReduce

open Std (TreeMap)

/-! ## The worker loop -/

/-- What `executeTask` does with a reply. -/
inductive Execution
  /-- `runMapTask`. -/
  | runMapTask (task : Task) (data : MapTaskData)
  /-- `runReduceTask`. -/
  | runReduceTask (task : Task) (data : ReduceTaskData)
  /-- Sleep a second and return. -/
  | sleep
  /-- Return an error. -/
  | error (err : GoString)

/-- `executeTask`, up to running the task. -/
def executeTask (reply : TaskReply) : Execution :=
  match reply.task with
  | none => .error (.ofString "worker: missing task in reply")
  | some task =>
      match task.type with
      | .map =>
          match reply.mapData with
          | none => .error (.ofString s!"worker: map task {task.id} missing data")
          | some data => .runMapTask task data
      | .reduce =>
          match reply.reduceData with
          | none => .error (.ofString s!"worker: reduce task {task.id} missing data")
          | some data => .runReduceTask task data
      | .wait => .sleep
      | .none => .error (.ofString "worker: unsupported task type 0")

/-- Where a worker process is. -/
inductive Phase
  /-- Not started yet. -/
  | absent
  /-- At the head of the loop. -/
  | idle
  /-- Waiting for the answer of `RequestTask`. -/
  | asking
  /-- Entering `executeTask` with a reply. -/
  | executing (reply : TaskReply)
  /-- In `writeBucketsToFiles`, about to write bucket `next`. -/
  | storing (task : Task) (buckets : List (List KeyValue)) (next : ℕ)
  /-- In the loop of `runReduceTask`: the map outputs still to read, those read, and their
  contents. -/
  | fetching (task : Task) (data : ReduceTaskData) (todo : List (TaskID × GoString))
      (read : List TaskID) (contents : List KeyValue)
  /-- In `writeReducedContentsToBucketFile`: the lines still to write and the offset in the file. -/
  | writing (task : Task) (data : ReduceTaskData) (read : List TaskID) (lines : List KeyValue)
      (offset : ℕ)
  /-- In a call of `ReportTaskCompletion` or `ReportMissingMapOutputs`. -/
  | reporting
  /-- `Worker` has returned. -/
  | returned
  /-- The process was killed. -/
  | dead

/-- The process is running, and serves `FetchBucket`. -/
def Phase.alive : Phase → Bool
  | .absent => false
  | .returned => false
  | .dead => false
  | _ => true

/-- `executeTask` may return without a report, and the loop go on: a reply that is no task to run, a
bucket that cannot be written, or an output file that cannot be created. -/
def Phase.mayGiveUp : Phase → Bool
  | .executing reply =>
      match executeTask reply with
      | .sleep => true
      -- for a reply without a task the debug message reads `reply.Task.Type`, and the process dies
      | .error _ => reply.task.isSome
      | _ => false
  | .storing .. => true
  | .fetching _ _ [] _ _ => true
  | _ => false

/-- A worker process. -/
structure Worker where
  /-- Its `workerAddress`. -/
  address : GoString := []
  /-- Its working directory. -/
  dir : ℕ := 0
  /-- Where it is. -/
  phase : Phase := .absent

/-! ## The network -/

/-- The `RequestTask` call of a process. -/
inductive Request
  /-- There is none. -/
  | none
  /-- Sent, not handled. -/
  | sent
  /-- Handled; the reply is not encoded yet. -/
  | decided (reply : Reply)
  /-- Answered, with the encoded reply or with the error of the handler. -/
  | answered (reply : Option TaskReply)

/-- A completion report in the network. -/
structure Completion where
  /-- The arguments of the call. -/
  args : ReportTaskCompletionArgs
  /-- The map outputs that the reporting execution has read. -/
  read : List TaskID

/-- A report of a missing map output in the network. -/
structure Missing where
  /-- The arguments of the call. -/
  args : ReportMissingMapOutputsArgs
  /-- The address that the failed fetch used. -/
  address : GoString

/-- A call of `writeReducedContentsToBucketFile`. -/
structure Write where
  /-- The process that calls. -/
  worker : ℕ
  /-- The bucket. -/
  bucket : ℕ
  /-- The contents. -/
  contents : List KeyValue
  deriving DecidableEq

/-- Where `main` of the coordinator process is. -/
inductive MainPhase
  /-- Polling `Done`. -/
  | polling
  /-- `Done` was true; sleeping before the exit. -/
  | leaving
  /-- The process has exited. -/
  | exited
  deriving DecidableEq

/-- The state of the cluster. -/
structure Cluster where
  /-- The coordinator. -/
  coordinator : Coordinator
  /-- Its process. -/
  main : MainPhase := .polling
  /-- The worker processes; a process that ends is never started again. -/
  workers : ℕ → Worker := fun _ => {}
  /-- The `RequestTask` call of each process. -/
  requests : ℕ → Request := fun _ => .none
  /-- The completion reports in the network. -/
  completions : List Completion := []
  /-- The missing reports in the network. -/
  missing : List Missing := []
  /-- The intermediate file of a map task and a bucket in each directory. -/
  files : ℕ → TaskID × ℕ → Option (List KeyValue) := fun _ _ => none
  /-- The output file of each bucket. -/
  outputs : ℕ → Option (List Byte) := fun _ => none
  /-- The calls of `writeReducedContentsToBucketFile` so far. -/
  writes : List Write := []

/-- A step of the cluster. -/
inductive Action
  /-- A new worker process starts with an address in a directory. -/
  | start (w : ℕ) (address : GoString) (dir : ℕ)
  /-- A worker process is killed. -/
  | crash (w : ℕ)
  /-- A directory is emptied. -/
  | wipe (dir : ℕ)
  /-- A worker calls `RequestTask`. -/
  | ask (w : ℕ)
  /-- The coordinator handles a `RequestTask` call and encodes the reply. -/
  | requestTask (w : ℕ) (now : Time) (mapOrder reduceOrder : List TaskID) (readErr : Option GoString)
  /-- The coordinator handles a `RequestTask` call. -/
  | decideTask (w : ℕ) (now : Time) (mapOrder reduceOrder : List TaskID) (readErr : Option GoString)
  /-- The reply of a handled `RequestTask` call is encoded. -/
  | encodeReply (w : ℕ)
  /-- The answer of a `RequestTask` call arrives. -/
  | deliver (w : ℕ)
  /-- A `RequestTask` call fails on its way. -/
  | loseRequest (w : ℕ)
  /-- A map execution calls `mapf`, which returns `keyValues`. -/
  | callMapf (w : ℕ) (keyValues : List KeyValue)
  /-- A map execution writes its next bucket. -/
  | writeBucket (w : ℕ)
  /-- A reduce execution starts to range over the producers in an order. -/
  | startReduce (w : ℕ) (order : List (TaskID × GoString))
  /-- A reduce execution reads its next map output from the files of `producer`. -/
  | fetchBucket (w producer : ℕ)
  /-- A reduce execution fails to read its next map output, and reports it missing. -/
  | fetchFails (w : ℕ)
  /-- A reduce execution groups and reduces what it read and creates its output file. -/
  | createOutput (w : ℕ) (keyOrder : List Key)
  /-- A reduce execution writes its next line. -/
  | writeLine (w : ℕ)
  /-- A reduce execution fails to write its next line; `Fprintf`'s error is ignored. -/
  | loseLine (w : ℕ)
  /-- An execution returns without a report. -/
  | giveUp (w : ℕ)
  /-- An execution reports its task complete. -/
  | report (w : ℕ)
  /-- The call of a report returns; its result is ignored. -/
  | returnCall (w : ℕ)
  /-- The coordinator handles a completion report of the network. -/
  | handleCompletion (i : ℕ)
  /-- The coordinator handles a missing report of the network. -/
  | handleMissing (i : ℕ)
  /-- The coordinator's `main` sees `Done`. -/
  | pollDone
  /-- The coordinator process exits. -/
  | exit

/-! ## Steps -/

/-- `os.ReadFile` on the job's input files: it fails with an error, or returns the file's
content. -/
def Job.readFile (J : Job) (readErr : Option GoString) (file : GoString) : Except GoString GoString :=
  match readErr with
  | some err => .error err
  | none => .ok (J.content file)

/-- The coordinator that `mrcoordinator` makes for a job. -/
def Job.coordinator (J : Job) : Coordinator :=
  (makeCoordinator J.globalID J.files J.nReduceTasks).1

/-- The answer of a `RequestTask` call whose reply is encoded at once. -/
def Coordinator.Requested.answer (q : Coordinator.Requested) : Option TaskReply :=
  match q.err with
  | some _ => none
  | none => some (q.coordinator.encode q.reply)

/-- The state of a `RequestTask` call whose reply is still to be encoded. -/
def Coordinator.Requested.decided (q : Coordinator.Requested) : Request :=
  match q.err with
  | some _ => .answered none
  | none => .decided q.reply

namespace Cluster

/-- Where a worker is. -/
def phase (s : Cluster) (w : ℕ) : Phase := (s.workers w).phase

/-- A worker moves to another phase. -/
def setPhase (s : Cluster) (w : ℕ) (p : Phase) : Cluster :=
  { s with workers := Function.update s.workers w { s.workers w with phase := p } }

/-- The `RequestTask` call of a process changes. -/
def setRequest (s : Cluster) (w : ℕ) (r : Request) : Cluster :=
  { s with requests := Function.update s.requests w r }

/-- A bucket is written: the temporary file is renamed to its final name in the worker's
directory. -/
def storeBucket (s : Cluster) (w : ℕ) (name : TaskID × ℕ) (keyValues : List KeyValue) : Cluster :=
  let dir := (s.workers w).dir
  { s with files := Function.update s.files dir (Function.update (s.files dir) name keyValues) }

/-- The output file of a bucket gets new contents. -/
def setOutput (s : Cluster) (b : ℕ) (bytes : List Byte) : Cluster :=
  { s with outputs := Function.update s.outputs b (some bytes) }

/-- Where worker `w` reads a map output registered under an address: in its own files if the address
is its own, else in the files of a running worker with that address. -/
def Serves (s : Cluster) (w : ℕ) (address : GoString) (producer : ℕ) : Prop :=
  -- `readBucketFile` for its own address, `FetchBucket` for any other
  if address = (s.workers w).address then producer = w
  else (s.workers producer).address = address ∧ (s.phase producer).alive = true

instance (s : Cluster) (w : ℕ) (address : GoString) (producer : ℕ) :
    Decidable (s.Serves w address producer) :=
  inferInstanceAs (Decidable (if address = (s.workers w).address then producer = w
    else (s.workers producer).address = address ∧ (s.phase producer).alive = true))

/-- **One step of the cluster**; `none` when the action is not possible in the state. -/
def step (J : Job) (s : Cluster) : Action → Option Cluster
  | .start w address dir =>
      match s.phase w with
      | .absent => some { s with
          workers := Function.update s.workers w { address := address, dir := dir, phase := .idle } }
      | _ => none
  -- the files stay, and so do the calls of the process in the network
  | .crash w => if (s.phase w).alive then some (s.setPhase w .dead) else none
  | .wipe dir => some { s with files := Function.update s.files dir fun _ => none }
  | .ask w =>
      match s.phase w with
      | .idle => some ((s.setPhase w .asking).setRequest w .sent)
      | _ => none
  | .requestTask w now mapOrder reduceOrder readErr =>
      match s.requests w with
      | .sent =>
          if s.main ≠ .exited ∧
              (Call.requestTask mapOrder reduceOrder (J.readFile readErr)).Ordered s.coordinator then
            let q := s.coordinator.requestTask now mapOrder reduceOrder (J.readFile readErr)
            some ({ s with coordinator := q.coordinator }.setRequest w (.answered q.answer))
          else none
      | _ => none
  | .decideTask w now mapOrder reduceOrder readErr =>
      match s.requests w with
      | .sent =>
          if s.main ≠ .exited ∧
              (Call.requestTask mapOrder reduceOrder (J.readFile readErr)).Ordered s.coordinator then
            let q := s.coordinator.requestTask now mapOrder reduceOrder (J.readFile readErr)
            -- the lock is released here; other calls may be handled before the encoding
            some ({ s with coordinator := q.coordinator }.setRequest w q.decided)
          else none
      | _ => none
  | .encodeReply w =>
      match s.requests w with
      | .decided reply =>
          if s.main ≠ .exited then
            some (s.setRequest w (.answered (some (s.coordinator.encode reply))))
          else none
      | _ => none
  | .deliver w =>
      match s.phase w, s.requests w with
      | .asking, .answered (some reply) =>
          some ((s.setPhase w (.executing reply)).setRequest w .none)
      | .asking, .answered none =>
          -- `CallCoordinator` is false for an error of the handler as for a dead coordinator
          some ((s.setPhase w .returned).setRequest w .none)
      | _, _ => none
  | .loseRequest w =>
      match s.phase w with
      -- the call itself may still be handled: only its answer is lost to the worker
      | .asking => some (s.setPhase w .returned)
      | _ => none
  | .callMapf w keyValues =>
      match s.phase w with
      | .executing reply =>
          match executeTask reply with
          | .runMapTask task data =>
              -- with a pair and no bucket `bucketContents` divides by zero, and the process dies
              if keyValues.Perm (J.mapf data.key data.content) ∧
                  (data.buckets = 0 → keyValues = []) then
                some (s.setPhase w
                  (.storing task (bucketContents J.hash keyValues data.buckets) 0))
              else none
          | _ => none
      | _ => none
  | .writeBucket w =>
      match s.phase w with
      | .storing task buckets next =>
          match buckets[next]? with
          -- the temporary file and its rename are one step, since only the final name is read
          | some keyValues => some ((s.storeBucket w (task.id, next) keyValues).setPhase w
              (.storing task buckets (next + 1)))
          | none => none
      | _ => none
  | .startReduce w order =>
      match s.phase w with
      | .executing reply =>
          match executeTask reply with
          | .runReduceTask task data =>
              if order.Perm data.mapTaskOutputs.toList then
                some (s.setPhase w (.fetching task data order [] []))
              else none
          | _ => none
      | _ => none
  | .fetchBucket w producer =>
      match s.phase w with
      | .fetching task data ((m, address) :: todo) read contents =>
          if s.Serves w address producer then
            match s.files (s.workers producer).dir (m, data.bucket) with
            | some keyValues =>
                some (s.setPhase w
                  (.fetching task data todo (read ++ [m]) (contents ++ keyValues)))
            | none => none
          else none
      | _ => none
  | .fetchFails w =>
      match s.phase w with
      | .fetching _ _ ((m, address) :: _) _ _ =>
          -- a fetch may fail for any reason; `runReduceTask` returns at the first failure
          some { s.setPhase w .reporting with missing := s.missing ++ [⟨⟨m⟩, address⟩] }
      | _ => none
  | .createOutput w keyOrder =>
      match s.phase w with
      | .fetching task data [] read contents =>
          if keyOrder.Perm (groupByKey contents).keys then
            let reduced := reduceContents (groupByKey contents) J.reducef keyOrder
            -- `os.Create` truncates the file of the bucket, whoever wrote it
            some { (s.setOutput data.bucket []).setPhase w (.writing task data read reduced 0) with
              writes := s.writes ++ [⟨w, data.bucket, reduced⟩] }
          else none
      | _ => none
  | .writeLine w =>
      match s.phase w with
      | .writing task data read (kv :: lines) offset =>
          let line := formatLine kv
          -- the process writes at its own offset, whatever others have done to the file
          let file := (s.outputs data.bucket).getD []
          some ((s.setOutput data.bucket (ByteFile.writeAt 0 file offset line)).setPhase w
            (.writing task data read lines (offset + line.length)))
      | _ => none
  | .loseLine w =>
      match s.phase w with
      | .writing task data read (_ :: lines) offset =>
          some (s.setPhase w (.writing task data read lines offset))
      | _ => none
  | .giveUp w => if (s.phase w).mayGiveUp then some (s.setPhase w .idle) else none
  | .report w =>
      match s.phase w with
      -- all buckets are written: `writeBucketsToFiles` has returned
      | .storing task buckets next =>
          if next = buckets.length then
            some { s.setPhase w .reporting with
              completions := s.completions ++ [⟨⟨task, (s.workers w).address⟩, []⟩] }
          else none
      | .writing task _ read [] _ =>
          some { s.setPhase w .reporting with
            completions := s.completions ++ [⟨⟨task, (s.workers w).address⟩, read⟩] }
      | _ => none
  | .returnCall w =>
      match s.phase w with
      | .reporting => some (s.setPhase w .idle)
      | _ => none
  | .handleCompletion i =>
      match s.completions[i]? with
      | some msg =>
          if s.main ≠ .exited then
            some { s with coordinator := s.coordinator.reportTaskCompletion msg.args
                          completions := s.completions.eraseIdx i }
          else none
      | none => none
  | .handleMissing i =>
      match s.missing[i]? with
      | some msg =>
          if s.main ≠ .exited then
            some { s with coordinator := s.coordinator.reportMissingMapOutputs msg.args
                          missing := s.missing.eraseIdx i }
          else none
      | none => none
  | .pollDone =>
      if s.main = .polling ∧ s.coordinator.done then some { s with main := .leaving } else none
  | .exit => if s.main = .leaving then some { s with main := .exited } else none

end Cluster

/-- The cluster of a job: a new coordinator, no worker, no file. -/
def Job.cluster (J : Job) : System Cluster Action where
  init := { coordinator := J.coordinator }
  step := Cluster.step J

end DistributedSystems.MapReduce
