import DistributedSystems.HttpServer.Requests
import DistributedSystems.Transition.Simulation

/-! # What the file server is for: an atomic store

The abstract server keeps one value for each location and serves every request in one step of its
own, taken at some moment between the moment the request comes in and the moment it is answered:

* a GET request looks up the file that its path resolves to;
* a POST request stores its complete body under the base name of its path.

A request whose step was a lookup is answered with `200 OK` and the value found, or with an error;
one whose step was a store is answered with `201 Created`; one that takes no step is answered with
an error. An observer sees requests come in and be answered. -/

namespace DistributedSystems.HttpServer

open FileSystem Http

/-- How far the abstract server is with a request. -/
inductive Stage
  /-- It came in. -/
  | invoked
  /-- Its file was looked up. -/
  | found (bytes : GoString)
  /-- Its body was stored. -/
  | stored
  /-- It was answered. -/
  | answered (response : Response)

/-- A request at the abstract server. -/
structure Pending where
  /-- The request. -/
  job : Job
  /-- How far it is. -/
  stage : Stage

/-- The abstract server. -/
structure AtomicServer where
  /-- The value at each location. -/
  store : Location → Option GoString
  /-- The requests that came in. -/
  requests : ℕ → Option Pending := fun _ => none

/-- A step of the abstract server. -/
inductive AtomicAction
  /-- A request comes in. -/
  | invoke (i : ℕ) (job : Job)
  /-- The file of a GET request is looked up. -/
  | look (i : ℕ)
  /-- The body of a POST request is stored. -/
  | store (i : ℕ)
  /-- A request is answered, for what it did, or with the status of an error. -/
  | answer (i : ℕ) (status : Option StatusCode)

/-- What a request is answered with at a stage. -/
def Stage.answer (job : Job) : Stage → Option StatusCode → Option Response
  | .found bytes, none => (contentTypeForPath job.request.path).map (pageResponse job · bytes)
  | .stored, none => some (createdResponse job)
  | .invoked, some status => if .badRequest ≤ status then some (errorResponse status) else none
  | .found _, some status => if .badRequest ≤ status then some (errorResponse status) else none
  | _, _ => none

namespace AtomicServer

/-- A request goes on to another stage. -/
def setStage (s : AtomicServer) (i : ℕ) (job : Job) (stage : Stage) : AtomicServer :=
  { s with requests := Function.update s.requests i (some ⟨job, stage⟩) }

/-- A location gets a value. -/
def setStore (s : AtomicServer) (l : Location) (bytes : GoString) : AtomicServer :=
  { s with store := Function.update s.store l (some bytes) }

/-- One step of the abstract server; `none` when it is not possible. -/
def step (E : Env) (s : AtomicServer) : AtomicAction → Option AtomicServer
  | .invoke i job =>
      match s.requests i with
      | none => some (s.setStage i job .invoked)
      | some _ => none
  | .look i =>
      match s.requests i with
      | some ⟨job, .invoked⟩ =>
          if job.request.method = .ofString "GET" then
            match resolvePath (job.getwd E) job.request.path with
            | .error _ => none
            | .ok diskPath => (s.store (E.locate diskPath)).map fun bytes =>
                s.setStage i job (.found bytes)
          else none
      | _ => none
  | .store i =>
      match s.requests i with
      | some ⟨job, .invoked⟩ =>
          if job.request.method = .ofString "POST" ∧ job.body.err = none then
            some ((s.setStore (uploadFile E job) job.body.chunks.flatten).setStage i job .stored)
          else none
      | _ => none
  | .answer i status =>
      match s.requests i with
      | some ⟨job, stage⟩ => (stage.answer job status).map fun response =>
          s.setStage i job (.answered response)
      | none => none

end AtomicServer

/-- The abstract server as a system, with the files of a file system as its first values. -/
def atomicServer (E : Env) (w : World) : System AtomicServer AtomicAction where
  init := { store := w.content }
  step := AtomicServer.step E

/-! ## What an observer sees -/

/-- What an observer sees of a server. -/
inductive ServerEvent
  /-- A request comes in. -/
  | invoke (i : ℕ) (job : Job)
  /-- A request is answered. -/
  | answer (i : ℕ) (response : Response)

/-- What is seen of a step of the abstract server. -/
def AtomicServer.events (_ : AtomicServer) (a : AtomicAction) (s' : AtomicServer) :
    List ServerEvent :=
  match a with
  | .invoke i job => [.invoke i job]
  | .answer i _ =>
      match s'.requests i with
      | some ⟨_, .answered response⟩ => [.answer i response]
      | _ => []
  | _ => []

section

variable {E : Env} {w : World} {s : AtomicServer} {i : ℕ} {job : Job}

@[simp] theorem AtomicServer.requests_setStage_self (stage : Stage) :
    (s.setStage i job stage).requests i = some ⟨job, stage⟩ := Function.update_self _ _ _

@[simp] theorem AtomicServer.requests_setStage_ne {j : ℕ} (h : j ≠ i) (stage : Stage) :
    (s.setStage i job stage).requests j = s.requests j := Function.update_of_ne h _ _

theorem AtomicServer.setStage_setStage (stage stage' : Stage) :
    (s.setStage i job stage).setStage i job stage' = s.setStage i job stage' := by
  simp only [AtomicServer.setStage, Function.update_idem]

/-- A request comes in. -/
theorem atomicServer_invoke (h : s.requests i = none) :
    (atomicServer E w).step s (.invoke i job) = some (s.setStage i job .invoked) := by
  simp only [atomicServer, AtomicServer.step, h]

/-- The file of a GET request is looked up. -/
theorem atomicServer_look (h : s.requests i = some ⟨job, .invoked⟩)
    (hget : job.request.method = .ofString "GET") {diskPath bytes : GoString}
    (hresolve : resolvePath (job.getwd E) job.request.path = .ok diskPath)
    (hbytes : s.store (E.locate diskPath) = some bytes) :
    (atomicServer E w).step s (.look i) = some (s.setStage i job (.found bytes)) := by
  simp only [atomicServer, AtomicServer.step, h, hget, if_true, hresolve, hbytes, Option.map_some]

/-- The body of a POST request is stored. -/
theorem atomicServer_store (h : s.requests i = some ⟨job, .invoked⟩)
    (hpost : job.request.method = .ofString "POST") (herr : job.body.err = none) :
    (atomicServer E w).step s (.store i) =
      some ((s.setStore (uploadFile E job) job.body.chunks.flatten).setStage i job .stored) := by
  simp only [atomicServer, AtomicServer.step, h, hpost, herr, and_self, if_true]

/-- A request is answered. -/
theorem atomicServer_answer {stage : Stage} (h : s.requests i = some ⟨job, stage⟩)
    {status : Option StatusCode} {response : Response}
    (hanswer : stage.answer job status = some response) :
    (atomicServer E w).step s (.answer i status) =
      some (s.setStage i job (.answered response)) := by
  simp only [atomicServer, AtomicServer.step, h, hanswer, Option.map_some]

end

end DistributedSystems.HttpServer
