import DistributedSystems.Http.Server
import DistributedSystems.HttpServer.Paths
import DistributedSystems.Storage.FileProgram

/-! # The handlers of the file server

`readFile`, `saveUploadedFile` and `writeFile` of `http_server/files.go`, and the handlers of
`http_server/http_server.go`, as programs over the file system. A request body is what the reads of
it return: some chunks, and then the end or an error. -/

namespace DistributedSystems.HttpServer

open FileSystem Http
open GoPath (IsName absolute base)

/-- A program of the file server; it sends nothing to other processes. -/
abbrev FileProg := Prog Empty Empty

/-- An error of the file functions. -/
inductive Err
  /-- An error of package `os`. -/
  | os (err : FileError)
  /-- `errUnsupportedContentType`. -/
  | unsupportedContentType

/-- A request body. -/
structure Body where
  /-- What the reads return, one after the other. -/
  chunks : List GoString
  /-- The error of the last read, if the body breaks off. -/
  err : Option FileError

/-! ## Files -/

/-- `readFile`. -/
def readFile (getwd : Except FileError GoString) (requestPath : GoString) :
    FileProg (Except Err GoString) :=
  match resolvePath getwd requestPath with
  | .error err => pure (.error (.os err))
  | .ok diskPath => do
      match ← Prog.stat diskPath with
      | .error err => pure (.error (.os err))
      | .ok isDir =>
          if isDir then pure (.error (.os errInvalid))
          else
            -- `os.ReadFile`
            match ← Prog.openFile diskPath with
            | .error err => pure (.error (.os err))
            | .ok f =>
                let data ← Prog.readAll f
                let _ ← Prog.close f
                match data with
                | .error err => pure (.error (.os err))
                | .ok data => pure (.ok data)

/-- `io.Copy` to a file, from the chunks and the error that are still to be read. -/
def copy (f : OpenFile) : List GoString → Option FileError → FileProg (Option FileError)
  | [], err => pure err
  | chunk :: chunks, err =>
      if chunk = [] then copy f chunks err
      else do
        match ← Prog.write f chunk with
        | (_, some err) => pure (some err)
        | (n, none) => copy (f.advance n) chunks err

/-- `saveUploadedFile` between its first and its last deferred call. -/
def publishUpload (tmp : OpenFile) (reader : Body) (destination : GoString) :
    FileProg (Option FileError) := do
  match ← copy tmp reader.chunks reader.err with
  | some err => pure (some err)
  | none =>
      match ← Prog.sync tmp with
      | some err => pure (some err)
      | none =>
          match ← Prog.close tmp with
          | some err => pure (some err)
          | none => Prog.rename tmp.name destination

/-- `saveUploadedFile`. -/
def saveUploadedFile (reader : Body) (destination : GoString) : FileProg (Option FileError) := do
  match ← Prog.createTemp publicDir (.ofString "upload-") with
  | .error err => pure (some err)
  | .ok tmp =>
      let err ← publishUpload tmp reader destination
      -- the deferred calls, the last one first
      let _ ← Prog.remove tmp.name
      let _ ← Prog.close tmp
      pure err

/-- `writeFile`. -/
def writeFile (getwd : Except FileError GoString) (requestPath : GoString) (reader : Body) :
    FileProg (Option Err) :=
  let filename := base requestPath
  if filename = [] ∨ filename = [GoPath.dot] ∨ filename = [GoPath.slash] then
    pure (some (.os errInvalid))
  else
    match contentTypeForPath filename with
    | none => pure (some .unsupportedContentType)
    | some _ =>
        match resolvePath getwd filename with
        | .error err => pure (some (.os err))
        | .ok destination => do
            let err ← saveUploadedFile reader destination
            pure (err.map .os)

/-! ## Handlers -/

/-- `statusFromFileError`. -/
def statusFromFileError : Err → StatusCode
  | .os err =>
      match err.kind with
      | .notExist => .notFound
      | .permission => .badRequest
      | .invalid => .badRequest
      | _ => .internalServerError
  | .unsupportedContentType => .badRequest

/-- The statuses that `statusFromFileError` returns. -/
def fileErrorStatuses : List StatusCode := [.badRequest, .notFound, .internalServerError]

theorem statusFromFileError_mem (err : Err) : statusFromFileError err ∈ fileErrorStatuses := by
  unfold statusFromFileError
  split
  · split <;> decide
  · decide

/-- The status of a file error is `400 Bad Request` or above. -/
theorem badRequest_le_of_mem : ∀ status ∈ fileErrorStatuses, .badRequest ≤ status := by decide

theorem badRequest_le_statusFromFileError (err : Err) : .badRequest ≤ statusFromFileError err :=
  badRequest_le_of_mem _ (statusFromFileError_mem err)

theorem statusFromFileError_ne {status : StatusCode} (h : status < .badRequest) (err : Err) :
    statusFromFileError err ≠ status :=
  (h.trans_le (badRequest_le_statusFromFileError err)).ne'

/-- The handler of GET requests. -/
def getHandler (getwd : Except FileError GoString) : RequestHandler FileProg := fun r rb =>
  match contentTypeForPath r.path with
  | none => pure (.error (.httpError ⟨.badRequest⟩))
  | some type => do
      match ← readFile getwd r.path with
      | .error err => pure (.error (.httpError ⟨statusFromFileError err⟩))
      | .ok data => pure (.ok ((rb.bytes data).header contentType type))

/-- The handler of POST requests. -/
def postHandler (getwd : Except FileError GoString) (body : Body) : RequestHandler FileProg :=
  fun r rb => do
    match ← writeFile getwd r.path body with
    | some err => pure (.error (.httpError ⟨statusFromFileError err⟩))
    | none => pure (.ok (rb.status .created))

/-- The handlers that `main` registers, for a request with a body. -/
def handlers (getwd : Except FileError GoString) (body : Body) :
    GoString → Option (RequestHandler FileProg) := fun method =>
  if method = .ofString "GET" then some (getHandler getwd)
  else if method = .ofString "POST" then some (postHandler getwd body)
  else none

/-- What a goroutine serves: a request with its body, and what `os.Getwd` does. -/
structure Job where
  /-- The request. -/
  request : Request
  /-- Its body. -/
  body : Body := ⟨[], none⟩
  /-- The error of `os.Getwd`, if it fails. -/
  getwdErr : Option FileError := none

/-- The result of `os.Getwd`. -/
def Job.getwd (E : Env) (job : Job) : Except FileError GoString :=
  match job.getwdErr with
  | some err => .error err
  | none => .ok (GoPath.absolute E.wd)

/-- The response to a request. -/
def serve (E : Env) (job : Job) : FileProg Response :=
  respond (handlers (job.getwd E) job.body) (some job.request)

/-- The response to a GET request that has read a page. -/
def pageResponse (job : Job) (type bytes : GoString) : Response :=
  (((newResponseBuilder (some job.request)).bytes bytes).header contentType type).build

/-- The response to a POST request whose body was saved. -/
def createdResponse (job : Job) : Response :=
  ((newResponseBuilder (some job.request)).status .created).build

/-- The response to a request with an error. -/
def errorResponse (status : StatusCode) : Response := handleError (.httpError ⟨status⟩)

/-- A path is resolved only with a working directory. -/
theorem getwd_of_resolvePath {E : Env} {job : Job} {p diskPath : GoString}
    (h : resolvePath (job.getwd E) p = .ok diskPath) :
    job.getwdErr = none ∧ job.getwd E = .ok (absolute E.wd) := by
  cases hgetwd : job.getwdErr with
  | some err =>
      rw [Job.getwd, hgetwd, resolvePath_error] at h
      exact absurd h (by simp)
  | none => exact ⟨rfl, by rw [Job.getwd, hgetwd]⟩

/-! ## Where uploads go -/

/-- The base name that passes the checks of `writeFile` is a name. -/
theorem isName_base {p : GoString}
    (hbase : ¬ (base p = [] ∨ base p = [GoPath.dot] ∨ base p = [GoPath.slash]))
    (hallowed : (contentTypeForPath (base p)).isSome) : IsName (base p) := by
  rcases GoPath.base_cases p with hdot | hslash | ⟨-, hslash⟩
  · exact absurd (Or.inr (Or.inl hdot)) hbase
  · exact absurd (Or.inr (Or.inr hslash)) hbase
  · exact isName_of_contentType hslash hallowed

/-- **Where `writeFile` saves**: it returns an error before it saves anything, or saves to a file in
`./public` itself, with an allowed extension. -/
theorem writeFile_cases {wd : GoString} (habs : GoPath.isAbs wd = true) (requestPath : GoString)
    (reader : Body) :
    (∃ err, writeFile (.ok wd) requestPath reader = pure (some err)) ∨
      ∃ absBase name, GoPath.abs (.ok wd : Except FileError GoString) publicDir = .ok absBase ∧
        GoPath.slash ∉ name ∧ (contentTypeForPath (absBase ++ GoPath.slash :: name)).isSome ∧
        writeFile (.ok wd) requestPath reader =
          saveUploadedFile reader (absBase ++ GoPath.slash :: name) >>= fun err =>
            pure (err.map .os) := by
  obtain ⟨names, hnames, hclean⟩ := GoPath.exists_names_of_isAbs habs
  unfold writeFile
  dsimp only
  split
  · exact Or.inl ⟨_, rfl⟩
  · next hbase =>
    split
    · exact Or.inl ⟨_, rfl⟩
    · next type htype =>
      have hname := isName_base hbase (by rw [htype]; rfl)
      split
      · exact Or.inl ⟨_, rfl⟩
      · next destination hdestination =>
        rw [← resolvePath_clean habs, hclean] at hdestination
        obtain rfl := resolvePath_of_isName hnames hname hdestination
        have hfile : absolute (names ++ [publicName, base requestPath]) =
            absolute (names ++ [publicName]) ++ GoPath.slash :: base requestPath := by
          rw [List.append_cons, GoPath.absolute_append (by simp), List.flatMap_singleton]
        have hext :
            GoPath.ext (absolute (names ++ [publicName]) ++ GoPath.slash :: base requestPath) =
              GoPath.ext (base requestPath) := by
          apply GoPath.ext_of_elements
          rw [GoPath.elements_append_slash]
          exact congrArg _ (List.splitOn_eq_singleton hname.not_mem)
        refine Or.inr
          ⟨absolute (names ++ [publicName]), base requestPath, ?_, hname.not_mem, ?_, ?_⟩
        · rw [← GoPath.abs_clean habs, hclean, abs_publicDir hnames]
        · rw [contentTypeForPath, hext, ← contentTypeForPath, htype]
          rfl
        · rw [hfile]

/-- What `writeFile` resolves the base name of an upload to: the file of that name in
`./public`. -/
theorem upload_destination {E : Env} (hwd : ∀ c ∈ E.wd, IsName c) {job : Job} {destination : GoString}
    (hbase : ¬ (base job.request.path = [] ∨ base job.request.path = [GoPath.dot] ∨
      base job.request.path = [GoPath.slash]))
    (hallowed : (contentTypeForPath (base job.request.path)).isSome)
    (h : resolvePath (job.getwd E) (base job.request.path) = .ok destination) :
    job.getwdErr = none ∧ IsName (base job.request.path) ∧
      destination = absolute (E.wd ++ [publicName, base job.request.path]) := by
  have hname := isName_base hbase hallowed
  obtain ⟨herr, hgetwd⟩ := getwd_of_resolvePath h
  rw [hgetwd] at h
  exact ⟨herr, hname, resolvePath_of_isName hwd hname h⟩

end DistributedSystems.HttpServer
