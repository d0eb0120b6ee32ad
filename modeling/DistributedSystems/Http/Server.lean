import DistributedSystems.Http.Response

/-! # The server: from requests to responses

`handleError`, `handleRequest` and the part of `handleConnection` between reading a request and
writing a response, of `http/server.go`, with `IsValid` of `http/method.go`. Handlers run in a monad
`m`: that of the file server makes file operations. -/

namespace DistributedSystems.Http

/-- `IsValid`: the method is one of those of HTTP. -/
def isValid (method : GoString) : Bool :=
  method ∈ [.ofString "GET", .ofString "HEAD", .ofString "OPTIONS", .ofString "TRACE",
    .ofString "PUT", .ofString "DELETE", .ofString "POST", .ofString "PATCH", .ofString "CONNECT"]

/-- The error of a handler. -/
inductive HandlerError
  /-- An `HTTPError`. -/
  | httpError (err : HTTPError)
  /-- Another error. -/
  | other (text : GoString)

/-- `RequestHandler`. -/
abbrev RequestHandler (m : Type → Type) :=
  Request → ResponseBuilder → m (Except HandlerError ResponseBuilder)

/-- `handleError`. -/
def handleError (err : HandlerError) : Response :=
  let status :=
    match err with
    | .httpError httpErr => httpErr.status
    | .other _ => .internalServerError
  { protocol := .ofString "HTTP/1.1"
    statusCode := status
    headers := (∅ : Headers).insert (.ofString "Connection") [.ofString "close"]
    body := [] }

variable {m : Type → Type} [Monad m]

/-- `handleRequest`. -/
def handleRequest (requestHandlers : GoString → Option (RequestHandler m)) (request : Request) :
    m (Except HandlerError Response) :=
  let responseBuilder := newResponseBuilder (some request)
  if isValid request.method = false then pure (.error (.httpError ⟨.badRequest⟩))
  else
    match requestHandlers request.method with
    | none => pure (.error (.httpError ⟨.notImplemented⟩))
    | some handler => do
        match ← handler request responseBuilder with
        | .error err => pure (.error err)
        | .ok responseBuilder => pure (.ok responseBuilder.build)

/-- The response of `handleConnection` to what `http.ReadRequest` returns. -/
def respond (requestHandlers : GoString → Option (RequestHandler m)) (request : Option Request) :
    m Response :=
  match request with
  | none => pure (handleError (.httpError ⟨.badRequest⟩))
  | some request => do
      match ← handleRequest requestHandlers request with
      | .error err => pure (handleError err)
      | .ok response => pure response

end DistributedSystems.Http
