import DistributedSystems.GoLang.Decimal
import Std.Data.TreeMap.Lemmas

/-! # Responses

The types of `Lab1/http`: status codes, headers, requests as far as the library reads them,
responses and the response builder. The header map is written in the order in which Go ranges over
it, which is a parameter.

* `parseHead_bytes`, in the module of the parser, reads a response back from its bytes. -/

namespace DistributedSystems.Http

open Std (TreeMap)

/-! ## Status codes -/

/-- `StatusCode`. -/
abbrev StatusCode := ℤ

namespace StatusCode

/-- `Ok`. -/
def ok : StatusCode := 200

/-- `Created`. -/
def created : StatusCode := 201

/-- `BadRequest`. -/
def badRequest : StatusCode := 400

/-- `NotFound`. -/
def notFound : StatusCode := 404

/-- `InternalServerError`. -/
def internalServerError : StatusCode := 500

/-- `NotImplemented`. -/
def notImplemented : StatusCode := 501

/-- `Phrase`. -/
def phrase (statusCode : StatusCode) : GoString :=
  if statusCode = ok then .ofString "OK"
  else if statusCode = created then .ofString "Created"
  else if statusCode = badRequest then .ofString "Bad Request"
  else if statusCode = notFound then .ofString "Not Found"
  else if statusCode = internalServerError then .ofString "Internal Server Error"
  else if statusCode = notImplemented then .ofString "Not Implemented"
  else .ofString "Unknown"

end StatusCode

/-- `HTTPError`. -/
structure HTTPError where
  /-- The status of the answer. -/
  status : StatusCode
  deriving DecidableEq

/-! ## Requests and responses -/

/-- A parsed request, as far as the library and its handlers read it. -/
structure Request where
  /-- `Method`. -/
  method : GoString
  /-- `Proto`. -/
  proto : GoString
  /-- `URL.Path`. -/
  path : GoString
  /-- `URL.Host`. -/
  urlHost : GoString
  /-- `Host`. -/
  host : GoString

/-- A protocol version that `net/http` accepts in a request: `HTTP/` and two digits. -/
def IsHTTPVersion (proto : GoString) : Prop :=
  ∃ major minor : Byte, (48 ≤ major ∧ major ≤ 57) ∧ (48 ≤ minor ∧ minor ≤ 57) ∧
    proto = .ofString "HTTP/" ++ [major, 46, minor]

/-- The lower case of an ASCII letter. -/
def lowerByte (x : Byte) : Byte := if 65 ≤ x ∧ x ≤ 90 then x + 32 else x

/-- Two header names are the same, regardless of case. -/
def sameName (a b : GoString) : Bool := a.map lowerByte = b.map lowerByte

/-- `textproto.CanonicalMIMEHeaderKey` of a token: the first letter and those after a hyphen are
upper case, the others lower case. -/
def canonicalKey : Bool → GoString → GoString
  | _, [] => []
  | upper, c :: s =>
      (if upper ∧ 97 ≤ c ∧ c ≤ 122 then c - 32
        else if ¬ upper ∧ 65 ≤ c ∧ c ≤ 90 then c + 32
        else c) :: canonicalKey (c = 45) s

/-- `Headers`. -/
abbrev Headers := TreeMap GoString (List GoString)

/-- `Response`. -/
structure Response where
  /-- `Protocol`. -/
  protocol : GoString
  /-- `StatusCode`. -/
  statusCode : StatusCode
  /-- `Headers`. -/
  headers : Headers
  /-- `Body`. -/
  body : GoString

/-- The line end. -/
def crlf : GoString := [13, 10]

/-- The name of the header `Content-Length`. -/
def contentLength : GoString := .ofString "Content-Length"

/-- The name of the header `Content-Type`. -/
def contentType : GoString := .ofString "Content-Type"

/-- `NewResponse`. -/
def newResponse (request : Option Request) : Response :=
  let protocol :=
    match request with
    | some request => if request.proto ≠ [] then request.proto else .ofString "HTTP/1.1"
    | none => .ofString "HTTP/1.1"
  { protocol := protocol, statusCode := .ok, headers := ∅, body := [] }

namespace Response

variable (response : Response)

/-- `formatStartLine`. -/
def formatStartLine : GoString :=
  response.protocol ++ .ofString " " ++ Decimal.itoa response.statusCode ++ .ofString " " ++
    response.statusCode.phrase ++ crlf

/-- One line of `formatHeaders`. -/
def formatHeader (key : GoString) (values : List GoString) : GoString :=
  key ++ .ofString ": " ++ .join values (.ofString ", ") ++ crlf

/-- The values of a header; none if it is not in the map. -/
def valuesOf (key : GoString) : List GoString := response.headers[key]?.getD []

/-- `formatHeaders`, ranging over the header map in the order `order`. -/
def formatHeaders (order : List GoString) : GoString :=
  order.flatMap fun key => formatHeader key (response.valuesOf key)

/-- `hasBody`. -/
def hasBody : Bool := response.headers.contains contentLength

/-- `Bytes`, ranging over the header map in the order `order`. -/
def bytes (order : List GoString) : GoString :=
  let b := response.formatStartLine ++ response.formatHeaders order ++ crlf
  if response.hasBody then b ++ response.body else b

end Response

/-! ## The builder -/

/-- `ResponseBuilder`. -/
structure ResponseBuilder where
  /-- The response that is built. -/
  response : Response

/-- `NewResponseBuilder`. -/
def newResponseBuilder (request : Option Request) : ResponseBuilder :=
  { response := newResponse request }

namespace ResponseBuilder

variable (builder : ResponseBuilder)

/-- `Status`. -/
def status (statusCode : StatusCode) : ResponseBuilder :=
  { response := { builder.response with statusCode := statusCode } }

/-- `Ok`. -/
def ok : ResponseBuilder := builder.status .ok

/-- `Header`. -/
def header (key value : GoString) : ResponseBuilder :=
  { response := { builder.response with headers := builder.response.headers.insert key [value] } }

/-- `Bytes`. -/
def bytes (body : GoString) : ResponseBuilder :=
  let headers := builder.response.headers.insert contentType [.ofString "text/plain"]
  let headers := headers.insert contentLength [Decimal.itoa body.length]
  { response := { builder.response with body := body, headers := headers } }

/-- `Body`. -/
def body (body : GoString) : ResponseBuilder := builder.bytes body

/-- `Build`. -/
def build : Response := builder.response

end ResponseBuilder

end DistributedSystems.Http
