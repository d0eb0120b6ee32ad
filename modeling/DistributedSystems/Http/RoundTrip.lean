import DistributedSystems.Http.ResponseParser

/-! # Reading the builder's responses back

The reference parser, with the body: after the head, as many bytes are read as `Content-Length`
says, and none without that header. A response comes from `newResponseBuilder` by any sequence of
calls; whether its body is written depends on a header that `header`, `bytes` and `body` set in any
order.

* `Response.Built` — what every call keeps: a header has one value, and there is no body without a
  length;
* `parseResponse_bytes` — protocol, status code, headers and body are read back, for every order of
  the header map, and no byte is left. -/

namespace DistributedSystems.Http

open Std (TreeMap)

/-! ## Sequences of calls -/

/-- A call of a method of `ResponseBuilder`. -/
inductive BuilderCall
  /-- `Status`. -/
  | status (statusCode : StatusCode)
  /-- `Ok`. -/
  | ok
  /-- `Header`. -/
  | header (key value : GoString)
  /-- `Bytes`. -/
  | bytes (body : GoString)
  /-- `Body`. -/
  | body (body : GoString)

/-- The builder that a call returns. -/
def ResponseBuilder.call (builder : ResponseBuilder) : BuilderCall → ResponseBuilder
  | .status statusCode => builder.status statusCode
  | .ok => builder.ok
  | .header key value => builder.header key value
  | .bytes body => builder.bytes body
  | .body body => builder.body body

/-- The response that is built after a sequence of calls. -/
def buildWith (request : Option Request) (calls : List BuilderCall) : Response :=
  (calls.foldl ResponseBuilder.call (newResponseBuilder request)).build

/-- What holds of a response between the calls. -/
structure Response.Built (response : Response) : Prop where
  /-- A header has one value. -/
  single : ∀ (key : GoString) (values : List GoString), response.headers[key]? = some values →
    ∃ value, values = [value]
  /-- Without a length there is no body. -/
  body : response.hasBody = false → response.body = []

/-- A new response has neither headers nor a body. -/
theorem built_newResponse (request : Option Request) : (newResponse request).Built where
  single key values h := absurd h (by simp [newResponse])
  body _ := rfl

/-- Setting a header leaves one value for every header. -/
theorem exists_single_insert {headers : Headers}
    (h : ∀ (key : GoString) (values : List GoString), headers[key]? = some values →
      ∃ value, values = [value])
    (name text : GoString) (key : GoString) (values : List GoString)
    (hkey : (headers.insert name [text])[key]? = some values) : ∃ value, values = [value] := by
  rw [TreeMap.getElem?_insert] at hkey
  split at hkey
  · exact ⟨text, (Option.some.inj hkey).symm⟩
  · exact h key values hkey

/-- `Header` keeps the invariant. -/
theorem ResponseBuilder.built_header {builder : ResponseBuilder} (h : builder.response.Built)
    (key value : GoString) : (builder.header key value).response.Built where
  single := exists_single_insert h.single key value
  body hbody := by
    apply h.body
    -- the header that is set is not the length, and the others are as before
    rw [Response.hasBody, ResponseBuilder.header, TreeMap.contains_insert, Bool.or_eq_false_iff]
      at hbody
    exact hbody.2

/-- `Bytes` keeps the invariant, since it sets the length. -/
theorem ResponseBuilder.built_bytes {builder : ResponseBuilder} (h : builder.response.Built)
    (body : GoString) : (builder.bytes body).response.Built where
  single := exists_single_insert (exists_single_insert h.single _ _) _ _
  body hbody := by
    rw [Response.hasBody, ResponseBuilder.bytes, TreeMap.contains_insert_self] at hbody
    exact absurd hbody (by decide)

/-- **Every call keeps the invariant.** -/
theorem ResponseBuilder.built_call {builder : ResponseBuilder} (h : builder.response.Built)
    (call : BuilderCall) : (builder.call call).response.Built := by
  cases call with
  | status statusCode => exact ⟨h.single, h.body⟩
  | ok => exact ⟨h.single, h.body⟩
  | header key value => exact builder.built_header h key value
  | bytes body => exact builder.built_bytes h body
  | body body => exact builder.built_bytes h body

/-- **The invariant holds after every sequence of calls.** -/
theorem built_buildWith (request : Option Request) (calls : List BuilderCall) :
    (buildWith request calls).Built := by
  have hrun : ∀ builder : ResponseBuilder, builder.response.Built →
      (calls.foldl ResponseBuilder.call builder).response.Built := by
    induction calls with
    | nil =>
        intro builder h
        exact h
    | cons call calls ih =>
        intro builder h
        apply ih
        exact builder.built_call h call
  exact hrun (newResponseBuilder request) (built_newResponse request)

/-! ## The parser -/

/-- A response as it is read. -/
structure Message where
  /-- The protocol. -/
  protocol : GoString
  /-- The status code. -/
  statusCode : StatusCode
  /-- The header fields, in order. -/
  fields : List (GoString × GoString)
  /-- The body. -/
  body : GoString
  deriving DecidableEq

/-- The length of the body after a head. Two lengths are refused. -/
def Head.bodyLength (head : Head) : Option ℕ :=
  match head.valuesOf contentLength with
  | [] => some 0
  | [value] => Decimal.parseUint value
  | _ => none

/-- Parse a response, and return what follows it. -/
def parseResponse (s : GoString) : Option (Message × GoString) :=
  match parseHead s with
  | none => none
  | some (head, rest) =>
      match Decimal.atoi head.status, head.bodyLength with
      | some statusCode, some length =>
          -- a response that ends before its body does is refused
          if length ≤ rest.length then
            some (⟨head.protocol, statusCode, head.fields, rest.take length⟩, rest.drop length)
          else none
      | _, _ => none

/-! ## Reading back -/

/-- A response that can be read back with its body. -/
structure Response.Parseable (response : Response) : Prop extends Response.Readable response where
  /-- The values have no blank at either end. -/
  trimmed : ∀ key ∈ response.headers, ∀ value ∈ response.valuesOf key,
    (∀ x ∈ value.head?, isBlank x = false) ∧ ∀ x ∈ value.getLast?, isBlank x = false
  /-- The length, if there is one, is that of the body. -/
  length : ∀ value, response.headers[contentLength]? = some [value] →
    value = Decimal.itoa response.body.length

variable {response : Response} {order : List GoString}

/-- A header that is set has one value. -/
theorem Response.Built.mem_iff (h : response.Built) (key : GoString) :
    key ∈ response.headers ↔ ∃ value, response.headers[key]? = some [value] := by
  rw [TreeMap.mem_iff_isSome_getElem?, Option.isSome_iff_exists]
  constructor
  · rintro ⟨values, hvalues⟩
    obtain ⟨value, rfl⟩ := h.single key values hvalues
    exact ⟨value, hvalues⟩
  · rintro ⟨value, hvalue⟩
    exact ⟨[value], hvalue⟩

/-- The field of a header, as it is read. -/
theorem parsedField_single (h : response.Parseable) (hbuilt : response.Built)
    {key value : GoString} (hkey : response.headers[key]? = some [value]) :
    parsedField key (response.valuesOf key) = (key, value) := by
  have hvalues : response.valuesOf key = [value] := by
    rw [Response.valuesOf, hkey, Option.getD_some]
  have hvalue : value ∈ response.valuesOf key := by
    rw [hvalues]
    exact List.mem_singleton_self value
  obtain ⟨hhead, hlast⟩ := h.trimmed key ((hbuilt.mem_iff key).mpr ⟨value, hkey⟩) value hvalue
  rw [parsedField, hvalues, GoString.join, List.intercalate_singleton,
    trimBlanks_of_ends hhead hlast]

/-- **The fields that are read are the headers that were set.** -/
theorem mem_parsedFields (h : response.Parseable) (hbuilt : response.Built)
    (horder : order.Perm response.headers.keys) (name value : GoString) :
    (name, value) ∈ order.map (fun key => parsedField key (response.valuesOf key)) ↔
      response.headers[name]? = some [value] := by
  have hset : ∀ key, key ∈ order ↔ ∃ value, response.headers[key]? = some [value] := by
    intro key
    rw [horder.mem_iff, TreeMap.mem_keys, hbuilt.mem_iff]
  constructor
  · intro hmem
    obtain ⟨key, hkey, heq⟩ := List.mem_map.mp hmem
    obtain ⟨text, htext⟩ := (hset key).mp hkey
    rw [parsedField_single h hbuilt htext] at heq
    obtain ⟨rfl, rfl⟩ := Prod.mk.inj heq
    exact htext
  · intro hname
    exact List.mem_map.mpr ⟨name, (hset name).mpr ⟨value, hname⟩, parsedField_single h hbuilt hname⟩

/-- The head announces the length of the bytes that follow it. -/
theorem bodyLength_parsedFields (h : response.Parseable) (hbuilt : response.Built)
    (horder : order.Perm response.headers.keys) (protocol status reason : GoString) :
    Head.bodyLength ⟨protocol, status, reason,
        order.map fun key => parsedField key (response.valuesOf key)⟩ =
      some (if response.hasBody then response.body else []).length := by
  have hmem : contentLength ∈ order ↔ response.hasBody = true := by
    rw [horder.mem_iff, TreeMap.mem_keys, ← TreeMap.contains_iff_mem, Response.hasBody]
  -- the text that is read for a name
  let text (key : GoString) : GoString := (parsedField key (response.valuesOf key)).2
  unfold Head.bodyLength
  cases hbody : response.hasBody with
  | false =>
      have hnot : contentLength ∉ order := fun hin => absurd (hmem.mp hin) (by simp [hbody])
      have hread : Head.valuesOf ⟨protocol, status, reason,
          order.map fun key => parsedField key (response.valuesOf key)⟩ contentLength = [] :=
        Head.valuesOf_map_of_notMem text hnot
      rw [hread]
      rfl
  | true =>
      obtain ⟨value, hvalue⟩ :=
        (hbuilt.mem_iff contentLength).mp (TreeMap.contains_iff_mem.mp hbody)
      have hnodup : order.Nodup := horder.nodup_iff.mpr TreeMap.nodup_keys
      have hread : Head.valuesOf ⟨protocol, status, reason,
          order.map fun key => parsedField key (response.valuesOf key)⟩ contentLength =
            [text contentLength] :=
        Head.valuesOf_map hnodup text (hmem.mpr hbody)
      have htext : text contentLength = Decimal.formatUint response.body.length := by
        show (parsedField contentLength _).2 = _
        rw [parsedField_single h hbuilt hvalue, h.length value hvalue, Decimal.itoa_natCast]
      rw [hread, htext]
      exact Decimal.parseUint_formatUint _

/-- Without a length there is no body. -/
theorem Response.Built.written_body (h : response.Built) :
    (if response.hasBody then response.body else []) = response.body := by
  cases hbody : response.hasBody with
  | false => exact (h.body hbody).symm
  | true => rfl

/-- The message that a client reads from the bytes of a response. -/
def messageOf (response : Response) (order : List GoString) : Message :=
  ⟨response.protocol, response.statusCode,
    order.map fun key => parsedField key (response.valuesOf key), response.body⟩

/-- **The client reads the message**, and no byte is left. -/
theorem parseResponse_eq (h : response.Parseable) (hbuilt : response.Built)
    (horder : order.Perm response.headers.keys) :
    parseResponse (response.bytes order) = some (messageOf response order, []) := by
  have hlength := bodyLength_parsedFields h hbuilt horder response.protocol
    (Decimal.itoa response.statusCode) response.statusCode.phrase
  rw [hbuilt.written_body] at hlength
  rw [parseResponse, parseHead_bytes h.toReadable horder]
  simp only [Decimal.atoi_itoa, hlength, hbuilt.written_body, le_refl, if_true, List.take_length,
    List.drop_length]
  rfl

/-- **Serialised responses parse back.** For every request, sequence of calls and order of the
header map, the parser reads the protocol, the status code, the headers and the body of the response,
and leaves no byte. -/
theorem parseResponse_bytes (request : Option Request) (calls : List BuilderCall)
    (h : (buildWith request calls).Parseable)
    (horder : order.Perm (buildWith request calls).headers.keys) :
    ∃ message : Message,
      parseResponse ((buildWith request calls).bytes order) = some (message, []) ∧
      message.protocol = (buildWith request calls).protocol ∧
      message.statusCode = (buildWith request calls).statusCode ∧
      -- the fields are the map: every header is read once, with its one value
      (message.fields.map Prod.fst).Nodup ∧
      (∀ name value, (name, value) ∈ message.fields ↔
        (buildWith request calls).headers[name]? = some [value]) ∧
      (∀ name ∈ (buildWith request calls).headers, ∃ value, (name, value) ∈ message.fields) ∧
      message.body = (buildWith request calls).body := by
  set response := buildWith request calls with hresponse
  have hbuilt : response.Built := built_buildWith request calls
  have hfields := mem_parsedFields h hbuilt horder
  refine ⟨messageOf response order, parseResponse_eq h hbuilt horder, rfl, rfl, ?_, hfields, ?_, rfl⟩
  · have hnames : (messageOf response order).fields.map Prod.fst = order := by
      rw [messageOf, List.map_map]
      exact List.map_id' order
    rw [hnames]
    exact horder.nodup_iff.mpr TreeMap.nodup_keys
  · intro name hname
    obtain ⟨value, hvalue⟩ := (hbuilt.mem_iff name).mp hname
    exact ⟨value, (hfields name value).mpr hvalue⟩

/-- A length that the body overwrites, and a body with an empty line in it. -/
def exampleCalls : List BuilderCall :=
  [.header contentLength (.ofString "7"), .body ([97] ++ crlf ++ crlf ++ [98]),
    .header contentType (.ofString "text/html"), .status .notFound]

theorem parseResponse_bytes_notFound :
    ∃ message : Message,
      parseResponse ((buildWith none exampleCalls).bytes [contentType, contentLength]) =
        some (message, []) ∧
      message.protocol = .ofString "HTTP/1.1" ∧ message.statusCode = 404 ∧
      message.body = [97] ++ crlf ++ crlf ++ [98] := by
  have hheaders : ∀ key ∈ (buildWith none exampleCalls).headers.keys,
      58 ∉ key ∧ 13 ∉ key ∧ ∀ value ∈ (buildWith none exampleCalls).valuesOf key, 13 ∉ value ∧
        (∀ x ∈ value.head?, isBlank x = false) ∧ ∀ x ∈ value.getLast?, isBlank x = false := by
    decide +kernel
  have hparseable : (buildWith none exampleCalls).Parseable :=
    { space := by decide +kernel
      protocol := by decide +kernel
      headers := fun key hkey =>
        have hkey := hheaders key (TreeMap.mem_keys.mpr hkey)
        ⟨hkey.1, hkey.2.1, fun value hvalue => (hkey.2.2 value hvalue).1⟩
      trimmed := fun key hkey value hvalue =>
        ((hheaders key (TreeMap.mem_keys.mpr hkey)).2.2 value hvalue).2
      length := fun value hvalue => by
        have hlength : (buildWith none exampleCalls).headers[contentLength]? =
            some [Decimal.itoa (buildWith none exampleCalls).body.length] := by decide +kernel
        exact (List.singleton_inj.mp (Option.some.inj (hlength.symm.trans hvalue))).symm }
  have horder : [contentType, contentLength].Perm (buildWith none exampleCalls).headers.keys := by
    decide +kernel
  obtain ⟨message, hread, hprotocol, hstatus, -, -, -, hbody⟩ :=
    parseResponse_bytes none exampleCalls hparseable horder
  exact ⟨message, hread, hprotocol, hstatus, hbody⟩

end DistributedSystems.Http
