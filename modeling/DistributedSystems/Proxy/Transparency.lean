import DistributedSystems.Http.RoundTrip
import DistributedSystems.HttpServer.Extensions
import DistributedSystems.HttpServer.Linearizability
import DistributedSystems.Proxy.ReadResponse

/-! # The file server behind the proxy

The proxy reads the bytes that the file server writes, and writes bytes of its own. `ReadAs` is a
reference for `net/http.ReadResponse` and `io.ReadAll`: the head is read as in `ReadHead`, and a body
that is not chunked is taken by its length, or up to the end of the connection.

* `GetReply` — what the file server answers to a GET request: a page, or an error without a body;
* `ReadAs.conveys` — the proxy reads what the server has built;
* `proxy_transparent` — what the client reads through the proxy is what it would read directly. -/

namespace DistributedSystems.Proxy

open FileSystem Http HttpServer
open GoPath (IsName)
open Std (TreeMap)

/-! ## Reading a response -/

/-- The body that `io.ReadAll` returns if it is not chunked, from what follows the head until the
connection is closed. -/
def readBody (statusCode : StatusCode) (header : Headers) (rest : GoString) : Option GoString :=
  if allowsBody statusCode then
    match header[contentLength]? with
    | none => some rest
    | some [value] =>
        match Decimal.parseUint value with
        | some length => if length ≤ rest.length then some (rest.take length) else none
        | none => none
    | some _ => none
  else some []

/-- The bytes of a response are read as an upstream response. How the chunks of a chunked body are
decoded is left open. -/
def ReadAs (s : GoString) (u : Upstream) : Prop :=
  ∃ head rest chunked, parseHead s = some (head, rest) ∧ ReadHead head u chunked ∧
    (chunked = false → readBody u.statusCode u.header rest = some u.body)

/-! ## Responses that are read back -/

/-- A header that can be sent in front of a body. -/
structure PlainField (body key value : GoString) : Prop where
  /-- The name is canonical. -/
  canonical : canonicalKey true key = key
  /-- The name is not empty. -/
  name_ne_nil : key ≠ []
  /-- The name has no colon. -/
  colon : 58 ∉ key
  /-- The name has no carriage return. -/
  name_cr : 13 ∉ key
  /-- The value has no carriage return. -/
  value_cr : 13 ∉ value
  /-- The value has no blank at either end. -/
  trimmed : (∀ x ∈ value.head?, isBlank x = false) ∧ ∀ x ∈ value.getLast?, isBlank x = false
  /-- A length is that of the body. -/
  length : key = contentLength → value = Decimal.itoa body.length
  /-- `ReadResponse` does not change the header. -/
  unfixed : key ≠ pragma ∧ key ≠ transferEncoding

/-- A response that can be sent through the proxy. -/
structure Sendable (response : Response) : Prop where
  /-- It comes from the library. -/
  built : response.Built
  /-- It has a protocol version. -/
  protocol : IsHTTPVersion response.protocol
  /-- The status allows a body. -/
  allowsBody : allowsBody response.statusCode = true
  /-- The status is not negative. -/
  status_nonneg : 0 ≤ response.statusCode
  /-- The status has three digits. -/
  length_status : (Decimal.itoa response.statusCode).length = 3
  /-- The headers can be read back. -/
  field : ∀ key value, response.headers[key]? = some [value] → PlainField response.body key value

variable {response : Response} {sent : List GoString}

/-- Every header has one value, and both can be read back. -/
theorem Sendable.exists_field (h : Sendable response) {key : GoString}
    (hkey : key ∈ response.headers) :
    ∃ value, response.valuesOf key = [value] ∧ PlainField response.body key value := by
  obtain ⟨value, hvalue⟩ := (h.built.mem_iff key).mp hkey
  exact ⟨value, by rw [Response.valuesOf, hvalue]; rfl, h.field key value hvalue⟩

/-- A response that can be sent can be parsed. -/
theorem Sendable.parseable (h : Sendable response) : response.Parseable := by
  refine ⟨⟨h.protocol.notMem.2.1, h.protocol.notMem.2.2, fun key hkey => ?_⟩,
    fun key hkey v hv => ?_, fun value hvalue => (h.field _ _ hvalue).length rfl⟩
  · obtain ⟨value, hvalues, hfield⟩ := h.exists_field hkey
    rw [hvalues]
    refine ⟨hfield.colon, hfield.name_cr, fun v hv => ?_⟩
    obtain rfl : v = value := List.mem_singleton.mp hv
    exact hfield.value_cr
  · obtain ⟨value, hvalues, hfield⟩ := h.exists_field hkey
    rw [hvalues] at hv
    obtain rfl : v = value := List.mem_singleton.mp hv
    exact hfield.trimmed

/-- The names of the headers are canonical. -/
theorem Sendable.canonical (h : Sendable response) {key : GoString}
    (hkey : key ∈ response.headers) : canonicalKey true key = key := by
  obtain ⟨value, -, hfield⟩ := h.exists_field hkey
  exact hfield.canonical

/-- The header map that is read is the one that was sent. -/
theorem headerOf_sent (h : Sendable response) (hsent : sent.Perm response.headers.keys)
    (name : GoString) :
    (headerOf (messageOf response sent).fields)[name]? = response.headers[name]? := by
  have hmem (key : GoString) : key ∈ sent ↔ key ∈ response.headers := by
    rw [hsent.mem_iff, TreeMap.mem_keys]
  have hread := headerOf_getElem? (hsent.nodup_iff.mpr TreeMap.nodup_keys)
    (fun key hkey => h.canonical ((hmem key).mp hkey))
    (fun key => (parsedField key (response.valuesOf key)).2) name
  refine hread.trans ?_
  by_cases hname : name ∈ response.headers
  · obtain ⟨value, hvalue⟩ := (h.built.mem_iff name).mp hname
    rw [if_pos ((hmem name).mpr hname), parsedField_single h.parseable h.built hvalue, hvalue]
  · rw [if_neg (mt (hmem name).mp hname), TreeMap.getElem?_eq_none hname]

/-- The header map is not changed by `ReadResponse`. -/
theorem Sendable.unfixed (h : Sendable response) (hsent : sent.Perm response.headers.keys) :
    Unfixed (headerOf (messageOf response sent).fields) := by
  have hkey {key : GoString} {values : List GoString}
      (hvalues : (headerOf (messageOf response sent).fields)[key]? = some values) :
      ∃ value, values = [value] ∧ PlainField response.body key value := by
    rw [headerOf_sent h hsent] at hvalues
    obtain ⟨value, rfl⟩ := h.built.single key values hvalues
    exact ⟨value, rfl, h.field key value hvalues⟩
  refine ⟨fun hasks => ?_, fun hmem => ?_, fun values hvalues => ?_⟩
  · obtain ⟨values, hvalues, -⟩ := Option.bind_eq_some_iff.mp hasks.1
    obtain ⟨value, -, hplain⟩ := hkey hvalues
    exact hplain.unfixed.1 rfl
  · obtain ⟨value, -, hplain⟩ := hkey (TreeMap.getElem?_eq_some_getElem hmem)
    exact hplain.unfixed.2 rfl
  · obtain ⟨value, rfl, -⟩ := hkey hvalues
    exact le_rfl

/-- The head that is read from the bytes of a response. -/
def headOf (response : Response) (sent : List GoString) : Head :=
  ⟨response.protocol, Decimal.itoa response.statusCode, response.statusCode.phrase,
    (messageOf response sent).fields⟩

theorem parseHead_sent (h : Sendable response) (hsent : sent.Perm response.headers.keys) :
    parseHead (response.bytes sent) = some (headOf response sent, response.body) := by
  rw [parseHead_bytes h.parseable.toReadable hsent, h.built.written_body]
  rfl

/-- The body is read up to its end. -/
theorem readBody_sent (h : Sendable response) {header : Headers}
    (hheader : header[contentLength]? = response.headers[contentLength]?) :
    readBody response.statusCode header response.body = some response.body := by
  rw [readBody, if_pos h.allowsBody, hheader]
  cases hvalues : response.headers[contentLength]? with
  | none => rfl
  | some values =>
      obtain ⟨value, rfl⟩ := h.built.single contentLength values hvalues
      rw [h.parseable.length value hvalues, Decimal.itoa_natCast]
      simp only [Decimal.parseUint_formatUint, le_refl, if_true, List.take_length]

/-- An upstream response has the status, the body and the headers of a response. -/
structure Conveys (u : Upstream) (response : Response) : Prop where
  /-- The status code. -/
  status : u.statusCode = response.statusCode
  /-- The body. -/
  body : u.body = response.body
  /-- The headers. -/
  header : ∀ name : GoString, u.header[name]? = response.headers[name]?

/-- **The proxy reads what the server has built.** -/
theorem ReadAs.conveys {u : Upstream} (hread : ReadAs (response.bytes sent) u)
    (h : Sendable response) (hsent : sent.Perm response.headers.keys) : Conveys u response := by
  obtain ⟨head, rest, chunked, hparse, hhead, hbody⟩ := hread
  rw [parseHead_sent h hsent] at hparse
  obtain ⟨rfl, rfl⟩ := Prod.mk.inj (Option.some.inj hparse)
  obtain ⟨hheader, hchunked⟩ := hhead.header_eq (h.unfixed hsent)
  have hsame (name : GoString) : u.header[name]? = response.headers[name]? := by
    rw [hheader]
    exact headerOf_sent h hsent name
  have hstatus : u.statusCode = response.statusCode := by
    have hatoi := u.atoi_statusText
    rw [hhead.status, headOf, Decimal.atoi_itoa] at hatoi
    exact (Option.some.inj hatoi).symm
  have hread := hbody hchunked
  rw [hstatus, readBody_sent h (hsame contentLength)] at hread
  exact ⟨hstatus, (Option.some.inj hread).symm, hsame⟩

/-- A response that can be sent is read as an upstream response. -/
theorem Sendable.exists_readAs (h : Sendable response) (hsent : sent.Perm response.headers.keys) :
    ∃ u, ReadAs (response.bytes sent) u := by
  have hheader := headerOf_sent h hsent
  have hfield {key : GoString} {values : List GoString}
      (hvalues : (headerOf (messageOf response sent).fields)[key]? = some values) :
      ∃ value, values = [value] ∧ PlainField response.body key value := by
    rw [hheader] at hvalues
    obtain ⟨value, rfl⟩ := h.built.single key values hvalues
    exact ⟨value, rfl, h.field key value hvalues⟩
  refine ⟨{ statusText := Decimal.itoa response.statusCode
            statusCode := response.statusCode
            header := headerOf (messageOf response sent).fields
            body := response.body
            length_statusText := h.length_status
            atoi_statusText := Decimal.atoi_itoa _
            statusCode_nonneg := h.status_nonneg
            parsed := fun entry hentry => ?_
            length_body := fun _ values hvalues => ?_ },
    headOf response sent, response.body, false, parseHead_sent h hsent, ⟨rfl, ?_⟩,
    fun _ => readBody_sent h (hheader contentLength)⟩
  · obtain ⟨value, hvalue, hplain⟩ :=
      hfield (TreeMap.mem_toList_iff_getElem?_eq_some.mp (Prod.mk.eta (p := entry) ▸ hentry))
    rw [hvalue]
    refine ⟨⟨hplain.colon, hplain.name_cr, fun v hv => ?_⟩, hplain.name_ne_nil,
      List.cons_ne_nil _ _, fun v hv => ?_⟩
    · obtain rfl : v = value := List.mem_singleton.mp hv
      exact hplain.value_cr
    · obtain rfl : v = value := List.mem_singleton.mp hv
      exact trimBlanks_of_ends hplain.trimmed.1 hplain.trimmed.2
  · obtain ⟨value, rfl, hplain⟩ := hfield hvalues
    refine ⟨value, rfl, ?_⟩
    rw [hplain.length rfl, Decimal.itoa_natCast]
    exact Decimal.parseUint_formatUint _
  · refine readHeader_of_unfixed h.protocol (h.unfixed hsent) fun values hvalues => ?_
    obtain ⟨value, rfl, hplain⟩ := hfield hvalues
    refine ⟨value, rfl, ?_⟩
    rw [trimBlanks_of_ends hplain.trimmed.1 hplain.trimmed.2, hplain.length rfl,
      Decimal.itoa_natCast, Decimal.parseUint_formatUint]
    rfl

/-! ## Through the proxy -/

variable {u : Upstream} {request : Request} {order order' : List GoString}

/-- The headers that `Bytes` sets. -/
def defaultHeader (body name : GoString) : Option GoString :=
  if name = contentLength then some (Decimal.itoa body.length)
  else if name = contentType then some (.ofString "text/plain") else none

/-- The headers of the proxy's response: those that were sent, and the defaults of `Bytes`. -/
theorem proxied_headers (h : Sendable response) (hu : Conveys u response)
    (horder : order.Perm u.header.keys) (name value : GoString) :
    (proxied request u order).headers[name]? = some [value] ↔
      response.headers[name]? = some [value] ∨
        name ∉ response.headers ∧ defaultHeader response.body name = some value := by
  have hmem : name ∈ u.header ↔ name ∈ response.headers := by
    rw [TreeMap.mem_iff_isSome_getElem?, TreeMap.mem_iff_isSome_getElem?, hu.header]
  rw [relayed_headers horder, relayedText, hu.header, hu.body, defaultHeader]
  by_cases hname : name ∈ response.headers
  · obtain ⟨text, htext⟩ := (h.built.mem_iff name).mp hname
    rw [if_pos (Or.inl (hmem.mpr hname)), htext]
    simp [hname, GoString.join]
  · rw [TreeMap.getElem?_eq_none hname]
    have hname' : name ∉ u.header := mt hmem.mp hname
    by_cases hlength : name = contentLength
    · subst hlength
      simp [hname]
    · by_cases htype : name = contentType
      · subst htype
        simp [hname, hlength]
      · simp [hname, hname', hlength, htype]

/-- A header that `Bytes` sets can be sent. -/
theorem plainField_default {body key value : GoString} (h : defaultHeader body key = some value) :
    PlainField body key value := by
  rw [defaultHeader] at h
  split at h
  · next hkey =>
    subst hkey
    obtain rfl := Option.some.inj h
    have hdigit (x : Byte) (hx : x ∈ Decimal.formatUint body.length) : isBlank x = false :=
      isBlank_of_digit (Decimal.formatUint_digits _ x hx)
    exact ⟨by decide, by decide, by decide, by decide, (itoa_notMem _).2,
      ⟨fun x hx => hdigit x (List.mem_of_mem_head? hx),
        fun x hx => hdigit x (List.mem_of_mem_getLast? hx)⟩, fun _ => rfl, by decide⟩
  · split at h
    · next hkey =>
      subst hkey
      obtain rfl := Option.some.inj h
      exact ⟨by decide, by decide, by decide, by decide, by decide, by decide +kernel,
        fun heq => absurd heq (by decide), by decide⟩
    · cases h

/-- **What the proxy sends can be read back.** -/
theorem sendable_proxied (h : Sendable response) (hu : Conveys u response)
    (hproto : IsHTTPVersion request.proto) (horder : order.Perm u.header.keys) :
    Sendable (proxied request u order) := by
  obtain ⟨hprotocol, hstatus, hbody⟩ := proxied_fields hproto u order
  refine ⟨⟨fun key values hvalues => ?_, fun hnone => ?_⟩, hprotocol ▸ hproto, ?_, ?_, ?_,
    fun key value hvalue => ?_⟩
  · rw [relayed_headers horder] at hvalues
    split at hvalues
    · exact ⟨_, (Option.some.inj hvalues).symm⟩
    · cases hvalues
  · have hmem : contentLength ∈ (proxied request u order).headers :=
      (mem_relayed_headers horder contentLength).mpr (Or.inr (Or.inl rfl))
    exact absurd (hnone.symm.trans (TreeMap.contains_iff_mem.mpr hmem)) Bool.false_ne_true
  · rw [hstatus, hu.status]
    exact h.allowsBody
  · rw [hstatus, hu.status]
    exact h.status_nonneg
  · rw [hstatus, hu.status]
    exact h.length_status
  · rw [hbody, hu.body]
    rcases (proxied_headers h hu horder key value).mp hvalue with hsent | ⟨-, hdefault⟩
    · exact h.field key value hsent
    · exact plainField_default hdefault

/-- **The client reads through the proxy what was sent**, with the defaults of `Bytes` for what was
not. -/
theorem messageOf_proxied (h : Sendable response) (hsent : sent.Perm response.headers.keys)
    (hu : Conveys u response) (hproto : IsHTTPVersion request.proto)
    (horder : order.Perm u.header.keys)
    (horder' : order'.Perm (proxied request u order).headers.keys) :
    (messageOf (proxied request u order) order').statusCode = response.statusCode ∧
      (messageOf (proxied request u order) order').body = response.body ∧
      ∀ name value, (name, value) ∈ (messageOf (proxied request u order) order').fields ↔
        (name, value) ∈ (messageOf response sent).fields ∨
          name ∉ response.headers ∧ defaultHeader response.body name = some value := by
  obtain ⟨-, hstatus, hbody⟩ := proxied_fields hproto u order
  have hproxied := sendable_proxied h hu hproto horder
  refine ⟨hstatus.trans hu.status, hbody.trans hu.body, fun name value => ?_⟩
  have hthrough := mem_parsedFields hproxied.parseable hproxied.built horder' name value
  have hdirect := mem_parsedFields h.parseable h.built hsent name value
  rw [messageOf, messageOf, hthrough, hdirect]
  exact proxied_headers h hu horder name value

/-! ## The file server -/

/-- What the file server answers to a GET request. -/
inductive GetReply (job : Job) : Response → Prop
  /-- A page. -/
  | page (type bytes : GoString) (htype : contentTypeForPath job.request.path = some type) :
      GetReply job (pageResponse job type bytes)
  /-- An error. -/
  | error (status : StatusCode) (hstatus : status ∈ fileErrorStatuses) :
      GetReply job (errorResponse status)

variable {E : Env}

theorem getReply_of_replied {job : Job} {log : List (Entry Empty)} (h : Replied E job log response)
    (hget : job.request.method = .ofString "GET") : GetReply job response := by
  cases h with
  | page type diskPath bytes _ htype => exact .page type bytes htype
  | created l l' bytes hpost => exact absurd (hget.symm.trans hpost) (by decide)
  | error _ status hstatus hlog =>
      exact .error status (hstatus.resolve_right fun hmethod => hmethod.2 hget)

/-- The headers of a page. -/
theorem pageResponse_headers (job : Job) (type bytes key : GoString) :
    (pageResponse job type bytes).headers[key]? =
      if key = contentType then some [type]
      else (defaultHeader bytes key).map fun value => [value] := by
  simp only [pageResponse, ResponseBuilder.build, ResponseBuilder.header, ResponseBuilder.bytes,
    TreeMap.getElem?_insert, Std.LawfulEqCmp.compare_eq_iff_eq, defaultHeader]
  by_cases htype : key = contentType
  · rw [if_pos htype.symm, if_pos htype]
  · rw [if_neg (Ne.symm htype), if_neg htype, if_neg htype, if_neg (Ne.symm htype)]
    by_cases hlength : key = contentLength
    · rw [if_pos hlength.symm, if_pos hlength, Option.map_some]
    · rw [if_neg (Ne.symm hlength), if_neg hlength, Option.map_none]
      exact TreeMap.getElem?_emptyc

/-- A content type that the server knows can be sent. -/
theorem plainField_contentType {p type : GoString} (h : contentTypeForPath p = some type)
    (body : GoString) : PlainField body contentType type := by
  obtain ⟨before, after, heq, -⟩ := List.lookup_eq_some_iff.mp h
  have hmem : type ∈ allowedContentTypes.map Prod.snd := by
    rw [heq, List.map_append, List.map_cons]
    exact List.mem_append_right _ List.mem_cons_self
  have hall : ∀ type ∈ allowedContentTypes.map Prod.snd, 13 ∉ type ∧
      (∀ x ∈ type.head?, isBlank x = false) ∧ ∀ x ∈ type.getLast?, isBlank x = false := by
    decide +kernel
  obtain ⟨hcr, htrimmed⟩ := hall type hmem
  exact ⟨by decide, by decide, by decide, by decide, hcr, htrimmed,
    fun heq => absurd heq (by decide), by decide⟩

/-- A page can be sent. -/
theorem sendable_pageResponse {job : Job} (hproto : IsHTTPVersion job.request.proto)
    {type : GoString} (htype : contentTypeForPath job.request.path = some type) (bytes : GoString) :
    Sendable (pageResponse job type bytes) := by
  have hnew : (newResponseBuilder (some job.request)).response.Built :=
    built_newResponse (some job.request)
  refine ⟨ResponseBuilder.built_header (ResponseBuilder.built_bytes hnew bytes) contentType type,
    ?_, (show allowsBody StatusCode.ok = true by decide), (show 0 ≤ StatusCode.ok by decide),
    (show (Decimal.itoa StatusCode.ok).length = 3 by decide), fun key value hvalue => ?_⟩
  · have hprotocol : (pageResponse job type bytes).protocol = job.request.proto :=
      if_pos hproto.notMem.1
    rw [hprotocol]
    exact hproto
  · rw [pageResponse_headers] at hvalue
    split at hvalue
    · next hkey =>
      obtain rfl : type = value := List.singleton_inj.mp (Option.some.inj hvalue)
      rw [hkey]
      exact plainField_contentType htype _
    · obtain ⟨text, htext, heq⟩ := Option.map_eq_some_iff.mp hvalue
      obtain rfl : text = value := List.singleton_inj.mp heq
      exact plainField_default htext

/-- An error can be sent. -/
theorem sendable_errorResponse {status : StatusCode}
    (hstatus : status ∈ fileErrorStatuses) : Sendable (errorResponse status) := by
  have hheaders (key : GoString) : (errorResponse status).headers[key]? =
      if key = .ofString "Connection" then some [.ofString "close"] else none := by
    simp only [errorResponse, handleError, TreeMap.getElem?_insert,
      Std.LawfulEqCmp.compare_eq_iff_eq]
    by_cases hkey : key = .ofString "Connection"
    · rw [if_pos hkey.symm, if_pos hkey]
    · rw [if_neg (Ne.symm hkey), if_neg hkey]
      exact TreeMap.getElem?_emptyc
  have hversion : IsHTTPVersion (.ofString "HTTP/1.1") := ⟨49, 49, by decide, by decide, by decide⟩
  have hall : ∀ status ∈ fileErrorStatuses, allowsBody status = true ∧ 0 ≤ status ∧
      (Decimal.itoa status).length = 3 := by decide
  obtain ⟨hbody, hnonneg, hlength⟩ := hall status hstatus
  refine ⟨⟨fun key values hvalues => ?_, fun _ => rfl⟩, hversion, hbody, hnonneg, hlength,
    fun key value hvalue => ?_⟩
  · rw [hheaders] at hvalues
    split at hvalues
    · exact ⟨_, (Option.some.inj hvalues).symm⟩
    · cases hvalues
  · rw [hheaders] at hvalue
    split at hvalue
    · next hkey =>
      subst hkey
      obtain rfl := List.singleton_inj.mp (Option.some.inj hvalue)
      exact ⟨by decide, by decide, by decide, by decide, by decide, by decide +kernel,
        fun heq => absurd heq (by decide), by decide⟩
    · cases hvalue

/-- What the file server answers to a GET request can be sent. -/
theorem GetReply.sendable {job : Job} (hproto : IsHTTPVersion job.request.proto)
    (h : GetReply job response) : Sendable response := by
  cases h with
  | page type bytes htype => exact sendable_pageResponse hproto htype bytes
  | error status hstatus => exact sendable_errorResponse hstatus

/-- The fields that `Bytes` sets. -/
theorem eq_of_defaultHeader {body name value : GoString}
    (h : defaultHeader body name = some value) :
    (name, value) = (contentLength, Decimal.itoa body.length) ∨
      (name, value) = (contentType, .ofString "text/plain") := by
  rw [defaultHeader] at h
  split at h
  · next hname => exact Or.inl (Prod.ext hname (Option.some.inj h).symm)
  · split at h
    · next hname => exact Or.inr (Prod.ext hname (Option.some.inj h).symm)
    · cases h

/-- A page has both of them already. -/
theorem GetReply.statusCode_ne {job : Job} (h : GetReply job response) {name value : GoString}
    (hname : name ∉ response.headers) (hdefault : defaultHeader response.body name = some value) :
    response.statusCode ≠ .ok := by
  cases h with
  | page type bytes htype =>
      have hnone := TreeMap.getElem?_eq_none hname
      have hbody : (pageResponse job type bytes).body = bytes := rfl
      rw [pageResponse_headers, ← hbody, hdefault] at hnone
      split at hnone <;> cases hnone
  | error status hstatus =>
      have hall : ∀ status ∈ fileErrorStatuses, status ≠ StatusCode.ok := by decide
      exact hall status hstatus

/-- **The proxy is transparent for the file server.** In every run of the file server, with any
number of requests at once and any failures of file operations: when the proxy reads the bytes of an
answer to a GET request, for every order of all header maps, the client of the proxy reads the status
code, the body and the header fields of the answer. For a page these are all fields; for an error
there are the two that `Bytes` sets as well. -/
theorem proxy_transparent (hwd : ∀ c ∈ E.wd, IsName c) {w₀ : World} (hfresh : w₀.Fresh)
    {s : Pool Empty Empty Job Response} {i : ℕ} {t : Thread Empty Empty Job Response}
    (hs : (pool E (serve E) w₀).Reachable s) (ht : s.threads i = some t)
    (hrest : t.rest = .ret response) (hget : t.job.request.method = .ofString "GET")
    (hversion : IsHTTPVersion t.job.request.proto) (hsent : sent.Perm response.headers.keys) :
    ∃ direct, parseResponse (response.bytes sent) = some (direct, []) ∧
      (∃ u, ReadAs (response.bytes sent) u) ∧
      ∀ u, ReadAs (response.bytes sent) u →
        ∀ (request : Request) (exchange : GoString → Exchange) (order : List GoString),
          targetHost request ≠ [] → exchange (targetAddress request) = .answered u →
          IsHTTPVersion request.proto → order.Perm u.header.keys →
          ∃ rb, handleProxyRequest request exchange order (newResponseBuilder (some request)) =
              .ok rb ∧
            ∀ order' : List GoString, order'.Perm rb.build.headers.keys →
              ∃ through, parseResponse (rb.build.bytes order') = some (through, []) ∧
                through.statusCode = direct.statusCode ∧ through.body = direct.body ∧
                (∀ field ∈ direct.fields, field ∈ through.fields) ∧
                (∀ field ∈ through.fields, field ∈ direct.fields ∨ direct.statusCode ≠ .ok ∧
                  (field = (contentLength, Decimal.itoa direct.body.length) ∨
                    field = (contentType, .ofString "text/plain"))) := by
  have hreplied : Replied E t.job t.log response := (replies hwd).returned hfresh hs ht hrest
  have hreply := getReply_of_replied hreplied hget
  have hsendable := hreply.sendable hversion
  refine ⟨messageOf response sent, parseResponse_eq hsendable.parseable hsendable.built hsent,
    hsendable.exists_readAs hsent, ?_⟩
  intro u hread request exchange order hhost hexchange hproto horder
  have hu := hread.conveys hsendable hsent
  obtain ⟨rb, hrb, hbuild⟩ := handleProxyRequest_eq hhost hexchange order
  refine ⟨rb, hrb, fun order' horder' => ?_⟩
  rw [hbuild] at horder' ⊢
  obtain ⟨hstatus, hbody, hfields⟩ :=
    messageOf_proxied hsendable hsent hu hproto horder horder'
  have hproxied := sendable_proxied hsendable hu hproto horder
  refine ⟨_, parseResponse_eq hproxied.parseable hproxied.built horder', hstatus, hbody,
    fun field hfield => (hfields field.1 field.2).mpr (Or.inl hfield), fun field hfield => ?_⟩
  rcases (hfields field.1 field.2).mp hfield with hdirect | ⟨hnotMem, hdefault⟩
  · exact Or.inl hdirect
  · exact Or.inr ⟨hreply.statusCode_ne hnotMem hdefault, eq_of_defaultHeader hdefault⟩

/-- A GET request for `a.html`. -/
def exampleGetRun : List (Label Empty Job) :=
  [.start 0 (exampleJob (.ofString "GET") (.ofString "/a.html") ⟨[], none⟩),
    .step 0 .done, .step 0 .done, .step 0 .done, .step 0 .done]

/-- A client that fetches `a.html` through the proxy. -/
def pageThroughProxy : Request :=
  ⟨.ofString "GET", .ofString "HTTP/1.1", .ofString "/a.html", [], .ofString "localhost"⟩

/-- The page is read through the proxy as it is read directly. -/
theorem proxy_transparent_page :
    ∃ s t response direct u rb,
      (pool exampleServer (serve exampleServer) exampleWorld).Reachable s ∧
      s.threads 0 = some t ∧ t.rest = .ret response ∧ response.body = .ofString "old" ∧
      parseResponse (response.bytes response.headers.keys) = some (direct, []) ∧
      ReadAs (response.bytes response.headers.keys) u ∧
      handleProxyRequest pageThroughProxy (fun _ => .answered u) u.header.keys
        (newResponseBuilder (some pageThroughProxy)) = .ok rb ∧
      ∃ through, parseResponse (rb.build.bytes rb.build.headers.keys) = some (through, []) ∧
        through.statusCode = direct.statusCode ∧ through.body = direct.body ∧
        ∀ field ∈ direct.fields, field ∈ through.fields := by
  have hwd : ∀ c ∈ exampleServer.wd, IsName c := by decide
  have hfresh : exampleWorld.Fresh := ⟨rfl, exampleWorld_bound⟩
  have hrun : ((pool exampleServer (serve exampleServer) exampleWorld).exec
      { world := exampleWorld } exampleGetRun).map
        (fun s => ((s.threads 0).map fun t => (t.job.request.method, t.job.request.proto),
          (responseOf s 0).map Response.body)) =
      some (some (.ofString "GET", .ofString "HTTP/1.1"), some (.ofString "old")) := by
    decide +kernel
  obtain ⟨s, hs, hstate⟩ := Option.map_eq_some_iff.mp hrun
  obtain ⟨hjob, hresponse⟩ := Prod.mk.inj hstate
  obtain ⟨response, hreturned, hbody⟩ := Option.map_eq_some_iff.mp hresponse
  obtain ⟨t, ht, hrest⟩ := exists_of_responseOf hreturned
  rw [ht] at hjob
  obtain ⟨hmethod, hproto⟩ := Prod.mk.inj (Option.some.inj hjob)
  have hhttp : IsHTTPVersion (.ofString "HTTP/1.1") := ⟨49, 49, by decide, by decide, by decide⟩
  obtain ⟨direct, hdirect, ⟨u, hread⟩, hproxy⟩ := proxy_transparent hwd hfresh
    ⟨exampleGetRun, hs⟩ ht hrest hmethod (hproto ▸ hhttp) (List.Perm.refl _)
  obtain ⟨rb, hrb, hthrough⟩ := hproxy u hread pageThroughProxy (fun _ => .answered u)
    u.header.keys (by decide) rfl hhttp (List.Perm.refl _)
  obtain ⟨through, hparse, hstatus, hsame, hfields, -⟩ := hthrough _ (List.Perm.refl _)
  exact ⟨s, t, response, direct, u, rb, ⟨exampleGetRun, hs⟩, ht, hrest, hbody, hdirect, hread, hrb,
    through, hparse, hstatus, hsame, hfields⟩

end DistributedSystems.Proxy
