import DistributedSystems.Http.ResponseParser

/-! # The proxy

`handleProxyRequest` of `proxy/proxy.go`: the upstream response is copied into the response of the
proxy, with the values of each header joined. `Upstream` is what `net/http.ReadResponse` and
`io.ReadAll` return.

* `relayed_headers` — the header map that the proxy builds, for every order of the upstream map;
* `proxied_framed` — the message is framed by one `Content-Length`, for every order of both maps;
* `parseHead_proxied` — what the client reads. -/

namespace DistributedSystems.Proxy

open Http
open Std (TreeMap)

/-! ## Upstream responses -/

/-- Whether a response with the status code may have a body. -/
def allowsBody (statusCode : StatusCode) : Bool :=
  ¬ (100 ≤ statusCode ∧ statusCode < 200 ∨ statusCode = 204 ∨ statusCode = 304)

/-- A header line that `net/http` reads: the name has no colon and is not empty, there are no line
ends, and values are trimmed. -/
structure ParsedHeader (name : GoString) (values : List GoString) : Prop extends
    ReadableHeader name values where
  /-- The name is not empty. -/
  name_ne_nil : name ≠ []
  /-- There is a value. -/
  values_ne_nil : values ≠ []
  /-- The values are trimmed. -/
  trimmed : ∀ v ∈ values, trimBlanks v = v

instance (name : GoString) (values : List GoString) : Decidable (ParsedHeader name values) :=
  decidable_of_iff (58 ∉ name ∧ 13 ∉ name ∧ (∀ v ∈ values, 13 ∉ v) ∧ name ≠ [] ∧ values ≠ [] ∧
      ∀ v ∈ values, trimBlanks v = v)
    ⟨fun ⟨h₁, h₂, h₃, h₄, h₅, h₆⟩ => ⟨⟨h₁, h₂, h₃⟩, h₄, h₅, h₆⟩,
      fun h => ⟨h.colon, h.name_cr, h.values_cr, h.name_ne_nil, h.values_ne_nil, h.trimmed⟩⟩

/-- A response of the target, as `net/http.ReadResponse` and `io.ReadAll` return it. -/
structure Upstream where
  /-- The three characters of the status code. -/
  statusText : GoString
  /-- `StatusCode`. -/
  statusCode : StatusCode
  /-- `Header`. -/
  header : Headers
  /-- The bytes of `Body`. -/
  body : GoString
  /-- The status code has three characters. -/
  length_statusText : statusText.length = 3
  /-- They are read by `strconv.Atoi`. -/
  atoi_statusText : Decimal.atoi statusText = some statusCode
  /-- A negative status code is refused. -/
  statusCode_nonneg : 0 ≤ statusCode
  /-- The headers were read from lines. -/
  parsed : ∀ entry ∈ header.toList, ParsedHeader entry.1 entry.2
  /-- A `Content-Length` of a response with a body is a single value, the length of the body. -/
  length_body : allowsBody statusCode → ∀ values ∈ header[contentLength]?,
    ∃ value, values = [value] ∧ Decimal.parseUint value = some body.length

/-- How the exchange with the target ends. -/
inductive Exchange
  /-- `net.Dial` fails. -/
  | dialFails
  /-- The request cannot be written. -/
  | writeFails
  /-- The response cannot be parsed. -/
  | readFails
  /-- The body cannot be read to its end. -/
  | bodyFails
  /-- The target answers. -/
  | answered (upstream : Upstream)

/-! ## The handler -/

/-- `targetHost` of `handleProxyRequest`, before the port is added. -/
def targetHost (request : Request) : GoString :=
  if request.urlHost = [] then request.host else request.urlHost

/-- The address that `handleProxyRequest` dials. -/
def targetAddress (request : Request) : GoString :=
  -- 58 is `':'`
  if 58 ∈ targetHost request then targetHost request else targetHost request ++ .ofString ":80"

/-- The loop over the upstream headers, in the order `order`. -/
def copyHeaders (header : Headers) (order : List GoString) (rb : ResponseBuilder) :
    ResponseBuilder :=
  order.foldl (fun rb key => rb.header key (.join (header[key]?.getD []) (.ofString ", "))) rb

/-- `handleProxyRequest`, with the exchange that the network makes with an address. -/
def handleProxyRequest (request : Request) (exchange : GoString → Exchange) (order : List GoString)
    (rb : ResponseBuilder) : Except HTTPError ResponseBuilder :=
  if targetHost request = [] then .error ⟨.badRequest⟩
  else
    match exchange (targetAddress request) with
    | .dialFails => .error ⟨.internalServerError⟩
    | .writeFails => .error ⟨.internalServerError⟩
    | .readFails => .error ⟨.internalServerError⟩
    | .bodyFails => .error ⟨.internalServerError⟩
    | .answered response =>
        .ok (copyHeaders response.header order
          ((rb.status response.statusCode).bytes response.body))

/-! ## The headers of the proxy's response -/

/-- The text that the proxy's response has for a header: the values of the upstream joined, or the
default that `Bytes` sets. -/
def relayedText (u : Upstream) (key : GoString) : GoString :=
  match u.header[key]? with
  | some values => .join values (.ofString ", ")
  | none => if key = contentLength then Decimal.itoa u.body.length else .ofString "text/plain"

/-- The loop sets the headers it ranges over. -/
theorem copyHeaders_getElem? (header : Headers) (order : List GoString) (rb : ResponseBuilder)
    (key : GoString) :
    (copyHeaders header order rb).response.headers[key]? =
      if key ∈ order then some [.join (header[key]?.getD []) (.ofString ", ")]
      else rb.response.headers[key]? := by
  induction order generalizing rb with
  | nil => simp [copyHeaders]
  | cons first order ih =>
      rw [copyHeaders, List.foldl_cons, ← copyHeaders, ih]
      by_cases hmem : key ∈ order
      · rw [if_pos hmem, if_pos (List.mem_cons_of_mem first hmem)]
      · rw [if_neg hmem, ResponseBuilder.header, TreeMap.getElem?_insert]
        by_cases heq : first = key
        · subst heq
          rw [if_pos Std.ReflCmp.compare_self, if_pos List.mem_cons_self]
        · rw [if_neg (by simpa using heq), if_neg]
          rw [List.mem_cons, not_or]
          exact ⟨Ne.symm heq, hmem⟩

/-- The loop changes nothing but the headers. -/
theorem copyHeaders_response (header : Headers) (order : List GoString) (rb : ResponseBuilder) :
    (copyHeaders header order rb).response =
      { rb.response with headers := (copyHeaders header order rb).response.headers } := by
  induction order generalizing rb with
  | nil => rfl
  | cons first order ih =>
      rw [copyHeaders, List.foldl_cons, ← copyHeaders, ih]
      rfl

/-- The response that the proxy builds from an upstream response. -/
def proxied (request : Request) (u : Upstream) (order : List GoString) : Response :=
  (copyHeaders u.header order
    (((newResponseBuilder (some request)).status u.statusCode).bytes u.body)).build

variable {request : Request} {u : Upstream} {order order' : List GoString}

/-- The handler builds `proxied` when the target answers. -/
theorem handleProxyRequest_eq {exchange : GoString → Exchange} (hhost : targetHost request ≠ [])
    (hexchange : exchange (targetAddress request) = .answered u) (order : List GoString) :
    ∃ rb, handleProxyRequest request exchange order (newResponseBuilder (some request)) = .ok rb ∧
      rb.build = proxied request u order := by
  rw [handleProxyRequest, if_neg hhost, hexchange]
  exact ⟨_, rfl, rfl⟩

/-- The proxy answers with the protocol of the request and the status and body of the upstream. -/
theorem proxied_fields (hproto : IsHTTPVersion request.proto) (u : Upstream)
    (order : List GoString) :
    (proxied request u order).protocol = request.proto ∧
      (proxied request u order).statusCode = u.statusCode ∧
      (proxied request u order).body = u.body := by
  unfold proxied ResponseBuilder.build
  rw [copyHeaders_response]
  exact ⟨if_pos hproto.notMem.1, rfl, rfl⟩

/-- **The header map that the proxy builds**, whatever the order of the upstream map. -/
theorem relayed_headers (horder : order.Perm u.header.keys) (key : GoString) :
    (proxied request u order).headers[key]? =
      if key ∈ u.header ∨ key = contentLength ∨ key = contentType then some [relayedText u key]
      else none := by
  have hmem : key ∈ order ↔ key ∈ u.header := by rw [horder.mem_iff, TreeMap.mem_keys]
  rw [proxied, ResponseBuilder.build, copyHeaders_getElem?, relayedText]
  by_cases hkey : key ∈ u.header
  · rw [if_pos (hmem.mpr hkey), if_pos (Or.inl hkey), TreeMap.getElem?_eq_some_getElem hkey]
    rfl
  · rw [if_neg (mt hmem.mp hkey), TreeMap.getElem?_eq_none hkey]
    simp only [ResponseBuilder.bytes, TreeMap.getElem?_insert, Std.LawfulEqCmp.compare_eq_iff_eq,
      hkey, false_or]
    -- the defaults that `Bytes` sets
    by_cases hlength : key = contentLength
    · rw [if_pos hlength.symm, if_pos (Or.inl hlength), if_pos hlength]
    · rw [if_neg (Ne.symm hlength), if_neg hlength]
      by_cases htype : key = contentType
      · rw [if_pos htype.symm, if_pos (Or.inr htype)]
      · rw [if_neg (Ne.symm htype), if_neg (by simp [hlength, htype])]
        exact TreeMap.getElem?_emptyc

/-- The names in the header map that the proxy builds. -/
theorem mem_relayed_headers (horder : order.Perm u.header.keys) (key : GoString) :
    key ∈ (proxied request u order).headers ↔
      key ∈ u.header ∨ key = contentLength ∨ key = contentType := by
  rw [TreeMap.mem_iff_isSome_getElem?, relayed_headers horder]
  split
  · next h => exact iff_of_true rfl h
  · next h => exact iff_of_false (by simp) h

/-- The headers that the proxy writes, in some order. -/
theorem mem_order_iff (horder : order.Perm u.header.keys)
    (horder' : order'.Perm (proxied request u order).headers.keys) (key : GoString) :
    key ∈ order' ↔ key ∈ u.header ∨ key = contentLength ∨ key = contentType := by
  rw [horder'.mem_iff, TreeMap.mem_keys, mem_relayed_headers horder]

/-- The values that the proxy's response has for a header. -/
theorem valuesOf_proxied (horder : order.Perm u.header.keys) {key : GoString}
    (hkey : key ∈ (proxied request u order).headers) :
    (proxied request u order).valuesOf key = [relayedText u key] := by
  rw [Response.valuesOf, relayed_headers horder, if_pos ((mem_relayed_headers horder key).mp hkey)]
  rfl

/-- What the upstream sends for a header was read from lines. -/
theorem Upstream.parsed_of_getElem? (u : Upstream) {key : GoString} {values : List GoString}
    (h : u.header[key]? = some values) : ParsedHeader key values :=
  u.parsed (key, values) (TreeMap.mem_toList_iff_getElem?_eq_some.mpr h)

/-- The text of a header has no carriage return. -/
theorem cr_notMem_relayedText (u : Upstream) (key : GoString) : 13 ∉ relayedText u key := by
  unfold relayedText
  split
  · next values hvalues => exact cr_notMem_join (u.parsed_of_getElem? hvalues).values_cr
  · split
    · exact (itoa_notMem _).2
    · decide

/-- The proxy's response can be read back. -/
theorem readable_proxied (hproto : IsHTTPVersion request.proto) (horder : order.Perm u.header.keys) :
    (proxied request u order).Readable := by
  obtain ⟨hprotocol, -, -⟩ := proxied_fields hproto u order
  refine ⟨?_, ?_, fun key hkey => ?_⟩
  · rw [hprotocol]
    exact hproto.notMem.2.1
  · rw [hprotocol]
    exact hproto.notMem.2.2
  · rw [valuesOf_proxied horder hkey]
    have hname : 58 ∉ key ∧ 13 ∉ key := by
      rcases (mem_relayed_headers horder key).mp hkey with hup | rfl | rfl
      · have hparsed := u.parsed_of_getElem? (TreeMap.getElem?_eq_some_getElem hup)
        exact ⟨hparsed.colon, hparsed.name_cr⟩
      · decide
      · decide
    refine ⟨hname.1, hname.2, fun v hv => ?_⟩
    obtain rfl := List.mem_singleton.mp hv
    exact cr_notMem_relayedText u key

/-- The fields that the client reads, in the order in which they were written. -/
def relayedFields (u : Upstream) (order : List GoString) : List (GoString × GoString) :=
  order.map fun key => (key, trimBlanks (relayedText u key))

/-- **What the client reads** of the proxy's response. -/
theorem parseHead_proxied (hproto : IsHTTPVersion request.proto)
    (horder : order.Perm u.header.keys)
    (horder' : order'.Perm (proxied request u order).headers.keys) :
    parseHead ((proxied request u order).bytes order') =
      some (⟨request.proto, Decimal.itoa u.statusCode, u.statusCode.phrase,
        relayedFields u order'⟩, u.body) := by
  obtain ⟨hprotocol, hstatus, hbody⟩ := proxied_fields hproto u order
  have hhas : (proxied request u order).hasBody = true := by
    rw [Response.hasBody, TreeMap.contains_iff_mem, mem_relayed_headers horder]
    exact Or.inr (Or.inl rfl)
  have hfields : (order'.map fun key =>
      parsedField key ((proxied request u order).valuesOf key)) = relayedFields u order' := by
    refine List.map_congr_left fun key hkey => ?_
    rw [valuesOf_proxied horder (TreeMap.mem_keys.mp (horder'.mem_iff.mp hkey)), parsedField,
      GoString.join, List.intercalate_singleton]
  rw [parseHead_bytes (readable_proxied hproto horder) horder', hfields, hhas, hprotocol, hstatus,
    hbody, if_pos rfl]

/-! ## Framing -/

/-- The header names of an upstream response are canonical. -/
def Upstream.Canonical (u : Upstream) : Prop :=
  ∀ entry ∈ u.header.toList, canonicalKey true entry.1 = entry.1

/-- The names of the proxy's response are canonical if those of the upstream are. -/
theorem canonicalKey_proxied (hcanonical : u.Canonical) (horder : order.Perm u.header.keys)
    {key : GoString} (hkey : key ∈ (proxied request u order).headers) :
    canonicalKey true key = key := by
  rcases (mem_relayed_headers horder key).mp hkey with hup | rfl | rfl
  · exact hcanonical (key, u.header[key])
      (TreeMap.mem_toList_iff_getElem?_eq_some.mpr (TreeMap.getElem?_eq_some_getElem hup))
  · decide
  · decide

/-- The client reads the length of the body. -/
theorem parseUint_relayedText (hbody : allowsBody u.statusCode = true) :
    Decimal.parseUint (trimBlanks (relayedText u contentLength)) = some u.body.length := by
  unfold relayedText
  split
  · next values hvalues =>
    obtain ⟨value, rfl, hvalue⟩ := u.length_body hbody values hvalues
    have htrimmed := (u.parsed_of_getElem? hvalues).trimmed value List.mem_cons_self
    rw [GoString.join, List.intercalate_singleton, htrimmed, hvalue]
  · rw [if_pos rfl, Decimal.itoa_natCast, trimBlanks_of_forall fun x hx =>
      isBlank_of_digit (Decimal.formatUint_digits _ x hx), Decimal.parseUint_formatUint]

/-- **Proxied messages are framed correctly.** For every order of both header maps, the client finds
exactly one `Content-Length`, whose value is the length of the upstream body, and the upstream body
after the first empty line. -/
theorem proxied_framed {exchange : GoString → Exchange} (hhost : targetHost request ≠ [])
    (hexchange : exchange (targetAddress request) = .answered u)
    (hproto : IsHTTPVersion request.proto) (hbody : allowsBody u.statusCode = true)
    (hcanonical : u.Canonical) (horder : order.Perm u.header.keys) :
    ∃ rb, handleProxyRequest request exchange order (newResponseBuilder (some request)) = .ok rb ∧
      ∀ order' : List GoString, order'.Perm rb.build.headers.keys →
        ∃ head value, parseHead (rb.build.bytes order') = some (head, u.body) ∧
          (head.fields.filter fun field => sameName field.1 contentLength) =
            [(contentLength, value)] ∧
          Decimal.parseUint value = some u.body.length := by
  obtain ⟨rb, hrb, hbuild⟩ := handleProxyRequest_eq hhost hexchange order
  refine ⟨rb, hrb, fun order' horder' => ?_⟩
  rw [hbuild] at horder' ⊢
  refine ⟨_, _, parseHead_proxied hproto horder horder', ?_, parseUint_relayedText hbody⟩
  -- only one name of the map is the same as `Content-Length`, regardless of case
  have hname : ∀ key ∈ order', sameName key contentLength = decide (key = contentLength) := by
    intro key hkey
    have hkey' := TreeMap.mem_keys.mp (horder'.mem_iff.mp hkey)
    refine Bool.eq_iff_iff.mpr ⟨fun h => decide_eq_true ?_, fun h => ?_⟩
    · exact eq_of_sameName (canonicalKey_proxied hcanonical horder hkey') (by decide) h
    · rw [of_decide_eq_true h]
      decide
  have hcount : order'.count contentLength = 1 := by
    refine List.count_eq_one_of_mem (horder'.nodup_iff.mpr TreeMap.nodup_keys) ?_
    exact (mem_order_iff horder horder' _).mpr (Or.inr (Or.inl rfl))
  have hfilter : (order'.filter fun key => sameName key contentLength) = [contentLength] := by
    rw [List.filter_congr hname, List.filter_eq, hcount, List.replicate_one]
  rw [relayedFields, List.filter_map]
  exact congrArg (List.map _) hfilter

/-- A page with its length, as an upstream response. -/
def pageUpstream : Upstream where
  statusText := .ofString "200"
  statusCode := 200
  header := (∅ : Headers)
    |>.insert contentType [.ofString "text/html"]
    |>.insert contentLength [.ofString "02"]
    |>.insert (.ofString "Vary") [.ofString "Accept", .ofString "Cookie"]
  body := .ofString "hi"
  length_statusText := by decide
  atoi_statusText := by decide
  statusCode_nonneg := by decide
  parsed := by decide +kernel
  length_body := by
    intro _ values hvalues
    refine ⟨.ofString "02", ?_, by decide⟩
    exact (Option.some.inj (Option.mem_def.mp hvalues)).symm

/-- The framing of a page whose length has a leading zero. -/
theorem proxied_framed_page :
    ∃ rb, handleProxyRequest ⟨.ofString "GET", .ofString "HTTP/1.0", .ofString "/", [],
        .ofString "example.org"⟩ (fun _ => .answered pageUpstream) pageUpstream.header.keys
        (newResponseBuilder (some ⟨.ofString "GET", .ofString "HTTP/1.0", .ofString "/", [],
          .ofString "example.org"⟩)) = .ok rb ∧
      ∀ order' : List GoString, order'.Perm rb.build.headers.keys →
        ∃ head value, parseHead (rb.build.bytes order') = some (head, pageUpstream.body) ∧
          (head.fields.filter fun field => sameName field.1 contentLength) =
            [(contentLength, value)] ∧
          Decimal.parseUint value = some pageUpstream.body.length :=
  proxied_framed (by decide) rfl ⟨49, 48, by decide, by decide, by decide⟩ (by decide)
    (by unfold Upstream.Canonical; decide +kernel) (List.Perm.refl _)

end DistributedSystems.Proxy
