import DistributedSystems.Proxy.ReadResponse

/-! # When the proxy relays faithfully

`Faithful` says that the client reads the status code and the header fields that the upstream sent:
values may be combined into one field by commas, except those of `Set-Cookie`, and only
`Content-Length` may be added.

* `faithful_iff` — the proxy is faithful exactly for the heads with a status code of at least 100,
  with a `Content-Type`, with at most one `Set-Cookie`, and which `ReadResponse` does not change;
* `not_faithful_two_cookies` — two cookies arrive as one. -/

namespace DistributedSystems.Proxy

open Http
open Std (TreeMap)

/-! ## Combined fields -/

/-- One field that combines values: they are separated by commas, with optional blanks. -/
inductive Joined : List GoString → GoString → Prop
  /-- A single value. -/
  | single (v : GoString) : Joined [v] v
  /-- A value before others. -/
  | cons {values : List GoString} {field : GoString} (v before after : GoString)
      (hbefore : ∀ x ∈ before, isBlank x = true) (hafter : ∀ x ∈ after, isBlank x = true)
      (hfield : Joined values field) : Joined (v :: values) (v ++ before ++ 44 :: after ++ field)

/-- Fields that combine values in their order, each field some of them. -/
inductive Combined : List GoString → List GoString → Prop
  /-- No value. -/
  | nil : Combined [] []
  /-- One field and the fields after it. -/
  | cons {group values : List GoString} {field : GoString} {fields : List GoString}
      (hfield : Joined group field) (hfields : Combined values fields) :
      Combined (group ++ values) (field :: fields)

/-- Trimming the end of a string that does not end in blanks only. -/
theorem trimRight_append {b : GoString} (h : trimRight b ≠ []) (a : GoString) :
    trimRight (a ++ b) = a ++ trimRight b := by
  have hne : (b.reverse.dropWhile isBlank).isEmpty = false := by
    simpa [trimRight, List.rdropWhile] using h
  rw [trimRight, trimRight, List.rdropWhile, List.reverse_append, List.dropWhile_append, hne,
    if_neg Bool.false_ne_true, List.reverse_append, List.reverse_reverse, List.rdropWhile]

/-- Trimming the blanks after a byte that is none. -/
theorem trimRight_append_blank {b : GoString} (hb : trimRight b = []) {x : Byte}
    (hx : isBlank x = false) (a : GoString) : trimRight (a ++ x :: b) = a ++ [x] := by
  have hnil : (b.reverse.dropWhile isBlank).isEmpty = true := by
    simpa [trimRight, List.rdropWhile] using hb
  have hb' : trimRight (x :: b) = [x] := by
    rw [trimRight, List.rdropWhile, List.reverse_cons, List.dropWhile_append, hnil, if_pos rfl,
      List.dropWhile_cons, hx, if_neg Bool.false_ne_true]
    rfl
  rw [trimRight_append (by simp [hb']), hb']

/-- The blanks at both ends of a trimmed string. -/
theorem trimmed_iff {v : GoString} (h : trimBlanks v = v) :
    v.dropWhile isBlank = v ∧ trimRight v = v := by
  have hdrop : v.dropWhile isBlank = v := by
    refine (List.dropWhile_suffix isBlank).eq_of_length_le ?_
    have hle := List.IsPrefix.length_le <| List.rdropWhile_prefix isBlank (v.dropWhile isBlank)
    rw [← trimRight, ← trimBlanks, h] at hle
    exact hle
  rw [trimBlanks, hdrop] at h
  exact ⟨hdrop, h⟩

/-- Joining a value and others. -/
theorem join_cons {values : List GoString} (hne : values ≠ []) (v : GoString) :
    GoString.join (v :: values) (.ofString ", ") =
      v ++ 44 :: 32 :: GoString.join values (.ofString ", ") := by
  rw [GoString.join, List.intercalate_cons_of_ne_nil hne, List.append_assoc]
  rfl

/-- The joined values of a header, trimmed at the end, combine the values. -/
theorem joined_trimRight {values : List GoString} (hne : values ≠ [])
    (h : ∀ v ∈ values, trimBlanks v = v) :
    Joined values (trimRight (.join values (.ofString ", "))) := by
  induction values with
  | nil => exact absurd rfl hne
  | cons v values ih =>
      by_cases hnil : values = []
      · subst hnil
        rw [GoString.join, List.intercalate_singleton, (trimmed_iff (h v List.mem_cons_self)).2]
        exact .single v
      · have hrest := ih hnil fun v' hv' => h v' (List.mem_cons_of_mem v hv')
        rw [join_cons hnil]
        by_cases hblank : trimRight (GoString.join values (.ofString ", ")) = []
        · -- the other values are empty: the blank after the comma is trimmed
          have hspace : trimRight (32 :: GoString.join values (.ofString ", ")) = [] := by
            rw [trimRight, List.rdropWhile_eq_nil_iff] at hblank ⊢
            intro x hx
            rcases List.mem_cons.mp hx with rfl | hx
            · rfl
            · exact hblank x hx
          rw [trimRight_append_blank hspace (by decide)]
          rw [hblank] at hrest
          have hjoined := Joined.cons v [] [] (by simp) (by simp) hrest
          rw [List.append_nil, List.append_nil] at hjoined
          exact hjoined
        · have hjoined := Joined.cons v [] [32] (by simp) (by simp [isBlank]) hrest
          rw [List.append_nil, List.append_assoc] at hjoined
          have hsplit : v ++ 44 :: 32 :: GoString.join values (.ofString ", ") =
              (v ++ [44, 32]) ++ GoString.join values (.ofString ", ") := by simp
          rw [hsplit, trimRight_append hblank, List.append_assoc]
          exact hjoined

/-- **The joined values of a header, trimmed, combine the values.** -/
theorem joined_trimBlanks {values : List GoString} (hne : values ≠ [])
    (h : ∀ v ∈ values, trimBlanks v = v) :
    Joined values (trimBlanks (.join values (.ofString ", "))) := by
  -- there is no blank at the start
  have hstart : (GoString.join values (.ofString ", ")).dropWhile isBlank =
      GoString.join values (.ofString ", ") := by
    cases values with
    | nil => rfl
    | cons v values =>
        have hv := (trimmed_iff (h v List.mem_cons_self)).1
        by_cases hnil : values = []
        · subst hnil
          rw [GoString.join, List.intercalate_singleton, hv]
        · rw [join_cons hnil]
          cases v with
          | nil => rfl
          | cons x v =>
              have hx : isBlank x = false := by
                by_contra hx
                rw [List.dropWhile_cons, if_pos (by simpa using hx)] at hv
                have hle := (List.dropWhile_suffix (l := v) isBlank).length_le
                rw [hv, List.length_cons] at hle
                omega
              rw [List.cons_append, List.dropWhile_cons, hx, if_neg Bool.false_ne_true]
  rw [trimBlanks, hstart]
  exact joined_trimRight hne h

/-! ## Status codes -/

/-- A number below one hundred has at most two digits. -/
theorem length_formatUint_lt {n : ℕ} (h : n < 100) : (Decimal.formatUint n).length < 3 := by
  have hall : ∀ n < 100, (Decimal.formatUint n).length < 3 := by decide +kernel
  exact hall n h

/-- **The proxy writes the status code that the upstream sent** exactly when it is at least 100. -/
theorem itoa_statusCode_iff (u : Upstream) :
    Decimal.itoa u.statusCode = u.statusText ↔ 100 ≤ u.statusCode := by
  have hlength := u.length_statusText
  have hatoi := u.atoi_statusText
  obtain ⟨n, hn⟩ := Int.eq_ofNat_of_zero_le u.statusCode_nonneg
  rw [hn] at hatoi ⊢
  rw [Decimal.itoa_natCast, show (100 ≤ (n : StatusCode)) ↔ 100 ≤ n from Int.ofNat_le (m := 100)]
  constructor
  · intro h
    by_contra hlt
    have hshort := length_formatUint_lt (not_le.mp hlt)
    rw [h, hlength] at hshort
    exact hshort.false
  · intro hle
    obtain ⟨x, s, htext⟩ := List.exists_cons_of_length_pos (by rw [hlength]; decide)
    rw [htext] at hatoi hlength ⊢
    have hs : s.length = 2 := Nat.succ.inj hlength
    unfold Decimal.atoi at hatoi
    -- with a sign there are two digits, and with a leading zero two digits count
    split at hatoi
    · next s' heq =>
      obtain ⟨rfl, rfl⟩ := List.cons.inj heq
      obtain ⟨m, hm, hcast⟩ := Option.map_eq_some_iff.mp hatoi
      have hlt := Decimal.lt_of_parseUint hm
      rw [hs] at hlt
      obtain rfl : m = n := Int.ofNat.inj hcast
      omega
    · next s' heq =>
      obtain ⟨m, hm, hcast⟩ := Option.map_eq_some_iff.mp hatoi
      have hneg : -(m : ℤ) = (n : ℤ) := hcast
      omega
    · obtain ⟨m, hm, hcast⟩ := Option.map_eq_some_iff.mp hatoi
      obtain rfl : m = n := Int.ofNat.inj hcast
      refine Decimal.formatUint_of_parseUint hm ?_
      rintro rfl
      have hlt := Decimal.lt_of_parseUint_zero hm
      rw [hs] at hlt
      omega

/-! ## Faithful relaying -/

/-- The name of the header `Set-Cookie`. -/
def setCookie : GoString := .ofString "Set-Cookie"

/-- The client reads the status code and the header fields that the upstream sent. -/
structure Faithful (sent head : Head) : Prop where
  /-- The status code is the same. -/
  status : head.status = sent.status
  /-- The cookies are the same, each in a field of its own. -/
  cookies : ∀ values, (headerOf sent.fields)[setCookie]? = some values →
    head.valuesOf setCookie = values
  /-- The values of the other headers are the same, possibly combined. -/
  combined : ∀ name values, name ≠ setCookie → (headerOf sent.fields)[name]? = some values →
    Combined values (head.valuesOf name)
  /-- No field but `Content-Length` was added. -/
  added : ∀ field ∈ head.fields, field.1 ∈ headerOf sent.fields ∨ field.1 = contentLength

/-- The heads that the proxy relays faithfully. -/
structure Relayable (sent : Head) : Prop where
  /-- The status code has three digits without a leading zero. -/
  status : ∃ statusCode, Decimal.atoi sent.status = some statusCode ∧ 100 ≤ statusCode
  /-- There is a `Content-Type`. -/
  contentType : contentType ∈ headerOf sent.fields
  /-- There is at most one cookie. -/
  cookies : ∀ values, (headerOf sent.fields)[setCookie]? = some values → values.length ≤ 1
  /-- `ReadResponse` does not change the header. -/
  unfixed : Unfixed (headerOf sent.fields)

variable {request : Request} {sent : Head} {u : Upstream} {chunked : Bool}
  {order order' : List GoString}

/-- The client reads one field for a header of the proxy's response. -/
theorem valuesOf_relayedFields {protocol status reason : GoString} (hnodup : order'.Nodup)
    {name : GoString} (hname : name ∈ order') :
    Head.valuesOf ⟨protocol, status, reason, relayedFields u order'⟩ name =
      [trimBlanks (relayedText u name)] :=
  Head.valuesOf_map hnodup (fun key => trimBlanks (relayedText u key)) hname

/-- The text of a header that the upstream sent combines its values. -/
theorem joined_relayedText {name : GoString} {values : List GoString}
    (h : u.header[name]? = some values) :
    Joined values (trimBlanks (relayedText u name)) := by
  have hparsed := u.parsed_of_getElem? h
  rw [relayedText, h]
  exact joined_trimBlanks hparsed.values_ne_nil hparsed.trimmed

/-- A single value is combined only by itself. -/
theorem Joined.eq_of_length {values : List GoString} {field : GoString} (h : Joined values field)
    (hlength : values.length ≤ 1) : [field] = values := by
  cases h with
  | single v => rfl
  | cons v before after hbefore hafter hfield =>
      cases hfield with
      | single => simp at hlength
      | cons => simp at hlength

/-- A combined field is as long as each of its values, and longer if there are several. -/
theorem Joined.length_lt {first second field : GoString} {others : List GoString}
    (h : Joined (first :: second :: others) field) : first.length < field.length := by
  cases h with
  | cons v before after hbefore hafter hfield =>
      simp only [List.length_append, List.length_cons]
      omega

/-- No values are combined into no field. -/
theorem Combined.eq_nil {values : List GoString} (h : Combined values []) : values = [] := by
  cases h
  rfl

/-- One field combines all values. -/
theorem Combined.joined {values : List GoString} {field : GoString} (h : Combined values [field]) :
    Joined values field := by
  cases h with
  | cons hfield hfields => rwa [hfields.eq_nil, List.append_nil]

theorem length_trimBlanks_le (s : GoString) : (trimBlanks s).length ≤ s.length :=
  le_trans (List.rdropWhile_prefix isBlank _).length_le (List.dropWhile_suffix isBlank).length_le

/-- What the client reads under a name that the proxy has read from the upstream. -/
theorem valuesOf_of_getElem? {protocol status reason : GoString}
    (horder' : order'.Perm (proxied request u order).headers.keys)
    (horder : order.Perm u.header.keys) {name : GoString} {values : List GoString}
    (h : u.header[name]? = some values) :
    Head.valuesOf ⟨protocol, status, reason, relayedFields u order'⟩ name =
      [trimBlanks (relayedText u name)] := by
  refine valuesOf_relayedFields (horder'.nodup_iff.mpr TreeMap.nodup_keys) ?_
  refine (mem_order_iff horder horder' name).mpr (Or.inl ?_)
  exact TreeMap.mem_iff_isSome_getElem?.mpr (by rw [h]; rfl)

/-- **A faithfully relayed head was not changed on the way in.** -/
theorem Faithful.unfixed {protocol status reason : GoString} (hread : ReadHead sent u chunked)
    (horder : order.Perm u.header.keys)
    (horder' : order'.Perm (proxied request u order).headers.keys)
    (h : Faithful sent ⟨protocol, status, reason, relayedFields u order'⟩) :
    Unfixed (headerOf sent.fields) := by
  have hmem := mem_order_iff horder horder'
  -- a field that is removed has values, and the client reads none
  have hencoding : transferEncoding ∉ headerOf sent.fields := by
    intro hsent
    have hcombined := h.combined transferEncoding _ (by decide)
      (TreeMap.getElem?_eq_some_getElem hsent)
    have hgone : transferEncoding ∉ order' := by
      rw [hmem]
      rintro (hmem | hlength | htype)
      · exact hread.transferEncoding_notMem hmem
      · exact absurd hlength (by decide)
      · exact absurd htype (by decide)
    rw [relayedFields, Head.valuesOf_map_of_notMem _ hgone] at hcombined
    exact headerOf_ne_nil (TreeMap.getElem?_eq_some_getElem hsent) hcombined.eq_nil
  refine ⟨fun hasks => ?_, hencoding, fun values hvalues => ?_⟩
  · -- the client reads the field that was added
    have hfield : (cacheControl, trimBlanks (relayedText u cacheControl)) ∈
        relayedFields u order' :=
      List.mem_map.mpr ⟨cacheControl, (hmem _).mpr (Or.inl (hread.cacheControl_mem hasks)), rfl⟩
    rcases h.added _ hfield with hsent | hlength
    · exact hasks.2 hsent
    · exact absurd hlength (show cacheControl ≠ contentLength by decide)
  · rcases values with _ | ⟨first, _ | ⟨second, others⟩⟩
    · exact Nat.zero_le 1
    · exact le_rfl
    · -- one of several lengths is shorter than a field that combines them
      have hfirst := hread.contentLength_repeated hencoding hvalues
      have htext : relayedText u contentLength = trimBlanks first := by
        rw [relayedText, hfirst]
        exact List.intercalate_singleton
      have hcombined := h.combined contentLength _ (by decide) hvalues
      rw [valuesOf_of_getElem? horder' horder hfirst, htext] at hcombined
      have hlt := hcombined.joined.length_lt
      have hle := (length_trimBlanks_le (trimBlanks first)).trans (length_trimBlanks_le first)
      omega

/-- The text of the status code that was sent is that of the number that was read. -/
theorem ReadHead.atoi_status (hread : ReadHead sent u chunked) :
    Decimal.atoi sent.status = some u.statusCode :=
  hread.status ▸ u.atoi_statusText

/-- A head that is relayed faithfully is relayable. -/
theorem Faithful.relayable {protocol reason : GoString} (hread : ReadHead sent u chunked)
    (horder : order.Perm u.header.keys)
    (horder' : order'.Perm (proxied request u order).headers.keys)
    (h : Faithful sent ⟨protocol, Decimal.itoa u.statusCode, reason, relayedFields u order'⟩) :
    Relayable sent := by
  refine ⟨⟨u.statusCode, hread.atoi_status, ?_⟩, ?_, fun values hvalues => ?_,
    h.unfixed hread horder horder'⟩
  · exact (itoa_statusCode_iff u).mp (h.status.trans hread.status.symm)
  · have hfield : (contentType, trimBlanks (relayedText u contentType)) ∈ relayedFields u order' :=
      List.mem_map.mpr
        ⟨contentType, (mem_order_iff horder horder' _).mpr (Or.inr (Or.inr rfl)), rfl⟩
    exact (h.added _ hfield).resolve_right (show contentType ≠ contentLength by decide)
  · have hvalues' := hvalues
    rw [← hread.getElem?_header (by decide)] at hvalues'
    rw [← h.cookies values hvalues, valuesOf_of_getElem? horder' horder hvalues']
    exact le_rfl

/-- A relayable head is relayed faithfully. -/
theorem Relayable.faithful (protocol reason : GoString) (hread : ReadHead sent u chunked)
    (horder : order.Perm u.header.keys)
    (horder' : order'.Perm (proxied request u order).headers.keys) (h : Relayable sent) :
    Faithful sent ⟨protocol, Decimal.itoa u.statusCode, reason, relayedFields u order'⟩ := by
  -- what was sent is what the proxy has read
  have hheader := (hread.header_eq h.unfixed).1
  obtain ⟨statusCode, hstatus, hle⟩ := h.status
  obtain rfl : statusCode = u.statusCode := Option.some.inj (hstatus.symm.trans hread.atoi_status)
  refine ⟨?_, fun values hvalues => ?_, fun name values _ hvalues => ?_, fun field hfield => ?_⟩
  · exact ((itoa_statusCode_iff u).mpr hle).trans hread.status
  · have hcookies := h.cookies values hvalues
    rw [← hheader] at hvalues
    rw [valuesOf_of_getElem? horder' horder hvalues]
    exact (joined_relayedText hvalues).eq_of_length hcookies
  · rw [← hheader] at hvalues
    rw [valuesOf_of_getElem? horder' horder hvalues, ← List.append_nil values]
    exact .cons (joined_relayedText hvalues) .nil
  · obtain ⟨key, hkey, rfl⟩ := List.mem_map.mp hfield
    rw [← hheader]
    rcases (mem_order_iff horder horder' key).mp hkey with hup | rfl | rfl
    · exact Or.inl hup
    · exact Or.inr rfl
    · exact Or.inl (hheader ▸ h.contentType)

/-- **When the proxy relays faithfully.** For every order of both header maps, the client reads the
status code and the headers that the upstream sent exactly when the head is relayable. -/
theorem faithful_iff {exchange : GoString → Exchange} (hread : ReadHead sent u chunked)
    (hhost : targetHost request ≠ []) (hexchange : exchange (targetAddress request) = .answered u)
    (hproto : IsHTTPVersion request.proto) (horder : order.Perm u.header.keys) :
    ∃ rb, handleProxyRequest request exchange order (newResponseBuilder (some request)) = .ok rb ∧
      ∀ order' : List GoString, order'.Perm rb.build.headers.keys →
        ((∃ head rest, parseHead (rb.build.bytes order') = some (head, rest) ∧
          Faithful sent head) ↔ Relayable sent) := by
  obtain ⟨rb, hrb, hbuild⟩ := handleProxyRequest_eq hhost hexchange order
  refine ⟨rb, hrb, fun order' horder' => ?_⟩
  rw [hbuild] at horder' ⊢
  have hparse := parseHead_proxied hproto horder horder'
  constructor
  · rintro ⟨head, rest, hhead, hfaithful⟩
    rw [hparse] at hhead
    obtain ⟨rfl, rfl⟩ := Prod.mk.inj (Option.some.inj hhead)
    exact hfaithful.relayable hread horder horder'
  · intro h
    exact ⟨_, _, hparse, h.faithful _ _ hread horder horder'⟩

/-- A request for a page. -/
def pageRequest : Request :=
  ⟨.ofString "GET", .ofString "HTTP/1.1", .ofString "/", [], .ofString "example.org"⟩

theorem isHTTPVersion_pageRequest : IsHTTPVersion pageRequest.proto :=
  ⟨49, 49, by decide, by decide, by decide⟩

/-- The head of a page, as an upstream may send it. -/
def pageHead : Head :=
  ⟨.ofString "HTTP/1.1", .ofString "200", .ofString "OK",
    [(.ofString "content-type", .ofString "text/html"), (contentLength, .ofString "02"),
      (.ofString "Vary", .ofString "Accept"), (.ofString "vary", .ofString "Cookie")]⟩

/-- What the proxy reads of the page. -/
def readPage : Upstream :=
  { pageUpstream with
    header := headerOf pageHead.fields
    parsed := by decide +kernel
    length_body := by
      intro _ values hvalues
      have hvalue : (headerOf pageHead.fields)[contentLength]? = some [.ofString "02"] := by
        decide +kernel
      exact ⟨_, Option.some.inj (hvalues.symm.trans hvalue), by decide⟩ }

/-- The page is relayable, and so it is relayed faithfully. -/
theorem faithful_iff_page :
    ReadHead pageHead readPage false ∧ Relayable pageHead ∧
    ∃ rb, handleProxyRequest pageRequest (fun _ => .answered readPage)
        readPage.header.keys (newResponseBuilder (some pageRequest)) = .ok rb ∧
      ∀ order' : List GoString, order'.Perm rb.build.headers.keys →
        ∃ head rest, parseHead (rb.build.bytes order') = some (head, rest) ∧
          Faithful pageHead head := by
  have hvalue : (headerOf pageHead.fields)[contentLength]? = some [.ofString "02"] := by
    decide +kernel
  have hunfixed : Unfixed (headerOf pageHead.fields) := by
    refine ⟨by decide +kernel, mt TreeMap.mem_keys.mpr (by decide +kernel), fun values hvalues => ?_⟩
    rw [← Option.some.inj (hvalue.symm.trans hvalues)]
    exact le_rfl
  have hrelayable : Relayable pageHead := by
    refine ⟨⟨200, by decide, by decide⟩, TreeMap.mem_keys.mp (by decide +kernel),
      fun values hvalues => ?_, hunfixed⟩
    have hnone : (headerOf pageHead.fields)[setCookie]? = none := by decide +kernel
    exact absurd (hnone.symm.trans hvalues) (by simp)
  have hread : ReadHead pageHead readPage false := by
    refine ⟨rfl, readHeader_of_unfixed isHTTPVersion_pageRequest hunfixed fun values hvalues => ?_⟩
    exact ⟨_, Option.some.inj (hvalues.symm.trans hvalue), by decide⟩
  let exchange : GoString → Exchange := fun _ => .answered readPage
  have hexchange : exchange (targetAddress pageRequest) = .answered readPage := rfl
  obtain ⟨rb, hrb, hiff⟩ := faithful_iff hread (by decide) hexchange isHTTPVersion_pageRequest
    (List.Perm.refl _)
  exact ⟨hread, hrelayable, rb, hrb, fun order' horder' => (hiff order' horder').mpr hrelayable⟩

/-- The head of a page that sets two cookies. -/
def cookiesHead : Head :=
  ⟨.ofString "HTTP/1.1", .ofString "200", .ofString "OK",
    [(contentType, .ofString "text/html"), (setCookie, .ofString "a=1"),
      (setCookie, .ofString "b=2")]⟩

/-- What the proxy reads of it. -/
def cookiesUpstream : Upstream :=
  { pageUpstream with
    header := headerOf cookiesHead.fields
    parsed := by decide +kernel
    length_body := by
      intro _ values hvalues
      exact absurd hvalues (Option.eq_none_iff_forall_not_mem.mp (by decide +kernel) values) }

/-- **Two cookies arrive as one.** -/
theorem not_faithful_two_cookies :
    ReadHead cookiesHead cookiesUpstream false ∧
    ∃ rb, handleProxyRequest pageRequest (fun _ => .answered cookiesUpstream)
        cookiesUpstream.header.keys (newResponseBuilder (some pageRequest)) = .ok rb ∧
      ∀ order' : List GoString, order'.Perm rb.build.headers.keys →
        ¬ ∃ head rest, parseHead (rb.build.bytes order') = some (head, rest) ∧
          Faithful cookiesHead head := by
  have hnone : (headerOf cookiesHead.fields)[contentLength]? = none := by decide +kernel
  have hunfixed : Unfixed (headerOf cookiesHead.fields) := by
    refine ⟨by decide +kernel, mt TreeMap.mem_keys.mpr (by decide +kernel), fun values hvalues => ?_⟩
    exact absurd (hnone.symm.trans hvalues) (by simp)
  have hread : ReadHead cookiesHead cookiesUpstream false := by
    refine ⟨rfl, readHeader_of_unfixed isHTTPVersion_pageRequest hunfixed fun values hvalues => ?_⟩
    exact absurd (hnone.symm.trans hvalues) (by simp)
  have hproxied : ∃ rb, handleProxyRequest pageRequest (fun _ => .answered cookiesUpstream)
      cookiesUpstream.header.keys (newResponseBuilder (some pageRequest)) = .ok rb ∧
      rb.build = proxied pageRequest cookiesUpstream cookiesUpstream.header.keys :=
    handleProxyRequest_eq (by decide) rfl _
  obtain ⟨rb, hrb, hbuild⟩ := hproxied
  refine ⟨hread, rb, hrb, ?_⟩
  rintro order' horder' ⟨head, rest, hhead, h⟩
  rw [hbuild] at horder' hhead
  rw [parseHead_proxied isHTTPVersion_pageRequest (List.Perm.refl _) horder'] at hhead
  obtain ⟨rfl, -⟩ := Prod.mk.inj (Option.some.inj hhead)
  have hvalues : (headerOf cookiesHead.fields)[setCookie]? =
      some [.ofString "a=1", .ofString "b=2"] := by decide +kernel
  have hcookies := h.cookies _ hvalues
  rw [valuesOf_of_getElem? horder' (List.Perm.refl _) (u := cookiesUpstream) hvalues] at hcookies
  exact absurd (congrArg List.length hcookies) (by simp)

end DistributedSystems.Proxy
