import DistributedSystems.Proxy.Relay

/-! # What the proxy reads of what the upstream sends

`net/http.ReadResponse` collects the header fields under canonical names, and then changes the map:
it adds a `Cache-Control` for `Pragma: no-cache`, it removes `Transfer-Encoding`, a repeated
`Content-Length`, and with a chunked body `Content-Length` and `Trailer`. `Upstream` is what comes
out; here is what goes in.

* `ReadHead` — an upstream response is read from a head that was sent;
* `ReadHead.header_eq` — the map is the one that was sent for an `Unfixed` head;
* `ReadHead.getElem?_header` — of the other heads only four fields are changed. -/

namespace DistributedSystems.Proxy

open Http
open Std (TreeMap)

/-! ## Collecting the fields -/

/-- `canonicalMIMEHeaderKey` of `net/textproto`: a name with a space is left as it is. -/
def canonicalMIMEHeaderKey (name : GoString) : GoString :=
  if 32 ∈ name then name else canonicalKey true name

/-- `ReadMIMEHeader`: the values of a canonical name, in order. -/
def headerOf (fields : List (GoString × GoString)) : Headers :=
  fields.foldl (fun header field =>
    header.insert (canonicalMIMEHeaderKey field.1)
      (header[canonicalMIMEHeaderKey field.1]?.getD [] ++ [field.2])) ∅

theorem headerOf_concat (fields : List (GoString × GoString)) (field : GoString × GoString) :
    headerOf (fields ++ [field]) = (headerOf fields).insert (canonicalMIMEHeaderKey field.1)
      ((headerOf fields)[canonicalMIMEHeaderKey field.1]?.getD [] ++ [field.2]) := by
  rw [headerOf, List.foldl_append]
  rfl

theorem canonicalMIMEHeaderKey_of_canonical {name : GoString} (h : canonicalKey true name = name) :
    canonicalMIMEHeaderKey name = name := by
  unfold canonicalMIMEHeaderKey
  split
  · rfl
  · exact h

/-- Every name of the map has a value. -/
theorem headerOf_ne_nil {fields : List (GoString × GoString)} {name : GoString}
    {values : List GoString} (h : (headerOf fields)[name]? = some values) : values ≠ [] := by
  induction fields using List.reverseRecOn generalizing values with
  | nil => exact absurd (TreeMap.getElem?_emptyc.symm.trans h) (by simp)
  | append_singleton fields field ih =>
      rw [headerOf_concat, TreeMap.getElem?_insert] at h
      split at h
      · rw [← Option.some.inj h]
        simp
      · exact ih h

/-- Fields with different canonical names are the header map. -/
theorem headerOf_getElem? {order : List GoString} (hnodup : order.Nodup)
    (hcanonical : ∀ key ∈ order, canonicalKey true key = key) (text : GoString → GoString)
    (name : GoString) :
    (headerOf (order.map fun key => (key, text key)))[name]? =
      if name ∈ order then some [text name] else none := by
  induction order using List.reverseRecOn with
  | nil => exact TreeMap.getElem?_emptyc
  | append_singleton order key ih =>
      obtain ⟨hnodup, -, hnew⟩ := List.nodup_append.mp hnodup
      have ih := ih hnodup fun k hk => hcanonical k (List.mem_append_left _ hk)
      have hkey : canonicalMIMEHeaderKey key = key :=
        canonicalMIMEHeaderKey_of_canonical (hcanonical key (by simp))
      rw [List.map_append, List.map_singleton, headerOf_concat, hkey, TreeMap.getElem?_insert]
      by_cases heq : key = name
      · subst heq
        have hnotMem : key ∉ order := fun hmem => hnew key hmem key (List.mem_singleton_self key) rfl
        rw [if_pos Std.ReflCmp.compare_self, if_pos (by simp), ih, if_neg hnotMem]
        rfl
      · rw [if_neg (by simpa using heq), ih]
        simp [Ne.symm heq]

/-! ## Changing the map -/

/-- The name of the header `Pragma`. -/
def pragma : GoString := .ofString "Pragma"

/-- The name of the header `Cache-Control`. -/
def cacheControl : GoString := .ofString "Cache-Control"

/-- The name of the header `Transfer-Encoding`. -/
def transferEncoding : GoString := .ofString "Transfer-Encoding"

/-- The name of the header `Trailer`. -/
def trailer : GoString := .ofString "Trailer"

/-- The first value of `Pragma` is `no-cache`, and there is no `Cache-Control`. -/
def AsksNoCache (header : Headers) : Prop :=
  header[pragma]?.bind List.head? = some (.ofString "no-cache") ∧ cacheControl ∉ header

instance (header : Headers) : Decidable (AsksNoCache header) :=
  inferInstanceAs (Decidable (_ ∧ _))

/-- `fixPragmaCacheControl`. -/
def fixPragmaCacheControl (header : Headers) : Headers :=
  if AsksNoCache header then header.insert cacheControl [.ofString "no-cache"] else header

/-- `ParseHTTPVersion`: the two digits of `HTTP/1.1`. -/
def parseHTTPVersion : GoString → Option (ℕ × ℕ)
  | [72, 84, 84, 80, 47, major, 46, minor] =>
      (Decimal.digitValue major).bind fun major =>
        (Decimal.digitValue minor).map fun minor => (major, minor)
  | _ => none

theorem exists_parseHTTPVersion {protocol : GoString} (h : IsHTTPVersion protocol) :
    ∃ version, parseHTTPVersion protocol = some version := by
  obtain ⟨major, minor, hmajor, hminor, rfl⟩ := h
  have hslash : (.ofString "HTTP/" : GoString) = [72, 84, 84, 80, 47] := by decide
  rw [hslash]
  simp [parseHTTPVersion, Decimal.digitValue, hmajor, hminor]

/-- `protoAtLeast(1, 1)`; `HTTP/0.0` counts as `HTTP/1.1`. -/
def protoAtLeast11 : ℕ × ℕ → Bool
  | (0, 0) => true
  | (major, minor) => 1 < major ∨ major = 1 ∧ 1 ≤ minor

/-- `parseTransferEncoding`: the header, and whether the body is chunked. -/
def parseTransferEncoding (version : ℕ × ℕ) (header : Headers) : Option (Headers × Bool) :=
  match header[transferEncoding]? with
  | none => some (header, false)
  | some raw =>
      if protoAtLeast11 version then
        match raw with
        | [value] =>
            if sameName value (.ofString "chunked") then
              some (header.erase transferEncoding, true)
            else none
        | _ => none
      else some (header.erase transferEncoding, false)

/-- `fixLength`, as far as it changes the header. -/
def fixLength (statusCode : StatusCode) (header : Headers) (chunked : Bool) : Option Headers :=
  match header[contentLength]?.getD [] with
  | [] => some header
  | first :: others =>
      -- repeated lengths are refused if they differ
      if (∀ value ∈ others, trimBlanks value = trimBlanks first) ∧
          (Decimal.parseUint (trimBlanks first)).isSome then
        if allowsBody statusCode = true ∧ chunked = true then some (header.erase contentLength)
        else if others = [] then some header
        else some (header.insert contentLength [trimBlanks first])
      else none

/-- The names that a `Trailer` lists, separated by commas. -/
def trailerKeys (values : List GoString) : List GoString :=
  -- 44 is `','`
  values.flatMap fun value =>
    (List.splitOn (44 : Byte) value).map fun key => canonicalMIMEHeaderKey (trimBlanks key)

/-- `fixTrailer`, as far as it changes the header. -/
def fixTrailer (header : Headers) (chunked : Bool) : Option Headers :=
  match header[trailer]? with
  | none => some header
  | some values =>
      if chunked then
        if (trailerKeys values).any fun key =>
            key = transferEncoding ∨ key = trailer ∨ key = contentLength then none
        else some (header.erase trailer)
      else some header

/-- `readTransfer`, as far as it reads the header: the header that is left, and whether the body is
chunked. -/
def readTransfer (version : ℕ × ℕ) (statusCode : StatusCode) (header : Headers) :
    Option (Headers × Bool) :=
  (parseTransferEncoding version header).bind fun (header, chunked) =>
    (fixLength statusCode header chunked).bind fun header =>
      (fixTrailer header chunked).map fun header => (header, chunked)

/-- The header that `ReadResponse` returns for the head that was sent, and whether the body is
chunked. -/
def readHeader (sent : Head) (statusCode : StatusCode) : Option (Headers × Bool) :=
  (parseHTTPVersion sent.protocol).bind fun version =>
    readTransfer version statusCode (fixPragmaCacheControl (headerOf sent.fields))

/-- The head that was sent is read as the head of an upstream response, with a chunked body or not. -/
structure ReadHead (sent : Head) (u : Upstream) (chunked : Bool) : Prop where
  /-- The text of the status code. -/
  status : u.statusText = sent.status
  /-- The header map. -/
  header : readHeader sent u.statusCode = some (u.header, chunked)

/-- A header map that `ReadResponse` does not change. -/
structure Unfixed (header : Headers) : Prop where
  /-- No `Cache-Control` is added. -/
  pragma : ¬ AsksNoCache header
  /-- There is no `Transfer-Encoding`. -/
  transferEncoding : transferEncoding ∉ header
  /-- The length is not repeated. -/
  contentLength : ∀ values, header[contentLength]? = some values → values.length ≤ 1

/-! ## What is left of the map -/

variable {version : ℕ × ℕ} {statusCode : StatusCode} {header header' : Headers}
  {chunked : Bool} {name : GoString}

theorem fixPragmaCacheControl_getElem? (hname : name ≠ cacheControl) :
    (fixPragmaCacheControl header)[name]? = header[name]? := by
  unfold fixPragmaCacheControl
  split
  · rw [TreeMap.getElem?_insert, if_neg (by simpa using Ne.symm hname)]
  · rfl

/-- What `parseTransferEncoding` leaves has no `Transfer-Encoding`, and the other fields. -/
theorem parseTransferEncoding_getElem?
    (h : parseTransferEncoding version header = some (header', chunked)) :
    transferEncoding ∉ header' ∧
      ∀ name : GoString, name ≠ transferEncoding → header'[name]? = header[name]? := by
  have herase : transferEncoding ∉ header.erase transferEncoding ∧ ∀ name : GoString,
      name ≠ transferEncoding → (header.erase transferEncoding)[name]? = header[name]? := by
    refine ⟨by simp, fun name hname => ?_⟩
    rw [TreeMap.getElem?_erase, if_neg (by simpa using Ne.symm hname)]
  unfold parseTransferEncoding at h
  split at h
  · next hnone =>
    obtain ⟨rfl, -⟩ := Prod.mk.inj (Option.some.inj h)
    refine ⟨fun hmem => ?_, fun _ _ => rfl⟩
    rw [TreeMap.mem_iff_isSome_getElem?, hnone] at hmem
    exact absurd hmem (by simp)
  · next raw hraw =>
    split at h
    · split at h
      · split at h
        · obtain ⟨rfl, -⟩ := Prod.mk.inj (Option.some.inj h)
          exact herase
        · cases h
      · cases h
    · obtain ⟨rfl, -⟩ := Prod.mk.inj (Option.some.inj h)
      exact herase

theorem fixLength_getElem? (h : fixLength statusCode header chunked = some header')
    (hname : name ≠ contentLength) : header'[name]? = header[name]? := by
  unfold fixLength at h
  split at h
  · rw [Option.some.inj h]
  · split at h
    · split at h
      · rw [← Option.some.inj h, TreeMap.getElem?_erase, if_neg (by simpa using Ne.symm hname)]
      · split at h
        · rw [Option.some.inj h]
        · rw [← Option.some.inj h, TreeMap.getElem?_insert, if_neg (by simpa using Ne.symm hname)]
    · cases h

theorem fixTrailer_getElem? (h : fixTrailer header chunked = some header')
    (hname : name ≠ trailer) : header'[name]? = header[name]? := by
  unfold fixTrailer at h
  split at h
  · rw [Option.some.inj h]
  · split at h
    · split at h
      · cases h
      · rw [← Option.some.inj h, TreeMap.getElem?_erase, if_neg (by simpa using Ne.symm hname)]
    · rw [Option.some.inj h]

/-- A body that is not chunked keeps its trailer. -/
theorem fixTrailer_false (header : Headers) : fixTrailer header false = some header := by
  unfold fixTrailer
  split <;> rfl

/-- Without a `Transfer-Encoding` only the length is looked at. -/
theorem readTransfer_of_notMem (h : transferEncoding ∉ header) :
    readTransfer version statusCode header =
      (fixLength statusCode header false).map fun header => (header, false) := by
  have hparse : parseTransferEncoding version header = some (header, false) := by
    rw [parseTransferEncoding, TreeMap.getElem?_eq_none h]
  rw [readTransfer, hparse, Option.bind_some]
  simp only [fixTrailer_false, Option.map_some]
  cases fixLength statusCode header false with
  | none => rfl
  | some header => rfl

/-- A length that is not repeated is left as it is, if it is a number. -/
theorem fixLength_of_single (statusCode : StatusCode)
    (hone : ∀ values, header[contentLength]? = some values → values.length ≤ 1) :
    fixLength statusCode header false = some header ∨ fixLength statusCode header false = none := by
  unfold fixLength
  cases hvalues : header[contentLength]? with
  | none => exact Or.inl rfl
  | some values =>
      have hlength := hone values hvalues
      cases values with
      | nil => exact Or.inl rfl
      | cons first others =>
          obtain rfl : others = [] := List.eq_nil_of_length_eq_zero (by simpa using hlength)
          simp only [Option.getD_some]
          split
          · exact Or.inl (by simp)
          · exact Or.inr rfl

/-- A repeated length is made a single one. -/
theorem fixLength_repeated {first second : GoString} {others : List GoString}
    (hvalues : header[contentLength]? = some (first :: second :: others))
    (h : fixLength statusCode header false = some header') :
    header'[contentLength]? = some [trimBlanks first] := by
  unfold fixLength at h
  simp only [hvalues, Option.getD_some] at h
  split at h
  · simp only [Bool.false_eq_true, and_false, if_false, List.cons_ne_nil] at h
    rw [← Option.some.inj h, TreeMap.getElem?_insert_self]
  · cases h

/-! ## What the proxy reads -/

variable {sent : Head} {u : Upstream}

/-- The map is made by the functions that change it, one after the other. -/
theorem ReadHead.exists_steps (h : ReadHead sent u chunked) : ∃ version header₁ header₂,
    parseTransferEncoding version (fixPragmaCacheControl (headerOf sent.fields)) =
      some (header₁, chunked) ∧
    fixLength u.statusCode header₁ chunked = some header₂ ∧
    fixTrailer header₂ chunked = some u.header := by
  obtain ⟨version, -, hread⟩ := Option.bind_eq_some_iff.mp h.header
  obtain ⟨⟨header₁, chunked₁⟩, hparse, hread⟩ := Option.bind_eq_some_iff.mp hread
  obtain ⟨header₂, hlength, hread⟩ := Option.bind_eq_some_iff.mp hread
  obtain ⟨header₃, htrailer, heq⟩ := Option.map_eq_some_iff.mp hread
  obtain ⟨rfl, rfl⟩ := Prod.mk.inj heq
  exact ⟨version, header₁, header₂, hparse, hlength, htrailer⟩

/-- **Only four fields are changed.** -/
theorem ReadHead.getElem?_header (h : ReadHead sent u chunked)
    (hname : name ∉ [cacheControl, transferEncoding, contentLength, trailer]) :
    u.header[name]? = (headerOf sent.fields)[name]? := by
  simp only [List.mem_cons, List.not_mem_nil, or_false, not_or] at hname
  obtain ⟨hcache, hencoding, hlength, htrailer⟩ := hname
  obtain ⟨version, header₁, header₂, hparse, hfix, hread⟩ := h.exists_steps
  rw [fixTrailer_getElem? hread htrailer, fixLength_getElem? hfix hlength,
    (parseTransferEncoding_getElem? hparse).2 name hencoding, fixPragmaCacheControl_getElem? hcache]

/-- The `Transfer-Encoding` is removed. -/
theorem ReadHead.transferEncoding_notMem (h : ReadHead sent u chunked) :
    transferEncoding ∉ u.header := by
  obtain ⟨version, header₁, header₂, hparse, hfix, hread⟩ := h.exists_steps
  have hnotMem := (parseTransferEncoding_getElem? hparse).1
  rw [TreeMap.mem_iff_isSome_getElem?, fixTrailer_getElem? hread (by decide),
    fixLength_getElem? hfix (by decide), ← TreeMap.mem_iff_isSome_getElem?]
  exact hnotMem

/-- A `Cache-Control` is added for `Pragma: no-cache`. -/
theorem ReadHead.cacheControl_mem (h : ReadHead sent u chunked)
    (hasks : AsksNoCache (headerOf sent.fields)) : cacheControl ∈ u.header := by
  obtain ⟨version, header₁, header₂, hparse, hfix, hread⟩ := h.exists_steps
  rw [TreeMap.mem_iff_isSome_getElem?, fixTrailer_getElem? hread (by decide),
    fixLength_getElem? hfix (by decide), (parseTransferEncoding_getElem? hparse).2 _ (by decide),
    fixPragmaCacheControl, if_pos hasks, TreeMap.getElem?_insert_self]
  rfl

/-- The fixed map has no `Transfer-Encoding` if none was sent. -/
theorem transferEncoding_notMem_fix (h : transferEncoding ∉ header) :
    transferEncoding ∉ fixPragmaCacheControl header := by
  rwa [TreeMap.mem_iff_isSome_getElem?, fixPragmaCacheControl_getElem? (by decide),
    ← TreeMap.mem_iff_isSome_getElem?]

/-- Without a `Transfer-Encoding` the body is not chunked, and only the length is looked at. -/
theorem ReadHead.fixLength_eq (h : ReadHead sent u chunked)
    (hencoding : transferEncoding ∉ headerOf sent.fields) : chunked = false ∧
      fixLength u.statusCode (fixPragmaCacheControl (headerOf sent.fields)) false =
        some u.header := by
  obtain ⟨version, -, hread⟩ := Option.bind_eq_some_iff.mp h.header
  rw [readTransfer_of_notMem (transferEncoding_notMem_fix hencoding)] at hread
  obtain ⟨header, hlength, heq⟩ := Option.map_eq_some_iff.mp hread
  obtain ⟨rfl, rfl⟩ := Prod.mk.inj heq
  exact ⟨rfl, hlength⟩

/-- A repeated length is read once. -/
theorem ReadHead.contentLength_repeated (h : ReadHead sent u chunked)
    (hencoding : transferEncoding ∉ headerOf sent.fields) {first second : GoString}
    {others : List GoString}
    (hvalues : (headerOf sent.fields)[contentLength]? = some (first :: second :: others)) :
    u.header[contentLength]? = some [trimBlanks first] := by
  have hkept : (fixPragmaCacheControl (headerOf sent.fields))[contentLength]? =
      some (first :: second :: others) := by
    rw [fixPragmaCacheControl_getElem? (by decide), hvalues]
  exact fixLength_repeated hkept (h.fixLength_eq hencoding).2

/-- **A head that is not fixed is read as it was sent.** -/
theorem ReadHead.header_eq (h : ReadHead sent u chunked) (hunfixed : Unfixed (headerOf sent.fields)) :
    u.header = headerOf sent.fields ∧ chunked = false := by
  obtain ⟨hchunked, hlength⟩ := h.fixLength_eq hunfixed.transferEncoding
  rw [fixPragmaCacheControl, if_neg hunfixed.pragma] at hlength
  rcases fixLength_of_single u.statusCode hunfixed.contentLength with hsame | hnone
  · exact ⟨Option.some.inj (hlength.symm.trans hsame), hchunked⟩
  · exact absurd (hlength.symm.trans hnone) (by simp)

/-- A head that is not fixed is read, if its length is a number. -/
theorem readHeader_of_unfixed (hversion : IsHTTPVersion sent.protocol)
    (hunfixed : Unfixed (headerOf sent.fields))
    (hlength : ∀ values, (headerOf sent.fields)[contentLength]? = some values →
      ∃ value, values = [value] ∧ (Decimal.parseUint (trimBlanks value)).isSome = true) :
    readHeader sent statusCode = some (headerOf sent.fields, false) := by
  obtain ⟨version, hversion⟩ := exists_parseHTTPVersion hversion
  have hfix : fixLength statusCode (headerOf sent.fields) false = some (headerOf sent.fields) := by
    unfold fixLength
    cases hvalues : (headerOf sent.fields)[contentLength]? with
    | none => rfl
    | some values =>
        obtain ⟨value, rfl, hnumber⟩ := hlength values hvalues
        simp [hnumber]
  rw [readHeader, hversion, Option.bind_some, fixPragmaCacheControl, if_neg hunfixed.pragma,
    readTransfer_of_notMem hunfixed.transferEncoding, hfix, Option.map_some]

end DistributedSystems.Proxy
