import DistributedSystems.Http.Response
import Mathlib.Data.List.DropRight

/-! # Reading responses

A reference parser for the head of a response: the start line is split at its first two spaces, and
lines `name: value` are read up to the first empty line.

* `parseHead_bytes` — the parser reads back what `Response.bytes` writes: protocol, status code,
  the headers in the order in which they were written, and what follows the empty line. -/

namespace DistributedSystems.Http

/-! ## The parser -/

/-- The bytes up to the first line end, and those after it. -/
def readLine : GoString → Option (GoString × GoString)
  | 13 :: 10 :: rest => some ([], rest)
  | x :: rest => (readLine rest).map fun (line, after) => (x :: line, after)
  | [] => none

/-- The bytes before and after the first occurrence of a byte. -/
def cut (sep : Byte) : GoString → Option (GoString × GoString)
  | [] => none
  | x :: s =>
      if x = sep then some ([], s)
      else (cut sep s).map fun (before, after) => (x :: before, after)

/-- A blank: space or tab. -/
def isBlank (x : Byte) : Bool := x = 32 ∨ x = 9

/-- A digit is no blank. -/
theorem isBlank_of_digit {x : Byte} (h : 48 ≤ x ∧ x ≤ 57) : isBlank x = false := by
  have hall : ∀ x : Byte, 48 ≤ x ∧ x ≤ 57 → isBlank x = false := by decide +kernel
  exact hall x h

/-- The string without the blanks at its end. -/
def trimRight (s : GoString) : GoString := s.rdropWhile isBlank

/-- The string without the blanks at both ends. -/
def trimBlanks (s : GoString) : GoString := trimRight (s.dropWhile isBlank)

/-- The name and the value of a header line. -/
def parseField (line : GoString) : Option (GoString × GoString) :=
  -- 58 is `':'`
  (cut 58 line).map fun (name, value) => (name, trimBlanks value)

/-- The header lines up to the empty line, and what follows it. -/
def parseFields : ℕ → GoString → Option (List (GoString × GoString) × GoString)
  | 0, _ => none
  | fuel + 1, s =>
      match readLine s with
      | none => none
      | some ([], rest) => some ([], rest)
      | some (line, rest) =>
          match parseField line with
          | none => none
          | some field => (parseFields fuel rest).map fun (fields, after) => (field :: fields, after)

/-- The head of a response. -/
structure Head where
  /-- The protocol. -/
  protocol : GoString
  /-- The status code, as text. -/
  status : GoString
  /-- The reason phrase. -/
  reason : GoString
  /-- The header fields, in order. -/
  fields : List (GoString × GoString)
  deriving DecidableEq

/-- Parse the head of a response, and return what follows it. -/
def parseHead (s : GoString) : Option (Head × GoString) :=
  match readLine s with
  | none => none
  | some (startLine, rest) =>
      match cut 32 startLine with
      | none => none
      | some (protocol, line) =>
          match cut 32 line with
          | none => none
          | some (status, reason) =>
              (parseFields (rest.length + 1) rest).map fun (fields, after) =>
                (⟨protocol, status, reason, fields⟩, after)

/-- The values of the fields with a name, in order. -/
def Head.valuesOf (head : Head) (name : GoString) : List GoString :=
  (head.fields.filter fun field => field.1 = name).map Prod.snd

/-! ## Reading back -/

theorem readLine_append {line : GoString} (h : 13 ∉ line) (rest : GoString) :
    readLine (line ++ crlf ++ rest) = some (line, rest) := by
  induction line with
  | nil => rfl
  | cons x line ih =>
      have hx : x ≠ 13 := fun hx => h (hx ▸ List.mem_cons_self)
      have hrest := ih fun hmem => h (List.mem_cons_of_mem x hmem)
      rw [List.cons_append, List.cons_append, readLine, hrest, Option.map_some]
      exact fun rest' heq => absurd heq hx

theorem cut_append {sep : Byte} {before : GoString} (h : sep ∉ before) (after : GoString) :
    cut sep (before ++ sep :: after) = some (before, after) := by
  induction before with
  | nil => rw [List.nil_append, cut, if_pos rfl]
  | cons x before ih =>
      have hx : x ≠ sep := fun hx => h (hx ▸ List.mem_cons_self)
      rw [List.cons_append, cut, if_neg hx, ih fun hmem => h (List.mem_cons_of_mem x hmem),
        Option.map_some]

/-- Trimming changes nothing when there is no blank at either end. -/
theorem trimBlanks_of_ends {s : GoString} (hhead : ∀ x ∈ s.head?, isBlank x = false)
    (hlast : ∀ x ∈ s.getLast?, isBlank x = false) : trimBlanks s = s := by
  have hdrop {t : GoString} (ht : ∀ x ∈ t.head?, isBlank x = false) : t.dropWhile isBlank = t := by
    cases t with
    | nil => rfl
    | cons x t => rw [List.dropWhile_cons, ht x rfl, if_neg Bool.false_ne_true]
  rw [← List.head?_reverse] at hlast
  rw [trimBlanks, hdrop hhead, trimRight, List.rdropWhile, hdrop hlast, List.reverse_reverse]

/-- Trimming changes nothing when there are no blanks. -/
theorem trimBlanks_of_forall {s : GoString} (h : ∀ x ∈ s, isBlank x = false) : trimBlanks s = s := by
  apply trimBlanks_of_ends
  · exact fun x hx => h x (List.mem_of_mem_head? hx)
  · exact fun x hx => h x (List.mem_of_mem_getLast? hx)

/-- The text of the values of a header has no carriage return if the values have none. -/
theorem cr_notMem_join {values : List GoString} (h : ∀ v ∈ values, 13 ∉ v) :
    13 ∉ GoString.join values (.ofString ", ") := by
  induction values with
  | nil => exact List.not_mem_nil
  | cons v values ih =>
      have hv := h v List.mem_cons_self
      have hrest := ih fun v' hv' => h v' (List.mem_cons_of_mem v hv')
      by_cases hnil : values = []
      · subst hnil
        rw [GoString.join, List.intercalate_singleton]
        exact hv
      · rw [GoString.join, List.intercalate_cons_of_ne_nil hnil]
        intro hmem
        rcases List.mem_append.mp hmem with hmem | hmem
        · rcases List.mem_append.mp hmem with hmem | hmem
          · exact hv hmem
          · exact absurd hmem (by decide)
        · exact hrest hmem

/-- What the parser reads from the line of a header. -/
def parsedField (key : GoString) (values : List GoString) : GoString × GoString :=
  (key, trimBlanks (.join values (.ofString ", ")))

theorem parseField_line {key : GoString} (hkey : 58 ∉ key) (values : List GoString) :
    parseField (key ++ .ofString ": " ++ .join values (.ofString ", ")) =
      some (parsedField key values) := by
  have hline : key ++ .ofString ": " ++ GoString.join values (.ofString ", ") =
      key ++ 58 :: 32 :: GoString.join values (.ofString ", ") := by
    rw [List.append_assoc]
    rfl
  rw [parseField, hline, cut_append hkey, Option.map_some]
  rfl

/-- What `formatHeader` may be given so that its line can be read: no colon in the name, and no
carriage return. -/
structure ReadableHeader (key : GoString) (values : List GoString) : Prop where
  /-- The name has no colon. -/
  colon : 58 ∉ key
  /-- The name has no carriage return. -/
  name_cr : 13 ∉ key
  /-- The values have no carriage return. -/
  values_cr : ∀ v ∈ values, 13 ∉ v

/-- **The header lines are read back in their order.** -/
theorem parseFields_flatMap {order : List GoString} {valuesOf : GoString → List GoString}
    (h : ∀ key ∈ order, ReadableHeader key (valuesOf key)) {fuel : ℕ} (hfuel : order.length < fuel)
    (rest : GoString) :
    parseFields fuel
        ((order.flatMap fun key => Response.formatHeader key (valuesOf key)) ++ crlf ++ rest) =
      some (order.map fun key => parsedField key (valuesOf key), rest) := by
  induction order generalizing fuel with
  | nil =>
      obtain ⟨fuel, rfl⟩ := Nat.exists_eq_succ_of_ne_zero hfuel.ne'
      rfl
  | cons key order ih =>
      obtain ⟨fuel, rfl⟩ := Nat.exists_eq_succ_of_ne_zero (Nat.ne_zero_of_lt hfuel)
      have hkey := h key List.mem_cons_self
      have hrest := ih (fun key' hkey' => h key' (List.mem_cons_of_mem key hkey'))
        (Nat.lt_of_succ_lt_succ hfuel)
      -- the line of the first header, without its end
      have hline : 13 ∉ key ++ .ofString ": " ++
          GoString.join (valuesOf key) (.ofString ", ") := by
        intro hmem
        rcases List.mem_append.mp hmem with hmem | hmem
        · rcases List.mem_append.mp hmem with hmem | hmem
          · exact hkey.name_cr hmem
          · exact absurd hmem (by decide)
        · exact cr_notMem_join hkey.values_cr hmem
      rw [List.flatMap_cons, Response.formatHeader, parseFields, List.append_assoc,
        List.append_assoc, readLine_append hline, ← List.append_assoc]
      split
      · next heq => exact absurd heq (by simp)
      · next heq =>
        -- a header line is not empty
        have hnil := (Prod.mk.inj (Option.some.inj heq)).1
        have hcolon := (List.append_eq_nil_iff.mp (List.append_eq_nil_iff.mp hnil).1).2
        exact absurd hcolon (by decide)
      · next line rest' hne heq =>
        obtain ⟨rfl, rfl⟩ := Prod.mk.inj (Option.some.inj heq)
        rw [parseField_line hkey.colon, hrest]
        rfl

/-- A name that is written once has one value. -/
theorem Head.valuesOf_map {protocol status reason : GoString} {order : List GoString}
    (hnodup : order.Nodup) (text : GoString → GoString) {name : GoString} (hname : name ∈ order) :
    Head.valuesOf ⟨protocol, status, reason, order.map fun key => (key, text key)⟩ name =
      [text name] := by
  have hfilter : (order.filter fun key => key = name) = [name] := by
    rw [List.filter_eq, List.count_eq_one_of_mem hnodup hname, List.replicate_one]
  rw [Head.valuesOf, List.filter_map, List.map_map]
  exact congrArg (List.map _) hfilter

/-- A name that is not written has no value. -/
theorem Head.valuesOf_map_of_notMem {protocol status reason : GoString} {order : List GoString}
    (text : GoString → GoString) {name : GoString} (hname : name ∉ order) :
    Head.valuesOf ⟨protocol, status, reason, order.map fun key => (key, text key)⟩ name = [] := by
  have hfilter : (order.filter fun key => key = name) = [] := by
    rw [List.filter_eq, List.count_eq_zero.mpr hname, List.replicate_zero]
  rw [Head.valuesOf, List.filter_map, List.map_map]
  exact congrArg (List.map _) hfilter

/-! ## Header names -/

/-- The canonical form of a name does not depend on its case. -/
theorem canonicalKey_map_lowerByte (upper : Bool) (s : GoString) :
    canonicalKey upper (s.map lowerByte) = canonicalKey upper s := by
  have hbyte : ∀ (upper : Bool) (c : Byte),
      (if upper ∧ 97 ≤ lowerByte c ∧ lowerByte c ≤ 122 then lowerByte c - 32
        else if ¬ upper ∧ 65 ≤ lowerByte c ∧ lowerByte c ≤ 90 then lowerByte c + 32
        else lowerByte c) =
      (if upper ∧ 97 ≤ c ∧ c ≤ 122 then c - 32
        else if ¬ upper ∧ 65 ≤ c ∧ c ≤ 90 then c + 32 else c) ∧
      (lowerByte c = 45 ↔ c = 45) := by decide +kernel
  induction s generalizing upper with
  | nil => rfl
  | cons c s ih =>
      obtain ⟨hc, hhyphen⟩ := hbyte upper c
      rw [List.map_cons, canonicalKey, canonicalKey, hc, ih]
      simp only [hhyphen]

/-- Canonical names that are the same regardless of case are equal. -/
theorem eq_of_sameName {a b : GoString} (ha : canonicalKey true a = a) (hb : canonicalKey true b = b)
    (h : sameName a b = true) : a = b := by
  rw [← ha, ← hb, ← canonicalKey_map_lowerByte, ← canonicalKey_map_lowerByte true b,
    of_decide_eq_true h]

/-! ## The bytes of a response -/

/-- A numeral has neither blanks nor a carriage return. -/
theorem itoa_notMem (z : ℤ) : 32 ∉ Decimal.itoa z ∧ 13 ∉ Decimal.itoa z := by
  constructor
  · exact fun hmem => absurd (Decimal.itoa_bytes z 32 hmem) (by decide)
  · exact fun hmem => absurd (Decimal.itoa_bytes z 13 hmem) (by decide)

/-- A protocol version has neither a space nor a carriage return. -/
theorem IsHTTPVersion.notMem {proto : GoString} (h : IsHTTPVersion proto) :
    proto ≠ [] ∧ 32 ∉ proto ∧ 13 ∉ proto := by
  obtain ⟨major, minor, hmajor, hminor, rfl⟩ := h
  have hne (x : Byte) (hx : x < 46) (hlit : x ∉ GoString.ofString "HTTP/") :
      x ∉ GoString.ofString "HTTP/" ++ [major, 46, minor] := by
    intro hmem
    rcases List.mem_append.mp hmem with hmem | hmem
    · exact hlit hmem
    · simp only [List.mem_cons, List.not_mem_nil, or_false] at hmem
      rcases hmem with rfl | rfl | rfl
      · exact absurd hmajor.1 (not_le.mpr (hx.trans (by decide)))
      · exact absurd hx (by decide)
      · exact absurd hminor.1 (not_le.mpr (hx.trans (by decide)))
  exact ⟨by simp, hne 32 (by decide) (by decide), hne 13 (by decide) (by decide)⟩

theorem phrase_notMem (statusCode : StatusCode) : 13 ∉ statusCode.phrase := by
  unfold StatusCode.phrase
  repeat' split
  all_goals decide

/-- A response whose head can be read back. -/
structure Response.Readable (response : Response) : Prop where
  /-- The protocol has no space. -/
  space : 32 ∉ response.protocol
  /-- The protocol has no carriage return. -/
  protocol : 13 ∉ response.protocol
  /-- The headers can be read back. -/
  headers : ∀ key ∈ response.headers, ReadableHeader key (response.valuesOf key)

variable {response : Response} {order : List GoString}

/-- The bytes of a response, with what follows the head. -/
theorem Response.bytes_eq (response : Response) (order : List GoString) :
    response.bytes order = response.protocol ++ 32 :: (Decimal.itoa response.statusCode ++
      32 :: response.statusCode.phrase) ++ crlf ++
      (response.formatHeaders order ++ crlf ++ if response.hasBody then response.body else []) := by
  have hspace : GoString.ofString " " = [32] := by decide
  unfold Response.bytes Response.formatStartLine
  split
  · simp only [hspace, List.append_assoc, List.cons_append, List.nil_append]
  · simp only [hspace, List.append_assoc, List.cons_append, List.nil_append, List.append_nil]

/-- Every header has a line. -/
theorem Response.length_le_formatHeaders (response : Response) (order : List GoString) :
    order.length ≤ (response.formatHeaders order).length := by
  induction order with
  | nil => exact Nat.le_refl 0
  | cons key order ih =>
      have hline : 0 < (formatHeader key (response.valuesOf key)).length := by
        rw [formatHeader, List.length_append]
        exact Nat.lt_add_left _ (by decide)
      rw [formatHeaders, List.flatMap_cons, List.length_append, List.length_cons,
        ← formatHeaders]
      omega

/-- **The parser reads back what `Bytes` writes**, for every order of the header map. -/
theorem parseHead_bytes (h : response.Readable) (horder : order.Perm response.headers.keys) :
    parseHead (response.bytes order) =
      some (⟨response.protocol, Decimal.itoa response.statusCode, response.statusCode.phrase,
          order.map fun key => parsedField key (response.valuesOf key)⟩,
        if response.hasBody then response.body else []) := by
  have hstart : 13 ∉ response.protocol ++ 32 :: (Decimal.itoa response.statusCode ++
      32 :: response.statusCode.phrase) := by
    simp only [List.mem_append, List.mem_cons, not_or]
    exact ⟨h.protocol, by decide, (itoa_notMem _).2, by decide, phrase_notMem _⟩
  have hkeys : ∀ key ∈ order, ReadableHeader key (response.valuesOf key) := fun key hkey =>
    h.headers key (Std.TreeMap.mem_keys.mp (horder.mem_iff.mp hkey))
  have hlength : order.length < (response.formatHeaders order ++ crlf ++
      if response.hasBody then response.body else []).length + 1 := by
    have hle := response.length_le_formatHeaders order
    rw [List.length_append, List.length_append]
    omega
  rw [response.bytes_eq, parseHead, readLine_append hstart]
  simp only [cut_append h.space, cut_append (itoa_notMem _).1, Response.formatHeaders] at hlength ⊢
  rw [parseFields_flatMap hkeys hlength, Option.map_some]

end DistributedSystems.Http
