import DistributedSystems.GoLang.Utf8

/-! # JSON objects with string members

The part of `encoding/json` that writes and reads objects whose members are strings. An encoder
escapes quotes, backslashes, control characters, `<`, `>`, `&`, U+2028 and U+2029, writes the escape
of U+FFFD for a byte that belongs to no character, and ends each object with a newline. A decoder
reads a string with any escapes, and the members of an object in the order in which an encoder
writes them.

* `decodeString_encodeString` — a string is read back coerced to valid UTF-8;
* `decodeAll_flatMap` — a stream of objects is read back with its strings coerced. -/

namespace DistributedSystems.Json

open Utf8 (runes runeLength replacement coerce encodeRune IsRune)

/-! ## Strings -/

/-- A hexadecimal digit, in lower case. -/
def hexDigit (d : ℕ) : Byte := Fin.ofNat 256 (if d < 10 then 48 + d else 87 + d)

/-- The value of a hexadecimal digit. -/
def hexValue (x : Byte) : Option ℕ :=
  if 48 ≤ x ∧ x ≤ 57 then some (x.val - 48)
  else if 97 ≤ x ∧ x ≤ 102 then some (x.val - 87)
  else if 65 ≤ x ∧ x ≤ 70 then some (x.val - 55)
  else none

/-- The escape of a byte below 128, or the byte itself. -/
def escapeByte (x : Byte) : GoString :=
  -- 34 is the quote and 92 the backslash
  if x = 34 ∨ x = 92 then [92, x]
  else if x = 10 then .ofString "\\n"
  else if x = 13 then .ofString "\\r"
  else if x = 9 then .ofString "\\t"
  -- the control characters, `<`, `>` and `&`
  else if x < 32 ∨ x = 60 ∨ x = 62 ∨ x = 38 then
    .ofString "\\u00" ++ [hexDigit (x.val / 16), hexDigit (x.val % 16)]
  else [x]

/-- What an encoder writes for a piece of a string. -/
def encodePiece : Option GoString → GoString
  | none => .ofString "\\ufffd"
  | some c =>
      if c = [0xE2, 0x80, 0xA8] then .ofString "\\u2028"
      else if c = [0xE2, 0x80, 0xA9] then .ofString "\\u2029"
      else
        match c with
        | [x] => escapeByte x
        | _ => c

/-- A string as an encoder writes it. -/
def encodeString (s : GoString) : GoString := 34 :: (runes s).flatMap encodePiece ++ [34]

/-- The code unit of four hexadecimal digits. -/
def codeUnit (a b c d : Byte) : Option ℕ := do
  let a ← hexValue a
  let b ← hexValue b
  let c ← hexValue c
  let d ← hexValue d
  return a * 4096 + b * 256 + c * 16 + d

/-- The code unit of the escape at the head of a string. -/
def unitAt : GoString → Option ℕ
  | 92 :: 117 :: a :: b :: c :: d :: _ => codeUnit a b c d
  | _ => none

/-- The character of a pair of surrogates. -/
def decodeSurrogates (r r' : ℕ) : Option ℕ :=
  if 0xD800 ≤ r ∧ r < 0xDC00 ∧ 0xDC00 ≤ r' ∧ r' < 0xE000 then
    some ((r - 0xD800) * 1024 + (r' - 0xDC00) + 0x10000)
  else none

/-- The byte of a short escape. -/
def shortEscape (x : Byte) : Option Byte :=
  if x = 34 ∨ x = 92 ∨ x = 47 then some x
  else if x = 98 then some 8
  else if x = 102 then some 12
  else if x = 110 then some 10
  else if x = 114 then some 13
  else if x = 116 then some 9
  else none

/-- What a decoder reads at the head of the rest of a string. -/
inductive Token
  /-- The closing quote. -/
  | close
  /-- A piece of the string. -/
  | piece (bytes : GoString)

/-- The next token of a string and what follows it; `none` when there is a syntax error. -/
def nextToken : GoString → Option (Token × GoString)
  | [] => none
  | 34 :: rest => some (.close, rest)
  | 92 :: 117 :: a :: b :: c :: d :: rest =>
      match codeUnit a b c d with
      | none => none
      | some r =>
          if 0xD800 ≤ r ∧ r < 0xE000 then
            match (unitAt rest).bind (decodeSurrogates r) with
            | some rune => some (.piece (encodeRune rune), rest.drop 6)
            | none => some (.piece replacement, rest)
          else some (.piece (encodeRune r), rest)
  | 92 :: x :: rest => (shortEscape x).map fun y => (.piece [y], rest)
  | x :: rest =>
      if x < 32 ∨ x = 92 then none
      else
        match runeLength (x :: rest) with
        | some n => some (.piece ((x :: rest).take n), (x :: rest).drop n)
        | none => some (.piece replacement, rest)

/-- Read the rest of a string after its opening quote, in at most as many tokens as given. -/
def decodeTokens : ℕ → GoString → Option (GoString × GoString)
  | 0, _ => none
  | k + 1, s =>
      match nextToken s with
      | none => none
      | some (.close, rest) => some ([], rest)
      | some (.piece bytes, rest) => (decodeTokens k rest).map fun (s, rest) => (bytes ++ s, rest)

/-- Read a string; every token has at least one byte. -/
def decodeString : GoString → Option (GoString × GoString)
  | 34 :: rest => decodeTokens rest.length rest
  | _ => none

/-! ## Strings are read back -/

theorem hexValue_hexDigit : ∀ d < 16, hexValue (hexDigit d) = some d := by decide

/-- A character that is not escaped is read as it is. -/
theorem nextToken_rune {x : Byte} {c : GoString} (h : IsRune (x :: c)) (hquote : x ≠ 34)
    (hslash : x ≠ 92) (hcontrol : ¬ x < 32) (rest : GoString) :
    nextToken (x :: c ++ rest) = some (.piece (x :: c), rest) := by
  have hlength := h.append rest
  rw [List.cons_append] at hlength ⊢
  unfold nextToken
  split
  · next heq => exact absurd heq (by simp)
  · next heq => exact absurd (List.cons.inj heq).1 hquote
  · next heq => exact absurd (List.cons.inj heq).1 hslash
  · next heq => exact absurd (List.cons.inj heq).1 hslash
  · next heq =>
    obtain ⟨rfl, rfl⟩ := List.cons.inj heq
    rw [if_neg (by simp [hcontrol, hslash]), hlength, ← List.cons_append]
    dsimp only
    rw [List.take_left, List.drop_left]

/-- The escape of a code unit that is no surrogate is read as its character. -/
theorem nextToken_unit {a b c d : Byte} {r : ℕ} (h : codeUnit a b c d = some r)
    (hr : ¬ (0xD800 ≤ r ∧ r < 0xE000)) (rest : GoString) :
    nextToken (92 :: 117 :: a :: b :: c :: d :: rest) = some (.piece (encodeRune r), rest) := by
  simp only [nextToken, h, if_neg hr]

/-- The character of a byte below 128. -/
theorem isRune_singleton {x : Byte} (hx : x < 0x80) : IsRune [x] := by
  rw [IsRune, runeLength, Utf8.acceptRange, if_pos hx]
  rfl

/-- The escape of a byte is read back. -/
theorem nextToken_escapeByte {x : Byte} (hx : x < 0x80) (rest : GoString) :
    nextToken (escapeByte x ++ rest) = some (.piece [x], rest) := by
  unfold escapeByte
  split_ifs with hquote hnewline hreturn htab hcontrol
  · rcases hquote with rfl | rfl
    · rfl
    · rfl
  · subst hnewline
    rfl
  · subst hreturn
    rfl
  · subst htab
    rfl
  · have hzero : GoString.ofString "\\u00" = [92, 117, 48, 48] := by decide
    have hval : x.val < 128 := hx
    have hunit : codeUnit 48 48 (hexDigit (x.val / 16)) (hexDigit (x.val % 16)) = some x.val := by
      rw [codeUnit, hexValue_hexDigit _ (by omega), hexValue_hexDigit _ (by omega)]
      refine congrArg some ?_
      show 0 * 4096 + 0 * 256 + x.val / 16 * 16 + x.val % 16 = x.val
      omega
    have hrune : encodeRune x.val = [x] := by
      rw [encodeRune, if_pos hval, Fin.ofNat_val_eq_self]
    rw [hzero, ← hrune]
    exact nextToken_unit hunit (by omega) rest
  · refine nextToken_rune (isRune_singleton hx) ?_ ?_ ?_ rest
    · exact fun h => hquote (Or.inl h)
    · exact fun h => hquote (Or.inr h)
    · exact fun h => hcontrol (Or.inl h)

/-- A first byte that announces others is not below 128. -/
theorem le_of_isRune {x y : Byte} {c : GoString} (h : IsRune (x :: y :: c)) : 0x80 ≤ x := by
  by_contra hlt
  rw [IsRune, runeLength, Utf8.acceptRange, if_pos (not_le.mp hlt)] at h
  exact absurd h (by simp [Utf8.follows])

/-- The character of a single byte is below 128. -/
theorem lt_of_isRune {x : Byte} (h : IsRune [x]) : x < 0x80 := by
  obtain ⟨x', rest, n, low, high, hx', hn, haccept, -⟩ := Utf8.exists_of_runeLength h
  obtain ⟨rfl, -⟩ := List.cons.inj hx'
  obtain rfl : 0 = n := Nat.succ.inj hn
  by_contra hx
  rw [Utf8.acceptRange, if_neg hx] at haccept
  split_ifs at haccept
  all_goals exact absurd haccept (by simp)

/-- **What is written for a piece is read as the piece**, with U+FFFD for a byte that belongs to no
character. -/
theorem nextToken_encodePiece {r : Option GoString} (h : ∀ c, r = some c → IsRune c)
    (rest : GoString) :
    nextToken (encodePiece r ++ rest) = some (.piece (r.getD replacement), rest) := by
  cases r with
  | none =>
      have hescape : GoString.ofString "\\ufffd" = [92, 117, 102, 102, 102, 100] := by decide
      have hrune : encodeRune 0xFFFD = replacement := by decide
      rw [encodePiece, hescape, Option.getD_none, ← hrune]
      exact nextToken_unit (by decide) (by decide) rest
  | some c =>
      have hc := h c rfl
      rw [Option.getD_some]
      simp only [encodePiece]
      split_ifs with hline hparagraph
      · have hescape : GoString.ofString "\\u2028" = [92, 117, 50, 48, 50, 56] := by decide
        have hrune : encodeRune 0x2028 = c := by rw [hline]; decide
        rw [hescape, ← hrune]
        exact nextToken_unit (by decide) (by decide) rest
      · have hescape : GoString.ofString "\\u2029" = [92, 117, 50, 48, 50, 57] := by decide
        have hrune : encodeRune 0x2029 = c := by rw [hparagraph]; decide
        rw [hescape, ← hrune]
        exact nextToken_unit (by decide) (by decide) rest
      · split
        · exact nextToken_escapeByte (lt_of_isRune hc) rest
        · next hne =>
          cases c with
          | nil => exact absurd hc (by simp [IsRune, runeLength])
          | cons x c =>
              cases c with
              | nil => exact absurd rfl (hne x)
              | cons y c =>
                  have hx := le_of_isRune hc
                  refine nextToken_rune hc ?_ ?_ ?_ rest
                  · rintro rfl
                    exact absurd hx (by decide)
                  · rintro rfl
                    exact absurd hx (by decide)
                  · exact fun hlt => absurd (hx.trans_lt hlt) (by decide)

/-- At least one byte is written for a piece. -/
theorem encodePiece_ne_nil {r : Option GoString} (h : ∀ c, r = some c → IsRune c) :
    encodePiece r ≠ [] := by
  intro hnil
  have htoken := nextToken_encodePiece h []
  rw [hnil] at htoken
  exact absurd htoken (by simp [nextToken])

/-- The pieces of a string are read back one after the other. -/
theorem decodeTokens_flatMap {rs : List (Option GoString)} (h : ∀ c, some c ∈ rs → IsRune c)
    (rest : GoString) {k : ℕ} (hk : rs.length < k) :
    decodeTokens k (rs.flatMap encodePiece ++ 34 :: rest) =
      some (rs.flatMap (·.getD replacement), rest) := by
  induction rs generalizing k with
  | nil =>
      obtain ⟨k, rfl⟩ := Nat.exists_eq_succ_of_ne_zero (Nat.ne_of_gt hk)
      rfl
  | cons r rs ih =>
      rw [List.length_cons] at hk
      obtain ⟨k, rfl⟩ : ∃ k', k = k' + 1 := ⟨k - 1, by omega⟩
      have hpiece (c : GoString) (hc : r = some c) : IsRune c := h c (by rw [hc]; simp)
      have hrest := ih (fun c hc => h c (List.mem_cons_of_mem _ hc)) (k := k) (by omega)
      rw [List.flatMap_cons, List.append_assoc, decodeTokens, nextToken_encodePiece hpiece]
      dsimp only
      rw [hrest]
      rfl

/-- **A string is read back coerced to valid UTF-8.** -/
theorem decodeString_encodeString (s rest : GoString) :
    decodeString (encodeString s ++ rest) = some (coerce s, rest) := by
  have hlength (rs : List (Option GoString)) (h : ∀ c, some c ∈ rs → IsRune c) :
      rs.length ≤ (rs.flatMap encodePiece).length := by
    induction rs with
    | nil => exact le_rfl
    | cons r rs ih =>
        have hpos := List.length_pos_of_ne_nil
          (encodePiece_ne_nil (r := r) fun c hc => h c (by rw [hc]; simp))
        have hrest := ih fun c hc => h c (List.mem_cons_of_mem _ hc)
        rw [List.flatMap_cons, List.length_append, List.length_cons]
        omega
  have hrunes (c : GoString) (hc : some c ∈ runes s) : IsRune c := Utf8.isRune_of_mem hc
  rw [encodeString, List.cons_append, List.cons_append, List.append_assoc, List.singleton_append,
    decodeString]
  refine decodeTokens_flatMap hrunes rest ?_
  have hle := hlength (runes s) hrunes
  rw [List.length_append, List.length_cons]
  omega

/-! ## Objects -/

/-- The text after a literal that a string has to start with. -/
def expect (literal s : GoString) : Option GoString :=
  if literal.isPrefixOf s then some (s.drop literal.length) else none

@[simp] theorem expect_append (literal rest : GoString) :
    expect literal (literal ++ rest) = some rest := by
  rw [expect, if_pos (by simp), List.drop_left]

/-- The comma after a member, unless it is the last one. -/
def comma {α : Type} (members : List α) : GoString := if members.isEmpty then [] else [44]

/-- The members of an object and its closing brace. -/
def encodeMembers : List (GoString × GoString) → GoString
  -- 125 is the closing brace and 58 the colon
  | [] => [125]
  | (name, value) :: members =>
      encodeString name ++ [58] ++ encodeString value ++ comma members ++ encodeMembers members

/-- `Encoder.Encode` of a struct whose fields are strings. -/
def encode (members : List (GoString × GoString)) : GoString :=
  -- 123 is the opening brace and 10 the newline
  [123] ++ encodeMembers members ++ [10]

/-- Read the members with the given names, in their order, and the closing brace. -/
def decodeMembers : List GoString → GoString → Option (List GoString × GoString)
  | [], s => (expect [125] s).map fun rest => ([], rest)
  | name :: names, s => do
      let rest ← expect (encodeString name ++ [58]) s
      let (value, rest) ← decodeString rest
      let rest ← expect (comma names) rest
      let (values, rest) ← decodeMembers names rest
      return (value :: values, rest)

/-- White space between values. -/
def isSpace (x : Byte) : Bool := x = 32 || x = 9 || x = 10 || x = 13

/-- `Decoder.Decode` until the end of the input, in at most as many calls as given; `none` when one
of them fails. -/
def decodeLoop (names : List GoString) : ℕ → GoString → Option (List (List GoString))
  | 0, _ => none
  | k + 1, s =>
      match s.dropWhile isSpace with
      | [] => some []
      | s => do
          let rest ← expect [123] s
          let (values, rest) ← decodeMembers names rest
          let objects ← decodeLoop names k rest
          return values :: objects

/-- All objects of a stream; every object has at least one byte. -/
def decodeAll (names : List GoString) (s : GoString) : Option (List (List GoString)) :=
  decodeLoop names (s.length + 1) s

/-! ## Objects are read back -/

/-- The members of an object are read back. -/
theorem decodeMembers_encodeMembers (members : List (GoString × GoString)) (rest : GoString) :
    decodeMembers (members.map Prod.fst) (encodeMembers members ++ rest) =
      some (members.map fun m => coerce m.2, rest) := by
  induction members with
  | nil => rfl
  | cons m members ih =>
      obtain ⟨name, value⟩ := m
      have hcomma : comma (members.map Prod.fst) = comma members := by
        rw [comma, List.isEmpty_map, comma]
      have hinput : encodeMembers ((name, value) :: members) ++ rest =
          (encodeString name ++ [58]) ++ (encodeString value ++
            (comma members ++ (encodeMembers members ++ rest))) := by
        simp only [encodeMembers, List.append_assoc]
      rw [hinput, List.map_cons, decodeMembers, expect_append]
      simp only [Option.bind_eq_bind, Option.bind_some, decodeString_encodeString, hcomma,
        expect_append, ih]
      rfl

/-- One object is read back from the head of a stream. -/
theorem decodeLoop_encode (members : List (GoString × GoString)) (k : ℕ) (rest : GoString) :
    decodeLoop (members.map Prod.fst) (k + 1) (encode members ++ rest) =
      (decodeLoop (members.map Prod.fst) k (10 :: rest)).map
        ((members.map fun m => coerce m.2) :: ·) := by
  have hinput : encode members ++ rest = 123 :: (encodeMembers members ++ 10 :: rest) := by
    simp only [encode, List.append_assoc, List.cons_append, List.nil_append]
  have hobject : expect [123] (123 :: (encodeMembers members ++ 10 :: rest)) =
      some (encodeMembers members ++ 10 :: rest) := expect_append [123] _
  rw [decodeLoop, hinput, List.dropWhile_cons_of_neg (by decide)]
  simp only [hobject, Option.bind_eq_bind, Option.bind_some, decodeMembers_encodeMembers]
  cases decodeLoop (members.map Prod.fst) k (10 :: rest) with
  | none => rfl
  | some objects => rfl

/-- The newline after an object is skipped. -/
theorem decodeLoop_newline (names : List GoString) (k : ℕ) (s : GoString) :
    decodeLoop names k (10 :: s) = decodeLoop names k s := by
  cases k with
  | zero => rfl
  | succ k => rw [decodeLoop, decodeLoop, List.dropWhile_cons_of_pos rfl]

/-- **A stream of objects is read back with its strings coerced to valid UTF-8.** -/
theorem decodeAll_flatMap {names : List GoString} {objects : List (List (GoString × GoString))}
    (h : ∀ members ∈ objects, members.map Prod.fst = names) :
    decodeAll names (objects.flatMap encode) =
      some (objects.map fun members => members.map fun m => coerce m.2) := by
  have hloop (k : ℕ) (hk : objects.length < k) : decodeLoop names k (objects.flatMap encode) =
      some (objects.map fun members => members.map fun m => coerce m.2) := by
    induction objects generalizing k with
    | nil =>
        obtain ⟨k, rfl⟩ := Nat.exists_eq_succ_of_ne_zero (Nat.ne_of_gt hk)
        rfl
    | cons members objects ih =>
        rw [List.length_cons] at hk
        obtain ⟨k, rfl⟩ : ∃ k', k = k' + 1 := ⟨k - 1, by omega⟩
        have hnames := h members List.mem_cons_self
        have hrest := ih (fun o ho => h o (List.mem_cons_of_mem _ ho)) k (by omega)
        rw [List.flatMap_cons, ← hnames, decodeLoop_encode, decodeLoop_newline, hnames, hrest]
        rfl
  have hlength (objects : List (List (GoString × GoString))) :
      objects.length ≤ (objects.flatMap encode).length := by
    induction objects with
    | nil => exact le_rfl
    | cons members objects ih =>
        rw [List.flatMap_cons, List.length_append, List.length_cons, encode, List.append_assoc,
          List.singleton_append, List.length_cons]
        omega
  exact hloop _ (Nat.lt_succ_of_le (hlength objects))

example : encode [(.ofString "Key", [60, 255]), (.ofString "Value", [])] =
    .ofString "\x7b\"Key\":\"\\u003c\\ufffd\",\"Value\":\"\"\x7d\n" := by decide

end DistributedSystems.Json
