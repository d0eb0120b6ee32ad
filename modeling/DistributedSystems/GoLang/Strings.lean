import Mathlib.Algebra.GroupWithZero.Nat
import Mathlib.Data.List.Lex
import Mathlib.Order.Fin.Basic

/-! # Go strings

A Go `string` is an arbitrary byte sequence; comparison is lexicographic on bytes. `GoString` is the
list of the bytes, so that the linear order of lists is Go's order on strings and no assumption of
valid UTF-8 is built in. -/

namespace DistributedSystems

/-- A byte. -/
abbrev Byte := Fin 256

-- named, so that the numerals and the equality of bytes mean the same term in every module
instance neZeroByte : NeZero 256 := ⟨Nat.succ_ne_zero 255⟩
instance lawfulBEqByte : LawfulBEq Byte := inferInstance

/-- A Go `string`: any sequence of bytes, ordered lexicographically. -/
abbrev GoString := List Byte

/-- The bytes of a string literal of the source. -/
def GoString.ofString (s : String) : GoString := s.toUTF8.data.toList.map UInt8.toFin

example : GoString.ofString "mr" = [109, 114] := by decide

/-- `strings.HasPrefix`. -/
def GoString.hasPrefix (s beginning : GoString) : Bool := beginning.isPrefixOf s

/-- `strings.TrimPrefix`. -/
def GoString.trimPrefix (s beginning : GoString) : GoString :=
  if s.hasPrefix beginning then s.drop beginning.length else s

/-- `strings.Join`. -/
def GoString.join (elems : List GoString) (sep : GoString) : GoString := sep.intercalate elems

/-- `strings.ToLower`, for comparisons with ASCII strings: `İ` (bytes `C4 B0`) and the Kelvin sign
(bytes `E2 84 AA`) are the only characters beyond ASCII whose lower case is ASCII; the others are
left as they are. -/
def GoString.toLower : GoString → GoString
  | 196 :: 176 :: rest => 105 :: toLower rest
  | 226 :: 132 :: 170 :: rest => 107 :: toLower rest
  | x :: rest => (if 65 ≤ x ∧ x ≤ 90 then x + 32 else x) :: toLower rest
  | [] => []

end DistributedSystems
