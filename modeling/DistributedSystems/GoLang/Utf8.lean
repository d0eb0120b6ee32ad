import DistributedSystems.GoLang.Strings

/-! # UTF-8

`unicode/utf8`: the length of the encoded character at the head of a string, and a string as its
characters and its bytes that belong to none. `coerce` replaces such bytes by U+FFFD, as conversions
of the standard library do.

* `runeLength_take` — whether a character is at the head depends on its own bytes only;
* `isRune_of_mem` — the pieces of a string are whole characters;
* `coerce_eq_self` — exactly the valid strings are their own coercion. -/

namespace DistributedSystems.Utf8

/-- The table of first bytes: how many bytes follow, and the range of the first of them. -/
def acceptRange (x : Byte) : Option (ℕ × Byte × Byte) :=
  if x < 0x80 then some (0, 0x80, 0xBF)
  else if 0xC2 ≤ x ∧ x ≤ 0xDF then some (1, 0x80, 0xBF)
  else if x = 0xE0 then some (2, 0xA0, 0xBF)
  else if x = 0xED then some (2, 0x80, 0x9F)
  else if 0xE1 ≤ x ∧ x ≤ 0xEF then some (2, 0x80, 0xBF)
  else if x = 0xF0 then some (3, 0x90, 0xBF)
  else if 0xF1 ≤ x ∧ x ≤ 0xF3 then some (3, 0x80, 0xBF)
  else if x = 0xF4 then some (3, 0x80, 0x8F)
  else none

/-- The bytes that follow a first byte: as many as it announces, the first of them in its range. -/
def follows : ℕ → Byte → Byte → GoString → Bool
  | 0, _, _, _ => true
  | _ + 1, _, _, [] => false
  | n + 1, low, high, y :: s => decide (low ≤ y ∧ y ≤ high) && follows n 0x80 0xBF s

/-- The length of the character at the head of a string, if there is one. -/
def runeLength : GoString → Option ℕ
  | [] => none
  | x :: s =>
      match acceptRange x with
      | none => none
      | some (n, low, high) => if follows n low high s then some (n + 1) else none

/-- A single whole character. -/
def IsRune (c : GoString) : Prop := runeLength c = some c.length

/-- The pieces of a string: characters, and `none` for a byte that belongs to none. -/
def runesFrom : ℕ → GoString → List (Option GoString)
  | 0, _ => []
  | _ + 1, [] => []
  | k + 1, x :: s =>
      match runeLength (x :: s) with
      | some n => some ((x :: s).take n) :: runesFrom k ((x :: s).drop n)
      | none => none :: runesFrom k s

/-- The pieces of a string. -/
def runes (s : GoString) : List (Option GoString) := runesFrom s.length s

/-- U+FFFD, the replacement character. -/
def replacement : GoString := [0xEF, 0xBF, 0xBD]

/-- The string with U+FFFD in the place of every byte that belongs to no character. -/
def coerce (s : GoString) : GoString := (runes s).flatMap (·.getD replacement)

/-- `utf8.ValidString`. -/
def valid (s : GoString) : Bool := (runes s).all Option.isSome

/-- `utf8.AppendRune` on an empty string: a code point that is no character is replaced. -/
def encodeRune (r : ℕ) : GoString :=
  if r < 0x80 then [Fin.ofNat 256 r]
  else if r < 0x800 then [Fin.ofNat 256 (0xC0 + r / 64), Fin.ofNat 256 (0x80 + r % 64)]
  else if 0xD800 ≤ r ∧ r ≤ 0xDFFF ∨ 0x10FFFF < r then replacement
  else if r < 0x10000 then
    [Fin.ofNat 256 (0xE0 + r / 4096), Fin.ofNat 256 (0x80 + r / 64 % 64),
      Fin.ofNat 256 (0x80 + r % 64)]
  else
    [Fin.ofNat 256 (0xF0 + r / 262144), Fin.ofNat 256 (0x80 + r / 4096 % 64),
      Fin.ofNat 256 (0x80 + r / 64 % 64), Fin.ofNat 256 (0x80 + r % 64)]

/-! ## Characters -/

theorem follows_le {n : ℕ} {low high : Byte} {s : GoString} (h : follows n low high s = true) :
    n ≤ s.length := by
  induction n generalizing low high s with
  | zero => exact Nat.zero_le _
  | succ n ih =>
      cases s with
      | nil => exact absurd h Bool.false_ne_true
      | cons y s =>
          rw [follows, Bool.and_eq_true] at h
          exact Nat.succ_le_succ (ih h.2)

/-- What follows a first byte is read from the bytes that it announces. -/
theorem follows_take {n : ℕ} {low high : Byte} {s : GoString} (h : follows n low high s = true)
    (rest : GoString) : follows n low high (s.take n ++ rest) = true := by
  induction n generalizing low high s with
  | zero => rfl
  | succ n ih =>
      cases s with
      | nil => exact absurd h Bool.false_ne_true
      | cons y s =>
          rw [follows, Bool.and_eq_true] at h
          rw [List.take_succ_cons, List.cons_append, follows, h.1, ih h.2, Bool.and_true]

/-- A character is a first byte and the bytes that it announces. -/
theorem exists_of_runeLength {s : GoString} {n : ℕ} (h : runeLength s = some n) :
    ∃ x rest k low high, s = x :: rest ∧ n = k + 1 ∧ acceptRange x = some (k, low, high) ∧
      follows k low high rest = true := by
  cases s with
  | nil => exact absurd h (by simp [runeLength])
  | cons x rest =>
      rw [runeLength] at h
      split at h
      · exact absurd h (by simp)
      · next k low high haccept =>
        split at h
        · next hfollows =>
          exact ⟨x, rest, k, low, high, rfl, (Option.some.inj h).symm, haccept, hfollows⟩
        · exact absurd h (by simp)

/-- A character is not empty and not longer than the string. -/
theorem runeLength_bounds {s : GoString} {n : ℕ} (h : runeLength s = some n) :
    1 ≤ n ∧ n ≤ s.length := by
  obtain ⟨x, rest, k, low, high, rfl, rfl, -, hfollows⟩ := exists_of_runeLength h
  exact ⟨Nat.succ_le_succ (Nat.zero_le k), Nat.succ_le_succ (follows_le hfollows)⟩

/-- **A character is recognised by its own bytes**, whatever follows it. -/
theorem runeLength_take {s : GoString} {n : ℕ} (h : runeLength s = some n) (rest : GoString) :
    runeLength (s.take n ++ rest) = some n := by
  obtain ⟨x, tail, k, low, high, rfl, rfl, haccept, hfollows⟩ := exists_of_runeLength h
  rw [List.take_succ_cons, List.cons_append, runeLength, haccept]
  simp only [follows_take hfollows rest, if_true]

/-- The head of a string is a whole character. -/
theorem isRune_take {s : GoString} {n : ℕ} (h : runeLength s = some n) : IsRune (s.take n) := by
  have htake := runeLength_take h []
  rw [List.append_nil] at htake
  rw [IsRune, htake, List.length_take, Nat.min_eq_left (runeLength_bounds h).2]

/-- A whole character before other bytes. -/
theorem IsRune.append {c : GoString} (h : IsRune c) (rest : GoString) :
    runeLength (c ++ rest) = some c.length := by
  have htake := runeLength_take h rest
  rwa [List.take_length] at htake

/-! ## Pieces -/

/-- **Induction over the pieces of a string**: a character at the head, or a byte that belongs to
none. -/
theorem runes_induction {P : GoString → List (Option GoString) → Prop} (nil : P [] [])
    (rune : ∀ s n rs, runeLength s = some n → P (s.drop n) rs → P s (some (s.take n) :: rs))
    (bad : ∀ x s rs, P s rs → P (x :: s) (none :: rs)) (s : GoString) : P s (runes s) := by
  have hfrom (k : ℕ) (s : GoString) (hk : s.length ≤ k) : P s (runesFrom k s) := by
    induction k generalizing s with
    | zero =>
        obtain rfl := List.length_eq_zero_iff.mp (Nat.le_zero.mp hk)
        exact nil
    | succ k ih =>
        cases s with
        | nil => exact nil
        | cons x s =>
            rw [runesFrom]
            rw [List.length_cons] at hk
            split
            · next n hn =>
              -- a character has at least one byte, so the fuel suffices for the rest
              have hpos := (runeLength_bounds hn).1
              refine rune _ _ _ hn (ih _ ?_)
              rw [List.length_drop, List.length_cons]
              omega
            · exact bad _ _ _ (ih _ (by omega))
  exact hfrom _ s le_rfl

/-- **The pieces of a string are whole characters.** -/
theorem isRune_of_mem {s c : GoString} (h : some c ∈ runes s) : IsRune c := by
  refine runes_induction (P := fun _ rs => some c ∈ rs → IsRune c) ?_ ?_ ?_ s h
  · exact fun hmem => absurd hmem List.not_mem_nil
  · intro s n rs hn ih hmem
    rcases List.mem_cons.mp hmem with heq | hmem
    · rw [Option.some.inj heq]
      exact isRune_take hn
    · exact ih hmem
  · intro x s rs ih hmem
    rcases List.mem_cons.mp hmem with heq | hmem
    · exact absurd heq (by simp)
    · exact ih hmem

/-- Every replaced byte makes the string two bytes longer. -/
theorem length_coerce (s : GoString) :
    (coerce s).length = s.length + 2 * (runes s).countP Option.isNone := by
  refine runes_induction (P := fun s rs => (rs.flatMap (·.getD replacement)).length =
    s.length + 2 * rs.countP Option.isNone) rfl ?_ ?_ s
  · intro s n rs hn ih
    have hle := (runeLength_bounds hn).2
    rw [List.flatMap_cons, List.length_append, ih, Option.getD_some, List.length_take,
      List.length_drop, List.countP_cons_of_neg (by simp)]
    omega
  · intro x s rs ih
    have hlength : replacement.length = 3 := rfl
    rw [List.flatMap_cons, List.length_append, ih, List.countP_cons_of_pos rfl, Option.getD_none,
      List.length_cons]
    omega

/-- The characters of a valid string are the string. -/
theorem coerce_of_valid {s : GoString} (h : valid s = true) : coerce s = s := by
  refine runes_induction (P := fun s rs => rs.all Option.isSome = true →
    rs.flatMap (·.getD replacement) = s) (fun _ => rfl) ?_ ?_ s h
  · intro s n rs _ ih hvalid
    rw [List.flatMap_cons, ih hvalid, Option.getD_some, List.take_append_drop]
  · intro x s rs _ hvalid
    exact absurd hvalid Bool.false_ne_true

/-- **Exactly the valid strings are their own coercion.** -/
theorem coerce_eq_self {s : GoString} : coerce s = s ↔ valid s = true := by
  refine ⟨fun h => ?_, coerce_of_valid⟩
  have hlength := length_coerce s
  rw [h] at hlength
  have hcount : (runes s).countP Option.isNone = 0 := by omega
  rw [valid, List.all_eq_true]
  intro r hr
  have hr := List.countP_eq_zero.mp hcount r hr
  cases r with
  | none => exact absurd rfl hr
  | some c => rfl

example : coerce [0x61, 0xFF, 0xC3, 0xA5] = [0x61, 0xEF, 0xBF, 0xBD, 0xC3, 0xA5] := by decide

end DistributedSystems.Utf8
