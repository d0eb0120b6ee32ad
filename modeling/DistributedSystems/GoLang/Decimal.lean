import DistributedSystems.GoLang.Strings
import Mathlib.Data.Nat.Digits.Lemmas

/-! # Decimal numerals

`strconv.Itoa` (and the verb `%d`), `strconv.ParseUint` in base ten and `strconv.Atoi`, on byte
strings.

* `parseUint_formatUint` — a number is read back from its numeral;
* `atoi_itoa` — the same for numbers with a sign;
* `formatUint_of_parseUint` — a numeral without leading zeros is written back;
* `itoa_injective` — different numbers have different numerals. -/

namespace DistributedSystems.Decimal

/-- The digit of a number below ten. -/
def digit (d : ℕ) : Byte := Fin.ofNat 256 (48 + d)

/-- The value of a digit. -/
def digitValue (x : Byte) : Option ℕ := if 48 ≤ x ∧ x ≤ 57 then some (x.val - 48) else none

/-- The decimal numeral of a natural number. -/
def formatUint (n : ℕ) : GoString :=
  if n = 0 then [digit 0] else ((Nat.digits 10 n).map digit).reverse

/-- `strconv.Itoa`. -/
def itoa : ℤ → GoString
  | .ofNat n => formatUint n
  -- 45 is `'-'`
  | .negSucc n => 45 :: formatUint (n + 1)

@[simp] theorem itoa_natCast (n : ℕ) : itoa (n : ℤ) = formatUint n := rfl

/-- `strconv.ParseUint` in base ten; numerals have any length here. -/
def parseUint (s : GoString) : Option ℕ :=
  if s = [] then none else (s.reverse.mapM digitValue).map (Nat.ofDigits 10)

/-- `strconv.Atoi`: a numeral with an optional sign. -/
def atoi : GoString → Option ℤ
  | 43 :: s => (parseUint s).map Int.ofNat
  | 45 :: s => (parseUint s).map fun n => -Int.ofNat n
  | s => (parseUint s).map Int.ofNat

example : itoa (-120) = .ofString "-120" := by decide
example : atoi (.ofString "+07") = some 7 := by decide

/-! ## Digits -/

theorem digitValue_digit {d : ℕ} (h : d < 10) : digitValue (digit d) = some d := by
  interval_cases d <;> rfl

theorem digit_of_digitValue {x : Byte} {d : ℕ} (h : digitValue x = some d) :
    d < 10 ∧ digit d = x := by
  unfold digitValue at h
  split at h
  · next hx =>
    obtain rfl := Option.some.inj h
    have hlo : 48 ≤ x.val := hx.1
    have hhi : x.val ≤ 57 := hx.2
    refine ⟨by omega, Fin.ext ?_⟩
    simp only [digit, Fin.val_ofNat]
    omega
  · exact absurd h (by simp)

/-- A digit is a byte between `'0'` and `'9'`. -/
theorem digit_range {d : ℕ} (h : d < 10) : 48 ≤ digit d ∧ digit d ≤ 57 := by
  interval_cases d <;> decide

/-- Reading digits that were written. -/
theorem mapM_digitValue {ds : List ℕ} (h : ∀ d ∈ ds, d < 10) :
    (ds.map digit).mapM digitValue = some ds := by
  induction ds with
  | nil => rfl
  | cons d ds ih =>
      rw [List.map_cons, List.mapM_cons, digitValue_digit (h d List.mem_cons_self),
        ih fun d' hd' => h d' (List.mem_cons_of_mem d hd')]
      rfl

/-- Writing digits that were read. -/
theorem map_digit_of_mapM {s : GoString} {ds : List ℕ} (h : s.mapM digitValue = some ds) :
    (∀ d ∈ ds, d < 10) ∧ ds.map digit = s := by
  induction s generalizing ds with
  | nil =>
      obtain rfl : [] = ds := Option.some.inj h
      simp
  | cons x s ih =>
      rw [List.mapM_cons] at h
      obtain ⟨d, hd, h⟩ := Option.bind_eq_some_iff.mp h
      obtain ⟨ds', hds', h⟩ := Option.bind_eq_some_iff.mp h
      obtain rfl := Option.some.inj h
      obtain ⟨hlt, hdigit⟩ := digit_of_digitValue hd
      obtain ⟨hlts, hdigits⟩ := ih hds'
      exact ⟨List.forall_mem_cons.mpr ⟨hlt, hlts⟩, by rw [List.map_cons, hdigit, hdigits]⟩

/-! ## Numerals -/

theorem formatUint_ne_nil (n : ℕ) : formatUint n ≠ [] := by
  unfold formatUint
  split
  · simp
  · next hn => simpa [Nat.digits_ne_nil_iff_ne_zero] using hn

/-- A numeral has digits only. -/
theorem formatUint_digits (n : ℕ) : ∀ x ∈ formatUint n, 48 ≤ x ∧ x ≤ 57 := by
  intro x hx
  unfold formatUint at hx
  split at hx
  · obtain rfl := List.mem_singleton.mp hx
    decide
  · obtain ⟨d, hd, rfl⟩ := List.mem_map.mp (List.mem_reverse.mp hx)
    exact digit_range (Nat.digits_lt_base (by decide) hd)

/-- A numeral has digits and a minus sign only. -/
theorem itoa_bytes (z : ℤ) : ∀ x ∈ itoa z, x = 45 ∨ 48 ≤ x ∧ x ≤ 57 := by
  intro x hx
  cases z with
  | ofNat n => exact Or.inr (formatUint_digits n x hx)
  | negSucc n =>
      rcases List.mem_cons.mp hx with rfl | hx
      · exact Or.inl rfl
      · exact Or.inr (formatUint_digits _ x hx)

/-- **A number is read back from its numeral.** -/
theorem parseUint_formatUint (n : ℕ) : parseUint (formatUint n) = some n := by
  rw [parseUint, if_neg (formatUint_ne_nil n)]
  unfold formatUint
  split
  · next hn =>
    subst hn
    rfl
  · rw [List.reverse_reverse, mapM_digitValue fun d hd => Nat.digits_lt_base (by decide) hd,
      Option.map_some, Nat.ofDigits_digits]

/-- **A number with a sign is read back from its numeral.** -/
theorem atoi_itoa (z : ℤ) : atoi (itoa z) = some z := by
  cases z with
  | ofNat n =>
      -- the first byte is a digit, and so no sign
      have hsign : ∀ (x : Byte) (s : GoString), formatUint n = x :: s → 48 ≤ x := fun x s heq =>
        (formatUint_digits n x (heq ▸ List.mem_cons_self)).1
      rw [itoa, atoi, parseUint_formatUint, Option.map_some]
      · exact fun s heq => absurd (hsign 43 s heq) (by decide)
      · exact fun s heq => absurd (hsign 45 s heq) (by decide)
  | negSucc n =>
      rw [itoa, atoi, parseUint_formatUint, Option.map_some]
      rfl

/-- A numeral has the value of its digits. -/
theorem exists_digits_of_parseUint {s : GoString} {n : ℕ} (h : parseUint s = some n) :
    ∃ ds : List ℕ, (∀ d ∈ ds, d < 10) ∧ ds.map digit = s.reverse ∧ n = Nat.ofDigits 10 ds := by
  unfold parseUint at h
  split at h
  · exact absurd h (by simp)
  · obtain ⟨ds, hds, rfl⟩ := Option.map_eq_some_iff.mp h
    obtain ⟨hlt, hdigits⟩ := map_digit_of_mapM hds
    exact ⟨ds, hlt, hdigits, rfl⟩

/-- **A numeral that does not start with a zero is written back.** -/
theorem formatUint_of_parseUint {x : Byte} {s : GoString} {n : ℕ}
    (h : parseUint (x :: s) = some n) (hx : x ≠ 48) : formatUint n = x :: s := by
  obtain ⟨ds, hlt, hdigits, rfl⟩ := exists_digits_of_parseUint h
  -- the digit read last is the first byte of the numeral
  have hlast : ∀ hne : ds ≠ [], ds.getLast hne ≠ 0 := by
    intro hne hzero
    have hget := congrArg List.getLast? hdigits
    rw [List.getLast?_map, List.getLast?_eq_some_getLast hne, hzero, List.reverse_cons,
      List.getLast?_concat] at hget
    exact hx (Option.some.inj hget).symm
  have hround : Nat.digits 10 (Nat.ofDigits 10 ds) = ds :=
    Nat.digits_ofDigits 10 (by decide) ds hlt hlast
  have hne : Nat.ofDigits 10 ds ≠ 0 := by
    rw [← Nat.digits_ne_nil_iff_ne_zero (b := 10), hround]
    rintro rfl
    exact absurd hdigits (by simp)
  rw [formatUint, if_neg hne, hround, hdigits, List.reverse_reverse]

/-- The value of a numeral is bounded by its length. -/
theorem lt_of_parseUint {s : GoString} {n : ℕ} (h : parseUint s = some n) : n < 10 ^ s.length := by
  obtain ⟨ds, hlt, hdigits, rfl⟩ := exists_digits_of_parseUint h
  have hlength := congrArg List.length hdigits
  rw [List.length_map, List.length_reverse] at hlength
  rw [← hlength]
  exact Nat.ofDigits_lt_base_pow_length (by decide) hlt

/-- A leading zero does not count. -/
theorem lt_of_parseUint_zero {s : GoString} {n : ℕ} (h : parseUint (48 :: s) = some n) :
    n < 10 ^ s.length := by
  obtain ⟨ds, hlt, hdigits, rfl⟩ := exists_digits_of_parseUint h
  rw [List.reverse_cons] at hdigits
  obtain ⟨low, high, rfl, hlow, hhigh⟩ := List.map_eq_append_iff.mp hdigits
  obtain ⟨d, rfl, hd⟩ := List.map_eq_singleton_iff.mp hhigh
  obtain rfl : d = 0 := by
    have hvalue := digitValue_digit (hlt d (by simp))
    rw [hd] at hvalue
    exact (Option.some.inj hvalue).symm
  have hlength := congrArg List.length hlow
  rw [List.length_map, List.length_reverse] at hlength
  rw [Nat.ofDigits_append, Nat.ofDigits_singleton, Nat.mul_zero, Nat.add_zero, ← hlength]
  exact Nat.ofDigits_lt_base_pow_length (by decide) fun d hd => hlt d (List.mem_append_left _ hd)

/-- Different numbers have different numerals. -/
theorem formatUint_injective : Function.Injective formatUint := by
  intro n m h
  have hparse := congrArg parseUint h
  rw [parseUint_formatUint, parseUint_formatUint] at hparse
  exact Option.some.inj hparse

/-- **Different numbers have different numerals.** -/
theorem itoa_injective : Function.Injective itoa := by
  have hsign (n m : ℕ) : formatUint n ≠ 45 :: formatUint m := by
    intro h
    have := formatUint_digits n 45 (h ▸ List.mem_cons_self)
    exact absurd this (by decide)
  intro a b h
  cases a with
  | ofNat n =>
      cases b with
      | ofNat m => rw [formatUint_injective h]
      | negSucc m => exact absurd h (hsign n _)
  | negSucc n =>
      cases b with
      | ofNat m => exact absurd h.symm (hsign m _)
      | negSucc m => rw [Nat.succ_injective (formatUint_injective (List.cons.inj h).2)]

end DistributedSystems.Decimal
