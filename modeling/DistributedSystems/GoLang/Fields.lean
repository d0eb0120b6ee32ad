import DistributedSystems.GoLang.Json

/-! # The fields of a string

`range` over a string and `strings.FieldsFunc`. The loop of `FieldsFunc` keeps the span that is open
and closes it at every separator.

* `spans_eq` — the spans are the parts between the separators that are not empty;
* `valid_of_mem_fieldsFunc` — when U+FFFD is a separator, every field is valid UTF-8, whatever the
  string. -/

namespace DistributedSystems

/-! ## Spans -/

section Spans

variable {α : Type*}

/-- The open span, when it is closed. -/
def closeSpan (current : List α) : List (List α) := if current = [] then [] else [current]

/-- The loop of `FieldsFunc`, with the span that is open. -/
def spansFrom (sep : α → Bool) (current : List α) : List α → List (List α)
  | [] => closeSpan current
  | a :: l =>
      if sep a then closeSpan current ++ spansFrom sep [] l else spansFrom sep (current ++ [a]) l

/-- The spans of a list without separators. -/
def spans (sep : α → Bool) (l : List α) : List (List α) := spansFrom sep [] l

theorem modifyHead_nil_append (l : List (List α)) : l.modifyHead ([] ++ ·) = l := by
  cases l <;> rfl

theorem spansFrom_eq (sep : α → Bool) (current l : List α) :
    spansFrom sep current l = ((l.splitOnP sep).modifyHead (current ++ ·)).filter (· ≠ []) := by
  induction l generalizing current with
  | nil => by_cases h : current = [] <;> simp [spansFrom, closeSpan, h]
  | cons a l ih =>
      rw [spansFrom, List.splitOnP_cons_eq_if_modifyHead]
      split
      · rw [ih, modifyHead_nil_append]
        by_cases h : current = [] <;> simp [closeSpan, h]
      · rw [ih, List.modifyHead_modifyHead]
        congr 2
        funext span
        exact (List.append_cons current a span).symm

/-- **The spans are the parts between the separators that are not empty.** -/
theorem spans_eq (sep : α → Bool) (l : List α) :
    spans sep l = (l.splitOnP sep).filter (· ≠ []) := by
  rw [spans, spansFrom_eq, modifyHead_nil_append]

/-- What holds of the open span and of everything that is no separator holds in every span. -/
theorem forall_mem_spansFrom {P : α → Prop} {sep : α → Bool} {current l span : List α}
    (hcurrent : ∀ a ∈ current, P a) (hl : ∀ a ∈ l, sep a = false → P a)
    (h : span ∈ spansFrom sep current l) : ∀ a ∈ span, P a := by
  have hclose {current : List α} (hcurrent : ∀ a ∈ current, P a)
      (h : span ∈ closeSpan current) : ∀ a ∈ span, P a := by
    rw [closeSpan] at h
    split at h
    · exact absurd h List.not_mem_nil
    · rwa [List.mem_singleton.mp h]
  induction l generalizing current with
  | nil => exact hclose hcurrent h
  | cons a l ih =>
      have hl' : ∀ x ∈ l, sep x = false → P x := fun x hx => hl x (List.mem_cons_of_mem _ hx)
      rw [spansFrom] at h
      split at h
      · rcases List.mem_append.mp h with h | h
        · exact hclose hcurrent h
        · exact ih (by simp) hl' h
      · next ha =>
          refine ih (fun x hx => ?_) hl' h
          rcases List.mem_append.mp hx with hx | hx
          · exact hcurrent x hx
          · rw [List.mem_singleton.mp hx]
            exact hl a List.mem_cons_self (Bool.eq_false_iff.mpr ha)

end Spans

/-! ## Fields -/

namespace Utf8

/-- The pieces of a string with their bytes: a character, or U+FFFD for a byte that belongs to
none. -/
def cut : GoString → List (Option GoString) → List (GoString × GoString)
  | _, [] => []
  | s, some c :: rs => (c, c) :: cut (s.drop c.length) rs
  | s, none :: rs => (replacement, s.take 1) :: cut (s.drop 1) rs

/-- `range` over a string: the characters it yields, each with the bytes it stands for. -/
def range (s : GoString) : List (GoString × GoString) := cut s (runes s)

/-- `strings.FieldsFunc`: the parts of a string between the characters that `f` accepts. -/
def fieldsFunc (s : GoString) (f : GoString → Bool) : List GoString :=
  (spans (fun piece => f piece.1) (range s)).map fun span => span.flatMap Prod.snd

/-- What `range` yields is a character with its own bytes, or U+FFFD. -/
theorem range_cases {s : GoString} {piece : GoString × GoString} (h : piece ∈ range s) :
    (IsRune piece.1 ∧ piece.2 = piece.1) ∨ piece.1 = replacement := by
  have hcut (rs : List (Option GoString)) (s : GoString) (h : piece ∈ cut s rs) :
      (some piece.1 ∈ rs ∧ piece.2 = piece.1) ∨ piece.1 = replacement := by
    induction rs generalizing s with
    | nil => exact absurd h List.not_mem_nil
    | cons r rs ih =>
        cases r with
        | none =>
            rcases List.mem_cons.mp h with rfl | h
            · exact Or.inr rfl
            · exact (ih _ h).imp_left (And.imp_left (List.mem_cons_of_mem _))
        | some c =>
            rcases List.mem_cons.mp h with rfl | h
            · exact Or.inl ⟨List.mem_cons_self, rfl⟩
            · exact (ih _ h).imp_left (And.imp_left (List.mem_cons_of_mem _))
  exact (hcut _ s h).imp_left (And.imp_left isRune_of_mem)

/-- The pieces do not depend on the fuel, once it suffices. -/
theorem runesFrom_eq_runes {k : ℕ} {s : GoString} (hk : s.length ≤ k) : runesFrom k s = runes s := by
  have hfuel (k k' : ℕ) (s : GoString) (hk : s.length ≤ k) (hk' : s.length ≤ k') :
      runesFrom k s = runesFrom k' s := by
    induction k generalizing k' s with
    | zero =>
        obtain rfl := List.length_eq_zero_iff.mp (Nat.le_zero.mp hk)
        cases k' <;> rfl
    | succ k ih =>
        cases s with
        | nil => cases k' <;> rfl
        | cons x s =>
            rw [List.length_cons] at hk hk'
            obtain ⟨k', rfl⟩ := Nat.exists_eq_succ_of_ne_zero (n := k') (by omega)
            rw [runesFrom, runesFrom]
            split
            · next n hn =>
                have hpos := (runeLength_bounds hn).1
                have hlength : ((x :: s).drop n).length ≤ s.length := by
                  rw [List.length_drop, List.length_cons]
                  omega
                rw [ih k' _ (by omega) (by omega)]
            · rw [ih k' s (by omega) (by omega)]
  exact hfuel k s.length s hk le_rfl

/-- **A character at the head of a string is its first piece.** -/
theorem runes_append {c : GoString} (hc : IsRune c) (s : GoString) :
    runes (c ++ s) = some c :: runes s := by
  have hlength := hc.append s
  obtain ⟨x, rest, -, -, -, heq, -⟩ := exists_of_runeLength hlength
  rw [runes, heq, List.length_cons, runesFrom, ← heq, hlength]
  have hpos := (runeLength_bounds hlength).1
  have hcount := congrArg List.length heq
  rw [List.length_append, List.length_cons] at hcount
  simp only [List.take_left, List.drop_left]
  rw [runesFrom_eq_runes (by omega)]

/-- A string of whole characters is valid. -/
theorem valid_flatten {cs : List GoString} (h : ∀ c ∈ cs, IsRune c) : valid cs.flatten = true := by
  have hrunes : runes cs.flatten = cs.map some := by
    induction cs with
    | nil => rfl
    | cons c cs ih =>
        rw [List.flatten_cons, runes_append (h c List.mem_cons_self),
          ih fun c hc => h c (List.mem_cons_of_mem _ hc), List.map_cons]
  simp [valid, hrunes]

/-- A string of ASCII bytes is valid. -/
theorem valid_of_ascii {s : GoString} (h : ∀ x ∈ s, x < 0x80) : valid s = true := by
  have hflatten : (s.map fun x => [x]).flatten = s := by
    rw [← List.flatMap_def, List.flatMap_singleton']
  rw [← hflatten]
  refine valid_flatten fun c hc => ?_
  obtain ⟨x, hx, rfl⟩ := List.mem_map.mp hc
  exact Json.isRune_singleton (h x hx)

/-- **Fields are valid UTF-8** when U+FFFD separates fields. -/
theorem valid_of_mem_fieldsFunc {s : GoString} {f : GoString → Bool} (hf : f replacement = true)
    {field : GoString} (h : field ∈ fieldsFunc s f) : valid field = true := by
  obtain ⟨span, hspan, rfl⟩ := List.mem_map.mp h
  rw [List.flatMap_def]
  refine valid_flatten fun c hc => ?_
  obtain ⟨piece, hpiece, rfl⟩ := List.mem_map.mp hc
  refine forall_mem_spansFrom (P := fun piece => IsRune piece.2) (by simp) ?_ hspan piece hpiece
  -- a piece that is no separator is not U+FFFD
  intro piece hpiece hsep
  rcases range_cases hpiece with ⟨hrune, heq⟩ | heq
  · rwa [heq]
  · rw [heq, hf] at hsep
    cases hsep

end Utf8

end DistributedSystems
