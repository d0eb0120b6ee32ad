import Mathlib.Data.List.Basic

/-! # Bitsets

The bitset of `porcupine/bitset.go`: a slice of 64-bit words. An index that is out of range panics,
which is `none` here.

* `holds_newBitset`, `exists_set` — a bitset holds the positions that were set;
* `exists_set` says as well that `clear` undoes `set`;
* `equals_iff` — the comparison is equality. -/

namespace DistributedSystems.Porcupine

/-- `bitset`: bits 0 to 63 are in the first word, the next ones in the second word, and so on. -/
structure Bitset where
  /-- The words. -/
  words : List (BitVec 64)
  deriving DecidableEq

namespace Bitset

/-- `newBitset`. -/
def newBitset (bits : ℕ) : Bitset :=
  ⟨List.replicate (bits / 64 + if bits % 64 ≠ 0 then 1 else 0) 0⟩

/-- The word `1 << minor`. -/
def mask (minor : ℕ) : BitVec 64 := 1#64 <<< minor

/-- `set`. -/
def set (b : Bitset) (pos : ℕ) : Option Bitset :=
  b.words[pos / 64]?.map fun word => ⟨b.words.set (pos / 64) (word ||| mask (pos % 64))⟩

/-- `clear`. -/
def clear (b : Bitset) (pos : ℕ) : Option Bitset :=
  b.words[pos / 64]?.map fun word => ⟨b.words.set (pos / 64) (word &&& ~~~mask (pos % 64))⟩

/-- `get`. -/
def get (b : Bitset) (pos : ℕ) : Option Bool :=
  b.words[pos / 64]?.map fun word => word &&& mask (pos % 64) != 0

/-- `bits.OnesCount64`. -/
def onesCount (word : BitVec 64) : ℕ := (List.range 64).countP fun i => word.getLsbD i

/-- `popcnt`. -/
def popcnt (b : Bitset) : ℕ := b.words.foldl (fun total word => total + onesCount word) 0

/-- `hash`. -/
def hash (b : Bitset) : BitVec 64 := b.words.foldl (· ^^^ ·) (BitVec.ofNat 64 b.popcnt)

/-- `equals`. -/
def equals (b b₂ : Bitset) : Bool :=
  if b.words.length ≠ b₂.words.length then false
  else (List.zip b.words b₂.words).all fun pair => pair.1 = pair.2

variable {b b' : Bitset} {n pos q : ℕ}

/-! ## Words -/

theorem getLsbD_mask (i j : ℕ) : (mask i).getLsbD j = (decide (j < 64) && decide (i = j)) := by
  rw [mask, BitVec.getLsbD_shiftLeft, BitVec.getLsbD_one]
  grind

/-- The test of a bit. -/
theorem and_mask_bne_zero (word : BitVec 64) {i : ℕ} (hi : i < 64) :
    (word &&& mask i != 0) = word.getLsbD i := by
  have hbit (j : ℕ) : (word &&& mask i).getLsbD j = (word.getLsbD i && decide (i = j)) := by
    rw [BitVec.getLsbD_and, getLsbD_mask]
    by_cases hij : i = j
    · subst hij
      simp [hi]
    · simp [hij]
  rw [Bool.eq_iff_iff, bne_iff_ne]
  constructor
  · intro hne
    by_contra hword
    refine hne (BitVec.eq_of_getLsbD_eq fun j _ => ?_)
    rw [hbit, (Bool.not_eq_true _).mp hword, Bool.false_and, BitVec.ofNat_eq_ofNat,
      BitVec.getLsbD_zero]
  · intro hword heq
    have hzero := hbit i
    rw [heq, hword, BitVec.ofNat_eq_ofNat, BitVec.getLsbD_zero] at hzero
    simp at hzero

/-- A bit that was not set is cleared again. -/
theorem or_mask_and_not_mask {word : BitVec 64} {i : ℕ} (h : word.getLsbD i = false) :
    (word ||| mask i) &&& ~~~mask i = word := by
  refine BitVec.eq_of_getLsbD_eq fun j hj => ?_
  rw [BitVec.getLsbD_and, BitVec.getLsbD_or, BitVec.getLsbD_not, getLsbD_mask]
  by_cases hij : i = j
  · subst hij
    simp [h]
  · simp [hij, hj]

/-! ## Positions -/

theorem get_eq (b : Bitset) (pos : ℕ) :
    b.get pos = b.words[pos / 64]?.map fun word => word.getLsbD (pos % 64) := by
  rw [get]
  congr 1
  exact funext fun word => and_mask_bne_zero word (Nat.mod_lt pos (by omega))

/-- The bitset holds exactly the positions of a list, and has room for `n` positions. -/
def Holds (n : ℕ) (b : Bitset) (positions : List ℕ) : Prop :=
  ∀ pos < n, b.get pos = some (decide (pos ∈ positions))

theorem holds_newBitset (n : ℕ) : (newBitset n).Holds n [] := by
  intro pos hpos
  have hlt : pos / 64 < n / 64 + if n % 64 ≠ 0 then 1 else 0 := by
    split <;> omega
  rw [get_eq, newBitset, List.getElem?_replicate_of_lt hlt]
  simp

/-- **What `set` does**: the position is added, and `clear` takes it away again. -/
theorem exists_set {positions : List ℕ} (h : b.Holds n positions) (hpos : pos < n)
    (hnotMem : pos ∉ positions) :
    ∃ b', b.set pos = some b' ∧ b'.Holds n (positions ++ [pos]) ∧ b'.clear pos = some b := by
  have hget := h pos hpos
  rw [get_eq, decide_eq_false hnotMem] at hget
  obtain ⟨word, hword, hbit⟩ := Option.map_eq_some_iff.mp hget
  have hlt : pos / 64 < b.words.length := (List.getElem?_eq_some_iff.mp hword).1
  refine ⟨⟨b.words.set (pos / 64) (word ||| mask (pos % 64))⟩, by rw [set, hword]; rfl,
    fun q hq => ?_, ?_⟩
  · have hq' := h q hq
    rw [get_eq] at hq' ⊢
    rw [List.getElem?_set]
    by_cases hsame : pos / 64 = q / 64
    · rw [if_pos hsame, if_pos hlt, Option.map_some, BitVec.getLsbD_or, getLsbD_mask]
      rw [← hsame, hword, Option.map_some, Option.some.injEq] at hq'
      rw [hq', Option.some.injEq]
      have hmod : q % 64 < 64 := Nat.mod_lt q (by omega)
      have heq : pos % 64 = q % 64 ↔ q = pos := by omega
      simp [hmod, heq, Bool.decide_or]
    · have hne : q ≠ pos := fun heq => hsame (heq ▸ rfl)
      rw [if_neg hsame, hq']
      simp [hne]
  · rw [clear, List.getElem?_set_self hlt, Option.map_some, or_mask_and_not_mask hbit,
      List.set_set]
    rw [← (List.getElem?_eq_some_iff.mp hword).2, List.set_getElem_self]

/-- **The comparison is equality.** -/
theorem equals_iff : b.equals b' = true ↔ b = b' := by
  obtain ⟨words⟩ := b
  obtain ⟨words'⟩ := b'
  rw [equals, Bitset.mk.injEq]
  induction words generalizing words' with
  | nil => cases words' <;> simp
  | cons word words ih =>
      cases words' with
      | nil => simp
      | cons word' words' =>
          have ih := ih words'
          by_cases hlength : words.length = words'.length
          · simp only [hlength, List.length_cons, ne_eq, not_true_eq_false, if_false] at ih ⊢
            rw [List.zip_cons_cons, List.all_cons, Bool.and_eq_true, ih, List.cons.injEq,
              decide_eq_true_eq]
          · have hne : words ≠ words' := fun heq => hlength (congrArg List.length heq)
            simp [hlength, hne]

/-- Equal bitsets hold the same positions. -/
theorem Holds.mem_iff {positions positions' : List ℕ} (h : b.Holds n positions)
    (h' : b.Holds n positions') (hpos : pos < n) : pos ∈ positions ↔ pos ∈ positions' := by
  have heq := (h pos hpos).symm.trans (h' pos hpos)
  simpa using heq

end Bitset

end DistributedSystems.Porcupine
