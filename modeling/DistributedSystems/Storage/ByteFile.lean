import Mathlib.Data.List.Basic

/-! # Files written at an offset

A file is a list of cells. `writeAt` overwrites or extends it from an offset on, and fills a hole
between its end and the offset. Several writers may write the same intended contents into one file,
each at its own offset; `Agrees f full p` says that the file holds the first `p` cells of the
intended contents, and the lemmas say what a write of an intended segment does to it:

* `Agrees.writeAt` — a write of one writer keeps what another has written;
* `Agrees.writeAt_self` — a write at the end of what is written extends it;
* `Agrees.eq_of_length_le` — a file that holds all of the contents, and is not longer, is the
  contents. -/

namespace DistributedSystems.ByteFile

universe u

variable {β : Type u}

/-- Write `bytes` at `offset`; a hole before the offset is filled with `pad`. -/
def writeAt (pad : β) (f : List β) (offset : ℕ) (bytes : List β) : List β :=
  f.take offset ++ List.replicate (offset - f.length) pad ++ bytes ++ f.drop (offset + bytes.length)

variable {pad : β} {f full seg : List β} {offset p : ℕ}

theorem length_writeAt : (writeAt pad f offset seg).length = max f.length (offset + seg.length) := by
  simp only [writeAt, List.length_append, List.length_take, List.length_replicate, List.length_drop]
  omega

/-- A cell before the offset, inside the old file, is kept. -/
theorem getElem?_writeAt_left {i : ℕ} (hi : i < offset) (hf : i < f.length) :
    (writeAt pad f offset seg)[i]? = f[i]? := by
  rw [writeAt, List.append_assoc, List.append_assoc, List.getElem?_append_left (by simp; omega),
    List.getElem?_take, if_pos hi]

/-- A cell of the written segment. -/
theorem getElem?_writeAt_mid {i : ℕ} (hi : i < seg.length) :
    (writeAt pad f offset seg)[offset + i]? = seg[i]? := by
  -- what is kept of the file, filled up, ends at the offset
  have hlen : (f.take offset ++ List.replicate (offset - f.length) pad).length = offset := by
    simp; omega
  rw [writeAt, List.append_assoc, List.getElem?_append_right (by omega), hlen,
    Nat.add_sub_cancel_left, List.getElem?_append_left hi]

/-- A cell behind the written segment is kept. -/
theorem getElem?_writeAt_right {i : ℕ} (hi : offset + seg.length ≤ i) :
    (writeAt pad f offset seg)[i]? = f[i]? := by
  have hlen : (f.take offset ++ List.replicate (offset - f.length) pad ++ seg).length =
      offset + seg.length := by
    simp; omega
  rw [writeAt, List.getElem?_append_right (by omega), hlen, List.getElem?_drop]
  congr 1
  omega

/-- The file holds the first `p` cells of the contents. -/
def Agrees (f full : List β) (p : ℕ) : Prop := ∀ i < p, f[i]? = full[i]?

/-- The segment is what the contents have at the offset. -/
def SegmentOf (full : List β) (offset : ℕ) (seg : List β) : Prop :=
  ∀ i < seg.length, seg[i]? = full[offset + i]?

theorem Agrees.zero : Agrees f full 0 := fun i hi => absurd hi (Nat.not_lt_zero i)

/-- A part of the contents is a segment of them. -/
theorem segmentOf_append (before seg after : List β) :
    SegmentOf (before ++ seg ++ after) before.length seg := by
  intro i hi
  rw [List.append_assoc, List.getElem?_append_right (Nat.le_add_right _ _),
    Nat.add_sub_cancel_left, List.getElem?_append_left hi]

/-- **A write of an intended segment keeps what is already right.** -/
theorem Agrees.writeAt (h : Agrees f full p) (hp : p ≤ full.length)
    (hseg : SegmentOf full offset seg) : Agrees (writeAt pad f offset seg) full p := by
  intro i hi
  rcases Nat.lt_or_ge i offset with hlt | hge
  · -- the cell was right, so it lies inside the old file
    have hf : i < f.length := by
      have hfi := h i hi
      rw [List.getElem?_eq_getElem (l := full) (by omega)] at hfi
      exact (List.getElem?_eq_some_iff.mp hfi).1
    rw [getElem?_writeAt_left hlt hf, h i hi]
  · rcases Nat.lt_or_ge i (offset + seg.length) with hlt' | hge'
    · obtain ⟨k, rfl⟩ := Nat.exists_eq_add_of_le hge
      rw [getElem?_writeAt_mid (by omega), hseg k (by omega)]
    · rw [getElem?_writeAt_right hge', h i hi]

/-- **A write at the end of what is right extends it.** -/
theorem Agrees.writeAt_self (h : Agrees f full offset) (hoff : offset ≤ full.length)
    (hseg : SegmentOf full offset seg) :
    Agrees (ByteFile.writeAt pad f offset seg) full (offset + seg.length) := by
  intro i hi
  rcases Nat.lt_or_ge i offset with hlt | hge
  · exact h.writeAt hoff hseg i hlt
  · obtain ⟨k, rfl⟩ := Nat.exists_eq_add_of_le hge
    rw [getElem?_writeAt_mid (by omega), hseg k (by omega)]

/-- **A file that holds all of the contents, and is not longer, is the contents.** -/
theorem Agrees.eq_of_length_le (h : Agrees f full full.length) (hlen : f.length ≤ full.length) :
    f = full := by
  refine List.ext_getElem? fun i => ?_
  rcases Nat.lt_or_ge i full.length with hi | hi
  · exact h i hi
  · rw [List.getElem?_eq_none hi, List.getElem?_eq_none (by omega)]

end DistributedSystems.ByteFile
