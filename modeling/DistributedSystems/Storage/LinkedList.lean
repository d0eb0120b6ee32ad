import Mathlib.Logic.Function.Basic
import Mathlib.Data.List.Basic

/-! # Doubly linked lists

The nodes of a heap are numbered, and `Links` gives the next and the previous node of each. A node
that is taken out of a list keeps its own links, so that it can be put back at its place.

* `Chain L r ps` — the nodes after `r` are `ps`, and every one of them links back;
* `Chain.unlink` — a node is taken out, and putting it back restores every link. -/

namespace DistributedSystems

/-- The links of the nodes of a heap; `none` is the null pointer. -/
@[ext] structure Links where
  /-- The next node. -/
  next : ℕ → Option ℕ
  /-- The previous node. -/
  prev : ℕ → Option ℕ

namespace Links

/-- No node is linked to another. -/
def empty : Links := ⟨fun _ => none, fun _ => none⟩

/-- Change the next node of a node. -/
def setNext (L : Links) (p : ℕ) (q : Option ℕ) : Links :=
  { L with next := Function.update L.next p q }

/-- Change the previous node of a node. -/
def setPrev (L : Links) (p : ℕ) (q : Option ℕ) : Links :=
  { L with prev := Function.update L.prev p q }

section Setters

variable (L : Links) (p : ℕ) (q q' : Option ℕ)

@[simp] theorem setNext_next : (L.setNext p q).next = Function.update L.next p q := rfl

@[simp] theorem setNext_prev : (L.setNext p q).prev = L.prev := rfl

@[simp] theorem setPrev_next : (L.setPrev p q).next = L.next := rfl

@[simp] theorem setPrev_prev : (L.setPrev p q).prev = Function.update L.prev p q := rfl

end Setters

/-- Take a node out of its list; `none` when it has no previous node. -/
def unlink (L : Links) (p : ℕ) : Option Links := do
  let a ← L.prev p
  let L := L.setNext a (L.next p)
  return (L.next p).elim L fun b => L.setPrev b (L.prev p)

/-- Put a node back at the place that its own links tell; `none` when it has no previous node. -/
def relink (L : Links) (p : ℕ) : Option Links := do
  let a ← L.prev p
  let L := L.setNext a (some p)
  return (L.next p).elim L fun b => L.setPrev b (some p)

variable {L L' : Links} {n p q r : ℕ} {ps xs ys : List ℕ}

/-- The nodes after the first one, linked in both directions. -/
def Chain (L : Links) : ℕ → List ℕ → Prop
  | p, [] => L.next p = none
  | p, q :: ps => L.next p = some q ∧ L.prev q = some p ∧ Chain L q ps

/-- A chain depends on the links of its nodes only. -/
theorem Chain.congr (hnext : ∀ x ∈ r :: ps, L'.next x = L.next x)
    (hprev : ∀ x ∈ ps, L'.prev x = L.prev x) (h : L.Chain r ps) : L'.Chain r ps := by
  induction ps generalizing r with
  | nil => exact (hnext r List.mem_cons_self).trans h
  | cons q ps ih =>
      obtain ⟨hr, hq, h⟩ := h
      refine ⟨(hnext r List.mem_cons_self).trans hr, (hprev q List.mem_cons_self).trans hq, ?_⟩
      exact ih (fun x hx => hnext x (List.mem_cons_of_mem r hx))
        (fun x hx => hprev x (List.mem_cons_of_mem q hx)) h

/-- The node after the first one. -/
theorem Chain.next_eq (h : L.Chain r ps) : L.next r = ps.head? := by
  cases ps with
  | nil => exact h
  | cons q ps => exact h.1

/-- The chain from a node of the chain. -/
theorem Chain.drop (h : L.Chain r (xs ++ p :: ys)) : L.Chain p ys := by
  induction xs generalizing r with
  | nil => exact h.2.2
  | cons x xs ih => exact ih h.2.2

/-- The node after the first one is taken out. -/
theorem Chain.unlink_first (h : L.Chain r (p :: ys)) (hnodup : (r :: p :: ys).Nodup) :
    ∃ L', L.unlink p = some L' ∧ L'.Chain r ys ∧ L'.relink p = some L ∧
      (∀ x ≠ r, L'.next x = L.next x) ∧ ∀ x ∉ ys, L'.prev x = L.prev x := by
  obtain ⟨hr, hp, h⟩ := h
  obtain ⟨hnotMem, hnodup⟩ := List.nodup_cons.mp hnodup
  obtain ⟨hne, hnotMem⟩ : r ≠ p ∧ r ∉ ys := by simpa using hnotMem
  have hnext : L.next p = ys.head? := h.next_eq
  cases ys with
  | nil =>
      refine ⟨L.setNext r none, ?_, ?_, ?_, fun x hx => ?_, fun x _ => rfl⟩
      · simp [Links.unlink, hp, hnext, hne.symm]
      · exact Function.update_self r none L.next
      · have hback : (L.setNext r none).setNext r (some p) = L := Links.ext (by simp [← hr]) rfl
        simp [relink, hp, hnext, hne.symm, hback]
      · exact Function.update_of_ne hx none L.next
  | cons b ys =>
      obtain ⟨-, hb, h⟩ := h
      obtain ⟨hpb, hbys⟩ : p ≠ b ∧ b ∉ ys := by
        simp only [List.nodup_cons, List.mem_cons, not_or] at hnodup
        exact ⟨hnodup.1.1, hnodup.2.1⟩
      refine ⟨(L.setNext r (some b)).setPrev b (some r), ?_, ⟨?_, ?_, ?_⟩, ?_, fun x hx => ?_,
        fun x hx => ?_⟩
      · simp [Links.unlink, hp, hnext, hne.symm]
      · exact Function.update_self r _ L.next
      · exact Function.update_self b _ L.prev
      · refine h.congr (fun x hx => Function.update_of_ne ?_ _ _)
          fun x hx => Function.update_of_ne ?_ _ _
        · rintro rfl
          exact hnotMem hx
        · rintro rfl
          exact hbys hx
      · -- the own links of the node tell its place
        have hback : (((L.setNext r (some b)).setPrev b (some r)).setNext r (some p)).setPrev b
            (some p) = L := Links.ext (by simp [← hr]) (by simp [← hb])
        simp [relink, hp, hnext, hpb, hne.symm, hback]
      · exact Function.update_of_ne hx _ _
      · refine Function.update_of_ne ?_ _ _
        rintro rfl
        exact hx List.mem_cons_self

/-- **A node is taken out of a chain**, and putting it back restores every link. -/
theorem Chain.unlink (h : L.Chain r (xs ++ p :: ys)) (hnodup : (r :: (xs ++ p :: ys)).Nodup) :
    ∃ L', L.unlink p = some L' ∧ L'.Chain r (xs ++ ys) ∧ L'.relink p = some L ∧
      (∀ x ∉ r :: xs, L'.next x = L.next x) ∧ ∀ x ∉ ys, L'.prev x = L.prev x := by
  induction xs generalizing r with
  | nil =>
      obtain ⟨L', hunlink, hchain, hrelink, hnext, hprev⟩ := h.unlink_first hnodup
      exact ⟨L', hunlink, hchain, hrelink, fun x hx => hnext x (List.ne_of_not_mem_cons hx), hprev⟩
  | cons x xs ih =>
      obtain ⟨hr, hx, h⟩ := h
      obtain ⟨hnotMem, hnodup⟩ := List.nodup_cons.mp hnodup
      obtain ⟨L', hunlink, hchain, hrelink, hnext, hprev⟩ := ih h hnodup
      refine ⟨L', hunlink, ⟨?_, ?_, hchain⟩, hrelink, fun y hy => hnext y ?_, hprev⟩
      · rw [hnext r fun hmem => hnotMem ?_, hr]
        simp only [List.cons_append, List.mem_cons, List.mem_append] at hmem ⊢
        exact hmem.imp id Or.inl
      · rw [hprev x fun hmem => (List.nodup_cons.mp hnodup).1 ?_, hx]
        exact List.mem_append_right xs (List.mem_cons_of_mem p hmem)
      · exact fun hmem => hy (List.mem_cons_of_mem r hmem)

end Links

end DistributedSystems
