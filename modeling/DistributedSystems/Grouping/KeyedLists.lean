import Mathlib.Algebra.BigOperators.Group.Finset.Piecewise
import Mathlib.Algebra.Order.Group.Multiset
import Mathlib.Data.List.Sort

/-! # Grouping a list by key

The values of a list are collected under their keys, and each key with its values gives one output.
`reduceByKey` is the multiset of the outputs, one for each key that occurs.

* `coe_map_eq_reduceByKey` — any list of the keys without repetition computes it;
* `reduceByKey_perm` — it depends on the list up to order, when an output depends on its values up
  to order;
* `sum_reduceByKey` — it is the sum over the parts of any partition of the keys;
* `reduceByKey_run` — the first run of equal keys of a sorted list is the first key with its
  values. -/

namespace DistributedSystems.Keyed

universe u v w x

variable {α : Type u} {κ : Type v} {ν : Type w} {β : Type x} [DecidableEq κ]
variable (key : α → κ) (value : α → ν) (out : κ → List ν → β)

/-- The values under a key, in the order of the list. -/
def valuesOf (l : List α) (k : κ) : List ν := (l.filter fun a => key a = k).map value

/-- **Reduction by key**: the multiset of the outputs, one for each key that occurs. -/
def reduceByKey (l : List α) : Multiset β :=
  ((l.map key).dedup.map fun k => out k (valuesOf key value l k) : List β)

/-- An output depends on the values of its key up to order. -/
def OrderFree (out : κ → List ν → β) : Prop := ∀ k vs ws, vs.Perm ws → out k vs = out k ws

variable {key value out}

theorem valuesOf_perm {l l' : List α} (h : l.Perm l') (k : κ) :
    (valuesOf key value l k).Perm (valuesOf key value l' k) :=
  (h.filter _).map value

/-- The values under a key are those of any part of the list that keeps the key. -/
theorem valuesOf_filter {p : κ → Bool} {k : κ} (hk : p k = true) (l : List α) :
    valuesOf key value (l.filter fun a => p (key a)) k = valuesOf key value l k := by
  rw [valuesOf, valuesOf, List.filter_filter]
  -- an element with the key `k` passes `p`, so filtering by `p` first changes nothing
  refine congrArg _ (List.filter_congr fun a _ => ?_)
  by_cases h : key a = k
  · simp [h, hk]
  · simp [h]

/-- **Any list of the keys without repetition computes the reduction.** -/
theorem coe_map_eq_reduceByKey {l : List α} {ks : List κ} (hnodup : ks.Nodup)
    (hmem : ∀ k, k ∈ ks ↔ k ∈ l.map key) :
    (ks.map fun k => out k (valuesOf key value l k) : List β) = reduceByKey key value out l := by
  refine Multiset.coe_eq_coe.mpr (List.Perm.map _ ?_)
  rw [List.perm_ext_iff_of_nodup hnodup (List.nodup_dedup _)]
  intro k
  rw [hmem, List.mem_dedup]

/-- **The reduction depends on the list up to order**, for order-free outputs. -/
theorem reduceByKey_perm (hout : OrderFree out) {l l' : List α} (h : l.Perm l') :
    reduceByKey key value out l = reduceByKey key value out l' := by
  have hkeys : ∀ k, k ∈ (l.map key).dedup ↔ k ∈ l'.map key := by
    intro k
    rw [List.mem_dedup]
    exact (h.map key).mem_iff
  rw [← coe_map_eq_reduceByKey (List.nodup_dedup _) hkeys, reduceByKey]
  refine congrArg _ (List.map_congr_left fun k _ => ?_)
  exact hout k _ _ (valuesOf_perm h k)

/-- The reduction of one part of a partition of the keys. -/
theorem reduceByKey_filter (p : κ → Bool) (l : List α) :
    reduceByKey key value out (l.filter fun a => p (key a)) =
      (((l.map key).dedup.filter p).map fun k => out k (valuesOf key value l k) : List β) := by
  rw [← coe_map_eq_reduceByKey ((List.nodup_dedup (l.map key)).filter p)]
  · refine congrArg _ (List.map_congr_left fun k hk => ?_)
    rw [valuesOf_filter (List.mem_filter.mp hk).2]
  · intro k
    simp only [List.mem_filter, List.mem_dedup, List.mem_map]
    constructor
    · rintro ⟨⟨a, ha, rfl⟩, hp⟩
      exact ⟨a, ⟨ha, hp⟩, rfl⟩
    · rintro ⟨a, ⟨ha, hp⟩, rfl⟩
      exact ⟨⟨a, ha, rfl⟩, hp⟩

omit [DecidableEq κ] in
/-- A list is the sum of its parts. -/
theorem sum_coe_filter {n : ℕ} (part : κ → ℕ) (ks : List κ) (hpart : ∀ k ∈ ks, part k < n) :
    ∑ b ∈ Finset.range n, ((ks.filter fun k => part k = b : List κ) : Multiset κ) = ks := by
  induction ks with
  | nil => simp
  | cons k ks ih =>
      have hk := hpart k List.mem_cons_self
      have hone : ∀ b, (((k :: ks).filter fun k => part k = b : List κ) : Multiset κ) =
          (if part k = b then {k} else 0) +
            ((ks.filter fun k => part k = b : List κ) : Multiset κ) := by
        intro b
        by_cases h : part k = b
        · simp [h]
        · simp [h]
      simp only [hone, Finset.sum_add_distrib, ih fun k hk => hpart k (List.mem_cons_of_mem _ hk),
        Finset.sum_ite_eq, Finset.mem_range, hk, if_true]
      rfl

/-- **The reduction is the sum over the parts** of a partition of the keys into `n` parts. -/
theorem sum_reduceByKey {n : ℕ} (part : κ → ℕ) (l : List α) (hpart : ∀ a ∈ l, part (key a) < n) :
    ∑ b ∈ Finset.range n, reduceByKey key value out (l.filter fun a => part (key a) = b) =
      reduceByKey key value out l := by
  have hkeys := sum_coe_filter part (l.map key).dedup (n := n) (by simpa using hpart)
  -- the keys are the sum of their parts, and reducing each key is additive
  have hmap := congrArg (Multiset.mapAddMonoidHom fun k => out k (valuesOf key value l k)) hkeys
  rw [map_sum] at hmap
  rw [reduceByKey, ← Multiset.map_coe]
  refine Eq.trans (Finset.sum_congr rfl fun b _ => ?_) hmap
  exact reduceByKey_filter (fun k => part k = b) l

/-! ## Runs of a sorted list -/

/-- The first key, with its values, and the rest of the list. -/
theorem reduceByKey_cons (a : α) (l : List α) :
    reduceByKey key value out (a :: l) = out (key a) (valuesOf key value (a :: l) (key a)) ::ₘ
      reduceByKey key value out (l.filter fun x => key x ≠ key a) := by
  have hfilter : reduceByKey key value out ((a :: l).filter fun x => key x ≠ key a) = _ :=
    reduceByKey_filter (fun k => k ≠ key a) (a :: l)
  simp only [ne_eq, not_true, decide_false, Bool.false_eq_true, not_false_eq_true,
    List.filter_cons_of_neg] at hfilter
  -- the key of `a` first, then the other keys, is a list of the keys without repetition
  rw [hfilter, Multiset.cons_coe]
  have hnodup : (key a :: ((a :: l).map key).dedup.filter fun k => k ≠ key a).Nodup :=
    List.nodup_cons.mpr ⟨by simp, (List.nodup_dedup _).filter _⟩
  refine (coe_map_eq_reduceByKey hnodup fun k => ?_).symm
  by_cases hk : k = key a
  · simp [hk]
  · simp [hk]

section Runs

variable [PartialOrder κ]

/-- In a list sorted by key the run of the smallest key is all of that key. -/
theorem takeWhile_eq_filter {k : κ} {l : List α} (hk : ∀ a ∈ l, k ≤ key a)
    (h : l.Pairwise fun a b => key a ≤ key b) :
    l.takeWhile (fun a => key a = k) = l.filter (fun a => key a = k) ∧
      l.dropWhile (fun a => key a = k) = l.filter (fun a => key a ≠ k) := by
  induction l with
  | nil => exact ⟨rfl, rfl⟩
  | cons a l ih =>
      obtain ⟨ha, hl⟩ := List.pairwise_cons.mp h
      by_cases hak : key a = k
      · obtain ⟨htake, hdrop⟩ := ih (fun b hb => hk b (List.mem_cons_of_mem _ hb)) hl
        constructor
        · simp [hak, htake]
        · rw [List.dropWhile_cons_of_pos (by simpa using hak), hdrop,
            List.filter_cons_of_neg (by simpa using hak)]
      · -- the list starts after the key: nothing in it has the key
        have hlt : k < key a := lt_of_le_of_ne (hk a List.mem_cons_self) (Ne.symm hak)
        have hne : ∀ b ∈ l, key b ≠ k := fun b hb => ne_of_gt (lt_of_lt_of_le hlt (ha b hb))
        have hnil : l.filter (fun b => key b = k) = [] := by simpa using hne
        have hall : l.filter (fun b => key b ≠ k) = l := by simpa using hne
        constructor
        · simp [hak, hnil]
        · rw [List.dropWhile_cons_of_neg (by simpa using hak),
            List.filter_cons_of_pos (by simpa using hak), hall]

/-- **The first run of a sorted list**: the reduction is the output of the first key with the values
of its run, and the reduction of what follows the run. -/
theorem reduceByKey_run {a : α} {l : List α} (h : (a :: l).Pairwise fun a b => key a ≤ key b) :
    reduceByKey key value out (a :: l) =
      out (key a) ((a :: l.takeWhile fun x => key x = key a).map value) ::ₘ
        reduceByKey key value out (l.dropWhile fun x => key x = key a) := by
  obtain ⟨ha, hl⟩ := List.pairwise_cons.mp h
  obtain ⟨htake, hdrop⟩ := takeWhile_eq_filter ha hl
  rw [reduceByKey_cons, htake, hdrop, valuesOf, List.filter_cons_of_pos (by simp)]

end Runs

end DistributedSystems.Keyed
