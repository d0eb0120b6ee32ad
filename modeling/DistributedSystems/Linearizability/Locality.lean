import Mathlib.Data.List.Perm.Basic
import Mathlib.Data.List.Pairwise
import Mathlib.Data.List.Dedup
import Mathlib.Order.WithBot
import Mathlib.Logic.Function.Basic

/-! # Operations with times, and locality

Operations are called at one time and return at another. They are *linearizable* when the object
accepts them in an order in which none comes after one that was called when it had returned.

* `stepAt` — one object for each key: an operation is a step of the object of its key;
* `stamp` — a point between the call and the return of each operation, in the given order;
* `linearizable_iff_forall_key` — **locality**: operations on many objects are linearizable exactly
  when those on each object are. From the points of the objects' own orders one gets a common
  order. -/

namespace DistributedSystems.Linearizability

variable {α κ σ T : Type*} [LinearOrder T] (call ret : α → T)

/-- **Operations with times are linearizable**: they are accepted in an order in which no operation
comes after one that was called when it had returned. -/
def TimedLinearizable (step : σ → α → Option σ) (s : σ) (history : List α) : Prop :=
  ∃ order : List α, order.Perm history ∧ (order.Pairwise fun a b => ¬ ret b < call a) ∧
    (order.foldlM step s).isSome

/-! ## An object for each key -/

section Objects

variable [DecidableEq κ] (key : α → κ) (step : σ → α → Option σ)

/-- An operation is a step of the object of its key. -/
def stepAt (s : κ → σ) (a : α) : Option (κ → σ) :=
  (step (s (key a)) a).map (Function.update s (key a))

variable {key step}

theorem filter_key_self (a : α) (l : List α) :
    ((a :: l).filter fun b => key b = key a) = a :: l.filter fun b => key b = key a :=
  List.filter_cons_of_pos (p := fun b => decide (key b = key a)) (decide_eq_true rfl)

theorem filter_key_ne {a : α} {k : κ} (h : key a ≠ k) (l : List α) :
    ((a :: l).filter fun b => key b = k) = l.filter fun b => key b = k :=
  List.filter_cons_of_neg (p := fun b => decide (key b = k)) (by simpa using h)

/-- The operations are accepted when every object accepts its own. -/
theorem foldlM_stepAt {order : List α} {s t : κ → σ} :
    order.foldlM (stepAt key step) s = some t ↔
      ∀ k, (order.filter fun a => key a = k).foldlM step (s k) = some (t k) := by
  induction order generalizing s with
  | nil => exact ⟨fun h k => congrArg _ (congrFun (Option.some.inj h) k),
      fun h => congrArg some (funext fun k => Option.some.inj (h k))⟩
  | cons a order ih =>
      rw [List.foldlM_cons, stepAt]
      cases hstep : step (s (key a)) a with
      | none =>
          refine iff_of_false (Option.some_ne_none t).symm fun h => ?_
          have hk := h (key a)
          rw [filter_key_self, List.foldlM_cons, hstep] at hk
          exact Option.some_ne_none _ hk.symm
      | some x =>
          refine Iff.trans ih (forall_congr' fun k => ?_)
          by_cases heq : key a = k
          · subst heq
            rw [Function.update_self, filter_key_self, List.foldlM_cons, hstep]
            rfl
          · rw [Function.update_of_ne (Ne.symm heq), filter_key_ne heq]

/-- The operations by their keys. -/
theorem perm_flatMap_filter {keys : List κ} (hnodup : keys.Nodup) {l : List α}
    (hmem : ∀ a ∈ l, key a ∈ keys) :
    (keys.flatMap fun k => l.filter fun a => key a = k).Perm l := by
  induction keys generalizing l with
  | nil =>
      have hnil : l = [] := List.eq_nil_iff_forall_not_mem.mpr fun a ha =>
        List.not_mem_nil (hmem a ha)
      rw [hnil, List.flatMap_nil]
  | cons k keys ih =>
      obtain ⟨hk, hnodup⟩ := List.nodup_cons.mp hnodup
      have hothers (k' : κ) (hk' : k' ∈ keys) :
          (l.filter fun a => key a = k') =
            (l.filter fun a => !decide (key a = k)).filter fun a => key a = k' := by
        rw [List.filter_filter]
        refine List.filter_congr fun a _ => ?_
        by_cases heq : key a = k'
        · have hne : key a ≠ k := fun h => hk (h ▸ heq ▸ hk')
          simp [heq, heq ▸ hne]
        · simp [heq]
      rw [List.flatMap_cons, List.flatMap_congr hothers]
      refine ((ih hnodup fun a ha => ?_).append_left _).trans
        (List.filter_append_perm (fun a => decide (key a = k)) l)
      obtain ⟨ha, hne⟩ := List.mem_filter.mp ha
      exact (List.mem_cons.mp (hmem a ha)).resolve_left (by simpa using hne)

end Objects

/-! ## Points -/

/-- A point for every operation of an order: the latest call so far. -/
def stamp : WithBot T → List α → List (WithBot T × α)
  | _, [] => []
  | t, a :: order => (max t (call a), a) :: stamp (max t (call a)) order

@[simp] theorem map_snd_stamp (t : WithBot T) (order : List α) :
    (stamp call t order).map Prod.snd = order := by
  induction order generalizing t with
  | nil => rfl
  | cons a order ih => rw [stamp, List.map_cons, ih]

/-- The points are not before the start. -/
theorem le_stamp {t : WithBot T} {order : List α} {x : WithBot T × α}
    (hx : x ∈ stamp call t order) : t ≤ x.1 := by
  induction order generalizing t with
  | nil => exact absurd hx List.not_mem_nil
  | cons a order ih =>
      rcases List.mem_cons.mp hx with rfl | hx
      · exact le_max_left _ _
      · exact (le_max_left _ _).trans (ih hx)

/-- The points are in the given order. -/
theorem pairwise_stamp (t : WithBot T) (order : List α) :
    (stamp call t order).Pairwise fun x y => x.1 ≤ y.1 := by
  induction order generalizing t with
  | nil => exact List.Pairwise.nil
  | cons a order ih => exact List.Pairwise.cons (fun _ hy => le_stamp call hy) (ih _)

variable {call ret}

/-- **The points are between the calls and the returns.** -/
theorem stamp_between {t : WithBot T} {order : List α} (hvalid : ∀ a ∈ order, call a ≤ ret a)
    (horder : order.Pairwise fun a b => ¬ ret b < call a) (ht : ∀ a ∈ order, t ≤ ret a)
    {x : WithBot T × α} (hx : x ∈ stamp call t order) :
    (call x.2 : WithBot T) ≤ x.1 ∧ x.1 ≤ ret x.2 := by
  induction order generalizing t with
  | nil => exact absurd hx List.not_mem_nil
  | cons a order ih =>
      obtain ⟨hfirst, horder⟩ := List.pairwise_cons.mp horder
      obtain ⟨hta, ht⟩ := List.forall_mem_cons.mp ht
      obtain ⟨hcall, hvalid⟩ := List.forall_mem_cons.mp hvalid
      rcases List.mem_cons.mp hx with rfl | hx
      · exact ⟨le_max_right _ _, max_le hta (WithBot.coe_le_coe.mpr hcall)⟩
      · refine ih hvalid horder (fun b hb => max_le (ht b hb) ?_) hx
        exact WithBot.coe_le_coe.mpr (not_lt.mp (hfirst b hb))

/-! ## Locality -/

/-- The order of points. -/
def earlier (x y : WithBot T × α) : Bool := x.1 ≤ y.1

theorem earlier_trans (x y z : WithBot T × α) (hxy : earlier x y = true)
    (hyz : earlier y z = true) : earlier x z = true :=
  decide_eq_true (le_trans (of_decide_eq_true hxy) (of_decide_eq_true hyz))

theorem earlier_total (x y : WithBot T × α) : (earlier x y || earlier y x) = true := by
  rw [Bool.or_eq_true, earlier, earlier, decide_eq_true_eq, decide_eq_true_eq]
  exact le_total x.1 y.1

/-- The operations of all objects, by their points. -/
def merged (call : α → T) (keys : List κ) (order : κ → List α) : List (WithBot T × α) :=
  (keys.flatMap fun k => stamp call ⊥ (order k)).mergeSort earlier

variable {keys : List κ} {order : κ → List α}

theorem merged_perm :
    (merged call keys order).Perm (keys.flatMap fun k => stamp call ⊥ (order k)) :=
  List.mergeSort_perm _ _

theorem map_snd_merged_perm :
    ((merged call keys order).map Prod.snd).Perm (keys.flatMap order) := by
  refine (merged_perm.map Prod.snd).trans (List.Perm.of_eq ?_)
  rw [List.map_flatMap]
  exact List.flatMap_congr fun k _ => map_snd_stamp call ⊥ (order k)

/-- The operations of an object keep their order, since the points are sorted by a stable sort. -/
theorem sublist_merged {k : κ} (hk : k ∈ keys) :
    (order k).Sublist ((merged call keys order).map Prod.snd) := by
  have hsub : (stamp call ⊥ (order k)).Sublist (keys.flatMap fun k => stamp call ⊥ (order k)) :=
    List.sublist_flatten_of_mem (List.mem_map_of_mem hk)
  have hpoints : (stamp call ⊥ (order k)).Pairwise fun x y => earlier x y = true :=
    (pairwise_stamp call ⊥ (order k)).imp fun hle => decide_eq_true hle
  have hmerged := (List.sublist_mergeSort earlier_trans earlier_total hpoints hsub).map Prod.snd
  rwa [map_snd_stamp] at hmerged

/-- In the common order no operation comes after one that was called when it had returned: the points
are between. -/
theorem ordered_merged (hvalid : ∀ k, ∀ a ∈ order k, call a ≤ ret a)
    (hordered : ∀ k, (order k).Pairwise fun a b => ¬ ret b < call a) :
    ((merged call keys order).map Prod.snd).Pairwise fun a b => ¬ ret b < call a := by
  have hbetween (x : WithBot T × α) (hx : x ∈ merged call keys order) :
      (call x.2 : WithBot T) ≤ x.1 ∧ x.1 ≤ ret x.2 := by
    obtain ⟨k, -, hx⟩ := List.mem_flatMap.mp (merged_perm.subset hx)
    exact stamp_between (hvalid k) (hordered k) (fun _ _ => bot_le) hx
  rw [List.pairwise_map]
  refine (List.pairwise_mergeSort earlier_trans earlier_total _).imp_of_mem fun hx hy hle => ?_
  have hcall : (call _ : WithBot T) ≤ ret _ :=
    (hbetween _ hx).1.trans ((of_decide_eq_true hle).trans (hbetween _ hy).2)
  exact not_lt.mpr (WithBot.coe_le_coe.mp hcall)

variable [DecidableEq κ] {key : α → κ} {step : σ → α → Option σ}

/-- The common order is one of all operations. -/
theorem merged_perm_history {history : List α}
    (hperm : ∀ k, (order k).Perm (history.filter fun a => key a = k)) :
    ((merged call (history.map key).dedup order).map Prod.snd).Perm history := by
  calc ((merged call (history.map key).dedup order).map Prod.snd).Perm
        ((history.map key).dedup.flatMap order) := map_snd_merged_perm
    List.Perm _ ((history.map key).dedup.flatMap fun k => history.filter fun a => key a = k) :=
      List.Perm.flatMap_left _ fun k _ => hperm k
    List.Perm _ history := perm_flatMap_filter (List.nodup_dedup _) fun a ha =>
      List.mem_dedup.mpr (List.mem_map_of_mem ha)

/-- The operations of an object in the common order are in its own order. -/
theorem filter_merged {history : List α}
    (hperm : ∀ k, (order k).Perm (history.filter fun a => key a = k)) (k : κ) :
    (((merged call (history.map key).dedup order).map Prod.snd).filter fun a => key a = k) =
      order k := by
  have hfilter : (((merged call (history.map key).dedup order).map Prod.snd).filter
      fun a => key a = k).Perm (order k) :=
    ((merged_perm_history hperm).filter _).trans (hperm k).symm
  by_cases hk : k ∈ (history.map key).dedup
  · have hself : ((order k).filter fun a => key a = k) = order k :=
      List.filter_eq_self.mpr fun a ha => (List.mem_filter.mp ((hperm k).subset ha)).2
    have hsub : (order k).Sublist ((merged call (history.map key).dedup order).map Prod.snd) :=
      sublist_merged hk
    have hsub := hsub.filter fun a => key a = k
    rw [hself] at hsub
    exact (hsub.eq_of_length hfilter.length_eq.symm).symm
  · -- there is no operation with this key
    have hnil : order k = [] := by
      refine List.eq_nil_iff_forall_not_mem.mpr fun a ha => hk (List.mem_dedup.mpr ?_)
      obtain ⟨ha, hkey⟩ := List.mem_filter.mp ((hperm k).subset ha)
      exact List.mem_map.mpr ⟨a, ha, of_decide_eq_true hkey⟩
    rw [hnil] at hfilter ⊢
    exact hfilter.eq_nil

/-- **Locality.** Operations on many objects are linearizable exactly when those on each object
are. -/
theorem linearizable_iff_forall_key {history : List α} (hvalid : ∀ a ∈ history, call a ≤ ret a)
    (s : κ → σ) :
    TimedLinearizable call ret (stepAt key step) s history ↔
      ∀ k, TimedLinearizable call ret step (s k) (history.filter fun a => key a = k) := by
  constructor
  · rintro ⟨order, hperm, hordered, hsome⟩ k
    obtain ⟨t, ht⟩ := Option.isSome_iff_exists.mp hsome
    refine ⟨order.filter fun a => key a = k, hperm.filter _, hordered.filter _, ?_⟩
    rw [foldlM_stepAt.mp ht k]
    rfl
  · intro h
    choose order hperm hordered hsome using h
    choose t ht using fun k => Option.isSome_iff_exists.mp (hsome k)
    have hvalid' (k : κ) (a : α) (ha : a ∈ order k) : call a ≤ ret a :=
      hvalid a (List.mem_filter.mp ((hperm k).subset ha)).1
    refine ⟨(merged call (history.map key).dedup order).map Prod.snd, merged_perm_history hperm,
      ordered_merged hvalid' hordered, Option.isSome_iff_exists.mpr ⟨t, ?_⟩⟩
    refine foldlM_stepAt.mpr fun k => ?_
    rw [filter_merged hperm k]
    exact ht k

end DistributedSystems.Linearizability
