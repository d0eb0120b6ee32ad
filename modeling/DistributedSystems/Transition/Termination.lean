import DistributedSystems.Transition.System
import Mathlib.Data.Multiset.Basic
import Mathlib.Data.Multiset.Range
import Mathlib.Logic.Hydra

/-! # Runs that end

A system has no endless run whose steps meet a condition when every such step makes a measure of the
state smaller in a well-founded relation (`not_endless`). Where the state has finitely many parts and
a step makes one part smaller, the measure is the multiset of the parts (`cutExpand_update`). -/

namespace DistributedSystems.System

universe u v w

variable {σ : Type u} {α : Type v} {X : Type w}

/-- An endless run from a state, whose steps all meet a condition. -/
def Endless (S : System σ α) (C : σ → α → Prop) (s : σ) : Prop :=
  ∃ run : ℕ → σ, run 0 = s ∧ ∀ n, ∃ a, C (run n) a ∧ S.step (run n) a = some (run (n + 1))

/-- **The measure rule.** There is no endless run from a state with `P` when every step that meets
the condition keeps `P` and makes the measure smaller. -/
theorem not_endless {S : System σ α} {C : σ → α → Prop} {r : X → X → Prop} (hr : WellFounded r)
    (m : σ → X) {P : σ → Prop}
    (hstep : ∀ s a t, P s → C s a → S.step s a = some t → P t ∧ r (m t) (m s)) {s : σ} (hs : P s) :
    ¬ S.Endless C s := by
  rintro ⟨run, rfl, hrun⟩
  have hkept (n : ℕ) : P (run n) := by
    induction n with
    | zero => exact hs
    | succ n ih =>
        obtain ⟨a, ha, hnext⟩ := hrun n
        exact (hstep _ a _ ih ha hnext).1
  -- the states of the run have a least measure
  obtain ⟨_, ⟨n, rfl⟩, hmin⟩ := hr.has_min (Set.range fun n => m (run n)) ⟨_, 0, rfl⟩
  obtain ⟨a, ha, hnext⟩ := hrun n
  exact hmin _ ⟨n + 1, rfl⟩ (hstep _ a _ (hkept n) ha hnext).2

/-- A part among the first `n` that gets smaller makes the multiset of the parts smaller. -/
theorem cutExpand_update {r : X → X → Prop} {f : ℕ → X} {n i : ℕ} (hi : i < n) {x : X}
    (hx : r x (f i)) :
    Relation.CutExpand r ((Multiset.range n).map (Function.update f i x))
      ((Multiset.range n).map f) := by
  refine ⟨{x}, f i, fun y hy => Multiset.mem_singleton.mp hy ▸ hx, ?_⟩
  have hsplit : Multiset.range n = {i} + (Multiset.range n).erase i :=
    (Multiset.cons_erase (Multiset.mem_range.mpr hi)).symm
  have hnotMem : i ∉ (Multiset.range n).erase i := (Multiset.nodup_range n).notMem_erase
  have hsame : ((Multiset.range n).erase i).map (Function.update f i x) =
      ((Multiset.range n).erase i).map f := by
    refine Multiset.map_congr rfl fun j hj => Function.update_of_ne ?_ _ _
    rintro rfl
    exact hnotMem hj
  rw [hsplit, Multiset.map_add, Multiset.map_add, Multiset.map_singleton, Multiset.map_singleton,
    Function.update_self, hsame]
  ac_rfl

end DistributedSystems.System
