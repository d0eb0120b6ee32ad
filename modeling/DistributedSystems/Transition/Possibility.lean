import DistributedSystems.Transition.System

/-! # What a system can still do

`Leads C s t` says that some run whose steps all meet the condition `C` takes the state `s` to the
state `t`. Runs compose (`Leads.trans`), what every step keeps a run keeps (`Leads.related`), and a
goal can be reached from everywhere when some run always comes closer to it
(`exists_leads_of_measure`). -/

namespace DistributedSystems.System

universe u v

variable {σ : Type u} {α : Type v} {S : System σ α} {C : σ → α → Prop} {s t u : σ}

/-- Two runs whose steps meet a condition, one after the other. -/
theorem Along.append {as bs : List α} (h : S.exec s as = some t) (has : S.Along C s as)
    (hbs : S.Along C t bs) : S.Along C s (as ++ bs) := by
  induction as generalizing s with
  | nil =>
      obtain rfl : s = t := Option.some.inj h
      exact hbs
  | cons a as ih =>
      obtain ⟨s', hs', h⟩ := Option.bind_eq_some_iff.mp h
      rw [List.cons_append, along_cons]
      refine ⟨has.1, fun s'' hs'' => ?_⟩
      obtain rfl : s' = s'' := Option.some.inj (hs'.symm.trans hs'')
      exact ih h (has.2 s' hs')

/-- Some run whose steps meet the condition takes the first state to the second. -/
def Leads (S : System σ α) (C : σ → α → Prop) (s t : σ) : Prop :=
  ∃ as, S.exec s as = some t ∧ S.Along C s as

namespace Leads

theorem refl : S.Leads C s s := ⟨[], rfl, trivial⟩

theorem step {a : α} (hC : C s a) (ha : S.step s a = some t) : S.Leads C s t :=
  ⟨[a], by rw [exec_cons, ha]; rfl, hC, fun _ _ => trivial⟩

theorem trans (h : S.Leads C s t) (h' : S.Leads C t u) : S.Leads C s u := by
  obtain ⟨as, has, hC⟩ := h
  obtain ⟨bs, hbs, hC'⟩ := h'
  exact ⟨as ++ bs, by rw [exec_append, has, Option.bind_some, hbs], .append has hC hC'⟩

theorem mono {C' : σ → α → Prop} (hC : ∀ s a, C s a → C' s a) (h : S.Leads C s t) :
    S.Leads C' s t := by
  obtain ⟨as, has, h⟩ := h
  refine ⟨as, has, ?_⟩
  rw [along_iff] at h ⊢
  exact fun bs a cs u has hu => hC u a (h bs a cs u has hu)

/-- A reflexive and transitive relation that holds across every step holds across a run. -/
theorem related {R : σ → σ → Prop} (hrefl : ∀ s, R s s) (htrans : ∀ s t u, R s t → R t u → R s u)
    (hstep : ∀ s a t, C s a → S.step s a = some t → R s t) (h : S.Leads C s t) : R s t := by
  obtain ⟨as, has, hC⟩ := h
  exact Along.invariant (P := R s) (hrefl s)
    (fun t a u ht ha hu => htrans s t u ht (hstep t a u ha hu)) hC has

end Leads

/-- A run from a reachable state leads to a reachable state. -/
theorem Reachable.leads (h : S.Reachable s) (h' : S.Leads C s t) : S.Reachable t := by
  obtain ⟨as, has, -⟩ := h'
  exact h.exec has

/-- **The progress rule.** A goal can be reached from every state with `P` when from every such
state that misses the goal some run leads to a state with `P` and a smaller measure. -/
theorem exists_leads_of_measure {P Q : σ → Prop} (m : σ → ℕ)
    (hprogress : ∀ s, P s → ¬ Q s → ∃ t, S.Leads C s t ∧ P t ∧ m t < m s) (hs : P s) :
    ∃ t, S.Leads C s t ∧ P t ∧ Q t := by
  induction hm : m s using Nat.strongRecOn generalizing s with
  | ind n ih =>
      by_cases hQ : Q s
      · exact ⟨s, .refl, hs, hQ⟩
      · obtain ⟨t, hst, ht, hlt⟩ := hprogress s hs hQ
        obtain ⟨u, htu, hu⟩ := ih (m t) (hm ▸ hlt) ht rfl
        exact ⟨u, hst.trans htu, hu⟩

end DistributedSystems.System
