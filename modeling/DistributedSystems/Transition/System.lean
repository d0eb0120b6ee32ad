import Mathlib.Data.List.Induction

/-! # Labelled systems with a partial step function

A `System σ α` has an initial state and a partial step function `step : σ → α → Option σ`: the label
carries every nondeterministic choice of the step, and `none` says that the label is not enabled. A
*run* is a list of labels that `exec` accepts.

* `exec_induction` — the run rule: a property of the labels seen so far and the state reached,
  kept by every step, holds of every run. `Reachable.invariant` is its form for a property of
  states.
* `Along C s as` — every step of the run `as` from `s` satisfies the step condition `C`;
  `along_iff` reads it off the positions of the run, and `Along.invariant` is the run rule under a
  condition.
* `observe obs s as` — the observations made along a run, with the splitting lemmas that carry a
  position in the observations back to a position in the run.
* `exec_observe` — a projection that sends every step to what is observed at it sends runs to
  runs. -/

namespace DistributedSystems

universe u v w x

/-- A **labelled system**: an initial state and a partial step function. -/
structure System (σ : Type u) (α : Type v) where
  /-- The initial state. -/
  init : σ
  /-- One step; `none` when the label is not enabled in the state. -/
  step : σ → α → Option σ

namespace System

variable {σ : Type u} {α : Type v} {τ : Type w} {β : Type x} (S : System σ α)

/-! ## Runs -/

/-- Run a list of labels from a state; `none` as soon as one of them is not enabled. -/
def exec (s : σ) : List α → Option σ
  | [] => some s
  -- a label that is not enabled makes the whole run impossible
  | a :: as => (S.step s a).bind fun t => exec t as

/-- A state is **reachable** when some run from the initial state ends in it. -/
def Reachable (s : σ) : Prop := ∃ as, S.exec S.init as = some s

@[simp] theorem exec_nil (s : σ) : S.exec s [] = some s := rfl

@[simp] theorem exec_cons (s : σ) (a : α) (as : List α) :
    S.exec s (a :: as) = (S.step s a).bind fun t => S.exec t as := rfl

/-- A run of `as ++ bs` is a run of `as` followed by a run of `bs`. -/
theorem exec_append (s : σ) (as bs : List α) :
    S.exec s (as ++ bs) = (S.exec s as).bind fun t => S.exec t bs := by
  induction as generalizing s with
  | nil => rfl
  | cons a as ih =>
      rw [List.cons_append, exec_cons, exec_cons, Option.bind_assoc]
      exact congrArg _ (funext fun t => ih t)

variable {S}

/-- Splitting a run at a label: the state before it, the state after it and the rest of the run. -/
theorem exec_split {s u : σ} {as bs : List α} {a : α} (h : S.exec s (as ++ a :: bs) = some u) :
    ∃ t t', S.exec s as = some t ∧ S.step t a = some t' ∧ S.exec t' bs = some u := by
  rw [exec_append] at h
  obtain ⟨t, ht, h⟩ := Option.bind_eq_some_iff.mp h
  obtain ⟨t', ha, hb⟩ := Option.bind_eq_some_iff.mp h
  exact ⟨t, t', ht, ha, hb⟩

/-- A run extended by one enabled label is a run. -/
theorem exec_concat {s t u : σ} {as : List α} {a : α} (h : S.exec s as = some t)
    (ha : S.step t a = some u) : S.exec s (as ++ [a]) = some u := by
  rw [exec_append, h, Option.bind_some, exec_cons, ha, Option.bind_some, exec_nil]

/-- **The run rule.** A property of the labels seen so far and of the state reached that holds at
the start and is kept by every step holds of every run. -/
theorem exec_induction {P : List α → σ → Prop} {s₀ : σ} (base : P [] s₀)
    (ind : ∀ as s a t, S.exec s₀ as = some s → P as s → S.step s a = some t → P (as ++ [a]) t)
    {as : List α} {s : σ} (h : S.exec s₀ as = some s) : P as s := by
  induction as using List.reverseRecOn generalizing s with
  | nil =>
      obtain rfl : s₀ = s := Option.some.inj h
      exact base
  | append_singleton as a ih =>
      obtain ⟨t, t', ht, ha, hs⟩ := exec_split h
      obtain rfl : t' = s := Option.some.inj hs
      exact ind as t a t' ht (ih ht) ha

/-- The initial state is reachable. -/
theorem Reachable.init : S.Reachable S.init := ⟨[], rfl⟩

/-- A step from a reachable state leads to a reachable state. -/
theorem Reachable.step {s t : σ} {a : α} (h : S.Reachable s) (ha : S.step s a = some t) :
    S.Reachable t := by
  obtain ⟨as, has⟩ := h
  exact ⟨as ++ [a], exec_concat has ha⟩

/-- A run from a reachable state leads to a reachable state. -/
theorem Reachable.exec {s t : σ} {as : List α} (h : S.Reachable s) (ha : S.exec s as = some t) :
    S.Reachable t := by
  obtain ⟨bs, hbs⟩ := h
  exact ⟨bs ++ as, by rw [exec_append, hbs, Option.bind_some, ha]⟩

/-- **The invariant rule.** A property of the initial state that every step from a reachable state
keeps holds of every reachable state. -/
theorem Reachable.invariant {P : σ → Prop} (base : P S.init)
    (ind : ∀ s a t, S.Reachable s → P s → S.step s a = some t → P t)
    {s : σ} (h : S.Reachable s) : P s := by
  obtain ⟨as, has⟩ := h
  exact exec_induction (P := fun _ s => P s) base
    (fun as s a t hs hP ha => ind s a t ⟨as, hs⟩ hP ha) has

/-! ## Runs whose steps meet a condition -/

variable (S)

/-- Every step of the run `as` from `s` satisfies the condition `C` on the state before the step and
its label. -/
def Along (C : σ → α → Prop) : σ → List α → Prop
  | _, [] => True
  | s, a :: as => C s a ∧ ∀ t, S.step s a = some t → Along C t as

@[simp] theorem along_nil (C : σ → α → Prop) (s : σ) : S.Along C s [] := trivial

theorem along_cons (C : σ → α → Prop) (s : σ) (a : α) (as : List α) :
    S.Along C s (a :: as) ↔ C s a ∧ ∀ t, S.step s a = some t → S.Along C t as := Iff.rfl

/-- A condition that can be decided at every step can be decided along a run. -/
def decidableAlong (C : σ → α → Prop) [∀ s a, Decidable (C s a)] :
    ∀ s as, Decidable (S.Along C s as)
  | _, [] => isTrue trivial
  | s, a :: as =>
      match h : S.step s a with
      | none => decidable_of_iff (C s a) (by simp [along_cons, h])
      | some t =>
          have := decidableAlong C t as
          decidable_of_iff (C s a ∧ S.Along C t as) (by simp [along_cons, h])

instance (C : σ → α → Prop) [∀ s a, Decidable (C s a)] (s : σ) (as : List α) :
    Decidable (S.Along C s as) := S.decidableAlong C s as

/-- The steps of a run satisfy `C` exactly when `C` holds at every position of the run. -/
theorem along_iff (C : σ → α → Prop) (s : σ) (as : List α) :
    S.Along C s as ↔
      ∀ bs a cs t, as = bs ++ a :: cs → S.exec s bs = some t → C t a := by
  induction as generalizing s with
  | nil => simp
  | cons a as ih =>
      rw [along_cons]
      constructor
      · rintro ⟨ha, has⟩ bs b cs t heq ht
        cases bs with
        | nil =>
            obtain ⟨rfl, -⟩ := List.cons.inj heq
            obtain rfl : s = t := Option.some.inj ht
            exact ha
        | cons b' bs =>
            obtain ⟨rfl, rfl⟩ := List.cons.inj heq
            obtain ⟨s', hs', ht⟩ := Option.bind_eq_some_iff.mp ht
            exact (ih s').mp (has s' hs') bs b cs t rfl ht
      · intro h
        refine ⟨h [] a as s rfl rfl, fun t ht => (ih t).mpr ?_⟩
        rintro bs b cs u rfl hu
        exact h (a :: bs) b cs u rfl (by rw [exec_cons, ht, Option.bind_some, hu])

variable {S}

/-- The condition at one position of a run whose steps all meet it. -/
theorem Along.at {C : σ → α → Prop} {s t : σ} {as bs : List α} {a : α}
    (h : S.Along C s (as ++ a :: bs)) (ht : S.exec s as = some t) : C t a :=
  (S.along_iff C s _).mp h as a bs t rfl ht

/-- The steps of an initial part of a run meet what the steps of the run meet. -/
theorem Along.left {C : σ → α → Prop} {s : σ} {as bs : List α} (h : S.Along C s (as ++ bs)) :
    S.Along C s as := by
  rw [along_iff] at h ⊢
  rintro cs a ds t rfl ht
  exact h cs a (ds ++ bs) t (by simp) ht

/-- **The run rule under a condition.** A property kept by every step that meets `C` holds at the
end of every run whose steps all meet `C`. -/
theorem Along.invariant {C : σ → α → Prop} {P : σ → Prop} {s₀ : σ} (base : P s₀)
    (ind : ∀ s a t, P s → C s a → S.step s a = some t → P t)
    {as : List α} {s : σ} (hC : S.Along C s₀ as) (h : S.exec s₀ as = some s) : P s := by
  induction as generalizing s₀ with
  | nil =>
      obtain rfl : s₀ = s := Option.some.inj h
      exact base
  | cons a as ih =>
      obtain ⟨t, ht, h⟩ := Option.bind_eq_some_iff.mp h
      exact ih (ind s₀ a t base hC.1 ht) (hC.2 t ht) h

/-! ## Observations along a run -/

variable (S)

/-- The observations that `obs` makes at the steps of the run `as` from `s`, in order. -/
def observe (obs : σ → α → Option β) : σ → List α → List β
  | _, [] => []
  | s, a :: as => (obs s a).toList ++ ((S.step s a).elim [] fun t => observe obs t as)

@[simp] theorem observe_nil (obs : σ → α → Option β) (s : σ) : S.observe obs s [] = [] := rfl

variable {S}

/-- The observations of a run that starts with an enabled label. -/
theorem observe_cons {obs : σ → α → Option β} {s t : σ} {a : α} (ha : S.step s a = some t)
    (as : List α) : S.observe obs s (a :: as) = (obs s a).toList ++ S.observe obs t as := by
  rw [observe, ha, Option.elim_some]

/-- The observations of a run followed by a run. -/
theorem observe_append {obs : σ → α → Option β} {s t : σ} {as : List α}
    (h : S.exec s as = some t) (bs : List α) :
    S.observe obs s (as ++ bs) = S.observe obs s as ++ S.observe obs t bs := by
  induction as generalizing s with
  | nil =>
      obtain rfl : s = t := Option.some.inj h
      rfl
  | cons a as ih =>
      obtain ⟨s', hs', h⟩ := Option.bind_eq_some_iff.mp h
      rw [List.cons_append, observe_cons hs', observe_cons hs', ih h, List.append_assoc]

/-- The observations of a run extended by one enabled label. -/
theorem observe_concat {obs : σ → α → Option β} {s t u : σ} {as : List α} {a : α}
    (h : S.exec s as = some t) (ha : S.step t a = some u) :
    S.observe obs s (as ++ [a]) = S.observe obs s as ++ (obs t a).toList := by
  rw [observe_append h, observe_cons ha, observe_nil, List.append_nil]

/-- **Locating an observation.** A position in the observations of a run comes from a position in
the run, with the observations before it made before and those after it made after. -/
theorem observe_split {obs : σ → α → Option β} {s u : σ} {as : List α} {xs ys : List β} {y : β}
    (h : S.exec s as = some u) (hobs : S.observe obs s as = xs ++ y :: ys) :
    ∃ bs a cs t t', as = bs ++ a :: cs ∧ S.exec s bs = some t ∧ S.step t a = some t' ∧
      obs t a = some y ∧ S.observe obs s bs = xs ∧ S.observe obs t' cs = ys := by
  induction as generalizing s xs with
  | nil => simp at hobs
  | cons a as ih =>
      obtain ⟨s', hs', h⟩ := Option.bind_eq_some_iff.mp h
      rw [observe_cons hs'] at hobs
      cases hy : obs s a with
      | none =>
          rw [hy, Option.toList_none, List.nil_append] at hobs
          obtain ⟨bs, b, cs, t, t', rfl, hbs, hb, hobs', hx, hz⟩ := ih h hobs
          refine ⟨a :: bs, b, cs, t, t', rfl, ?_, hb, hobs', ?_, hz⟩
          · rw [exec_cons, hs', Option.bind_some, hbs]
          · rw [observe_cons hs', hy, Option.toList_none, List.nil_append, hx]
      | some z =>
          rw [hy, Option.toList_some, List.singleton_append] at hobs
          cases xs with
          | nil =>
              obtain ⟨rfl, rfl⟩ := List.cons.inj hobs
              exact ⟨[], a, as, s, s', rfl, rfl, hs', hy, rfl, rfl⟩
          | cons x xs =>
              rw [List.cons_append] at hobs
              obtain ⟨rfl, htail⟩ := List.cons.inj hobs
              obtain ⟨bs, b, cs, t, t', rfl, hbs, hb, hobs', hx, hz⟩ := ih h htail
              refine ⟨a :: bs, b, cs, t, t', rfl, ?_, hb, hobs', ?_, hz⟩
              · rw [exec_cons, hs', Option.bind_some, hbs]
              · rw [observe_cons hs', hy, Option.toList_some, List.singleton_append, hx]

/-- An observation of a run is made at one of its positions. -/
theorem mem_observe {obs : σ → α → Option β} {s u : σ} {as : List α} {y : β}
    (h : S.exec s as = some u) (hy : y ∈ S.observe obs s as) :
    ∃ bs a cs t, as = bs ++ a :: cs ∧ S.exec s bs = some t ∧ obs t a = some y := by
  obtain ⟨xs, ys, hxy⟩ := List.append_of_mem hy
  obtain ⟨bs, a, cs, t, -, has, hbs, -, ha, -⟩ := observe_split h hxy
  exact ⟨bs, a, cs, t, has, hbs, ha⟩

/-- What is observed at a position of a run is among the observations of the run. -/
theorem observe_mem {obs : σ → α → Option β} {s t t' : σ} {as bs : List α} {a : α} {y : β}
    (h : S.exec s as = some t) (ha : S.step t a = some t') (hy : obs t a = some y) :
    y ∈ S.observe obs s (as ++ a :: bs) := by
  rw [observe_append h, observe_cons ha, hy]
  simp

/-- **Projection.** When `f` sends every step of `S` to the step of `T` that is observed at it, and
to no change when nothing is observed, it sends a run of `S` to the run of its observations in
`T`. -/
theorem exec_observe {T : System τ β} (f : σ → τ) {obs : σ → α → Option β}
    (hstep : ∀ s a t, S.step s a = some t → T.exec (f s) (obs s a).toList = some (f t))
    {s t : σ} {as : List α} (h : S.exec s as = some t) :
    T.exec (f s) (S.observe obs s as) = some (f t) := by
  induction as generalizing s with
  | nil =>
      obtain rfl : s = t := Option.some.inj h
      rfl
  | cons a as ih =>
      obtain ⟨s', hs', h⟩ := Option.bind_eq_some_iff.mp h
      rw [observe_cons hs', exec_append, hstep s a s' hs', Option.bind_some, ih h]

end System

end DistributedSystems
