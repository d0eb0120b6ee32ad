import DistributedSystems.Transition.System

/-! # Forward simulation

What an observer sees of a run is the list of events of its steps, its `trace`. A `Simulation` of a
system by another one relates their states so that every step of the first is matched by a run of
the second with the same events; then every run is (`Simulation.exists_run`). -/

namespace DistributedSystems.System

universe u v w x y

variable {σ : Type u} {α : Type v} {τ : Type w} {β : Type x} {ω : Type y}

/-- The events of a run: those of its steps, in order. `events` sees the state before a step, its
label and the state after it. -/
def trace (S : System σ α) (events : σ → α → σ → List ω) : σ → List α → List ω
  | _, [] => []
  | s, a :: as => (S.step s a).elim [] fun t => events s a t ++ trace S events t as

section

variable {S : System σ α} {events : σ → α → σ → List ω}

@[simp] theorem trace_nil (s : σ) : S.trace events s [] = [] := rfl

/-- The events of a run that starts with an enabled label. -/
theorem trace_cons {s t : σ} {a : α} (ha : S.step s a = some t) (as : List α) :
    S.trace events s (a :: as) = events s a t ++ S.trace events t as := by
  rw [trace, ha, Option.elim_some]

/-- The events of a run followed by a run. -/
theorem trace_append {s t : σ} {as : List α} (h : S.exec s as = some t) (bs : List α) :
    S.trace events s (as ++ bs) = S.trace events s as ++ S.trace events t bs := by
  induction as generalizing s with
  | nil =>
      obtain rfl : s = t := Option.some.inj h
      rfl
  | cons a as ih =>
      obtain ⟨s', hs', h⟩ := Option.bind_eq_some_iff.mp h
      rw [List.cons_append, trace_cons hs', trace_cons hs', ih h, List.append_assoc]

/-- The events of a run extended by one enabled label. -/
theorem trace_concat {s t u : σ} {as : List α} {a : α} (h : S.exec s as = some t)
    (ha : S.step t a = some u) :
    S.trace events s (as ++ [a]) = S.trace events s as ++ events t a u := by
  rw [trace_append h, trace_cons ha, trace_nil, List.append_nil]

end

/-- A **forward simulation** of the system `C` by the system `A`: a relation between their states
such that every step of `C` from a reachable state is matched by a run of `A` with the same
events. -/
structure Simulation (C : System σ α) (A : System τ β) (eventsC : σ → α → σ → List ω)
    (eventsA : τ → β → τ → List ω) where
  /-- The relation. -/
  rel : σ → τ → Prop
  /-- The initial states are related. -/
  init : rel C.init A.init
  /-- A step is matched by a run. -/
  step : ∀ {s t a s'}, C.Reachable s → rel s t → C.step s a = some s' →
    ∃ bs t', A.exec t bs = some t' ∧ A.trace eventsA t bs = eventsC s a s' ∧ rel s' t'

/-- **Every run is matched by a run with the same events.** -/
theorem Simulation.exists_run {C : System σ α} {A : System τ β} {eventsC : σ → α → σ → List ω}
    {eventsA : τ → β → τ → List ω} (sim : Simulation C A eventsC eventsA) {as : List α} {s : σ}
    (h : C.exec C.init as = some s) :
    ∃ bs t, A.exec A.init bs = some t ∧
      A.trace eventsA A.init bs = C.trace eventsC C.init as ∧ sim.rel s t := by
  refine exec_induction (S := C)
    (P := fun as s => ∃ bs t, A.exec A.init bs = some t ∧
      A.trace eventsA A.init bs = C.trace eventsC C.init as ∧ sim.rel s t)
    ⟨[], A.init, rfl, rfl, sim.init⟩ ?_ h
  rintro as s a s' hs ⟨bs, t, ht, htrace, hrel⟩ ha
  obtain ⟨cs, t', ht', hevents, hrel'⟩ := sim.step ⟨as, hs⟩ hrel ha
  refine ⟨bs ++ cs, t', ?_, ?_, hrel'⟩
  · rw [exec_append, ht, Option.bind_some, ht']
  · rw [trace_append ht, trace_concat hs ha, htrace, hevents]

end DistributedSystems.System
