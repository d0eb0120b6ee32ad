import DistributedSystems.Linearizability.History
import Mathlib.Data.Set.Function

/-! # Histories with other names

The operations of a history may be given other names, as long as different ones keep different
names.

* `precedes_map` — an operation precedes another one under the new names exactly when it does under
  the old ones;
* `complete_map` — a complete history stays complete; `Complete.length_eq` — it has two events for
  each operation;
* `linearizable_map` — a history is linearizable under the new names exactly when it is under the
  old ones. -/

namespace DistributedSystems.Linearizability

universe u v w

variable {α : Type u} {β : Type v} {σ : Type w} {f : α → β} {h : List (Event α)} {a b : α}

/-- An event under another name. -/
def Event.map (f : α → β) : Event α → Event β
  | .call a => .call (f a)
  | .ret a => .ret (f a)

@[simp] theorem Event.op_map (e : Event α) : (e.map f).op = f e.op := by
  cases e <;> rfl

/-- The operations of a history. -/
def ops (h : List (Event α)) : Set α := { a | ∃ e ∈ h, e.op = a }

theorem op_mem_ops {e : Event α} (he : e ∈ h) : e.op ∈ ops h := ⟨e, he, rfl⟩

/-- Names that are different for different operations are so for different events. -/
theorem eq_of_map_eq (hf : Set.InjOn f (ops h)) {e : Event α} (he : e ∈ h) {e' : Event α}
    (hop : e'.op ∈ ops h) (heq : e.map f = e'.map f) : e = e' := by
  cases e with
  | call a =>
      cases e' with
      | call a' => exact congrArg Event.call (hf (op_mem_ops he) hop (Event.call.inj heq))
      | ret a' => cases heq
  | ret a =>
      cases e' with
      | call a' => cases heq
      | ret a' => exact congrArg Event.ret (hf (op_mem_ops he) hop (Event.ret.inj heq))

/-- An event occurs under its new name exactly when it occurs. -/
theorem mem_map_event (hf : Set.InjOn f (ops h)) {e : Event α} (hop : e.op ∈ ops h) :
    e.map f ∈ h.map (Event.map f) ↔ e ∈ h := by
  constructor
  · intro hmem
    obtain ⟨e', he', heq⟩ := List.mem_map.mp hmem
    rw [← eq_of_map_eq hf he' hop heq]
    exact he'
  · exact List.mem_map_of_mem

/-- **Precedence does not depend on the names.** -/
theorem precedes_map (hf : Set.InjOn f (ops h)) (ha : a ∈ ops h) (hb : b ∈ ops h) :
    Precedes (h.map (Event.map f)) (f a) (f b) ↔ Precedes h a b := by
  constructor
  · intro hprecedes
    obtain ⟨l, hl, heq⟩ := List.sublist_map_iff.mp hprecedes
    obtain ⟨e, l, rfl, he, heq⟩ := List.map_eq_cons_iff.mp heq.symm
    obtain ⟨e', l, rfl, he', heq⟩ := List.map_eq_cons_iff.mp heq
    obtain rfl := List.map_eq_nil_iff.mp heq
    have hmem : e ∈ h := hl.subset List.mem_cons_self
    have hmem' : e' ∈ h := hl.subset (List.mem_cons_of_mem _ List.mem_cons_self)
    obtain rfl : e = .ret a := eq_of_map_eq hf hmem ha he
    obtain rfl : e' = .call b := eq_of_map_eq hf hmem' hb he'
    exact hl
  · exact fun hprecedes => hprecedes.map (Event.map f)

/-- Both operations are there when one precedes the other. -/
theorem Precedes.left_mem (hab : Precedes h a b) : a ∈ ops h :=
  op_mem_ops (hab.subset List.mem_cons_self)

/-- **A complete history stays complete.** -/
theorem complete_map (hf : Set.InjOn f (ops h)) (hh : Complete h) :
    Complete (h.map (Event.map f)) where
  nodup := hh.nodup.map_on fun e he e' he' heq => eq_of_map_eq hf he (op_mem_ops he') heq
  paired := by
    intro e' he'
    obtain ⟨e, he, rfl⟩ := List.mem_map.mp he'
    rw [Event.op_map]
    exact (hh.paired e he).map (Event.map f)

/-- **A complete history has two events for each operation.** -/
theorem Complete.length_eq (hh : Complete h) {l : List α} (hl : l.Nodup)
    (hmem : ∀ a, a ∈ l ↔ a ∈ ops h) : h.length = 2 * l.length := by
  have hperm : h.Perm (l.flatMap fun a => [.call a, .ret a]) := by
    refine (List.perm_ext_iff_of_nodup hh.nodup ?_).mpr fun e => ?_
    · refine List.nodup_flatMap.mpr ⟨fun a _ => by simp, hl.imp fun hne => ?_⟩
      simp [List.disjoint_left, hne]
    · rw [List.mem_flatMap]
      constructor
      · intro he
        refine ⟨e.op, (hmem _).mpr (op_mem_ops he), ?_⟩
        cases e <;> simp [Event.op]
      · rintro ⟨a, ha, he⟩
        obtain ⟨e', he', rfl⟩ := (hmem a).mp ha
        refine (hh.paired e' he').subset ?_
        simpa using he
  rw [hperm.length_eq, List.length_flatMap]
  simp [mul_comm]

/-- **Linearizations do not depend on the names.** -/
theorem linearization_map (hf : Set.InjOn f (ops h)) {o : List α} (ho : ∀ a ∈ o, a ∈ ops h) :
    Linearization (h.map (Event.map f)) (o.map f) ↔ Linearization h o := by
  constructor
  · intro hl
    refine ⟨hl.nodup.of_map f, fun a ha => ?_, fun a ha b hba => ?_, ?_⟩
    · exact (mem_map_event (e := .call a) hf (ho a ha)).mp (hl.mem _ (List.mem_map_of_mem ha))
    · have hmem := hl.closed (f a) (List.mem_map_of_mem ha) (f b)
        ((precedes_map hf hba.left_mem (ho a ha)).mpr hba)
      obtain ⟨b', hb', heq⟩ := List.mem_map.mp hmem
      rw [← hf (ho b' hb') hba.left_mem heq]
      exact hb'
    · refine (List.pairwise_map.mp hl.ordered).imp_of_mem fun ha hb hnot hprecedes => ?_
      exact hnot ((precedes_map hf (ho _ hb) (ho _ ha)).mpr hprecedes)
  · intro hl
    have hinj : ∀ a ∈ o, ∀ b ∈ o, f a = f b → a = b := fun a ha b hb => hf (ho a ha) (ho b hb)
    refine ⟨hl.nodup.map_on hinj, fun b hb => ?_, fun b hb c hcb => ?_, ?_⟩
    · obtain ⟨a, ha, rfl⟩ := List.mem_map.mp hb
      exact (mem_map_event (e := .call a) hf (ho a ha)).mpr (hl.mem a ha)
    · obtain ⟨a, ha, rfl⟩ := List.mem_map.mp hb
      -- what precedes it under the new names has an old name
      obtain ⟨e, he, heq⟩ := List.mem_map.mp (hcb.subset List.mem_cons_self)
      obtain rfl : f e.op = c := (Event.op_map e).symm.trans (congrArg Event.op heq)
      exact List.mem_map_of_mem (hl.closed a ha e.op
        ((precedes_map hf (op_mem_ops he) (ho a ha)).mp hcb))
    · refine List.pairwise_map.mpr (hl.ordered.imp_of_mem fun ha hb hnot hprecedes => ?_)
      exact hnot ((precedes_map hf (ho _ hb) (ho _ ha)).mp hprecedes)

/-- A list of new names has a list of old names. -/
theorem exists_map_eq {P : α → Prop} {l : List β} (hl : ∀ b ∈ l, ∃ a, P a ∧ f a = b) :
    ∃ o : List α, (∀ a ∈ o, P a) ∧ o.map f = l := by
  induction l with
  | nil => exact ⟨[], fun _ ha => absurd ha List.not_mem_nil, rfl⟩
  | cons b l ih =>
      obtain ⟨a, ha, rfl⟩ := hl b List.mem_cons_self
      obtain ⟨o, ho, rfl⟩ := ih fun b hb => hl b (List.mem_cons_of_mem _ hb)
      exact ⟨a :: o, List.forall_mem_cons.mpr ⟨ha, ho⟩, rfl⟩

/-- Steps that agree on the operations of an order accept it from the same states. -/
theorem foldlM_map_eq {step : σ → α → Option σ} {step' : σ → β → Option σ} {o : List α}
    (hstep : ∀ s, ∀ a ∈ o, step' s (f a) = step s a) (s : σ) :
    (o.map f).foldlM step' s = o.foldlM step s := by
  induction o generalizing s with
  | nil => rfl
  | cons a o ih =>
      rw [List.map_cons, List.foldlM_cons, List.foldlM_cons, hstep s a List.mem_cons_self]
      have ih := ih fun s a ha => hstep s a (List.mem_cons_of_mem _ ha)
      exact congrArg (step s a).bind (funext ih)

/-- **Linearizability does not depend on the names.** -/
theorem linearizable_map (hf : Set.InjOn f (ops h)) {step : σ → α → Option σ}
    {step' : σ → β → Option σ} (hstep : ∀ s, ∀ a ∈ ops h, step' s (f a) = step s a) (s : σ) :
    Linearizable step' s (h.map (Event.map f)) ↔ Linearizable step s h := by
  constructor
  · rintro ⟨o', hl, hall, hsome⟩
    have hnames : ∀ b ∈ o', ∃ a, a ∈ ops h ∧ f a = b := by
      intro b hb
      obtain ⟨e, he, heq⟩ := List.mem_map.mp (hl.mem b hb)
      exact ⟨e.op, op_mem_ops he, (Event.op_map e).symm.trans (congrArg Event.op heq)⟩
    obtain ⟨o, ho, rfl⟩ := exists_map_eq hnames
    refine ⟨o, (linearization_map hf ho).mp hl, fun a ha => ?_, ?_⟩
    · obtain ⟨a', ha', heq⟩ := List.mem_map.mp (hall (f a) (List.mem_map_of_mem ha))
      obtain rfl : a' = a := hf (ho a' ha') (op_mem_ops ha) heq
      exact ha'
    · rw [foldlM_map_eq fun s a ha => hstep s a (ho a ha)] at hsome
      exact hsome
  · rintro ⟨o, hl, hall, hsome⟩
    have ho : ∀ a ∈ o, a ∈ ops h := fun a ha => op_mem_ops (hl.mem a ha)
    refine ⟨o.map f, (linearization_map hf ho).mpr hl, fun b hb => ?_, ?_⟩
    · obtain ⟨e, he, heq⟩ := List.mem_map.mp hb
      cases e with
      | call a =>
          obtain rfl := Event.call.inj heq
          exact List.mem_map_of_mem (hall a he)
      | ret a => cases heq
    · rw [foldlM_map_eq fun s a ha => hstep s a (ho a ha)]
      exact hsome

end DistributedSystems.Linearizability
