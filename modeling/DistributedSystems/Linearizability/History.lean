import DistributedSystems.Transition.DepthFirst
import Mathlib.Data.List.Nodup
import Mathlib.Data.List.TakeWhile

/-! # Linearizations of a history

A history lists the calls and the returns of operations. One operation *precedes* another when it
returns before the other is called, and a *linearization* orders some operations so that everything
which precedes one of them comes before it.

* `linearization_cons` — the first operation of a linearization is one that is called before
  anything returns, and the rest linearizes what is left of the history;
* `path_iff` — the paths of the graph whose moves take such an operation away are the
  linearizations that the sequential specification accepts;
* `linearizable_iff_path` — a history is linearizable when a path takes all of it away. -/

namespace DistributedSystems.Linearizability

universe u v

/-- An event of a history. -/
inductive Event (α : Type u)
  /-- The operation is called. -/
  | call (a : α)
  /-- The operation returns. -/
  | ret (a : α)
  deriving DecidableEq

namespace Event

variable {α : Type u}

/-- The operation of an event. -/
def op : Event α → α
  | call a => a
  | ret a => a

/-- Whether an event is a call. -/
def isCall : Event α → Bool
  | call _ => true
  | ret _ => false

end Event

variable {α : Type u} {σ : Type v} {h : List (Event α)} {a b c : α} {o : List α}

/-- The first operation returns before the second is called. -/
def Precedes (h : List (Event α)) (a b : α) : Prop := List.Sublist [.ret a, .call b] h

/-- Every operation of the history is called once and returns once, after its call. -/
structure Complete (h : List (Event α)) : Prop where
  /-- No event occurs twice. -/
  nodup : h.Nodup
  /-- The operation of an event is called and returns later. -/
  paired : ∀ e ∈ h, List.Sublist [.call e.op, .ret e.op] h

/-- Operations in an order that agrees with their precedence, with all that precedes them. -/
structure Linearization (h : List (Event α)) (o : List α) : Prop where
  /-- No operation is taken twice. -/
  nodup : o.Nodup
  /-- The operations are called in the history. -/
  mem : ∀ a ∈ o, .call a ∈ h
  /-- What precedes an operation is there as well. -/
  closed : ∀ a ∈ o, ∀ b, Precedes h b a → b ∈ o
  /-- No operation comes after one that it precedes. -/
  ordered : o.Pairwise fun a b => ¬ Precedes h b a

/-- The history is linearizable: the specification accepts a linearization of all its operations. -/
def Linearizable (step : σ → α → Option σ) (s : σ) (h : List (Event α)) : Prop :=
  ∃ o, Linearization h o ∧ (∀ a, .call a ∈ h → a ∈ o) ∧ (o.foldlM step s).isSome

/-! ## What can come first -/

/-- The operations that are called before anything returns. -/
def ready (h : List (Event α)) : List α := (h.takeWhile Event.isCall).map Event.op

@[simp] theorem ready_cons_call (a : α) (h : List (Event α)) :
    ready (.call a :: h) = a :: ready h := rfl

@[simp] theorem ready_cons_ret (a : α) (h : List (Event α)) : ready (.ret a :: h) = [] := rfl

/-- An operation is ready when only calls come before its call. -/
theorem mem_ready_of_calls {before after : List (Event α)} (h : ∀ e ∈ before, e.isCall = true) :
    a ∈ ready (before ++ .call a :: after) := by
  rw [ready, List.takeWhile_append_of_pos h, List.map_append]
  exact List.mem_append_right _ List.mem_cons_self

/-- A sublist whose first element is not in the first part is one of the second part. -/
theorem sublist_right_of_notMem {β : Type u} {x : β} {l l₁ l₂ : List β} (hx : x ∉ l₁)
    (h : List.Sublist (x :: l) (l₁ ++ l₂)) : List.Sublist (x :: l) l₂ := by
  obtain ⟨l₁', l₂', heq, h₁, h₂⟩ := List.sublist_append_iff.mp h
  cases l₁' with
  | nil =>
      rw [heq]
      exact h₂
  | cons y l₁' =>
      obtain rfl : x = y := (List.cons.inj heq).1
      exact absurd (h₁.subset List.mem_cons_self) hx

/-- Two elements of a list occur in one of the two orders. -/
theorem sublist_or_sublist {β : Type u} {x y : β} {l : List β} (hx : x ∈ l) (hy : y ∈ l)
    (hne : x ≠ y) : List.Sublist [x, y] l ∨ List.Sublist [y, x] l := by
  obtain ⟨before, after, rfl⟩ := List.append_of_mem hx
  rcases List.mem_append.mp hy with hy | hy
  · right
    exact (List.singleton_sublist.mpr hy).append (List.singleton_sublist.mpr List.mem_cons_self)
  · left
    have hy : y ∈ after := (List.mem_cons.mp hy).resolve_left hne.symm
    exact ((List.singleton_sublist.mpr hy).cons_cons x).trans (List.sublist_append_right before _)

/-- In a list without duplicates, two elements do not occur in both orders. -/
theorem not_sublist_swap {β : Type u} {x y : β} {l : List β} (hl : l.Nodup)
    (hxy : List.Sublist [x, y] l) : ¬ List.Sublist [y, x] l := by
  obtain ⟨before, after, rfl, hx, hy⟩ := List.cons_sublist_iff.mp hxy
  have hdisjoint := List.disjoint_of_nodup_append hl
  intro hyx
  have hy : y ∉ before := fun hmem => hdisjoint hmem (List.singleton_sublist.mp hy)
  exact hdisjoint hx ((sublist_right_of_notMem hy hyx).subset (by simp))

/-- Nothing is ready but calls. -/
theorem mem_ready_iff_mem_takeWhile :
    a ∈ ready h ↔ .call a ∈ h.takeWhile Event.isCall := by
  rw [ready, List.mem_map]
  constructor
  · rintro ⟨e, he, rfl⟩
    cases e with
    | call a => exact he
    | ret a => exact absurd (List.mem_takeWhile_imp he) Bool.false_ne_true
  · exact fun ha => ⟨_, ha, rfl⟩

/-- **An operation is ready when nothing precedes it.** -/
theorem mem_ready (hh : h.Nodup) : a ∈ ready h ↔ .call a ∈ h ∧ ∀ b, ¬ Precedes h b a := by
  rw [mem_ready_iff_mem_takeWhile]
  have hsplit := List.takeWhile_append_dropWhile (p := Event.isCall) (l := h)
  constructor
  · intro ha
    refine ⟨(List.takeWhile_sublist _).subset ha, fun b hb => ?_⟩
    rw [Precedes, ← hsplit] at hb
    have hret : Event.ret b ∉ h.takeWhile Event.isCall := fun hmem =>
      absurd (List.mem_takeWhile_imp hmem) Bool.false_ne_true
    have hcall : Event.call a ∈ h.dropWhile Event.isCall :=
      (sublist_right_of_notMem hret hb).subset (by simp)
    rw [← hsplit] at hh
    exact List.disjoint_of_nodup_append hh ha hcall
  · rintro ⟨ha, hb⟩
    rw [← hsplit] at ha
    rcases List.mem_append.mp ha with ha | ha
    · exact ha
    · -- the first event after the calls is a return, and it precedes the call
      exfalso
      cases hdrop : h.dropWhile Event.isCall with
      | nil => exact absurd (hdrop ▸ ha) List.not_mem_nil
      | cons e rest =>
          have hne : h.dropWhile Event.isCall ≠ [] := hdrop ▸ List.cons_ne_nil e rest
          have hhead := List.head_dropWhile_not Event.isCall hne
          simp only [hdrop, List.head_cons] at hhead
          cases e with
          | call b => exact absurd hhead Bool.false_ne_true.symm
          | ret b =>
              rw [hdrop, List.mem_cons] at ha
              have hrest : Event.call a ∈ rest := ha.resolve_left (by simp)
              refine hb b (List.Sublist.trans ?_ (List.dropWhile_sublist Event.isCall))
              rw [hdrop]
              exact (List.singleton_sublist.mpr hrest).cons_cons _

/-! ## Taking operations away -/

section Without

variable [DecidableEq α]

/-- The history without the events of some operations. -/
def without (o : List α) (h : List (Event α)) : List (Event α) := h.filter fun e => e.op ∉ o

theorem mem_without {e : Event α} : e ∈ without o h ↔ e ∈ h ∧ e.op ∉ o := by
  rw [without, List.mem_filter, decide_eq_true_eq]

theorem without_nil (h : List (Event α)) : without [] h = h :=
  List.filter_eq_self.mpr fun _ _ => decide_eq_true List.not_mem_nil

theorem without_without (o' : List α) : without o' (without o h) = without (o ++ o') h := by
  rw [without, without, without, List.filter_filter]
  refine List.filter_congr fun e _ => ?_
  simp only [List.mem_append, not_or, Bool.decide_and, Bool.and_comm]

theorem without_congr {o' : List α} (heq : ∀ e ∈ h, e.op ∈ o ↔ e.op ∈ o') :
    without o h = without o' h :=
  List.filter_congr fun e he => decide_eq_decide.mpr (not_congr (heq e he))

/-- Two events of other operations stay in their order. -/
theorem pair_sublist_without {e f : Event α} :
    List.Sublist [e, f] (without o h) ↔ List.Sublist [e, f] h ∧ e.op ∉ o ∧ f.op ∉ o := by
  constructor
  · intro hsub
    exact ⟨hsub.trans List.filter_sublist, (mem_without.mp (hsub.subset (by simp))).2,
      (mem_without.mp (hsub.subset (by simp))).2⟩
  · rintro ⟨hsub, he, hf⟩
    have hfilter := hsub.filter fun e => decide (e.op ∉ o)
    rwa [List.filter_eq_self.mpr] at hfilter
    intro e' he'
    rcases List.mem_cons.mp he' with rfl | he'
    · exact decide_eq_true he
    · rw [List.mem_singleton.mp he']
      exact decide_eq_true hf

theorem Complete.without (hh : Complete h) (o : List α) : Complete (without o h) := by
  refine ⟨hh.nodup.filter _, fun e he => ?_⟩
  obtain ⟨he, ho⟩ := mem_without.mp he
  exact pair_sublist_without.mpr ⟨hh.paired e he, ho, ho⟩

theorem precedes_without : Precedes (without [c] h) a b ↔ Precedes h a b ∧ a ≠ c ∧ b ≠ c := by
  rw [Precedes, pair_sublist_without, List.mem_singleton, List.mem_singleton]
  rfl

/-- **The first operation of a linearization** is ready, and the rest linearizes what is left. -/
theorem linearization_cons (hh : Complete h) :
    Linearization h (a :: o) ↔ a ∈ ready h ∧ Linearization (without [a] h) o := by
  rw [mem_ready hh.nodup]
  constructor
  · intro hl
    obtain ⟨hfirst, hordered⟩ := List.pairwise_cons.mp hl.ordered
    obtain ⟨hnotMem, hnodup⟩ := List.nodup_cons.mp hl.nodup
    have hcall : Event.call a ∈ h := hl.mem a List.mem_cons_self
    refine ⟨⟨hcall, fun b hb => ?_⟩, hnodup, fun b hb => ?_, fun b hb c hc => ?_, ?_⟩
    · rcases List.mem_cons.mp (hl.closed a List.mem_cons_self b hb) with rfl | hmem
      · exact not_sublist_swap hh.nodup (hh.paired _ hcall) hb
      · exact hfirst b hmem hb
    · refine mem_without.mpr ⟨hl.mem b (List.mem_cons_of_mem a hb), ?_⟩
      rw [List.mem_singleton]
      rintro rfl
      exact hnotMem hb
    · obtain ⟨hc, hca, -⟩ := precedes_without.mp hc
      exact (List.mem_cons.mp (hl.closed b (List.mem_cons_of_mem a hb) c hc)).resolve_left hca
    · exact hordered.imp fun hab hba => hab (precedes_without.mp hba).1
  · rintro ⟨⟨hcall, hfirst⟩, hl⟩
    have hne (b : α) (hb : b ∈ o) : b ≠ a := fun heq =>
      (mem_without.mp (hl.mem b hb)).2 (List.mem_singleton.mpr heq)
    refine ⟨List.nodup_cons.mpr ⟨fun hmem => hne a hmem rfl, hl.nodup⟩, fun b hb => ?_,
      fun b hb c hc => ?_, List.pairwise_cons.mpr ⟨fun b _ => hfirst b, ?_⟩⟩
    · rcases List.mem_cons.mp hb with rfl | hb
      · exact hcall
      · exact (mem_without.mp (hl.mem b hb)).1
    · rcases List.mem_cons.mp hb with rfl | hb
      · exact absurd hc (hfirst c)
      · by_cases hca : c = a
        · exact hca ▸ List.mem_cons_self
        · have hc' := precedes_without.mpr ⟨hc, hca, hne b hb⟩
          exact List.mem_cons_of_mem a (hl.closed b hb c hc')
    · refine hl.ordered.imp_of_mem fun {b c} hb hc hbc hcb => hbc ?_
      exact precedes_without.mpr ⟨hcb, hne c hc, hne b hb⟩

/-! ## The graph of linearizations -/

variable {step : σ → α → Option σ} {s s' : σ}

/-- The graph in which a move takes a ready operation that the specification accepts. -/
def graph (step : σ → α → Option σ) : Graph (List (Event α) × σ) α where
  moves c := ready c.1
  follow c a := (step c.2 a).map fun s => (without [a] c.1, s)
  size c := c.1.length
  size_lt := by
    rintro ⟨h, s⟩ d a ha hd
    obtain ⟨s', -, rfl⟩ := Option.map_eq_some_iff.mp hd
    have hcall : Event.call a ∈ h :=
      (List.takeWhile_sublist _).subset (mem_ready_iff_mem_takeWhile.mp ha)
    refine List.length_filter_lt_length_iff_exists.mpr ⟨_, hcall, ?_⟩
    rw [decide_eq_true_eq, not_not]
    exact List.mem_singleton_self a

/-- **The paths are the linearizations** that the specification accepts. -/
theorem path_iff (hh : Complete h) {d : List (Event α) × σ} :
    (graph step).Path (h, s) o d ↔
      Linearization h o ∧ d.1 = without o h ∧ o.foldlM step s = some d.2 := by
  induction o generalizing h s with
  | nil =>
      constructor
      · rintro ⟨⟩
        exact ⟨⟨List.nodup_nil, by simp, by simp, List.Pairwise.nil⟩, (without_nil h).symm, rfl⟩
      · rintro ⟨-, hd, hs⟩
        obtain rfl : d = (h, s) := Prod.ext (hd.trans (without_nil h)) (Option.some.inj hs).symm
        exact .nil _
  | cons a o ih =>
      have hwithout : without o (without [a] h) = without (a :: o) h := without_without o
      rw [linearization_cons hh, List.foldlM_cons]
      constructor
      · intro hpath
        cases hpath with
        | cons ha hd hpath =>
            obtain ⟨s', hs', rfl⟩ := Option.map_eq_some_iff.mp hd
            obtain ⟨hl, hd, hs⟩ := (ih (hh.without [a])).mp hpath
            refine ⟨⟨ha, hl⟩, hd.trans hwithout, ?_⟩
            rw [hs']
            exact hs
      · rintro ⟨⟨ha, hl⟩, hd, hs⟩
        obtain ⟨s', hs', hs⟩ := Option.bind_eq_some_iff.mp hs
        refine .cons ha (Option.map_eq_some_iff.mpr ⟨s', hs', rfl⟩) ?_
        exact (ih (hh.without [a])).mpr ⟨hl, hd.trans hwithout.symm, hs⟩

/-- **A history is linearizable when a path takes all of it away.** -/
theorem linearizable_iff_path (hh : Complete h) :
    Linearizable step s h ↔ ∃ o s', (graph step).Path (h, s) o ([], s') := by
  have hall (o : List α) : (∀ a, .call a ∈ h → a ∈ o) ↔ [] = without o h := by
    rw [eq_comm, without, List.filter_eq_nil_iff]
    constructor
    · intro hcall e he
      have hmem := hcall e.op ((hh.paired e he).subset List.mem_cons_self)
      rw [decide_eq_true_eq, not_not]
      exact hmem
    · intro hempty a ha
      have hmem := hempty _ ha
      rwa [decide_eq_true_eq, not_not] at hmem
  constructor
  · rintro ⟨o, hl, hcall, hs⟩
    obtain ⟨s', hs'⟩ := Option.isSome_iff_exists.mp hs
    exact ⟨o, s', (path_iff hh).mpr ⟨hl, (hall o).mp hcall, hs'⟩⟩
  · rintro ⟨o, s', hpath⟩
    obtain ⟨hl, hempty, hs⟩ := (path_iff hh).mp hpath
    exact ⟨o, hl, (hall o).mpr hempty, Option.isSome_iff_exists.mpr ⟨s', hs⟩⟩

/-! ## States that accept the same operations -/

/-- Two states accept the same sequences of operations. -/
def Equivalent (step : σ → α → Option σ) (s t : σ) : Prop :=
  ∀ o : List α, (o.foldlM step s).isSome = (o.foldlM step t).isSome

/-- Configurations with the same history and equivalent states. -/
def Same (step : σ → α → Option σ) (c d : List (Event α) × σ) : Prop :=
  c.1 = d.1 ∧ Equivalent step c.2 d.2

/-- **Such configurations may be taken for one another.** -/
theorem pruning (step : σ → α → Option σ) : (graph step).Pruning (Same step) where
  refl c := ⟨rfl, fun _ => rfl⟩
  trans h h' := ⟨h.1.trans h'.1, fun o => (h.2 o).trans (h'.2 o)⟩
  size_eq h := congrArg List.length h.1
  simulates := by
    rintro ⟨h, s⟩ ⟨h', t⟩ c' a ⟨heq, hst⟩ ha hc'
    obtain rfl : h = h' := heq
    obtain ⟨s', hs', rfl⟩ := Option.map_eq_some_iff.mp hc'
    have hs : step s a = some s' := hs'
    have hsome : (step t a).isSome := by
      have hone := hst [a]
      simp only [List.foldlM_cons, List.foldlM_nil, bind_pure, hs] at hone
      exact hone.symm
    obtain ⟨t', ht⟩ := Option.isSome_iff_exists.mp hsome
    refine ⟨ha, (without [a] h, t'), Option.map_eq_some_iff.mpr ⟨t', ht, rfl⟩, rfl, fun o => ?_⟩
    have hcons := hst (a :: o)
    simp only [List.foldlM_cons, hs, ht] at hcons
    exact hcons

end Without

end DistributedSystems.Linearizability
