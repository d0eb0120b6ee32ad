import Mathlib.Algebra.GroupWithZero.Nat
import Mathlib.Algebra.Order.BigOperators.Group.List

/-! # Depth-first search with pruning

A `Graph` has moves that lead to smaller configurations. A depth-first search keeps a stack of
*frames*, each a configuration with the moves still to be tried, and may skip a configuration that
is the same as one it has visited.

* `Explored.step` — the invariant of the search: what has been left behind is covered by the
  configurations that were closed;
* `Explored.covered` — when the search is exhausted, every configuration that the root can reach is
  the same as a closed one;
* `Trail.Step.cost_lt` — every step makes a measure smaller, so the search ends. -/

namespace DistributedSystems

universe u v

/-- A graph in which every move leads to a smaller configuration. -/
structure Graph (κ : Type u) (μ : Type v) where
  /-- The moves to try at a configuration, in order. -/
  moves : κ → List μ
  /-- Where a move leads; `none` when it is refused. -/
  follow : κ → μ → Option κ
  /-- The size of a configuration. -/
  size : κ → ℕ
  /-- A move makes the size smaller. -/
  size_lt : ∀ {c d : κ} {m : μ}, m ∈ moves c → follow c m = some d → size d < size c

/-- A frame of the search: a configuration and the moves still to be tried there. -/
structure Frame (κ : Type u) (μ : Type v) where
  /-- The configuration. -/
  config : κ
  /-- The moves still to be tried. -/
  todo : List μ

/-- A state of the search. -/
structure Trail (κ : Type u) (μ : Type v) where
  /-- The frames, the innermost first. -/
  frames : List (Frame κ μ)
  /-- The configurations that were entered. -/
  visited : List κ
  /-- The configurations that were left after all their moves had been tried. -/
  closed : List κ

variable {κ : Type u} {μ : Type v}

namespace Graph

/-- A path of moves from one configuration to another. -/
inductive Path (G : Graph κ μ) : κ → List μ → κ → Prop
  /-- The empty path. -/
  | nil (c : κ) : Path G c [] c
  /-- A move and the path after it. -/
  | cons {c d e : κ} {m : μ} {ms : List μ} (hm : m ∈ G.moves c) (hd : G.follow c m = some d)
      (h : Path G d ms e) : Path G c (m :: ms) e

/-- A path followed by one more move. -/
theorem Path.concat {G : Graph κ μ} {c d e : κ} {m : μ} {ms : List μ} (h : G.Path c ms d)
    (hm : m ∈ G.moves d) (he : G.follow d m = some e) : G.Path c (ms ++ [m]) e := by
  induction h with
  | nil c => exact .cons hm he (.nil e)
  | cons hm' hd _ ih => exact .cons hm' hd (ih hm he)

/-- When one configuration may be taken for another: whatever the first can do, the second can. -/
structure Pruning (G : Graph κ μ) (same : κ → κ → Prop) : Prop where
  /-- A configuration may be taken for itself. -/
  refl : ∀ c, same c c
  /-- The relation is transitive. -/
  trans : ∀ {c d e}, same c d → same d e → same c e
  /-- Such configurations have the same size. -/
  size_eq : ∀ {c d}, same c d → G.size c = G.size d
  /-- A move of the first is a move of the second. -/
  simulates : ∀ {c d c' m}, same c d → m ∈ G.moves c → G.follow c m = some c' →
    m ∈ G.moves d ∧ ∃ d', G.follow d m = some d' ∧ same c' d'

/-- Everything that can be reached from the configuration is the same as one of the list. -/
def Covered (G : Graph κ μ) (same : κ → κ → Prop) (closed : List κ) (c : κ) : Prop :=
  ∀ ms d, G.Path c ms d → ∃ k ∈ closed, same d k

variable {G : Graph κ μ} {same : κ → κ → Prop} {closed closed' : List κ} {c d : κ}

theorem Covered.mono (hsub : closed ⊆ closed') (h : G.Covered same closed c) :
    G.Covered same closed' c := by
  intro ms d hd
  obtain ⟨k, hk, hdk⟩ := h ms d hd
  exact ⟨k, hsub hk, hdk⟩

/-- A configuration is covered when it is in the list and all its moves lead to covered ones. -/
theorem covered_of_moves (hP : G.Pruning same) (hc : c ∈ closed)
    (h : ∀ m ∈ G.moves c, ∀ d, G.follow c m = some d → G.Covered same closed d) :
    G.Covered same closed c := by
  intro ms e he
  cases he with
  | nil => exact ⟨c, hc, hP.refl c⟩
  | cons hm hd hpath => exact h _ hm _ hd _ _ hpath

/-- What may be taken for a covered configuration is covered. -/
theorem Covered.of_same (hP : G.Pruning same) (hcd : same c d) (h : G.Covered same closed d) :
    G.Covered same closed c := by
  intro ms e he
  induction he generalizing d with
  | nil c =>
      obtain ⟨k, hk, hdk⟩ := h [] d (.nil d)
      exact ⟨k, hk, hP.trans hcd hdk⟩
  | cons hm hc' _ ih =>
      obtain ⟨hm', d', hd', hsame⟩ := hP.simulates hcd hm hc'
      exact ih hsame fun ms' e' he' => h _ e' (.cons hm' hd' he')

end Graph

/-! ## Steps of the search -/

namespace Trail

/-- The first state of a search. -/
def start (G : Graph κ μ) (root : κ) : Trail κ μ := ⟨[⟨root, G.moves root⟩], [], []⟩

/-- One step of a depth-first search. -/
inductive Step (G : Graph κ μ) (same : κ → κ → Prop) : Trail κ μ → Trail κ μ → Prop
  /-- The next move is followed. -/
  | enter {c d : κ} {m : μ} {todo : List μ} {frames : List (Frame κ μ)} {visited closed : List κ}
      (hd : G.follow c m = some d) :
      Step G same ⟨⟨c, m :: todo⟩ :: frames, visited, closed⟩
        ⟨⟨d, G.moves d⟩ :: ⟨c, todo⟩ :: frames, d :: visited, closed⟩
  /-- The next move is refused. -/
  | refuse {c : κ} {m : μ} {todo : List μ} {frames : List (Frame κ μ)} {visited closed : List κ}
      (hm : G.follow c m = none) :
      Step G same ⟨⟨c, m :: todo⟩ :: frames, visited, closed⟩
        ⟨⟨c, todo⟩ :: frames, visited, closed⟩
  /-- The next move leads to what was visited before. -/
  | prune {c d w : κ} {m : μ} {todo : List μ} {frames : List (Frame κ μ)} {visited closed : List κ}
      (hd : G.follow c m = some d) (hw : w ∈ visited) (hsame : same d w) :
      Step G same ⟨⟨c, m :: todo⟩ :: frames, visited, closed⟩
        ⟨⟨c, todo⟩ :: frames, visited, closed⟩
  /-- All moves have been tried. -/
  | retreat {c : κ} {f : Frame κ μ} {frames : List (Frame κ μ)} {visited closed : List κ} :
      Step G same ⟨⟨c, []⟩ :: f :: frames, visited, closed⟩ ⟨f :: frames, visited, c :: closed⟩

end Trail

/-! ## The invariant -/

section Invariant

variable {G : Graph κ μ} {same : κ → κ → Prop} {closed : List κ}

/-- What has been tried at the frames is covered. The option is the configuration of the frame
above, whose exploration is not finished. -/
def Frame.Sound (G : Graph κ μ) (same : κ → κ → Prop) (closed : List κ) :
    Option κ → List (Frame κ μ) → Prop
  | _, [] => True
  | above, f :: frames =>
      f.todo ⊆ G.moves f.config ∧ (∀ d ∈ above, G.size d < G.size f.config) ∧
        (∀ m ∈ G.moves f.config, ∀ d, G.follow f.config m = some d →
          m ∈ f.todo ∨ above = some d ∨ G.Covered same closed d) ∧
        Frame.Sound G same closed (some f.config) frames

/-- **The invariant of the search.** -/
structure Explored (G : Graph κ μ) (same : κ → κ → Prop) (root : κ) (t : Trail κ μ) : Prop where
  /-- What has been tried at the frames is covered. -/
  sound : Frame.Sound G same t.closed none t.frames
  /-- What was visited is covered or on the stack. -/
  visited : ∀ w ∈ t.visited, (∃ f ∈ t.frames, f.config = w) ∨ G.Covered same t.closed w
  /-- The outermost frame is that of the root. -/
  root : t.frames.getLast?.map Frame.config = some root

/-- More closed configurations cover more. -/
theorem Frame.Sound.mono {closed' : List κ} (hsub : closed ⊆ closed') {above : Option κ}
    {frames : List (Frame κ μ)} (h : Frame.Sound G same closed above frames) :
    Frame.Sound G same closed' above frames := by
  induction frames generalizing above with
  | nil => trivial
  | cons f frames ih =>
      obtain ⟨htodo, hsize, hmoves, hrest⟩ := h
      refine ⟨htodo, hsize, fun m hm d hd => ?_, ih hrest⟩
      exact (hmoves m hm d hd).imp id (Or.imp id (Graph.Covered.mono hsub))

/-- The frames further out are larger. -/
theorem Frame.Sound.size_lt {d : κ} {frames : List (Frame κ μ)}
    (h : Frame.Sound G same closed (some d) frames) {f : Frame κ μ} (hf : f ∈ frames) :
    G.size d < G.size f.config := by
  induction frames generalizing d with
  | nil => exact absurd hf List.not_mem_nil
  | cons g frames ih =>
      have hd : G.size d < G.size g.config := h.2.1 d rfl
      rcases List.mem_cons.mp hf with rfl | hf
      · exact hd
      · exact hd.trans (ih h.2.2.2 hf)

namespace Explored

variable {root : κ} {t t' : Trail κ μ}

theorem start (G : Graph κ μ) (same : κ → κ → Prop) (root : κ) :
    Explored G same root (Trail.start G root) := by
  refine ⟨⟨List.Subset.refl _, ?_, fun m hm d hd => Or.inl hm, trivial⟩, ?_, rfl⟩
  · exact fun d hd => absurd hd (Option.not_mem_none d)
  · exact fun w hw => absurd hw List.not_mem_nil

/-- The next move of the innermost frame is dropped when what it leads to is covered. -/
theorem skip {c : κ} {m : μ} {todo : List μ} {frames : List (Frame κ μ)} {visited : List κ}
    (h : Explored G same root ⟨⟨c, m :: todo⟩ :: frames, visited, closed⟩)
    (hm : ∀ d, G.follow c m = some d → G.Covered same closed d) :
    Explored G same root ⟨⟨c, todo⟩ :: frames, visited, closed⟩ := by
  obtain ⟨⟨htodo, hsize, hmoves, hrest⟩, hvisited, hroot⟩ := h
  refine ⟨⟨List.Subset.trans (List.subset_cons_self m todo) htodo, hsize, fun m' hm' d hd => ?_, hrest⟩, ?_, ?_⟩
  · rcases hmoves m' hm' d hd with htodo' | habove | hcovered
    · rcases List.mem_cons.mp htodo' with rfl | htodo'
      · exact Or.inr (Or.inr (hm d hd))
      · exact Or.inl htodo'
    · exact Or.inr (Or.inl habove)
    · exact Or.inr (Or.inr hcovered)
  · intro w hw
    refine (hvisited w hw).imp ?_ id
    rintro ⟨f, hf, rfl⟩
    rcases List.mem_cons.mp hf with rfl | hf
    · exact ⟨⟨c, todo⟩, List.mem_cons_self, rfl⟩
    · exact ⟨f, List.mem_cons_of_mem _ hf, rfl⟩
  · cases frames with
    | nil => exact hroot
    | cons f frames => exact hroot

/-- **Every step keeps the invariant.** -/
theorem step (hP : G.Pruning same) (h : Explored G same root t) (hstep : Trail.Step G same t t') :
    Explored G same root t' := by
  cases hstep with
  | @enter c d m todo frames visited closed hd =>
      obtain ⟨⟨htodo, hsize, hmoves, hrest⟩, hvisited, hroot⟩ := h
      have hlt : G.size d < G.size c := G.size_lt (htodo List.mem_cons_self) hd
      refine ⟨⟨List.Subset.refl _, ?_, fun m' hm' d' _ => Or.inl hm', ?_⟩, ?_, ?_⟩
      · exact fun d hd => absurd hd (Option.not_mem_none d)
      · refine ⟨List.Subset.trans (List.subset_cons_self m todo) htodo, ?_, fun m' hm' d' hd' => ?_, hrest⟩
        · rintro d' ⟨⟩
          exact hlt
        · rcases hmoves m' hm' d' hd' with htodo' | habove | hcovered
          · rcases List.mem_cons.mp htodo' with rfl | htodo'
            · exact Or.inr (Or.inl (hd.symm.trans hd'))
            · exact Or.inl htodo'
          · exact absurd habove (Option.some_ne_none d').symm
          · exact Or.inr (Or.inr hcovered)
      · intro w hw
        rcases List.mem_cons.mp hw with rfl | hw
        · exact Or.inl ⟨_, List.mem_cons_self, rfl⟩
        · refine (hvisited w hw).imp ?_ id
          rintro ⟨f, hf, rfl⟩
          rcases List.mem_cons.mp hf with rfl | hf
          · exact ⟨_, List.mem_cons_of_mem _ List.mem_cons_self, rfl⟩
          · exact ⟨f, List.mem_cons_of_mem _ (List.mem_cons_of_mem _ hf), rfl⟩
      · cases frames with
        | nil => exact hroot
        | cons f frames => exact hroot
  | refuse hm =>
      refine h.skip fun d hd => ?_
      rw [hm] at hd
      exact absurd hd.symm (Option.some_ne_none d)
  | @prune c d w m todo frames visited closed hd hw hsame =>
      refine h.skip fun d' hd' => ?_
      obtain rfl : d = d' := Option.some.inj (hd.symm.trans hd')
      rcases h.visited w hw with ⟨f, hf, rfl⟩ | hcovered
      · -- the frames are larger than what the move leads to
        have hlt : G.size d < G.size c := G.size_lt (h.sound.1 List.mem_cons_self) hd
        have heq : G.size d = G.size f.config := hP.size_eq hsame
        rcases List.mem_cons.mp hf with rfl | hf
        · exact absurd heq hlt.ne
        · exact absurd heq (hlt.trans (h.sound.2.2.2.size_lt hf)).ne
      · exact hcovered.of_same hP hsame
  | @retreat c f frames visited closed =>
      obtain ⟨⟨-, -, hmoves, htodo, -, hmoves', hrest⟩, hvisited, hroot⟩ := h
      have hsub : closed ⊆ c :: closed := List.subset_cons_self c closed
      have hc : G.Covered same (c :: closed) c := by
        refine Graph.covered_of_moves hP List.mem_cons_self fun m hm d hd => ?_
        rcases hmoves m hm d hd with htodo | habove | hcovered
        · exact absurd htodo List.not_mem_nil
        · exact absurd habove (Option.some_ne_none d).symm
        · exact hcovered.mono hsub
      refine ⟨⟨htodo, ?_, fun m hm d hd => ?_, hrest.mono hsub⟩, fun w hw => ?_, hroot⟩
      · exact fun d hd => absurd hd (Option.not_mem_none d)
      · rcases hmoves' m hm d hd with htodo | habove | hcovered
        · exact Or.inl htodo
        · obtain rfl : c = d := Option.some.inj habove
          exact Or.inr (Or.inr hc)
        · exact Or.inr (Or.inr (hcovered.mono hsub))
      · rcases hvisited w hw with ⟨g, hg, rfl⟩ | hcovered
        · rcases List.mem_cons.mp hg with rfl | hg
          · exact Or.inr hc
          · exact Or.inl ⟨g, hg, rfl⟩
        · exact Or.inr (hcovered.mono hsub)

/-- **An exhausted search has covered everything.** -/
theorem covered (hP : G.Pruning same) {c : κ} {visited : List κ}
    (h : Explored G same root ⟨[⟨c, []⟩], visited, closed⟩) :
    G.Covered same (root :: closed) root := by
  obtain rfl : c = root := Option.some.inj h.root
  refine Graph.covered_of_moves hP List.mem_cons_self fun m hm d hd => ?_
  rcases h.sound.2.2.1 m hm d hd with htodo | habove | hcovered
  · exact absurd htodo List.not_mem_nil
  · exact absurd habove (Option.some_ne_none d).symm
  · exact hcovered.mono (List.subset_cons_self c closed)

end Explored

end Invariant

/-! ## The search ends -/

namespace Graph

variable (G : Graph κ μ)

/-- A bound for the steps of a search from a configuration. -/
noncomputable def cost (c : κ) : ℕ :=
  1 + ((G.moves c).attach.map fun m =>
    1 + (G.follow c m.1).attach.elim 0 fun d => cost d.1).sum
termination_by G.size c
decreasing_by exact G.size_lt m.2 d.2

/-- A bound for the steps that a move takes. -/
noncomputable def moveCost (c : κ) (m : μ) : ℕ := 1 + (G.follow c m).elim 0 G.cost

theorem cost_eq (c : κ) : G.cost c = 1 + ((G.moves c).map (G.moveCost c)).sum := by
  have hmove (m : {m // m ∈ G.moves c}) :
      1 + ((G.follow c m.1).attach.elim 0 fun d => G.cost d.1) = G.moveCost c m.1 := by
    rw [moveCost]
    cases G.follow c m.1 <;> rfl
  rw [cost, List.map_congr_left fun m _ => hmove m, List.attach_map_val]

end Graph

/-- A bound for the steps that are left at a frame. -/
noncomputable def Frame.cost (G : Graph κ μ) (f : Frame κ μ) : ℕ :=
  1 + (f.todo.map (G.moveCost f.config)).sum

/-- A bound for the steps that a search has left. -/
noncomputable def Trail.cost (G : Graph κ μ) (t : Trail κ μ) : ℕ :=
  (t.frames.map (Frame.cost G)).sum

/-- **Every step makes the bound smaller.** -/
theorem Trail.Step.cost_lt {G : Graph κ μ} {same : κ → κ → Prop} {t t' : Trail κ μ}
    (h : Trail.Step G same t t') : t'.cost G < t.cost G := by
  have hpos (c : κ) (m : μ) : 0 < G.moveCost c m := by
    rw [Graph.moveCost]
    omega
  cases h with
  | @enter c d m todo frames _ _ hd =>
      have hcost : G.moveCost c m = 1 + G.cost d := by rw [Graph.moveCost, hd, Option.elim_some]
      have htop : Frame.cost G ⟨d, G.moves d⟩ = G.cost d := (G.cost_eq d).symm
      simp only [Trail.cost, List.map_cons, List.sum_cons, htop]
      simp only [Frame.cost, List.map_cons, List.sum_cons, hcost]
      omega
  | @refuse c m todo frames _ _ _ =>
      have := hpos c m
      simp only [Trail.cost, Frame.cost, List.map_cons, List.sum_cons]
      omega
  | @prune c d w m todo frames _ _ _ _ _ =>
      have := hpos c m
      simp only [Trail.cost, Frame.cost, List.map_cons, List.sum_cons]
      omega
  | retreat =>
      simp only [Trail.cost, Frame.cost, List.map_cons, List.map_nil, List.sum_cons, List.sum_nil]
      omega

end DistributedSystems
