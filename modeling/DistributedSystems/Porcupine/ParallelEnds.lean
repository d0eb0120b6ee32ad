import DistributedSystems.Porcupine.ParallelCheck
import DistributedSystems.Transition.Termination
import Mathlib.Data.Prod.Lex

/-! # The parallel check ends

Every step of `checkParallel` uses up some work: the goroutines together have so much left
(`ParallelCheck.work`), and the caller so much when none of them has made a step
(`ParallelCheck.mainWork`).

* `Inv.smaller` — every step leaves less work;
* `Inv.exists_step` — a goroutine that has not sent its answer can take a step: no search panics, and
  the channel has room;
* `check_ends` — no run goes on for ever, and the caller returns unless it waits for nothing. -/

namespace DistributedSystems.Porcupine.ParallelCheck

variable {ι ο σ : Type} {C : ParallelCheck ι ο σ} {s s' : CheckState ι ο σ}

/-! ## Work -/

/-- The number of iterations that are left of a search. -/
noncomputable def left (C : ParallelCheck ι ο σ) (heap : Heap ι ο) (q : Search σ) : ℕ :=
  sInf { fuel | ∃ r, runSearch C.model heap C.computeInfo fuel q = .ok r }

/-- What is left of the work of a goroutine. -/
noncomputable def work (C : ParallelCheck ι ο σ) : Option (Worker ι ο σ) → ℕ ×ₗ ℕ
  | none => toLex (4, 0)
  | some .launched => toLex (3, 0)
  | some (.searching heap q) => toLex (2, C.left heap q)
  | some (.returned _) => toLex (1, 0)
  | some (.sent _) => toLex (0, 0)

/-- What is left of the work of the caller when all goroutines were started. -/
def mainWork (C : ParallelCheck ι ο σ) : Main → ℕ
  | .starting _ => 0
  | .collecting count _ => C.history.length - count + C.history.length + 2
  | .draining count _ _ => C.history.length - count + 1
  | .returned _ => 0

/-- **The measure of a check.** -/
noncomputable def measure (C : ParallelCheck ι ο σ) (s : CheckState ι ο σ) :
    Multiset (ℕ ×ₗ ℕ) × ℕ :=
  ((Multiset.range C.history.length).map fun i => C.work (s.workers i), C.mainWork s.main)

/-- The measure gets smaller. -/
def Smaller : Multiset (ℕ ×ₗ ℕ) × ℕ → Multiset (ℕ ×ₗ ℕ) × ℕ → Prop :=
  Prod.Lex (Relation.CutExpand (· < ·)) (· < ·)

theorem wellFounded_smaller : WellFounded Smaller :=
  WellFounded.prod_lex (wellFounded_lt.cutExpand) wellFounded_lt

/-- A goroutine with less work left makes the measure smaller. -/
theorem smaller_of_setWorker {i : ℕ} (hi : i < C.history.length) {w : Worker ι ο σ}
    (hworkers : s'.workers = Function.update s.workers i (some w))
    (hlt : C.work (some w) < C.work (s.workers i)) : Smaller (C.measure s') (C.measure s) := by
  have hwork : (fun j => C.work (s'.workers j)) =
      Function.update (fun j => C.work (s.workers j)) i (C.work (some w)) := by
    funext j
    rw [hworkers]
    exact Function.apply_update (fun _ => C.work) s.workers i (some w) j
  refine Prod.Lex.left _ _ ?_
  rw [hwork]
  exact System.cutExpand_update hi hlt

/-- A caller with less work left makes the measure smaller. -/
theorem smaller_of_main (hworkers : s'.workers = s.workers)
    (hlt : C.mainWork s'.main < C.mainWork s.main) : Smaller (C.measure s') (C.measure s) := by
  rw [measure, measure, hworkers]
  exact Prod.Lex.right _ hlt

/-- An iteration leaves fewer iterations. -/
theorem left_lt {entries : List (Entry ι ο)} {kill : Bool} {heap : Heap ι ο} {q q' : Search σ}
    (hgood : C.Good kill entries (.searching heap q))
    (hstep : q.step C.model heap C.computeInfo kill = some (.inl q')) :
    C.left heap q' < C.left heap q := by
  cases kill with
  | true => exact absurd hstep step_kill
  | false =>
      obtain ⟨fuel, r, hrun, -⟩ := hgood
      obtain ⟨r', hrun'⟩ := Nat.sInf_mem (⟨fuel, r, hrun⟩ :
        { fuel | ∃ r, runSearch C.model heap C.computeInfo fuel q = .ok r }.Nonempty)
      obtain ⟨fuel', hfuel, hrest⟩ := runSearch_inl hstep hrun'
      have hle : C.left heap q' ≤ fuel' := Nat.sInf_le ⟨r', hrest⟩
      have : C.left heap q = fuel' + 1 := hfuel
      omega

/-- The work of the caller after its loop. -/
theorem mainWork_afterLoop (C : ParallelCheck ι ο σ) (count : ℕ) (ok timedOut : Bool) :
    C.mainWork (C.afterLoop count ok timedOut) ≤ C.history.length - count + 1 := by
  rw [afterLoop]
  split
  · exact le_rfl
  · exact Nat.zero_le _

theorem collect_workers (s : CheckState ι ο σ) (count : ℕ) (ok : Bool) :
    (C.collect s count ok).workers = s.workers := by
  rw [collect]
  split
  · rfl
  · split <;> rfl

/-- The work of the caller after it has received an answer. -/
theorem mainWork_collect {count : ℕ} (hcount : count < C.history.length) (s : CheckState ι ο σ)
    (ok ok' : Bool) :
    C.mainWork (C.collect s (count + 1) ok).main < C.mainWork (.collecting count ok') := by
  have hloop := C.mainWork_afterLoop (count + 1) ok false
  rw [collect, mainWork]
  split
  · exact hloop.trans_lt (by omega)
  · split
    · exact hloop.trans_lt (by omega)
    · rw [mainWork]
      omega

/-- **Every step makes the measure smaller.** -/
theorem Inv.smaller (h : C.Inv s) (hstep : Transition C s s') :
    Smaller (C.measure s') (C.measure s) := by
  have hbound {i : ℕ} {w : Worker ι ο σ} (hw : s.workers i = some w) : i < C.history.length := by
    obtain ⟨entries, hentries, -⟩ := h.worker i w hw
    exact (List.getElem?_eq_some_iff.mp hentries).1
  have hmainInv := h.main
  cases hstep with
  | start hmain =>
      rw [hmain] at hmainInv
      obtain ⟨hnext, -, hstarted, -⟩ := hmainInv
      refine smaller_of_setWorker hnext rfl ?_
      rw [(hstarted _ hnext).mpr le_rfl]
      exact Prod.Lex.toLex_lt_toLex.mpr (Or.inl (by decide))
  | enter hworker hentries hstart =>
      refine smaller_of_setWorker (hbound hworker) rfl ?_
      rw [hworker]
      exact Prod.Lex.toLex_lt_toLex.mpr (Or.inl (by simp))
  | iterate hworker hstep =>
      refine smaller_of_setWorker (hbound hworker) rfl ?_
      obtain ⟨entries, -, hgood⟩ := h.worker _ _ hworker
      rw [hworker]
      exact Prod.Lex.toLex_lt_toLex.mpr (Or.inr ⟨rfl, left_lt hgood hstep⟩)
  | finish hworker hstep =>
      refine smaller_of_setWorker (hbound hworker) rfl ?_
      rw [hworker]
      exact Prod.Lex.toLex_lt_toLex.mpr (Or.inl (by simp))
  | send hworker hroom =>
      refine smaller_of_setWorker (hbound hworker) rfl ?_
      rw [hworker]
      exact Prod.Lex.toLex_lt_toLex.mpr (Or.inl (by simp))
  | receive hmain hresults =>
      rw [hmain] at hmainInv
      obtain ⟨-, -, hcount | hnil, received, hreceived, -⟩ := hmainInv
      · refine smaller_of_main (collect_workers _ _ _) ?_
        rw [hmain]
        exact mainWork_collect hcount _ _ _
      · -- without goroutines there are no answers
        have hanswers : C.answers s = [] := by rw [answers, hnil]; rfl
        rw [hanswers, hresults] at hreceived
        exact absurd hreceived.eq_nil (by simp)
  | timeout hmain htimeout =>
      refine smaller_of_main rfl ?_
      rw [hmain]
      refine (C.mainWork_afterLoop _ _ _).trans_lt ?_
      rw [mainWork]
      omega
  | drain hmain hcount hresults =>
      refine smaller_of_main rfl ?_
      rw [hmain, mainWork, mainWork]
      omega
  | leave hmain hcount =>
      refine smaller_of_main rfl ?_
      rw [hmain, mainWork, mainWork]
      exact Nat.succ_pos _

/-! ## Steps that are possible -/

/-- A goroutine that has not sent its answer leaves room in the channel. -/
theorem length_answers_lt {i : ℕ} (hi : i < C.history.length) (hnone : answerOf s i = none) :
    (C.answers s).length < C.history.length := by
  have hle : (C.answers s).length ≤ (List.range C.history.length).length :=
    List.length_filterMap_le _ _
  rw [List.length_range] at hle
  refine lt_of_le_of_ne hle fun heq => ?_
  have hsome := List.filterMap_length_eq_length.mp (heq.trans List.length_range.symm) i
    (List.mem_range.mpr hi)
  rw [hnone] at hsome
  exact Bool.false_ne_true hsome

/-- There is never more in the channel than was sent. -/
theorem Inv.length_results (h : C.Inv s) : s.results.length ≤ (C.answers s).length := by
  have hmain := h.main
  cases hm : s.main with
  | starting next =>
      rw [hm] at hmain
      exact hmain.2.2.2.length_eq.le
  | collecting count ok =>
      rw [hm] at hmain
      obtain ⟨-, -, -, received, hreceived, -⟩ := hmain
      rw [← hreceived.length_eq, List.length_append]
      exact Nat.le_add_left _ _
  | draining count ok timedOut =>
      rw [hm] at hmain
      exact hmain.2.1 ▸ Nat.le_add_left _ _
  | returned result =>
      rw [hm] at hmain
      exact hmain.2.1

/-- A search never panics. -/
theorem Good.exists_step {kill : Bool} {entries : List (Entry ι ο)} {heap : Heap ι ο}
    {q : Search σ} (h : C.Good kill entries (.searching heap q)) :
    ∃ outcome, q.step C.model heap C.computeInfo kill = some outcome := by
  obtain ⟨fuel, r, hrun, -⟩ := h
  cases fuel with
  | zero => cases hrun
  | succ fuel =>
      cases hstep : q.step C.model heap C.computeInfo false with
      | none =>
          rw [runSearch, hstep] at hrun
          cases hrun
      | some outcome =>
          cases kill with
          | false => exact ⟨outcome, hstep⟩
          | true =>
              rw [Search.step] at hstep ⊢
              split at hstep
              · next hnil => exact ⟨outcome, (if_pos hnil).trans hstep⟩
              · next hnil => exact ⟨.inr ⟨false, q.longest⟩, if_neg hnil⟩

/-- A goroutine that was started can take a step until it has sent its answer. -/
theorem Inv.exists_step (hnumbered : ∀ entries ∈ C.history, Numbered entries)
    (hmodel : C.model.Respectful) (h : C.Inv s) {i : ℕ} {w : Worker ι ο σ}
    (hw : s.workers i = some w) : (∃ r, w = .sent r) ∨ ∃ a s', C.step s a = some s' := by
  obtain ⟨entries, hentries, hgood⟩ := h.worker i w hw
  cases w with
  | launched =>
      obtain ⟨heap, q, hstart, -⟩ :=
        good_start hnumbered hmodel (List.mem_of_getElem? hentries) s.kill
      refine Or.inr ⟨.search i, ParallelCheck.setWorker s i (.searching heap q), ?_⟩
      rw [step, searchStep, hw]
      simp only [hentries, Option.bind_some, hstart, Option.map_some]
  | searching heap q =>
      obtain ⟨outcome, hstep⟩ := hgood.exists_step
      refine Or.inr ⟨.search i,
        ParallelCheck.setWorker s i (outcome.elim (.searching heap) .returned), ?_⟩
      rw [step, searchStep, hw]
      simp only [hstep, Option.map_some]
  | returned r =>
      have hlt := length_answers_lt (List.getElem?_eq_some_iff.mp hentries).1
        (by rw [answerOf, hw, Option.bind_some, Worker.sent?])
      refine Or.inr ⟨.send i,
        { ParallelCheck.setWorker s i (.sent r) with results := s.results ++ [r.ok] }, ?_⟩
      rw [step, hw]
      exact if_pos (h.length_results.trans_lt hlt)
  | sent r => exact Or.inl ⟨r, rfl⟩

/-- When all goroutines have sent their answers, there are as many answers as goroutines. -/
theorem length_answers (hsent : ∀ i < C.history.length, ∃ r, s.workers i = some (.sent r)) :
    (C.answers s).length = C.history.length := by
  refine (List.filterMap_length_eq_length.mpr fun i hi => ?_).trans List.length_range
  obtain ⟨r, hr⟩ := hsent i (List.mem_range.mp hi)
  rw [answerOf, hr]
  rfl

/-- All goroutines were started when the caller cannot start another one. -/
theorem Inv.started (h : C.Inv s) (hstuck : ∀ a, C.step s a = none) (i : ℕ)
    (hi : i < C.history.length) : s.workers i ≠ none := by
  have hinv := h.main
  cases hmain : s.main with
  | starting next =>
      have hnone := hstuck .start
      rw [step, hmain] at hnone
      cases hnone
  | collecting count ok =>
      rw [hmain] at hinv
      exact hinv.2.1 i hi
  | draining count ok timedOut =>
      rw [hmain] at hinv
      exact hinv.1 i hi
  | returned result =>
      rw [hmain] at hinv
      exact hinv.1 i hi

/-- The caller can take a step when all goroutines have sent their answers, until it returns or waits
for nothing. -/
theorem Inv.returned (h : C.Inv s) (hstuck : ∀ a, C.step s a = none)
    (hsent : ∀ i < C.history.length, ∃ r, s.workers i = some (.sent r)) :
    (∃ result, s.main = .returned result) ∨ C.history = [] ∧ C.timeout ≤ 0 := by
  have hlength := length_answers hsent
  have hinv := h.main
  cases hmain : s.main with
  | starting next =>
      have hnone := hstuck .start
      rw [step, hmain] at hnone
      cases hnone
  | collecting count ok =>
      rw [hmain] at hinv
      obtain ⟨-, -, hcount, received, hreceived, hreceivedLength, -⟩ := hinv
      cases hresults : s.results with
      | cons result results =>
          have hnone := hstuck .receive
          rw [step, hmain, hresults] at hnone
          cases hnone
      | nil =>
          rw [hresults, List.append_nil] at hreceived
          have hcountEq := hreceived.length_eq
          have hnil : C.history = [] := hcount.resolve_left (by omega)
          refine Or.inr ⟨hnil, not_lt.mp fun htimeout => ?_⟩
          have hnone := hstuck .timeout
          rw [step, hmain] at hnone
          simp only [if_pos htimeout] at hnone
          cases hnone
  | draining count ok timedOut =>
      rw [hmain] at hinv
      obtain ⟨-, hcount, -⟩ := hinv
      have hnone := hstuck .drain
      rw [step, hmain] at hnone
      simp only at hnone
      split at hnone
      · cases hnone
      · split at hnone
        · next hle hresults =>
          rw [hresults, List.length_nil] at hcount
          omega
        · cases hnone
  | returned result => exact Or.inl ⟨result, rfl⟩

/-- **Every check ends.** No run goes on for ever; where no step is possible, all goroutines have
sent their answers, and the caller has returned, except that without partitions and without a timeout
it waits for an answer that never comes. -/
theorem check_ends (hnumbered : ∀ entries ∈ C.history, Numbered entries)
    (hmodel : C.model.Respectful) :
    ¬ C.system.Endless (fun _ _ => True) C.system.init ∧
      ∀ s, C.system.Reachable s → (∀ a, C.system.step s a = none) →
        (∀ i < C.history.length, ∃ r, s.workers i = some (.sent r)) ∧
          ((∃ result, s.main = .returned result) ∨ C.history = [] ∧ C.timeout ≤ 0) := by
  constructor
  · refine System.not_endless wellFounded_smaller C.measure (P := C.Inv) ?_ (inv_init C)
    intro s a t hinv _ hstep
    have ht := step_transition hstep
    exact ⟨hinv.transition hnumbered hmodel ht, hinv.smaller ht⟩
  · intro s h hstuck
    have hinv := inv_of_reachable hnumbered hmodel h
    have hsent (i : ℕ) (hi : i < C.history.length) : ∃ r, s.workers i = some (.sent r) := by
      obtain ⟨w, hw⟩ := Option.ne_none_iff_exists'.mp (hinv.started hstuck i hi)
      rcases hinv.exists_step hnumbered hmodel hw with ⟨r, rfl⟩ | ⟨a, s', hstep⟩
      · exact ⟨r, hw⟩
      · exact absurd ((hstuck a).symm.trans hstep).symm (Option.some_ne_none s')
    exact ⟨hsent, hinv.returned hstuck hsent⟩

end DistributedSystems.Porcupine.ParallelCheck
