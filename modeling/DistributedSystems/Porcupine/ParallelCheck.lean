import DistributedSystems.Porcupine.Correctness
import DistributedSystems.Transition.System
import Mathlib.Data.List.Count
import Mathlib.Data.List.Dedup

/-! # Checking the partitions in parallel

`checkParallel` of `porcupine/checker.go` as a labelled system: one goroutine runs `checkSingle` for
each partition of the history, and sends its answer into a channel; the caller receives the answers,
may run into its timeout, and asks the goroutines to stop through `kill`.

* `Transition` — what a step of the caller or of a goroutine does;
* `Inv.transition` — as long as nobody was asked to stop, the answers in the channel and those that
  were received are the right ones;
* `check_answers` — what the result says about the partitions;
* `check_partials` — what the partial linearizations say that are returned with it;
* `idle_of_reachable` — without partitions the caller waits for nothing. -/

namespace DistributedSystems.Porcupine

open Linearizability

variable {ι ο σ : Type}

/-- `CheckResult`. -/
inductive CheckResult
  /-- `Unknown`: timed out. -/
  | unknown
  /-- `Ok`. -/
  | ok
  /-- `Illegal`. -/
  | illegal
  deriving DecidableEq

/-- The arguments of `checkParallel`. -/
structure ParallelCheck (ι ο σ : Type) where
  /-- `model`. -/
  model : Model ι ο σ
  /-- `history`: the entries of each partition. -/
  history : List (List (Entry ι ο))
  /-- `computeInfo`. -/
  computeInfo : Bool
  /-- `timeout`. -/
  timeout : ℤ

/-- Where the goroutine of a partition is. -/
inductive Worker (ι ο σ : Type)
  /-- Before `checkSingle`. -/
  | launched
  /-- In the loop of `checkSingle`. -/
  | searching (heap : Heap ι ο) (s : Search σ)
  /-- `checkSingle` has returned. -/
  | returned (r : Result)
  /-- The answer has been sent. -/
  | sent (r : Result)

/-- The answer that a goroutine has sent. -/
def Worker.sent? : Worker ι ο σ → Option Bool
  | launched => none
  | searching _ _ => none
  | returned _ => none
  | sent r => some r.ok

/-- Where the caller is. -/
inductive Main
  /-- Before it starts a goroutine. -/
  | starting (next : ℕ)
  /-- In the loop that receives the answers, with `count` and `ok`. -/
  | collecting (count : ℕ) (ok : Bool)
  /-- In the loop that waits for all goroutines, with `count`, `ok` and `timedOut`. -/
  | draining (count : ℕ) (ok timedOut : Bool)
  /-- It has returned. -/
  | returned (result : CheckResult)
  deriving DecidableEq

/-- The state of a check. -/
structure CheckState (ι ο σ : Type) where
  /-- The goroutines that were started. -/
  workers : ℕ → Option (Worker ι ο σ)
  /-- `results`. -/
  results : List Bool
  /-- `kill`. -/
  kill : Bool
  /-- The caller. -/
  main : Main

/-- A step of a check. -/
inductive CheckAction
  /-- The caller starts a goroutine. -/
  | start
  /-- A goroutine enters `checkSingle`, or makes an iteration of its loop. -/
  | search (i : ℕ)
  /-- A goroutine sends its answer. -/
  | send (i : ℕ)
  /-- The caller receives an answer. -/
  | receive
  /-- The timeout of the caller has passed. -/
  | timeout
  /-- The caller waits for a goroutine, or returns when all have ended. -/
  | drain

namespace ParallelCheck

/-! ## Steps -/

/-- The caller when it has started some goroutines. -/
def afterStart (C : ParallelCheck ι ο σ) (next : ℕ) : Main :=
  if next < C.history.length then .starting next else .collecting 0 true

/-- The result that is returned. -/
def verdict (ok timedOut : Bool) : CheckResult :=
  if !ok then .illegal else if timedOut then .unknown else .ok

/-- The caller after its loop. -/
def afterLoop (C : ParallelCheck ι ο σ) (count : ℕ) (ok timedOut : Bool) : Main :=
  if C.computeInfo then .draining count ok timedOut else .returned (verdict ok timedOut)

/-- The state with another goroutine. -/
def setWorker (s : CheckState ι ο σ) (i : ℕ) (w : Worker ι ο σ) : CheckState ι ο σ :=
  { s with workers := Function.update s.workers i (some w) }

/-- The caller has received an answer, and `count` and `ok` are what they are then. -/
def collect (C : ParallelCheck ι ο σ) (s : CheckState ι ο σ) (count : ℕ) (ok : Bool) :
    CheckState ι ο σ :=
  if !ok && !C.computeInfo then { s with kill := true, main := C.afterLoop count ok false }
  else if C.history.length ≤ count then { s with main := C.afterLoop count ok false }
  else { s with main := .collecting count ok }

/-- A step of a goroutine in `checkSingle`; `none` when it panics. -/
def searchStep (C : ParallelCheck ι ο σ) (s : CheckState ι ο σ) (i : ℕ) :
    Option (CheckState ι ο σ) :=
  match s.workers i with
  | some .launched =>
      (C.history[i]?.bind fun entries => startSearch C.model entries).map fun started =>
        setWorker s i (.searching started.1 started.2)
  | some (.searching heap q) =>
      (q.step C.model heap C.computeInfo s.kill).map fun outcome =>
        setWorker s i (outcome.elim (.searching heap) .returned)
  | _ => none

/-- One step; `none` when it is not enabled. The channel has room for an answer of every
goroutine. -/
def step (C : ParallelCheck ι ο σ) (s : CheckState ι ο σ) : CheckAction → Option (CheckState ι ο σ)
  | .start =>
      match s.main with
      | .starting next =>
          some { setWorker s next .launched with main := C.afterStart (next + 1) }
      | _ => none
  | .search i => C.searchStep s i
  | .send i =>
      match s.workers i with
      | some (.returned r) =>
          if s.results.length < C.history.length then
            some { setWorker s i (.sent r) with results := s.results ++ [r.ok] }
          else none
      | _ => none
  | .receive =>
      match s.main, s.results with
      | .collecting count ok, result :: results =>
          some (C.collect { s with results := results } (count + 1) (ok && result))
      | _, _ => none
  | .timeout =>
      match s.main with
      | .collecting count ok =>
          if 0 < C.timeout then some { s with kill := true, main := C.afterLoop count ok true }
          else none
      | _ => none
  | .drain =>
      match s.main with
      | .draining count ok timedOut =>
          if C.history.length ≤ count then some { s with main := .returned (verdict ok timedOut) }
          else if s.results = [] then none
          else some { s with results := s.results.tail, main := .draining (count + 1) ok timedOut }
      | _ => none

/-- `longest[i]`, which is written before the answer is sent. -/
def longestOf (s : CheckState ι ο σ) (i : ℕ) : List (Option (List ℕ)) :=
  match s.workers i with
  | some (.sent r) => r.longest
  | _ => []

/-- The set of the sequences of a partition. -/
def partials (longest : List (Option (List ℕ))) : List (List ℕ) := (longest.filterMap id).dedup

/-- `partialLinearizations`, in the state in which the caller returns. -/
def partialLinearizations (C : ParallelCheck ι ο σ) (s : CheckState ι ο σ) :
    List (List (List ℕ)) :=
  (List.range C.history.length).map fun i => partials (longestOf s i)

/-- **The check as a labelled system.** -/
def system (C : ParallelCheck ι ο σ) : System (CheckState ι ο σ) CheckAction where
  init := ⟨fun _ => none, [], false, C.afterStart 0⟩
  step := C.step

/-- What a step does. -/
inductive Transition (C : ParallelCheck ι ο σ) (s : CheckState ι ο σ) : CheckState ι ο σ → Prop
  /-- A goroutine is started. -/
  | start {next : ℕ} (hmain : s.main = .starting next) :
      Transition C s { setWorker s next .launched with main := C.afterStart (next + 1) }
  /-- A goroutine enters `checkSingle`. -/
  | enter {i : ℕ} {entries : List (Entry ι ο)} {heap : Heap ι ο} {q : Search σ}
      (hworker : s.workers i = some .launched) (hentries : C.history[i]? = some entries)
      (hstart : startSearch C.model entries = some (heap, q)) :
      Transition C s (setWorker s i (.searching heap q))
  /-- A goroutine makes an iteration. -/
  | iterate {i : ℕ} {heap : Heap ι ο} {q q' : Search σ}
      (hworker : s.workers i = some (.searching heap q))
      (hstep : q.step C.model heap C.computeInfo s.kill = some (.inl q')) :
      Transition C s (setWorker s i (.searching heap q'))
  /-- `checkSingle` returns. -/
  | finish {i : ℕ} {heap : Heap ι ο} {q : Search σ} {r : Result}
      (hworker : s.workers i = some (.searching heap q))
      (hstep : q.step C.model heap C.computeInfo s.kill = some (.inr r)) :
      Transition C s (setWorker s i (.returned r))
  /-- A goroutine sends its answer. -/
  | send {i : ℕ} {r : Result} (hworker : s.workers i = some (.returned r))
      (hroom : s.results.length < C.history.length) :
      Transition C s { setWorker s i (.sent r) with results := s.results ++ [r.ok] }
  /-- The caller receives an answer. -/
  | receive {count : ℕ} {ok result : Bool} {results : List Bool}
      (hmain : s.main = .collecting count ok) (hresults : s.results = result :: results) :
      Transition C s (C.collect { s with results := results } (count + 1) (ok && result))
  /-- The timeout has passed. -/
  | timeout {count : ℕ} {ok : Bool} (hmain : s.main = .collecting count ok)
      (htimeout : 0 < C.timeout) :
      Transition C s { s with kill := true, main := C.afterLoop count ok true }
  /-- The caller waits for one more goroutine. -/
  | drain {count : ℕ} {ok timedOut result : Bool} {results : List Bool}
      (hmain : s.main = .draining count ok timedOut) (hcount : count < C.history.length)
      (hresults : s.results = result :: results) :
      Transition C s { s with results := results, main := .draining (count + 1) ok timedOut }
  /-- The caller returns. -/
  | leave {count : ℕ} {ok timedOut : Bool} (hmain : s.main = .draining count ok timedOut)
      (hcount : C.history.length ≤ count) :
      Transition C s { s with main := .returned (verdict ok timedOut) }

variable {C : ParallelCheck ι ο σ} {s s' : CheckState ι ο σ} {a : CheckAction}

/-- Every step is one of the transitions. -/
theorem step_transition (h : C.step s a = some s') : Transition C s s' := by
  cases a with
  | start =>
      rw [step] at h
      split at h
      · next next hmain =>
        obtain rfl := Option.some.inj h
        exact .start hmain
      · cases h
  | search i =>
      rw [step, searchStep] at h
      split at h
      · next hworker =>
        obtain ⟨⟨heap, q⟩, hstart, rfl⟩ := Option.map_eq_some_iff.mp h
        obtain ⟨entries, hentries, hstart⟩ := Option.bind_eq_some_iff.mp hstart
        exact .enter hworker hentries hstart
      · next heap q hworker =>
        obtain ⟨outcome, hstep, rfl⟩ := Option.map_eq_some_iff.mp h
        cases outcome with
        | inl q' => exact .iterate hworker hstep
        | inr r => exact .finish hworker hstep
      · cases h
  | send i =>
      rw [step] at h
      split at h
      · next r hworker =>
        split at h
        · next hroom =>
          obtain rfl := Option.some.inj h
          exact .send hworker hroom
        · cases h
      · cases h
  | receive =>
      rw [step] at h
      split at h
      · next count ok result results hmain hresults =>
        obtain rfl := Option.some.inj h
        exact .receive hmain hresults
      · cases h
  | timeout =>
      rw [step] at h
      split at h
      · next count ok hmain =>
        split at h
        · next htimeout =>
          obtain rfl := Option.some.inj h
          exact .timeout hmain htimeout
        · cases h
      · cases h
  | drain =>
      rw [step] at h
      split at h
      · next count ok timedOut hmain =>
        split at h
        · next hcount =>
          obtain rfl := Option.some.inj h
          exact .leave hmain hcount
        · next hcount =>
          split at h
          · cases h
          · next hresults =>
            obtain rfl := Option.some.inj h
            obtain ⟨result, results, hcons⟩ := List.exists_cons_of_ne_nil hresults
            rw [hcons]
            exact .drain hmain (not_le.mp hcount) hcons
      · cases h

/-! ## The answers -/

/-- The answer that a goroutine has sent, if it was started. -/
def answerOf (s : CheckState ι ο σ) (i : ℕ) : Option Bool := (s.workers i).bind Worker.sent?

/-- The answers that have been sent. -/
def answers (C : ParallelCheck ι ο σ) (s : CheckState ι ο σ) : List Bool :=
  (List.range C.history.length).filterMap (answerOf s)

@[simp] theorem setWorker_self (s : CheckState ι ο σ) (i : ℕ) (w : Worker ι ο σ) :
    (setWorker s i w).workers i = some w := Function.update_self i _ s.workers

theorem setWorker_ne (s : CheckState ι ο σ) {i j : ℕ} (h : j ≠ i) (w : Worker ι ο σ) :
    (setWorker s i w).workers j = s.workers j := Function.update_of_ne h _ s.workers

theorem answerOf_self (s : CheckState ι ο σ) (i : ℕ) (w : Worker ι ο σ) :
    answerOf (setWorker s i w) i = w.sent? := by
  rw [answerOf, setWorker_self, Option.bind_some]

theorem answerOf_ne (s : CheckState ι ο σ) {i j : ℕ} (h : j ≠ i) (w : Worker ι ο σ) :
    answerOf (setWorker s i w) j = answerOf s j := by
  rw [answerOf, setWorker_ne s h, answerOf]

/-- A step of a goroutine that sends nothing. -/
theorem answers_setWorker {i : ℕ} {w : Worker ι ο σ} (hw : w.sent? = none)
    (hold : answerOf s i = none) : C.answers (setWorker s i w) = C.answers s := by
  refine List.filterMap_congr fun j _ => ?_
  by_cases heq : j = i
  · rw [heq, answerOf_self, hold, hw]
  · exact answerOf_ne s heq w

/-- A goroutine sends its answer. -/
theorem answers_send {i : ℕ} (hi : i < C.history.length) {r : Result}
    (hold : answerOf s i = none) :
    (C.answers (setWorker s i (.sent r))).Perm (r.ok :: C.answers s) := by
  have hrange := List.perm_cons_erase (List.mem_range.mpr hi)
  have hothers : ((List.range C.history.length).erase i).filterMap
      (answerOf (setWorker s i (.sent r))) =
      ((List.range C.history.length).erase i).filterMap (answerOf s) := by
    refine List.filterMap_congr fun j hj => answerOf_ne s ?_ _
    rintro rfl
    exact List.nodup_range.not_mem_erase hj
  have hself : answerOf (setWorker s i (.sent r)) i = some r.ok := answerOf_self s i (.sent r)
  have hafter := hrange.filterMap (answerOf (setWorker s i (.sent r)))
  have hbefore := hrange.filterMap (answerOf s)
  rw [List.filterMap_cons_some hself, hothers] at hafter
  rw [List.filterMap_cons_none hold] at hbefore
  exact hafter.trans (hbefore.symm.cons r.ok)

theorem mem_partials {longest : List (Option (List ℕ))} {seq : List ℕ} :
    seq ∈ partials longest ↔ some seq ∈ longest := by
  rw [partials, List.mem_dedup, List.mem_filterMap]
  exact ⟨fun ⟨_, hmem, heq⟩ => heq ▸ hmem, fun hmem => ⟨_, hmem, rfl⟩⟩

/-- The entries of a partition are linearizable. -/
def Linearizable (C : ParallelCheck ι ο σ) (entries : List (Entry ι ο)) : Prop :=
  Linearizability.Linearizable (C.model.perform entries) C.model.init (entries.map Entry.event)

/-- What `ok` and `timedOut` say after the loop. -/
structure Judged (C : ParallelCheck ι ο σ) (ok timedOut : Bool) : Prop where
  /-- A partition is not linearizable. -/
  illegal : ok = false → ∃ entries ∈ C.history, ¬ C.Linearizable entries
  /-- All partitions are linearizable. -/
  legal : ok = true → timedOut = false → ∀ entries ∈ C.history, C.Linearizable entries
  /-- There was a timeout. -/
  timedOut : timedOut = true → 0 < C.timeout

/-- What the result says. -/
structure Answers (C : ParallelCheck ι ο σ) (result : CheckResult) : Prop where
  /-- `Illegal`: a partition is not linearizable. -/
  illegal : result = .illegal → ∃ entries ∈ C.history, ¬ C.Linearizable entries
  /-- `Ok`: all partitions are linearizable. -/
  ok : result = .ok → ∀ entries ∈ C.history, C.Linearizable entries
  /-- `Unknown`: there was a timeout. -/
  unknown : result = .unknown → 0 < C.timeout

theorem Judged.answers {ok timedOut : Bool} (h : C.Judged ok timedOut) :
    C.Answers (verdict ok timedOut) := by
  cases ok with
  | false => exact ⟨fun _ => h.illegal rfl, by simp [verdict], by simp [verdict]⟩
  | true =>
      cases timedOut with
      | false => exact ⟨by simp [verdict], fun _ => h.legal rfl rfl, by simp [verdict]⟩
      | true => exact ⟨by simp [verdict], by simp [verdict], fun _ => h.timedOut rfl⟩

/-- A goroutine does its work: its search will return the right answer, and so does the answer that
it has if nobody was asked to stop. -/
def Good (C : ParallelCheck ι ο σ) (kill : Bool) (entries : List (Entry ι ο)) :
    Worker ι ο σ → Prop
  | .launched => True
  | .searching heap q => ∃ fuel r, runSearch C.model heap C.computeInfo fuel q = .ok r ∧
      r.Correct C.model entries C.computeInfo
  | .returned r => kill = false → r.Correct C.model entries C.computeInfo
  | .sent r => kill = false → r.Correct C.model entries C.computeInfo

/-- What holds where the caller is. -/
def MainInv (C : ParallelCheck ι ο σ) (s : CheckState ι ο σ) : Main → Prop
  | .starting next => next < C.history.length ∧ s.kill = false ∧
      (∀ i < C.history.length, s.workers i = none ↔ next ≤ i) ∧ s.results.Perm (C.answers s)
  | .collecting count ok => s.kill = false ∧ (∀ i < C.history.length, s.workers i ≠ none) ∧
      (count < C.history.length ∨ C.history = []) ∧
      ∃ received : List Bool, (received ++ s.results).Perm (C.answers s) ∧
        received.length = count ∧ ok = received.all id
  | .draining count ok timedOut => (∀ i < C.history.length, s.workers i ≠ none) ∧
      count + s.results.length = (C.answers s).length ∧ C.Judged ok timedOut
  | .returned result => (∀ i < C.history.length, s.workers i ≠ none) ∧
      s.results.length ≤ (C.answers s).length ∧
      (C.computeInfo = true → C.history.length ≤ (C.answers s).length) ∧ C.Answers result

/-- **The invariant of a check.** -/
structure Inv (C : ParallelCheck ι ο σ) (s : CheckState ι ο σ) : Prop where
  /-- The goroutines do their work. -/
  worker : ∀ i w, s.workers i = some w →
    ∃ entries, C.history[i]? = some entries ∧ C.Good s.kill entries w
  /-- What holds where the caller is. -/
  main : C.MainInv s s.main
  /-- Why the goroutines were asked to stop. -/
  stop : s.kill = true → C.computeInfo = false ∨ 0 < C.timeout

/-! ## Every step keeps the invariant -/

/-- Whoever is asked to stop need not be right. -/
theorem Good.kill {kill kill' : Bool} {entries : List (Entry ι ο)} {w : Worker ι ο σ}
    (h : C.Good kill entries w) (hkill : kill' = false → kill = false) :
    C.Good kill' entries w := by
  cases w with
  | launched => trivial
  | searching heap q => exact h
  | returned r => exact fun hfalse => h (hkill hfalse)
  | sent r => exact fun hfalse => h (hkill hfalse)

/-- The goroutines do their work after a step of one of them. -/
theorem Inv.setWorker (h : C.Inv s) {i : ℕ} {w w' : Worker ι ο σ} (hi : s.workers i = some w)
    (hgood : ∀ entries, C.history[i]? = some entries → C.Good s.kill entries w →
      C.Good s.kill entries w') (j : ℕ)
    (v : Worker ι ο σ) (hv : (ParallelCheck.setWorker s i w').workers j = some v) :
    ∃ entries, C.history[j]? = some entries ∧ C.Good s.kill entries v := by
  by_cases heq : j = i
  · subst heq
    rw [setWorker_self] at hv
    obtain rfl := Option.some.inj hv
    obtain ⟨entries, hentries, hw⟩ := h.worker j w hi
    exact ⟨entries, hentries, hgood entries hentries hw⟩
  · rw [setWorker_ne s heq] at hv
    exact h.worker j v hv

/-- What holds of the caller depends on the goroutines through those that were started and the
answers that were sent. -/
theorem MainInv.congr {m : Main} (h : C.MainInv s m) (hkill : s'.kill = s.kill)
    (hnone : ∀ i, s'.workers i = none ↔ s.workers i = none)
    (hlength : s'.results.length + (C.answers s).length =
      s.results.length + (C.answers s').length)
    (hmore : (C.answers s).length ≤ (C.answers s').length)
    (hperm : ∀ received : List Bool, (received ++ s.results).Perm (C.answers s) →
      (received ++ s'.results).Perm (C.answers s')) : C.MainInv s' m := by
  cases m with
  | starting next =>
      obtain ⟨hnext, hfalse, hstarted, hresults⟩ := h
      exact ⟨hnext, hkill.trans hfalse, fun i hi => (hnone i).trans (hstarted i hi),
        hperm [] hresults⟩
  | collecting count ok =>
      obtain ⟨hfalse, hstarted, hcount, received, hreceived, hlength, hok⟩ := h
      exact ⟨hkill.trans hfalse, fun i hi => mt (hnone i).mp (hstarted i hi), hcount, received,
        hperm received hreceived, hlength, hok⟩
  | draining count ok timedOut =>
      obtain ⟨hstarted, hcount, hjudged⟩ := h
      exact ⟨fun i hi => mt (hnone i).mp (hstarted i hi), by omega, hjudged⟩
  | returned result =>
      obtain ⟨hstarted, hle, hall, hanswers⟩ := h
      exact ⟨fun i hi => mt (hnone i).mp (hstarted i hi), by omega,
        fun hinfo => (hall hinfo).trans hmore, hanswers⟩

/-- What holds of the caller after a step of a goroutine that sends nothing. -/
theorem MainInv.setWorker {m : Main} (h : C.MainInv s m) {i : ℕ} {w w' : Worker ι ο σ}
    (hi : s.workers i = some w) (hw : w.sent? = none) (hw' : w'.sent? = none) :
    C.MainInv (ParallelCheck.setWorker s i w') m := by
  have hanswers : C.answers (ParallelCheck.setWorker s i w') = C.answers s :=
    answers_setWorker hw' (by rw [answerOf, hi, Option.bind_some, hw])
  refine h.congr rfl (fun j => ?_) (by rw [hanswers]; rfl) (by rw [hanswers])
    (by rw [hanswers]; exact fun _ => id)
  by_cases heq : j = i
  · subst heq
    rw [setWorker_self, hi]
    exact iff_of_false (Option.some_ne_none _) (Option.some_ne_none _)
  · rw [setWorker_ne s heq]

/-- Who has sent an answer. -/
theorem exists_sent {i : ℕ} {ok : Bool} (h : answerOf s i = some ok) :
    ∃ r, s.workers i = some (.sent r) ∧ r.ok = ok := by
  obtain ⟨w, hw, hsent⟩ := Option.bind_eq_some_iff.mp h
  cases w with
  | sent r => exact ⟨r, hw, Option.some.inj hsent⟩
  | launched => exact absurd hsent.symm (Option.some_ne_none _)
  | searching heap q => exact absurd hsent.symm (Option.some_ne_none _)
  | returned r => exact absurd hsent.symm (Option.some_ne_none _)

/-- When there are as many answers as goroutines, all of them have sent one. -/
theorem exists_sent_of_le (hlength : C.history.length ≤ (C.answers s).length) {i : ℕ}
    (hi : i < C.history.length) : ∃ r, s.workers i = some (.sent r) ∧ r.ok ∈ C.answers s := by
  have hle : (C.answers s).length ≤ (List.range C.history.length).length :=
    List.length_filterMap_le _ _
  have hsome : (answerOf s i).isSome := by
    refine List.filterMap_length_eq_length.mp ?_ i (List.mem_range.mpr hi)
    rw [List.length_range] at hle ⊢
    exact le_antisymm hle hlength
  obtain ⟨ok, hok⟩ := Option.isSome_iff_exists.mp hsome
  obtain ⟨r, hr, rfl⟩ := exists_sent hok
  exact ⟨r, hr, List.mem_filterMap.mpr ⟨i, List.mem_range.mpr hi, hok⟩⟩

/-- The answers are right, as long as nobody was asked to stop. -/
theorem Inv.correct (h : C.Inv s) (hkill : s.kill = false) {i : ℕ} {r : Result}
    (hr : s.workers i = some (.sent r)) :
    ∃ entries, C.history[i]? = some entries ∧ r.Correct C.model entries C.computeInfo := by
  obtain ⟨entries, hentries, hgood⟩ := h.worker i _ hr
  exact ⟨entries, hentries, hgood hkill⟩

/-- After a negative answer, a partition is not linearizable. -/
theorem Inv.exists_illegal (h : C.Inv s) (hkill : s.kill = false) (hmem : false ∈ C.answers s) :
    ∃ entries ∈ C.history, ¬ C.Linearizable entries := by
  obtain ⟨i, -, hsent⟩ := List.mem_filterMap.mp hmem
  obtain ⟨r, hr, hok⟩ := exists_sent hsent
  obtain ⟨entries, hentries, hcorrect⟩ := h.correct hkill hr
  refine ⟨entries, List.mem_of_getElem? hentries, fun hlinearizable => ?_⟩
  exact Bool.false_ne_true (hok.symm.trans (hcorrect.ok.mpr hlinearizable))

/-- When all answers were sent and none is negative, all partitions are linearizable. -/
theorem Inv.all_legal (h : C.Inv s) (hkill : s.kill = false)
    (hlength : C.history.length ≤ (C.answers s).length) (hall : ∀ ok ∈ C.answers s, ok = true) :
    ∀ entries ∈ C.history, C.Linearizable entries := by
  intro entries hmem
  obtain ⟨i, hi⟩ := List.mem_iff_getElem?.mp hmem
  obtain ⟨r, hr, hok⟩ := exists_sent_of_le hlength (List.getElem?_eq_some_iff.mp hi).1
  obtain ⟨entries', hentries', hcorrect⟩ := h.correct hkill hr
  obtain rfl : entries = entries' := Option.some.inj (hi.symm.trans hentries')
  exact hcorrect.ok.mp (hall r.ok hok)

/-- The goroutines after they were asked to stop. -/
theorem Inv.worker_kill (h : C.Inv s) (i : ℕ) (w : Worker ι ο σ) (hw : s.workers i = some w) :
    ∃ entries, C.history[i]? = some entries ∧ C.Good true entries w := by
  obtain ⟨entries, hentries, hgood⟩ := h.worker i w hw
  exact ⟨entries, hentries, hgood.kill fun htrue => absurd htrue.symm Bool.false_ne_true⟩

/-- What `ok` and `timedOut` say when the caller leaves its loop. -/
theorem Inv.judged (h : C.Inv s) (hkill : s.kill = false) {received results : List Bool}
    (hreceived : (received ++ results).Perm (C.answers s)) {timedOut : Bool}
    (hall : received.all id = true → timedOut = false → C.history.length ≤ received.length)
    (htimeout : timedOut = true → 0 < C.timeout) : C.Judged (received.all id) timedOut := by
  refine ⟨fun hok => ?_, fun hok hin => ?_, htimeout⟩
  · obtain ⟨ok, hmem, hfalse⟩ := List.all_eq_false.mp hok
    obtain rfl : ok = false := (Bool.not_eq_true ok).mp hfalse
    exact h.exists_illegal hkill (hreceived.mem_iff.mp (List.mem_append_left results hmem))
  · -- all answers were received
    have hle : (C.answers s).length ≤ C.history.length :=
      (List.length_filterMap_le _ _).trans_eq List.length_range
    have hlength := hreceived.length_eq
    rw [List.length_append] at hlength
    have hnil : results = [] := List.length_eq_zero_iff.mp (by have := hall hok hin; omega)
    subst hnil
    rw [List.append_nil] at hreceived
    refine h.all_legal hkill ((hall hok hin).trans hreceived.length_eq.le) fun ok hmem => ?_
    exact List.all_eq_true.mp hok ok (hreceived.mem_iff.mpr hmem)

/-- What holds of the caller after its loop. -/
theorem mainInv_afterLoop {count : ℕ} {ok timedOut : Bool}
    (hstarted : ∀ i < C.history.length, s.workers i ≠ none)
    (hcount : count + s.results.length = (C.answers s).length) (hjudged : C.Judged ok timedOut) :
    C.MainInv s (C.afterLoop count ok timedOut) := by
  rw [afterLoop]
  split
  · exact ⟨hstarted, hcount, hjudged⟩
  · next hinfo =>
    exact ⟨hstarted, hcount ▸ Nat.le_add_left _ _, fun htrue => absurd htrue hinfo,
      hjudged.answers⟩

/-- **The caller receives an answer.** -/
theorem Inv.collect (h : C.Inv s) {count : ℕ} {ok result : Bool} {results : List Bool}
    (hmain : s.main = .collecting count ok) (hresults : s.results = result :: results) :
    C.Inv (C.collect { s with results := results } (count + 1) (ok && result)) := by
  have hinv := h.main
  rw [hmain] at hinv
  obtain ⟨hkill, hstarted, -, received, hreceived, rfl, rfl⟩ := hinv
  have hmore : ((received ++ [result]) ++ results).Perm (C.answers s) := by
    rw [hresults] at hreceived
    rwa [List.append_assoc]
  have hok : (received.all id && result) = (received ++ [result]).all id := by simp
  have hlength : received.length + 1 = (received ++ [result]).length := by simp
  have hcount : received.length + 1 + results.length = (C.answers s).length := by
    rw [← hmore.length_eq, List.length_append, hlength]
  rw [ParallelCheck.collect]
  simp only [hok]
  split
  · next hstop =>
    -- a negative answer, and nobody asked for more
    have hnot : ¬ (received ++ [result]).all id = true := fun hall => by simp [hall] at hstop
    have hinfo : C.computeInfo = false := by simpa using (Bool.and_eq_true_iff.mp hstop).2
    exact ⟨h.worker_kill, mainInv_afterLoop hstarted hcount
      (h.judged hkill hmore (fun hall => absurd hall hnot) (by simp)), fun _ => Or.inl hinfo⟩
  · split
    · next hlast =>
      refine ⟨h.worker, mainInv_afterLoop hstarted hcount ?_, h.stop⟩
      exact h.judged hkill hmore (fun _ _ => hlength ▸ hlast) (by simp)
    · next hlast =>
      exact ⟨h.worker, ⟨hkill, hstarted, Or.inl (not_le.mp hlast), received ++ [result], hmore,
        hlength.symm, rfl⟩, h.stop⟩

/-- **The caller starts a goroutine.** -/
theorem Inv.start (h : C.Inv s) {next : ℕ} (hmain : s.main = .starting next) :
    C.Inv { ParallelCheck.setWorker s next .launched with main := C.afterStart (next + 1) } := by
  have hinv := h.main
  rw [hmain] at hinv
  obtain ⟨hnext, hkill, hstarted, hresults⟩ := hinv
  have hnone : s.workers next = none := (hstarted next hnext).mpr le_rfl
  have hanswers : C.answers (ParallelCheck.setWorker s next .launched) = C.answers s :=
    answers_setWorker rfl (by rw [answerOf, hnone, Option.bind_none])
  have hstarted' (i : ℕ) (hi : i < C.history.length) :
      (ParallelCheck.setWorker s next .launched).workers i = none ↔ next + 1 ≤ i := by
    by_cases heq : i = next
    · subst heq
      rw [setWorker_self]
      exact iff_of_false (Option.some_ne_none _) (by omega)
    · rw [setWorker_ne s heq, hstarted i hi]
      omega
  refine ⟨fun i w hw => ?_, ?_, h.stop⟩
  · by_cases heq : i = next
    · subst heq
      obtain rfl := Option.some.inj ((setWorker_self s i .launched).symm.trans hw)
      exact ⟨C.history[i], List.getElem?_eq_getElem hnext, trivial⟩
    · exact h.worker i w ((setWorker_ne s heq .launched).symm.trans hw)
  · have hperm : s.results.Perm (C.answers (ParallelCheck.setWorker s next .launched)) := by
      rw [hanswers]
      exact hresults
    show C.MainInv _ (C.afterStart (next + 1))
    rw [afterStart]
    split
    · next hmore => exact ⟨hmore, hkill, hstarted', hperm⟩
    · next hlast =>
      -- this was the last one
      refine ⟨hkill, fun i hi hi' => ?_, Or.inl (by omega), [], hperm, rfl, rfl⟩
      have := (hstarted' i hi).mp hi'
      omega

/-- An iteration that goes on takes one off the number of iterations that are left. -/
theorem runSearch_inl {model : Model ι ο σ} {heap : Heap ι ο} {computePartial : Bool}
    {q q' : Search σ} (hstep : q.step model heap computePartial false = some (.inl q')) {fuel : ℕ}
    {r : Result} (hrun : runSearch model heap computePartial fuel q = .ok r) :
    ∃ fuel', fuel = fuel' + 1 ∧ runSearch model heap computePartial fuel' q' = .ok r := by
  cases fuel with
  | zero => cases hrun
  | succ fuel =>
      rw [runSearch, hstep] at hrun
      exact ⟨fuel, rfl, hrun⟩

/-- An iteration that returns gives the result of the loop. -/
theorem runSearch_inr {model : Model ι ο σ} {heap : Heap ι ο} {computePartial : Bool}
    {q : Search σ} {r r' : Result} (hstep : q.step model heap computePartial false = some (.inr r))
    {fuel : ℕ} (hrun : runSearch model heap computePartial fuel q = .ok r') : r = r' := by
  cases fuel with
  | zero => cases hrun
  | succ fuel =>
      rw [runSearch, hstep] at hrun
      exact Except.ok.inj hrun

/-- Whoever is asked to stop makes no further iteration. -/
theorem step_kill {model : Model ι ο σ} {heap : Heap ι ο} {computePartial : Bool}
    {q q' : Search σ} : q.step model heap computePartial true ≠ some (.inl q') := by
  rw [Search.step]
  split <;> simp

/-- A search that goes on will still return the right answer. -/
theorem Good.iterate {kill : Bool} {entries : List (Entry ι ο)} {heap : Heap ι ο} {q q' : Search σ}
    (h : C.Good kill entries (.searching heap q))
    (hstep : q.step C.model heap C.computeInfo kill = some (.inl q')) :
    C.Good kill entries (.searching heap q') := by
  cases kill with
  | true => exact absurd hstep step_kill
  | false =>
      obtain ⟨fuel, r, hrun, hr⟩ := h
      obtain ⟨fuel', -, hrun'⟩ := runSearch_inl hstep hrun
      exact ⟨fuel', r, hrun', hr⟩

/-- A search that returns has the right answer, unless it was asked to stop. -/
theorem Good.finish {kill : Bool} {entries : List (Entry ι ο)} {heap : Heap ι ο} {q : Search σ}
    {r : Result} (h : C.Good kill entries (.searching heap q))
    (hstep : q.step C.model heap C.computeInfo kill = some (.inr r)) :
    C.Good kill entries (.returned r) := by
  rintro rfl
  obtain ⟨fuel, r', hrun, hr⟩ := h
  exact runSearch_inr hstep hrun ▸ hr

/-- A search that starts will return the right answer. -/
theorem good_start (hnumbered : ∀ entries ∈ C.history, Numbered entries)
    (hmodel : C.model.Respectful) {entries : List (Entry ι ο)} (hmem : entries ∈ C.history)
    (kill : Bool) : ∃ heap q, startSearch C.model entries = some (heap, q) ∧
      C.Good kill entries (.searching heap q) := by
  obtain ⟨heap, q, links₀, hstart, hS, hrepresented⟩ :=
    exists_startSearch (hnumbered entries hmem) C.model C.computeInfo
  obtain ⟨r, hrun, hr⟩ :=
    runSearch_correct hS hmodel hrepresented (.start _ _ _) (Nat.lt_succ_self _)
  exact ⟨heap, q, hstart, _, r, hrun, hr⟩

/-- **A goroutine sends its answer.** -/
theorem Inv.send (h : C.Inv s) {i : ℕ} {r : Result} (hworker : s.workers i = some (.returned r)) :
    C.Inv { ParallelCheck.setWorker s i (.sent r) with results := s.results ++ [r.ok] } := by
  obtain ⟨entries, hentries, -⟩ := h.worker i _ hworker
  have hperm := answers_send (s := s) (r := r) (List.getElem?_eq_some_iff.mp hentries).1
    (by rw [answerOf, hworker, Option.bind_some, Worker.sent?])
  have hlength := hperm.length_eq
  rw [List.length_cons] at hlength
  refine ⟨h.setWorker hworker fun _ _ hgood => hgood, ?_, h.stop⟩
  refine h.main.congr rfl (fun j => ?_) ?_ (hlength ▸ Nat.le_succ _) fun received hreceived => ?_
  · by_cases heq : j = i
    · subst heq
      rw [hworker]
      exact iff_of_false (by simp [setWorker_self]) (Option.some_ne_none _)
    · exact iff_of_eq (congrArg (· = none) (setWorker_ne s heq _))
  · rw [List.length_append, List.length_singleton]
    show _ = s.results.length + (C.answers (ParallelCheck.setWorker s i (.sent r))).length
    omega
  · refine List.Perm.trans ?_ hperm.symm
    rw [← List.append_assoc]
    exact (List.perm_append_singleton _ _).trans (hreceived.cons r.ok)

/-- **Every step keeps the invariant.** -/
theorem Inv.transition (hnumbered : ∀ entries ∈ C.history, Numbered entries)
    (hmodel : C.model.Respectful) (h : C.Inv s) (hstep : Transition C s s') : C.Inv s' := by
  cases hstep with
  | start hmain => exact h.start hmain
  | enter hworker hentries hstart =>
      refine ⟨h.setWorker hworker fun entries' hentries' _ => ?_,
        h.main.setWorker hworker rfl rfl, h.stop⟩
      obtain rfl := Option.some.inj (hentries.symm.trans hentries')
      obtain ⟨heap, q, hstart', hgood⟩ :=
        good_start hnumbered hmodel (List.mem_of_getElem? hentries) s.kill
      obtain ⟨rfl, rfl⟩ := Prod.mk.inj (Option.some.inj (hstart.symm.trans hstart'))
      exact hgood
  | iterate hworker hstep =>
      exact ⟨h.setWorker hworker fun _ _ hgood => hgood.iterate hstep,
        h.main.setWorker hworker rfl rfl, h.stop⟩
  | finish hworker hstep =>
      exact ⟨h.setWorker hworker fun _ _ hgood => hgood.finish hstep,
        h.main.setWorker hworker rfl rfl, h.stop⟩
  | send hworker hroom => exact h.send hworker
  | receive hmain hresults => exact h.collect hmain hresults
  | timeout hmain htimeout =>
      have hinv := h.main
      rw [hmain] at hinv
      obtain ⟨hkill, hstarted, -, received, hreceived, rfl, rfl⟩ := hinv
      refine ⟨h.worker_kill, mainInv_afterLoop hstarted ?_ ?_, fun _ => Or.inr htimeout⟩
      · rw [← List.length_append, hreceived.length_eq]
        rfl
      · exact h.judged hkill hreceived (by simp) fun _ => htimeout
  | drain hmain hcount hresults =>
      have hinv := h.main
      rw [hmain] at hinv
      obtain ⟨hstarted, hlength, hjudged⟩ := hinv
      refine ⟨h.worker, ⟨hstarted, ?_, hjudged⟩, h.stop⟩
      rw [hresults, List.length_cons] at hlength
      exact (Nat.add_right_comm _ 1 _).trans hlength
  | leave hmain hcount =>
      have hinv := h.main
      rw [hmain] at hinv
      obtain ⟨hstarted, hlength, hjudged⟩ := hinv
      exact ⟨h.worker, ⟨hstarted, hlength ▸ Nat.le_add_left _ _,
        fun _ => hlength ▸ hcount.trans (Nat.le_add_right _ _), hjudged.answers⟩, h.stop⟩

/-- The invariant holds at the start. -/
theorem inv_init (C : ParallelCheck ι ο σ) : C.Inv C.system.init := by
  have hanswers : C.answers C.system.init = [] := List.filterMap_eq_nil_iff.mpr fun _ _ => rfl
  have hperm : ([] : List Bool).Perm (C.answers C.system.init) := by rw [hanswers]
  refine ⟨fun i w hw => absurd hw.symm (Option.some_ne_none w), ?_,
    fun hkill => absurd hkill Bool.false_ne_true⟩
  show C.MainInv _ (C.afterStart 0)
  rw [afterStart]
  split
  · next hlt => exact ⟨hlt, rfl, fun i _ => iff_of_true rfl (Nat.zero_le i), hperm⟩
  · next hle =>
    have hnil : C.history = [] := List.length_eq_zero_iff.mp (by omega)
    exact ⟨rfl, fun i hi => absurd (Nat.zero_lt_of_lt hi) hle, Or.inr hnil, [], hperm, rfl, rfl⟩

section Runs

variable (hnumbered : ∀ entries ∈ C.history, Numbered entries) (hmodel : C.model.Respectful)

include hnumbered hmodel

/-- **The invariant holds in every reachable state.** -/
theorem inv_of_reachable (h : C.system.Reachable s) : C.Inv s :=
  h.invariant (inv_init C) fun _ _ _ _ hinv hstep =>
    hinv.transition hnumbered hmodel (step_transition hstep)

/-- **What the result says**, whichever way the steps of the goroutines and of the caller
interleave. -/
theorem check_answers (h : C.system.Reachable s) {result : CheckResult}
    (hmain : s.main = .returned result) : C.Answers result := by
  have hinv := (inv_of_reachable hnumbered hmodel h).main
  rw [hmain] at hinv
  exact hinv.2.2.2

/-- **The partial linearizations that are returned** without a timeout are accepted, and for every
operation there is a longest one among those that contain it. -/
theorem check_partials (hinfo : C.computeInfo = true) (htimeout : C.timeout ≤ 0)
    (h : C.system.Reachable s) {result : CheckResult} (hmain : s.main = .returned result) {i : ℕ}
    {entries : List (Entry ι ο)} (hentries : C.history[i]? = some entries) :
    ∃ partials, (C.partialLinearizations s)[i]? = some partials ∧
      (∀ seq ∈ partials, Accepts C.model entries seq) ∧
      ∀ ids, Accepts C.model entries ids → ∀ a ∈ ids,
        ∃ seq ∈ partials, a ∈ seq ∧ ids.length ≤ seq.length := by
  have hinv := inv_of_reachable hnumbered hmodel h
  have hreturned := hinv.main
  rw [hmain] at hreturned
  have hkill : s.kill = false := by
    cases hkill : s.kill with
    | false => rfl
    | true =>
        rcases hinv.stop hkill with hfalse | hpos
        · exact absurd (hinfo.symm.trans hfalse) (by decide)
        · exact absurd hpos (not_lt.mpr htimeout)
  have hi := (List.getElem?_eq_some_iff.mp hentries).1
  obtain ⟨r, hr, -⟩ := exists_sent_of_le (hreturned.2.2.1 hinfo) hi
  obtain ⟨entries', hentries', hcorrect⟩ := hinv.correct hkill hr
  obtain rfl : entries = entries' := Option.some.inj (hentries.symm.trans hentries')
  refine ⟨partials r.longest, ?_, fun seq hseq => ?_, fun ids hids a ha => ?_⟩
  · rw [partialLinearizations, List.getElem?_map, List.getElem?_range hi, Option.map_some,
      longestOf, hr]
  · exact hcorrect.accepted hinfo seq (mem_partials.mp hseq)
  · -- the operation is one of the history
    obtain ⟨e, he, hevent⟩ := List.mem_map.mp (hids.1.mem a ha)
    have hid : e.event.op = e.id := Value.event_op e.id e.value
    rw [hevent] at hid
    obtain rfl : a = e.id := hid
    obtain ⟨best, hbest, hmem, hlongest⟩ := hcorrect.longest hinfo e he
    obtain ⟨seq, hseq, hle⟩ := hlongest ids hids ha
    obtain rfl : best = some seq := hseq
    exact ⟨seq, mem_partials.mpr (List.mem_of_getElem? hbest), (hmem seq rfl).2, hle⟩

end Runs

/-! ## Without partitions -/

/-- Nothing happens but a timeout. -/
structure Idle (C : ParallelCheck ι ο σ) (s : CheckState ι ο σ) : Prop where
  /-- There are no goroutines. -/
  workers : ∀ i, s.workers i = none
  /-- There are no answers. -/
  results : s.results = []
  /-- The caller waits, or there was a timeout. -/
  main : s.main = .collecting 0 true ∨
    0 < C.timeout ∧ (s.main = .draining 0 true true ∨ s.main = .returned .unknown)

theorem Idle.transition (h : C.Idle s) (hstep : Transition C s s') : C.Idle s' := by
  have hnone {i : ℕ} {w : Worker ι ο σ} (hw : s.workers i = some w) : False :=
    Option.some_ne_none w (hw.symm.trans (h.workers i))
  cases hstep with
  | start hmain => exact absurd h.main (by simp [hmain])
  | enter hworker => exact (hnone hworker).elim
  | iterate hworker => exact (hnone hworker).elim
  | finish hworker => exact (hnone hworker).elim
  | send hworker => exact (hnone hworker).elim
  | receive _ hresults => exact absurd (h.results.symm.trans hresults) (by simp)
  | timeout hmain htimeout =>
      have hcollecting := h.main.resolve_right (by simp [hmain])
      obtain ⟨rfl, rfl⟩ := Main.collecting.inj (hmain.symm.trans hcollecting)
      refine ⟨h.workers, h.results, Or.inr ⟨htimeout, ?_⟩⟩
      show C.afterLoop 0 true true = _ ∨ C.afterLoop 0 true true = _
      rw [afterLoop]
      split
      · exact Or.inl rfl
      · exact Or.inr rfl
  | drain _ _ hresults => exact absurd (h.results.symm.trans hresults) (by simp)
  | leave hmain =>
      obtain ⟨htimeout, hdraining⟩ := h.main.resolve_left (by simp [hmain])
      obtain ⟨rfl, rfl, rfl⟩ :=
        Main.draining.inj (hmain.symm.trans (hdraining.resolve_right (by simp [hmain])))
      exact ⟨h.workers, h.results, Or.inr ⟨htimeout, Or.inr rfl⟩⟩

/-- **Without partitions there is no answer**: the caller waits in its loop until there is a
timeout. -/
theorem idle_of_reachable (hnil : C.history = []) (h : C.system.Reachable s) : C.Idle s := by
  refine h.invariant (P := C.Idle) ⟨fun _ => rfl, rfl, Or.inl ?_⟩ fun _ _ _ _ hidle hstep =>
    hidle.transition (step_transition hstep)
  show C.afterStart 0 = _
  rw [afterStart, hnil]
  rfl

end ParallelCheck

end DistributedSystems.Porcupine
