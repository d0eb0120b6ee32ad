import DistributedSystems.Labrpc.Network
import DistributedSystems.Transition.Termination
import Mathlib.Data.Prod.Lex

/-! # What a call of the network means

* `Recorded` — how the goroutines of a call stand to each other, and to the executions of its
  request so far;
* `Traced.step` — every step keeps it;
* `call_executed_once` — a request is executed at most once, and a positive reply is what that
  execution returned, at a server that was still there afterwards;
* `calls_return` — a call returns, unless its handler runs on at a server that is still there; no
  goroutine is left behind. -/

namespace DistributedSystems.Labrpc

variable {ε ν κ ρ : Type}

/-! ## A call and its executions -/

/-- The call will fail, or has failed. -/
def Phase.Failing : Phase ν ρ → Prop
  | .leaving _ none => True
  | .replying .failure => True
  | .returned .failure => True
  | _ => False

/-- A handler whose reply nobody waits for: the goroutine that drains its channel is there as long
as it is. -/
inductive Loose : List (ℕ × ρ) → Handler ρ → Bool → Prop
  /-- The handler was never started. -/
  | idle : Loose [] .idle false
  /-- The handler runs. -/
  | running (server : ℕ) : Loose [] (.running server) true
  /-- The handler has returned. -/
  | finished (server : ℕ) (reply : ρ) : Loose [(server, reply)] (.finished server reply) true
  /-- The handler is gone. -/
  | ended (server : ℕ) (reply : ρ) : Loose [(server, reply)] .ended false

/-- **How the goroutines of a call stand to each other**, given the executions of its request. -/
inductive Recorded : List (ℕ × ρ) → Phase ν ρ → Handler ρ → Bool → Prop
  /-- The request was not sent. -/
  | calling : Recorded [] .calling .idle false
  /-- The request was sent. -/
  | accepted : Recorded [] .accepted .idle false
  /-- A server was found. -/
  | admitted (target : Target ν) : Recorded [] (.admitted target) .idle false
  /-- The handler runs. -/
  | waiting (target : Target ν) : Recorded [] (.waiting target) (.running target.server) false
  /-- The handler has returned. -/
  | finished (target : Target ν) (reply : ρ) :
      Recorded [(target.server, reply)] (.waiting target) (.finished target.server reply) false
  /-- The reply was received. -/
  | collected (target : Target ν) (reply : ρ) :
      Recorded [(target.server, reply)] (.leaving target (some reply)) .ended false
  /-- The reply is on its way. -/
  | replying (target : Target ν) (reply : ρ) :
      Recorded [(target.server, reply)] (.replying (.success target reply)) .ended false
  /-- The caller has the reply. -/
  | returned (target : Target ν) (reply : ρ) :
      Recorded [(target.server, reply)] (.returned (.success target reply)) .ended false
  /-- The call fails. -/
  | failing {executions : List (ℕ × ρ)} {phase : Phase ν ρ} {handler : Handler ρ} {draining : Bool}
      (hphase : phase.Failing) (hloose : Loose executions handler draining) :
      Recorded executions phase handler draining

/-- A call with the executions of its request. -/
def Call.Recorded (call : Call ε ν κ ρ) (executions : List (ℕ × ρ)) : Prop :=
  Labrpc.Recorded executions call.phase call.handler call.draining

/-- A request is executed at most once. -/
theorem Recorded.length_le {executions : List (ℕ × ρ)} {phase : Phase ν ρ} {handler : Handler ρ}
    {draining : Bool} (h : Recorded executions phase handler draining) : executions.length ≤ 1 := by
  cases h with
  | failing _ hloose => cases hloose <;> simp
  | _ => simp

/-- The reply that a call has received from a handler. -/
def Phase.answer : Phase ν ρ → Option (Target ν × ρ)
  | .leaving target (some reply) => some (target, reply)
  | .replying (.success target reply) => some (target, reply)
  | .returned (.success target reply) => some (target, reply)
  | _ => none

/-- A reply that was received is that of the one execution. -/
theorem Recorded.eq_of_answer {executions : List (ℕ × ρ)} {phase : Phase ν ρ} {handler : Handler ρ}
    {draining : Bool} (h : Recorded executions phase handler draining) {target : Target ν}
    {reply : ρ} (hanswer : phase.answer = some (target, reply)) : executions = [(target.server, reply)] := by
  cases h with
  | collected => cases hanswer; rfl
  | replying => cases hanswer; rfl
  | returned => cases hanswer; rfl
  | failing hfailing hloose =>
      unfold Phase.answer at hanswer
      split at hanswer
      · exact hfailing.elim
      · exact hfailing.elim
      · exact hfailing.elim
      · cases hanswer
  | _ => cases hanswer

/-- The handler that `processReq` waits for runs at the server that was found. -/
theorem Call.Recorded.server_eq {call : Call ε ν κ ρ} {executions : List (ℕ × ρ)}
    (h : call.Recorded executions) {target : Target ν} {server : ℕ} {reply : ρ}
    (hphase : call.phase = .waiting target) (hhandler : call.handler = .finished server reply) :
    server = target.server := by
  obtain ⟨endname, request, phase, handler, draining⟩ := call
  obtain rfl : phase = .waiting target := hphase
  obtain rfl : handler = .finished server reply := hhandler
  simp only [Call.Recorded] at h
  cases h with
  | finished => rfl
  | failing hfailing => exact hfailing.elim

/-- Every step of a call keeps it, with the execution that the step completes. -/
theorem Call.Recorded.moved {rn : Network ε ν} {call call' : Call ε ν κ ρ} {move : Move ρ}
    {executions : List (ℕ × ρ)} (h : call.Recorded executions) (hmoved : Moved rn call move call') :
    call'.Recorded (executions ++ (call.execution move).toList) := by
  obtain ⟨endname, request, phase, handler, draining⟩ := call
  simp only [Call.Recorded] at h ⊢
  cases hmoved with
  | send hphase hlistening =>
      obtain rfl : phase = .calling := hphase
      cases h with
      | calling => exact .accepted
      | failing hfailing => exact hfailing.elim
  | destroyed hphase hdone =>
      obtain rfl : phase = .calling := hphase
      cases h with
      | calling => exact .failing trivial .idle
      | failing hfailing => exact hfailing.elim
  | @found hphase target htarget =>
      obtain rfl : phase = .accepted := hphase
      cases h with
      | accepted => exact .admitted target
      | failing hfailing => exact hfailing.elim
  | refuse hphase htarget =>
      obtain rfl : phase = .accepted := hphase
      cases h with
      | accepted => exact .failing trivial .idle
      | failing hfailing => exact hfailing.elim
  | @dropRequest target hphase hreliable =>
      obtain rfl : phase = .admitted target := hphase
      cases h with
      | admitted => exact .failing trivial .idle
      | failing hfailing => exact hfailing.elim
  | @dispatch target hphase =>
      obtain rfl : phase = .admitted target := hphase
      cases h with
      | admitted => exact .waiting target
      | failing hfailing => exact hfailing.elim
  | @finish server reply hhandler =>
      obtain rfl : handler = .running server := hhandler
      cases h with
      | waiting target => exact .finished target reply
      | failing hfailing hloose =>
          cases hloose with
          | running => exact .failing hfailing (.finished server reply)
  | @collect target server reply hphase hhandler =>
      obtain rfl : phase = .waiting target := hphase
      obtain rfl : handler = .finished server reply := hhandler
      cases h with
      | finished => exact .collected target reply
      | failing hfailing => exact hfailing.elim
  | @poll target hphase hdead =>
      obtain rfl : phase = .waiting target := hphase
      cases h with
      | waiting => exact .failing trivial (.running target.server)
      | finished target reply => exact .failing trivial (.finished target.server reply)
      | failing hfailing => exact hfailing.elim
  | @drain server reply hhandler hdraining =>
      obtain rfl : handler = .finished server reply := hhandler
      obtain rfl : draining = true := hdraining
      cases h with
      | failing hfailing hloose =>
          cases hloose with
          | finished => exact .failing hfailing (.ended server reply)
  | @fail target reply fate hphase =>
      obtain rfl : phase = .leaving target reply := hphase
      cases h with
      | collected target reply => exact .failing trivial (.ended target.server reply)
      | failing hfailing hloose => exact .failing trivial (by simpa [Call.execution] using hloose)
  | @pass target reply fate hphase halive =>
      obtain rfl : phase = .leaving target (some reply) := hphase
      cases h with
      | collected => exact .replying target reply
      | failing hfailing => exact hfailing.elim
  | @reply msg hphase =>
      obtain rfl : phase = .replying msg := hphase
      cases h with
      | replying target reply => exact .returned target reply
      | failing hfailing hloose =>
          cases msg with
          | failure => exact .failing trivial (by simpa [Call.execution] using hloose)
          | success => exact hfailing.elim

/-- The phases of a call whose reply has been confirmed. -/
theorem Moved.confirmed {rn : Network ε ν} {call call' : Call ε ν κ ρ} {move : Move ρ}
    (h : Moved rn call move call') {target : Target ν} {reply : ρ}
    (hphase : call'.phase = .replying (.success target reply) ∨
      call'.phase = .returned (.success target reply)) :
    call'.endname = call.endname ∧
      ((call.phase = .replying (.success target reply) ∨
        call.phase = .returned (.success target reply)) ∨
      call.phase = .leaving target (some reply) ∧
        rn.isServerDead call.endname target.servername target.server = false) := by
  cases h with
  | finish reply hhandler => exact ⟨rfl, Or.inl hphase⟩
  | drain hhandler hdraining => exact ⟨rfl, Or.inl hphase⟩
  | pass fate hleaving halive =>
      rcases hphase with hphase | hphase <;> cases hphase
      exact ⟨rfl, Or.inr ⟨hleaving, halive⟩⟩
  | reply hreplying =>
      rcases hphase with hphase | hphase <;> cases hphase
      exact ⟨rfl, Or.inl (Or.inl hreplying)⟩
  | _ => rcases hphase with hphase | hphase <;> cases hphase

/-! ## Runs -/

variable [DecidableEq ε] [DecidableEq ν]

/-- The execution of the request of call `c` that a step completes. -/
def executed (c : ℕ) (s : State ε ν κ ρ) : Label ε ν κ ρ → Option (ℕ × ρ)
  | .step c' move => if c' = c then (s.calls c).bind fun call => call.execution move else none
  | _ => none

/-- The executions of the request of call `c` along a run, in order: the server, and what its
handler returned. -/
def executions (c : ℕ) (run : List (Label ε ν κ ρ)) : List (ℕ × ρ) :=
  (system ε ν κ ρ).observe (executed c) (system ε ν κ ρ).init run

/-- The reply is that of the one execution of the request, and at some point after it the server was
still there for the end of the call. -/
def Confirmed (c : ℕ) (endname : ε) (target : Target ν) (reply : ρ)
    (run : List (Label ε ν κ ρ)) : Prop :=
  ∃ before after m, run = before ++ after ∧
    (system ε ν κ ρ).exec (system ε ν κ ρ).init before = some m ∧
    executions c before = [(target.server, reply)] ∧
    m.network.isServerDead endname target.servername target.server = false

/-- What holds of the calls along a run. -/
structure Traced (run : List (Label ε ν κ ρ)) (s : State ε ν κ ρ) : Prop where
  /-- The calls are numbered. -/
  numbered : ∀ c, s.count ≤ c → s.calls c = none
  /-- A request that was not made is not executed. -/
  absent : ∀ c, s.calls c = none → executions c run = []
  /-- The goroutines of a call fit its executions. -/
  recorded : ∀ c call, s.calls c = some call → call.Recorded (executions c run)
  /-- A positive reply is confirmed. -/
  confirmed : ∀ c call target reply, s.calls c = some call →
    (call.phase = .replying (.success target reply) ∨
      call.phase = .returned (.success target reply)) →
    Confirmed c call.endname target reply run

section

variable {run : List (Label ε ν κ ρ)} {s s' : State ε ν κ ρ} {a : Label ε ν κ ρ} {c : ℕ}

/-- The executions of a run with one more step. -/
theorem executions_concat (hrun : (system ε ν κ ρ).exec (system ε ν κ ρ).init run = some s)
    (ha : (system ε ν κ ρ).step s a = some s') :
    executions c (run ++ [a]) = executions c run ++ (executed c s a).toList :=
  System.observe_concat hrun ha

/-- A confirmed reply stays confirmed. -/
theorem Confirmed.concat {endname : ε} {target : Target ν} {reply : ρ}
    (h : Confirmed c endname target reply run) : Confirmed c endname target reply (run ++ [a]) := by
  obtain ⟨before, after, m, rfl, hm, hexecutions, halive⟩ := h
  exact ⟨before, after ++ [a], m, List.append_assoc before after [a], hm, hexecutions, halive⟩

/-- A step that completes no execution and leaves the calls alone. -/
theorem Traced.of_calls (h : Traced run s)
    (hrun : (system ε ν κ ρ).exec (system ε ν κ ρ).init run = some s)
    (ha : (system ε ν κ ρ).step s a = some s') (hnone : ∀ c, executed c s a = none)
    (hcalls : s'.calls = s.calls) (hcount : s'.count = s.count) : Traced (run ++ [a]) s' := by
  have hexecutions (c : ℕ) : executions c (run ++ [a]) = executions c run := by
    rw [executions_concat hrun ha, hnone c, Option.toList_none, List.append_nil]
  refine ⟨?_, ?_, ?_, ?_⟩
  · intro c hc
    rw [hcalls]
    exact h.numbered c (hcount ▸ hc)
  · intro c hc
    rw [hexecutions c]
    exact h.absent c (hcalls ▸ hc)
  · intro c call hcall
    rw [hexecutions c]
    exact h.recorded c call (hcalls ▸ hcall)
  · intro c call target reply hcall hphase
    exact (h.confirmed c call target reply (hcalls ▸ hcall) hphase).concat

/-- A new call. -/
theorem Traced.call (h : Traced run s)
    (hrun : (system ε ν κ ρ).exec (system ε ν κ ρ).init run = some s) {endname : ε} {request : κ}
    (ha : (system ε ν κ ρ).step s (.call endname request) = some s')
    (hcalls : s'.calls =
      Function.update s.calls s.count (some ⟨endname, request, .calling, .idle, false⟩))
    (hcount : s'.count = s.count + 1) : Traced (run ++ [.call endname request]) s' := by
  have hexecutions (c : ℕ) : executions c (run ++ [.call endname request]) = executions c run := by
    rw [executions_concat hrun ha]
    exact List.append_nil _
  have hnew : executions s.count run = [] := h.absent _ (h.numbered _ le_rfl)
  refine ⟨?_, ?_, ?_, ?_⟩
  · intro c hc
    rw [hcount] at hc
    rw [hcalls, Function.update_of_ne (by omega)]
    exact h.numbered c (by omega)
  · intro c hc
    by_cases heq : c = s.count
    · rw [hcalls, heq, Function.update_self] at hc
      cases hc
    · rw [hcalls, Function.update_of_ne heq] at hc
      rw [hexecutions c]
      exact h.absent c hc
  · intro c call hcall
    rw [hexecutions c]
    by_cases heq : c = s.count
    · rw [hcalls, heq, Function.update_self] at hcall
      obtain rfl := Option.some.inj hcall
      rw [heq, hnew]
      exact .calling
    · rw [hcalls, Function.update_of_ne heq] at hcall
      exact h.recorded c call hcall
  · intro c call target reply hcall hphase
    by_cases heq : c = s.count
    · rw [hcalls, heq, Function.update_self] at hcall
      obtain rfl := Option.some.inj hcall
      rcases hphase with hphase | hphase <;> cases hphase
    · rw [hcalls, Function.update_of_ne heq] at hcall
      exact (h.confirmed c call target reply hcall hphase).concat

/-- A step of a call. -/
theorem Traced.move (h : Traced run s)
    (hrun : (system ε ν κ ρ).exec (system ε ν κ ρ).init run = some s) {move : Move ρ}
    (ha : (system ε ν κ ρ).step s (.step c move) = some s') {call call' : Call ε ν κ ρ}
    (hcall : s.calls c = some call) (hmoved : Moved s.network call move call')
    (hcalls : s'.calls = Function.update s.calls c (some call')) (hcount : s'.count = s.count) :
    Traced (run ++ [.step c move]) s' := by
  have hself : executions c (run ++ [.step c move]) =
      executions c run ++ (call.execution move).toList := by
    rw [executions_concat hrun ha, executed, if_pos rfl, hcall, Option.bind_some]
  have hother {c' : ℕ} (hne : c' ≠ c) :
      executions c' (run ++ [.step c move]) = executions c' run := by
    rw [executions_concat hrun ha, executed, if_neg (Ne.symm hne), Option.toList_none,
      List.append_nil]
  refine ⟨?_, ?_, ?_, ?_⟩
  · intro c' hc'
    rw [hcount] at hc'
    have hne : c' ≠ c := by
      rintro rfl
      rw [h.numbered c' hc'] at hcall
      cases hcall
    rw [hcalls, Function.update_of_ne hne]
    exact h.numbered c' hc'
  · intro c' hc'
    by_cases heq : c' = c
    · rw [hcalls, heq, Function.update_self] at hc'
      cases hc'
    · rw [hcalls, Function.update_of_ne heq] at hc'
      rw [hother heq]
      exact h.absent c' hc'
  · intro c' call'' hcall''
    by_cases heq : c' = c
    · rw [hcalls, heq, Function.update_self] at hcall''
      obtain rfl := Option.some.inj hcall''
      rw [heq, hself]
      exact (h.recorded c call hcall).moved hmoved
    · rw [hcalls, Function.update_of_ne heq] at hcall''
      rw [hother heq]
      exact h.recorded c' call'' hcall''
  · intro c' call'' target reply hcall'' hphase
    by_cases heq : c' = c
    · rw [hcalls, heq, Function.update_self] at hcall''
      obtain rfl := Option.some.inj hcall''
      subst heq
      obtain ⟨hendname, hbefore | ⟨hleaving, halive⟩⟩ := hmoved.confirmed hphase
      · rw [hendname]
        exact (h.confirmed c' call target reply hcall hbefore).concat
      · -- the last check: the state in which it is made is the witness
        have hexecutions : executions c' run = [(target.server, reply)] :=
          (h.recorded c' call hcall).eq_of_answer (by rw [hleaving]; rfl)
        rw [hendname]
        exact ⟨run, [.step c' move], s, rfl, hrun, hexecutions, halive⟩
    · rw [hcalls, Function.update_of_ne heq] at hcall''
      exact (h.confirmed c' call'' target reply hcall'' hphase).concat

/-- **Every step keeps what holds of the calls.** -/
theorem Traced.step (h : Traced run s)
    (hrun : (system ε ν κ ρ).exec (system ε ν κ ρ).init run = some s)
    (ha : (system ε ν κ ρ).step s a = some s') : Traced (run ++ [a]) s' := by
  have hstepped : Stepped s a s' := step_stepped ha
  cases hstepped with
  | tester hrn => exact h.of_calls hrun ha (fun _ => rfl) rfl rfl
  | call endname request hend => exact h.call hrun ha rfl rfl
  | exitLoop hdone hlistening => exact h.of_calls hrun ha (fun _ => rfl) rfl rfl
  | step hcall hmoved => exact h.move hrun ha hcall hmoved rfl rfl

/-- It holds along every run. -/
theorem traced (hrun : (system ε ν κ ρ).exec (system ε ν κ ρ).init run = some s) :
    Traced run s := by
  refine System.exec_induction (S := system ε ν κ ρ) (P := Traced) ?_ ?_ hrun
  · exact ⟨fun _ _ => rfl, fun _ _ => rfl, fun _ _ h => (nomatch h), fun _ _ _ _ h => (nomatch h)⟩
  · intro run s a s' hrun h ha
    exact h.step hrun ha

/-- **A call executes its request at most once.** In every run, whatever the network loses and
delays and whatever the tester connects, disconnects, adds and deletes: the request of a call is
executed at most once; and when `Call` has returned true, then it was executed exactly once, by the server that
was found for it, the reply is what that execution returned, and at some point after the execution
the same server was still registered under its name and the end was enabled. -/
theorem call_executed_once (c : ℕ)
    (hrun : (system ε ν κ ρ).exec (system ε ν κ ρ).init run = some s) :
    (executions c run).length ≤ 1 ∧
      ∀ call target reply, s.calls c = some call →
        call.phase = .returned (.success target reply) →
        executions c run = [(target.server, reply)] ∧
          ∃ before after m, run = before ++ after ∧
            (system ε ν κ ρ).exec (system ε ν κ ρ).init before = some m ∧
            executions c before = [(target.server, reply)] ∧
            m.network.enabled call.endname = true ∧
            m.network.servers target.servername = some target.server := by
  have h := traced hrun
  refine ⟨?_, ?_⟩
  · cases hcall : s.calls c with
    | none =>
        rw [h.absent c hcall]
        exact Nat.zero_le 1
    | some call => exact (h.recorded c call hcall).length_le
  · intro call target reply hcall hphase
    refine ⟨?_, ?_⟩
    · exact (h.recorded c call hcall).eq_of_answer (by rw [hphase]; rfl)
    · obtain ⟨before, after, m, hsplit, hm, hexecutions, halive⟩ :=
        h.confirmed c call target reply hcall (Or.inr hphase)
      exact ⟨before, after, m, hsplit, hm, hexecutions,
        Network.isServerDead_eq_false_iff.mp halive⟩

end

/-- A server, an end that is connected to it, and a call through it whose handler is started. -/
def dispatchedRun : List (Label ℕ ℕ ℕ ℕ) :=
  [.tester (.makeEnd 0), .tester (.addServer 0 7), .tester (.connect 0 0), .tester (.enable 0 true),
    .call 0 5, .step 0 .send, .step 0 .read, .step 0 .dispatch]

/-- The handler returns, and then the caller gets the reply. -/
def answeredRun : List (Label ℕ ℕ ℕ ℕ) :=
  dispatchedRun ++ [.step 0 (.finish 9), .step 0 .collect, .step 0 (.check .sent), .step 0 .reply]

/-- The caller has the reply of the one execution. -/
theorem call_executed_once_answeredRun :
    ∃ s call target, (system ℕ ℕ ℕ ℕ).exec (system ℕ ℕ ℕ ℕ).init answeredRun = some s ∧
      s.calls 0 = some call ∧ call.phase = .returned (.success target 9) ∧
      executions 0 answeredRun = [(target.server, 9)] := by
  have hrun : ((system ℕ ℕ ℕ ℕ).exec (system ℕ ℕ ℕ ℕ).init answeredRun).map (fun s => s.calls 0) =
      some (some ⟨0, 5, .returned (.success ⟨0, 7, true, false⟩ 9), .ended, false⟩) := by
    decide +kernel
  obtain ⟨s, hs, hcall⟩ := Option.map_eq_some_iff.mp hrun
  obtain ⟨-, hreply⟩ := call_executed_once 0 hs
  exact ⟨s, _, _, hs, hcall, rfl, (hreply _ _ _ hcall rfl).1⟩

/-! ## Calls return -/

/-- What is left to do for the caller and for `processReq`. -/
def Phase.left : Phase ν ρ → ℕ
  | .calling => 8
  | .accepted => 7
  | .admitted _ => 6
  | .waiting _ => 3
  | .leaving _ _ => 2
  | .replying _ => 1
  | .returned _ => 0

/-- What is left to do for the handler. -/
def Handler.left : Handler ρ → ℕ
  | .idle => 0
  | .running _ => 2
  | .finished _ _ => 1
  | .ended => 0

/-- What is left to do for a call. -/
def Call.left (call : Call ε ν κ ρ) : ℕ := call.phase.left + call.handler.left

omit [DecidableEq ε] [DecidableEq ν] in
/-- Every step of a call leaves less to do. -/
theorem Moved.left_lt {rn : Network ε ν} {call call' : Call ε ν κ ρ} {move : Move ρ}
    (h : Moved rn call move call') : call'.left < call.left := by
  cases h with
  | send hphase _ => simp [Call.left, hphase, Phase.left]
  | destroyed hphase _ => simp [Call.left, hphase, Phase.left]
  | found hphase _ => simp [Call.left, hphase, Phase.left]
  | refuse hphase _ => simp [Call.left, hphase, Phase.left]
  | dropRequest hphase _ => simp [Call.left, hphase, Phase.left]
  | dispatch hphase =>
      simp only [Call.left, hphase, Phase.left, Handler.left]
      omega
  | finish _ hhandler => simp [Call.left, hhandler, Handler.left]
  | collect hphase hhandler => simp [Call.left, hphase, hhandler, Phase.left, Handler.left]
  | poll hphase _ => simp [Call.left, hphase, Phase.left]
  | drain hhandler _ => simp [Call.left, hhandler, Handler.left]
  | fail _ hphase => simp [Call.left, hphase, Phase.left]
  | pass _ hphase _ => simp [Call.left, hphase, Phase.left]
  | reply hphase => simp [Call.left, hphase, Phase.left]

/-- A step of the network or of a call, that is of nobody outside. -/
def Label.Internal : Label ε ν κ ρ → Prop
  | .exitLoop => True
  | .step _ _ => True
  | _ => False

/-- What is left to do for the calls, and for the goroutine of `MakeNetwork`. -/
def State.left (s : State ε ν κ ρ) : Multiset ℕ × ℕ :=
  ((Multiset.range s.count).map fun c => (s.calls c).elim 0 Call.left,
    if s.network.listening then 1 else 0)

/-- An internal step leaves less to do. -/
theorem Stepped.left_lt {s s' : State ε ν κ ρ} {a : Label ε ν κ ρ} (h : Stepped s a s')
    (hinternal : a.Internal) (hnumbered : ∀ c, s.count ≤ c → s.calls c = none) :
    Prod.Lex (Relation.CutExpand (· < ·)) (· < ·) s'.left s.left := by
  cases h with
  | tester hrn => exact hinternal.elim
  | call endname request hend => exact hinternal.elim
  | exitLoop hdone hlistening =>
      refine Prod.Lex.right _ ?_
      simp [hlistening]
  | @step c move call call' hcall hmoved =>
      have hc : c < s.count := by
        by_contra hle
        rw [hnumbered c (Nat.le_of_not_lt hle)] at hcall
        cases hcall
      have hleft : (fun i => (Function.update s.calls c (some call') i).elim 0 Call.left) =
          Function.update (fun i => (s.calls i).elim 0 Call.left) c call'.left := by
        funext i
        exact Function.apply_update (fun _ o => Option.elim o 0 Call.left) s.calls c (some call') i
      refine Prod.Lex.left _ _ ?_
      rw [hleft]
      refine System.cutExpand_update hc ?_
      rw [hcall]
      exact hmoved.left_lt

/-- An internal step keeps the numbers of the calls. -/
theorem Stepped.numbered {s s' : State ε ν κ ρ} {a : Label ε ν κ ρ} (h : Stepped s a s')
    (hinternal : a.Internal) (hnumbered : ∀ c, s.count ≤ c → s.calls c = none) :
    ∀ c, s'.count ≤ c → s'.calls c = none := by
  intro c' hc'
  cases h with
  | tester hrn => exact hinternal.elim
  | call endname request hend => exact hinternal.elim
  | exitLoop hdone hlistening => exact hnumbered c' hc'
  | @step c move call call' hcall hmoved =>
      have hne : c' ≠ c := by
        rintro rfl
        rw [hnumbered c' hc'] at hcall
        cases hcall
      exact (Function.update_of_ne hne _ _).trans (hnumbered c' hc')

/-- A caller can go on: somebody receives its request, or `done` is closed. -/
theorem open_of_reachable {s : State ε ν κ ρ} (hs : (system ε ν κ ρ).Reachable s) :
    s.network.listening = true ∨ s.network.done = true := by
  refine System.Reachable.invariant (S := system ε ν κ ρ)
    (P := fun s => s.network.listening = true ∨ s.network.done = true) (Or.inl rfl) ?_ hs
  intro s a s' _ hopen ha
  have hstepped : Stepped s a s' := step_stepped ha
  cases hstepped with
  | tester hrn =>
      have hupdated := Network.update_updated hrn
      exact hopen.imp (fun hlistening => hupdated.listening.trans hlistening) hupdated.done
  | call endname request hend => exact hopen
  | exitLoop hdone hlistening => exact Or.inr hdone
  | step hcall hmoved => exact hopen

/-- A call for which nothing is left to do: it has returned, and there is no goroutine of it except
a handler that still runs and the one that waits to drain it; or its handler still runs, at a server
that is there. -/
inductive Call.Settled (rn : Network ε ν) (call : Call ε ν κ ρ) : Prop
  /-- The call has returned. -/
  | returned {msg : ReplyMsg ν ρ} (hphase : call.phase = .returned msg)
      (hhandler : ∀ server reply, call.handler ≠ .finished server reply)
      (hdraining : call.draining = true → ∃ server, call.handler = .running server)
  /-- The handler runs. -/
  | waiting {target : Target ν} (hphase : call.phase = .waiting target)
      (hhandler : call.handler = .running target.server)
      (henabled : rn.enabled call.endname = true)
      (hserver : rn.servers target.servername = some target.server)

omit [DecidableEq ε] [DecidableEq ν] in
/-- A handler that nobody waits for can be drained once it has returned. -/
theorem Loose.settled_or_move {rn : Network ε ν} {executions : List (ℕ × ρ)}
    {call : Call ε ν κ ρ} (h : Loose executions call.handler call.draining) {msg : ReplyMsg ν ρ}
    (hphase : call.phase = .returned msg) :
    call.Settled rn ∨ ∃ call', call.advance rn .drain = some call' := by
  obtain ⟨endname, request, phase, handler, draining⟩ := call
  cases h with
  | idle => exact Or.inl (.returned hphase (by simp) (by simp))
  | running server =>
      exact Or.inl (.returned hphase (by simp) (fun _ => ⟨server, rfl⟩))
  | finished server reply => exact Or.inr ⟨_, rfl⟩
  | ended => exact Or.inl (.returned hphase (by simp) (by simp))

omit [DecidableEq ε] [DecidableEq ν] in
/-- A call that is not settled can make a step for which no handler has to return. -/
theorem Call.Recorded.settled_or_move {rn : Network ε ν} {call : Call ε ν κ ρ}
    {executions : List (ℕ × ρ)} (h : call.Recorded executions)
    (hopen : rn.listening = true ∨ rn.done = true) :
    call.Settled rn ∨
      ∃ move call', (∀ reply, move ≠ .finish reply) ∧ call.advance rn move = some call' := by
  obtain ⟨endname, request, phase, handler, draining⟩ := call
  simp only [Call.Recorded] at h
  cases h with
  | calling =>
      rcases hopen with hlistening | hdone
      · exact Or.inr ⟨.send, _, by simp, if_pos hlistening⟩
      · exact Or.inr ⟨.destroyed, _, by simp, if_pos hdone⟩
  | accepted =>
      cases htarget : (rn.readEndnameInfo endname).target with
      | none =>
          refine Or.inr ⟨.read, ⟨endname, request, .replying .failure, .idle, false⟩,
            by simp, ?_⟩
          simp only [Call.advance, htarget]
      | some target =>
          refine Or.inr ⟨.read, ⟨endname, request, .admitted target, .idle, false⟩,
            by simp, ?_⟩
          simp only [Call.advance, htarget]
  | admitted target => exact Or.inr ⟨.dispatch, _, by simp, rfl⟩
  | waiting target =>
      by_cases hdead : rn.isServerDead endname target.servername target.server = true
      · exact Or.inr ⟨.poll, _, by simp, if_pos hdead⟩
      · obtain ⟨henabled, hserver⟩ :=
          Network.isServerDead_eq_false_iff.mp (Bool.not_eq_true _ ▸ hdead)
        exact Or.inl (.waiting rfl rfl henabled hserver)
  | finished target reply => exact Or.inr ⟨.collect, _, by simp, rfl⟩
  | collected target reply =>
      obtain ⟨msg, hmsg⟩ : ∃ msg, rn.answer endname target (some reply) .sent = some msg := by
        simp only [Network.answer]
        split
        · exact ⟨_, rfl⟩
        · exact ⟨_, rfl⟩
      refine Or.inr ⟨.check .sent, ⟨endname, request, .replying msg, .ended, false⟩,
        by simp, ?_⟩
      simp only [Call.advance, hmsg, Option.map_some]
  | replying target reply => exact Or.inr ⟨.reply, _, by simp, rfl⟩
  | returned target reply =>
      exact Or.inl (.returned rfl (by simp) (by simp))
  | failing hfailing hloose =>
      unfold Phase.Failing at hfailing
      split at hfailing
      · exact Or.inr ⟨.check .sent, _, by simp, rfl⟩
      · exact Or.inr ⟨.reply, _, by simp, rfl⟩
      · have hdrain : Call.Settled rn ⟨endname, request, .returned .failure, handler, draining⟩ ∨
            ∃ call', Call.advance rn
              ⟨endname, request, .returned .failure, handler, draining⟩ .drain = some call' :=
          Loose.settled_or_move hloose rfl
        rcases hdrain with hsettled | ⟨call', hmove⟩
        · exact Or.inl hsettled
        · exact Or.inr ⟨.drain, call', by simp, hmove⟩
      · exact hfailing.elim

/-- **Every call returns, unless its handler does not.** From every reachable state: no run of the
network and of the calls goes on for ever without new calls and without the tester; and when no step
is left but returns of handlers, every call has returned, or its handler still runs at a server that
is registered and whose end is enabled. A handler that has returned never stays behind, and a
goroutine that drains only stays for a handler that runs. -/
theorem calls_return {s : State ε ν κ ρ} (hs : (system ε ν κ ρ).Reachable s) :
    ¬ (system ε ν κ ρ).Endless (fun _ a => a.Internal) s ∧
      ((∀ a : Label ε ν κ ρ, a.Internal → (∀ c reply, a ≠ .step c (.finish reply)) →
          (system ε ν κ ρ).step s a = none) →
        ∀ c call, s.calls c = some call → call.Settled s.network) := by
  obtain ⟨run, hrun⟩ := hs
  have h := traced hrun
  refine ⟨?_, ?_⟩
  · refine System.not_endless (WellFounded.prod_lex wellFounded_lt.cutExpand wellFounded_lt)
      State.left (P := fun s => ∀ c, s.count ≤ c → s.calls c = none) ?_ h.numbered
    intro s a s' hnumbered hinternal ha
    have hstepped : Stepped s a s' := step_stepped ha
    exact ⟨hstepped.numbered hinternal hnumbered, hstepped.left_lt hinternal hnumbered⟩
  · intro hstuck c call hcall
    rcases (h.recorded c call hcall).settled_or_move (open_of_reachable ⟨run, hrun⟩) with
      hsettled | ⟨move, call', hmove, hadvance⟩
    · exact hsettled
    · -- the step would be possible
      have hnone := hstuck (.step c move) trivial (by
        rintro c' reply heq
        obtain ⟨-, rfl⟩ := Label.step.inj heq
        exact hmove reply rfl)
      have hsome : (system ε ν κ ρ).step s (.step c move) =
          some { s with calls := Function.update s.calls c (some call') } := by
        simp only [system, step, hcall, Option.bind_some, hadvance, Option.map_some]
      rw [hsome] at hnone
      cases hnone

/-- The server is deleted while the handler runs. -/
def deletedRun : List (Label ℕ ℕ ℕ ℕ) :=
  dispatchedRun ++
    [.tester (.deleteServer 0), .step 0 .poll, .step 0 (.check .sent), .step 0 .reply]

/-- The call returns although its handler does not. -/
theorem calls_return_deletedRun :
    ∃ s call, (system ℕ ℕ ℕ ℕ).exec (system ℕ ℕ ℕ ℕ).init deletedRun = some s ∧
      s.calls 0 = some call ∧ call.phase = .returned .failure ∧ call.handler = .running 7 ∧
      call.Settled s.network := by
  have hrun : ((system ℕ ℕ ℕ ℕ).exec (system ℕ ℕ ℕ ℕ).init deletedRun).map
      (fun s => (s.calls 0, s.count, s.network.done)) =
      some (some ⟨0, 5, .returned .failure, .running 7, true⟩, 1, false) := by
    decide +kernel
  obtain ⟨s, hs, hstate⟩ := Option.map_eq_some_iff.mp hrun
  obtain ⟨hcall, hrest⟩ := Prod.mk.inj hstate
  obtain ⟨hcount, hdone⟩ := Prod.mk.inj hrest
  obtain ⟨-, hsettled⟩ := calls_return ⟨deletedRun, hs⟩
  refine ⟨s, _, hs, hcall, rfl, rfl, hsettled ?_ 0 _ hcall⟩
  intro a hinternal hfinish
  cases a with
  | tester a => exact hinternal.elim
  | call endname request => exact hinternal.elim
  | exitLoop => simp [system, step, hdone]
  | step c move =>
      by_cases hc : c = 0
      · subst hc
        cases move with
        | finish reply => exact absurd rfl (hfinish 0 reply)
        | _ => simp [system, step, hcall, Call.advance]
      · have hnone : s.calls c = none := (traced hs).numbered c (by omega)
        simp [system, step, hnone]

end DistributedSystems.Labrpc
