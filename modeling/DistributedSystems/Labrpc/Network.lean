import DistributedSystems.Transition.System
import Mathlib.Logic.Function.Basic

/-! # The simulated network

`labrpc/labrpc.go` as a labelled system: clients call servers through named ends, one goroutine of
the network accepts the requests and starts `processReq` for each, and `processReq` runs the handler
in a goroutine of its own, while a tester connects, disconnects, adds and deletes at any time.

End names, server names, requests and replies are arbitrary types; a server is a pointer, and what
its handler does is left open: it may return any reply at any time, or none.

* `Network` — what `rn.mu` protects, the channel `done` and the goroutine of `MakeNetwork`;
* `Call.advance` — one step of `Call`, of `processReq` or of one of its goroutines;
* `system` — the calls, the tester and the network together;
* `Moved`, `Stepped` — what one step of a call, and one step of the system does. -/

namespace DistributedSystems.Labrpc

variable {ε ν κ ρ : Type}

/-! ## The tables -/

/-- The fields of `Network`, without the delays and the statistics. A map is a function to what a
missing key reads as. -/
structure Network (ε ν : Type) where
  /-- The names of `ends`. -/
  ends : ε → Bool := fun _ => false
  /-- `enabled`, by end name. -/
  enabled : ε → Bool := fun _ => false
  /-- `connections`, from end names to server names. -/
  connections : ε → Option ν := fun _ => none
  /-- `servers`, by name. -/
  servers : ν → Option ℕ := fun _ => none
  /-- `reliable`. -/
  reliable : Bool := true
  /-- `longReordering`. -/
  longReordering : Bool := false
  /-- Whether `done` is closed. -/
  done : Bool := false
  /-- Whether the goroutine that `MakeNetwork` starts is in its loop. -/
  listening : Bool := true

/-- What `readEndnameInfo` returns. -/
structure EndnameInfo (ν : Type) where
  /-- `enabled`. -/
  enabled : Bool
  /-- `servername`. -/
  servername : Option ν
  /-- `server`. -/
  server : Option ℕ
  /-- `reliable`. -/
  reliable : Bool
  /-- `longreordering`. -/
  longreordering : Bool

/-- The local variables of `processReq` for a request that has a server. -/
structure Target (ν : Type) where
  /-- `servername`. -/
  servername : ν
  /-- `server`. -/
  server : ℕ
  /-- `reliable`. -/
  reliable : Bool
  /-- `longreordering`. -/
  longreordering : Bool
  deriving DecidableEq

/-- The condition `enabled && servername != nil && server != nil`. -/
def EndnameInfo.target (info : EndnameInfo ν) : Option (Target ν) :=
  match info.enabled, info.servername, info.server with
  | true, some servername, some server =>
      some ⟨servername, server, info.reliable, info.longreordering⟩
  | _, _, _ => none

/-- What a tester does to the network. -/
inductive Tester (ε ν : Type)
  /-- `MakeEnd`. -/
  | makeEnd (endname : ε)
  /-- `AddServer`. -/
  | addServer (servername : ν) (server : ℕ)
  /-- `DeleteServer`. -/
  | deleteServer (servername : ν)
  /-- `Connect`. -/
  | connect (endname : ε) (servername : ν)
  /-- `Enable`. -/
  | enable (endname : ε) (enabled : Bool)
  /-- `Reliable`. -/
  | reliable (yes : Bool)
  /-- `LongReordering`. -/
  | longReordering (yes : Bool)
  /-- `Cleanup`. -/
  | cleanup

/-- What becomes of a reply that passed the last check. -/
inductive Fate
  /-- Lost, as if by a timeout. -/
  | dropped
  /-- Sent by a timer. -/
  | delayed
  /-- Sent at once. -/
  | sent
  deriving DecidableEq

/-- What is sent on `replyCh`. -/
inductive ReplyMsg (ν ρ : Type)
  /-- `replyMsg{false, nil}`. -/
  | failure
  /-- `replyMsg{true, reply}`. The server that it comes from is not part of the message; it is kept
  to speak about it. -/
  | success (target : Target ν) (reply : ρ)
  deriving DecidableEq

namespace Network

/-- `readEndnameInfo`. -/
def readEndnameInfo (rn : Network ε ν) (endname : ε) : EndnameInfo ν where
  enabled := rn.enabled endname
  servername := rn.connections endname
  server := (rn.connections endname).bind rn.servers
  reliable := rn.reliable
  longreordering := rn.longReordering

/-- `isServerDead`. -/
def isServerDead (rn : Network ε ν) (endname : ε) (servername : ν) (server : ℕ) : Bool :=
  rn.enabled endname == false || rn.servers servername != some server

/-- The end of `processReq`: the message for a request whose handler has returned a reply, or has
been given up. -/
def answer (rn : Network ε ν) (endname : ε) (target : Target ν) :
    Option ρ → Fate → Option (ReplyMsg ν ρ)
  | none, _ => some .failure
  | some reply, fate =>
      if rn.isServerDead endname target.servername target.server then some .failure
      else
        match fate with
        | .dropped => if target.reliable then none else some .failure
        | .delayed => if target.longreordering then some (.success target reply) else none
        | .sent => some (.success target reply)

/-- A method of `Network`; `none` where the process ends or panics. -/
def update [DecidableEq ε] [DecidableEq ν] (rn : Network ε ν) : Tester ε ν → Option (Network ε ν)
  | .makeEnd endname =>
      if rn.ends endname then none
      else some { rn with
        ends := Function.update rn.ends endname true
        enabled := Function.update rn.enabled endname false
        connections := Function.update rn.connections endname none }
  | .addServer servername server =>
      some { rn with servers := Function.update rn.servers servername (some server) }
  | .deleteServer servername =>
      some { rn with servers := Function.update rn.servers servername none }
  | .connect endname servername =>
      some { rn with connections := Function.update rn.connections endname (some servername) }
  | .enable endname enabled =>
      some { rn with enabled := Function.update rn.enabled endname enabled }
  | .reliable yes => some { rn with reliable := yes }
  | .longReordering yes => some { rn with longReordering := yes }
  -- closing a closed channel panics
  | .cleanup => if rn.done then none else some { rn with done := true }

end Network

/-! ## Calls -/

/-- Where a call is: in `Call` itself, or in `processReq`. -/
inductive Phase (ν ρ : Type)
  /-- At the `select` of `Call`. -/
  | calling
  /-- The request was received from `endCh`, and `processReq` starts. -/
  | accepted
  /-- `processReq` has found a server. -/
  | admitted (target : Target ν)
  /-- In the loop that waits for the handler. -/
  | waiting (target : Target ν)
  /-- Behind the loop, with the reply if there is one. -/
  | leaving (target : Target ν) (reply : Option ρ)
  /-- `processReq`, or a timer, is about to send on `replyCh`. -/
  | replying (msg : ReplyMsg ν ρ)
  /-- `Call` has returned. -/
  | returned (msg : ReplyMsg ν ρ)
  deriving DecidableEq

/-- The goroutine that runs the handler. -/
inductive Handler (ρ : Type)
  /-- Not started. -/
  | idle
  /-- In `server.dispatch`. -/
  | running (server : ℕ)
  /-- Before `ech <- r`. -/
  | finished (server : ℕ) (reply : ρ)
  /-- Gone. -/
  | ended
  deriving DecidableEq

/-- A call with its goroutines. -/
structure Call (ε ν κ ρ : Type) where
  /-- `endname` of the `ClientEnd`. -/
  endname : ε
  /-- `svcMeth` and `args`. -/
  request : κ
  /-- The caller and `processReq`. -/
  phase : Phase ν ρ
  /-- The handler. -/
  handler : Handler ρ
  /-- Whether there is a goroutine that drains `ech`. -/
  draining : Bool
  deriving DecidableEq

/-- A step of a call. -/
inductive Move (ρ : Type)
  /-- `e.ch <- req`. -/
  | send
  /-- `<-e.done`. -/
  | destroyed
  /-- `readEndnameInfo`. -/
  | read
  /-- The network drops the request. -/
  | dropRequest
  /-- The handler is started. -/
  | dispatch
  /-- The handler returns. -/
  | finish (reply : ρ)
  /-- `reply = <-ech`. -/
  | collect
  /-- 100 milliseconds have passed, and the server is found dead. -/
  | poll
  /-- `<-ech` of the goroutine that was started for it. -/
  | drain
  /-- The last check, and what follows. -/
  | check (fate : Fate)
  /-- The message is sent and received on `replyCh`. -/
  | reply

/-- **One step of a call**; `none` when the step is not possible. A poll that finds the server alive
changes nothing and is left out. -/
def Call.advance (rn : Network ε ν) (call : Call ε ν κ ρ) :
    Move ρ → Option (Call ε ν κ ρ)
  | .send =>
      match call.phase with
      | .calling => if rn.listening then some { call with phase := .accepted } else none
      | _ => none
  | .destroyed =>
      match call.phase with
      | .calling => if rn.done then some { call with phase := .returned .failure } else none
      | _ => none
  | .read =>
      match call.phase with
      | .accepted =>
          match (rn.readEndnameInfo call.endname).target with
          | some target => some { call with phase := .admitted target }
          | none => some { call with phase := .replying .failure }
      | _ => none
  | .dropRequest =>
      match call.phase with
      | .admitted target =>
          if target.reliable then none else some { call with phase := .replying .failure }
      | _ => none
  | .dispatch =>
      match call.phase with
      | .admitted target =>
          some { call with phase := .waiting target, handler := .running target.server }
      | _ => none
  | .finish reply =>
      match call.handler with
      | .running server => some { call with handler := .finished server reply }
      | _ => none
  | .collect =>
      match call.phase, call.handler with
      | .waiting target, .finished _ reply =>
          some { call with phase := .leaving target (some reply), handler := .ended }
      | _, _ => none
  | .poll =>
      match call.phase with
      | .waiting target =>
          -- the reply may be there already: `select` takes either case
          if rn.isServerDead call.endname target.servername target.server then
            some { call with phase := .leaving target none, draining := true }
          else none
      | _ => none
  | .drain =>
      match call.handler, call.draining with
      | .finished _ _, true => some { call with handler := .ended, draining := false }
      | _, _ => none
  | .check fate =>
      match call.phase with
      | .leaving target reply =>
          (rn.answer call.endname target reply fate).map fun msg =>
            { call with phase := .replying msg }
      | _ => none
  | .reply =>
      match call.phase with
      | .replying msg => some { call with phase := .returned msg }
      | _ => none

/-- The execution of a request that a step completes: the server, and what its handler returns. -/
def Call.execution (call : Call ε ν κ ρ) : Move ρ → Option (ℕ × ρ)
  | .finish reply =>
      match call.handler with
      | .running server => some (server, reply)
      | _ => none
  | _ => none

/-! ## The system -/

/-- The network with the calls that were made, by their number. -/
structure State (ε ν κ ρ : Type) where
  /-- The network. -/
  network : Network ε ν := {}
  /-- The calls. -/
  calls : ℕ → Option (Call ε ν κ ρ) := fun _ => none
  /-- How many calls there are. -/
  count : ℕ := 0

/-- A step of anybody. -/
inductive Label (ε ν κ ρ : Type)
  /-- The tester calls a method of the network. -/
  | tester (a : Tester ε ν)
  /-- A client calls `Call`. -/
  | call (endname : ε) (request : κ)
  /-- The goroutine of `MakeNetwork` finds `done` closed. -/
  | exitLoop
  /-- A step of the call with a number. -/
  | step (c : ℕ) (move : Move ρ)

/-- One step. -/
def step [DecidableEq ε] [DecidableEq ν] (s : State ε ν κ ρ) :
    Label ε ν κ ρ → Option (State ε ν κ ρ)
  | .tester a => (s.network.update a).map fun rn => { s with network := rn }
  | .call endname request =>
      if s.network.ends endname then
        some { s with
          calls := Function.update s.calls s.count (some ⟨endname, request, .calling, .idle, false⟩)
          count := s.count + 1 }
      else none
  | .exitLoop =>
      if s.network.done && s.network.listening then
        some { s with network := { s.network with listening := false } }
      else none
  | .step c move =>
      (s.calls c).bind fun call => (call.advance s.network move).map fun call' =>
        { s with calls := Function.update s.calls c (some call') }

/-- **The network as a labelled system**, from `MakeNetwork` on. -/
def system (ε ν κ ρ : Type) [DecidableEq ε] [DecidableEq ν] :
    System (State ε ν κ ρ) (Label ε ν κ ρ) where
  init := {}
  step := step

/-! ## What a step does -/

/-- What a step of a call does. -/
inductive Moved (rn : Network ε ν) (call : Call ε ν κ ρ) :
    Move ρ → Call ε ν κ ρ → Prop
  /-- The request is received. -/
  | send (hphase : call.phase = .calling) (hlistening : rn.listening = true) :
      Moved rn call .send { call with phase := .accepted }
  /-- The network was destroyed. -/
  | destroyed (hphase : call.phase = .calling) (hdone : rn.done = true) :
      Moved rn call .destroyed { call with phase := .returned .failure }
  /-- There is a server. -/
  | found (hphase : call.phase = .accepted) {target : Target ν}
      (htarget : (rn.readEndnameInfo call.endname).target = some target) :
      Moved rn call .read { call with phase := .admitted target }
  /-- There is no server. -/
  | refuse (hphase : call.phase = .accepted)
      (htarget : (rn.readEndnameInfo call.endname).target = none) :
      Moved rn call .read { call with phase := .replying .failure }
  /-- The request is lost. -/
  | dropRequest {target : Target ν} (hphase : call.phase = .admitted target)
      (hreliable : target.reliable = false) :
      Moved rn call .dropRequest { call with phase := .replying .failure }
  /-- The handler is started. -/
  | dispatch {target : Target ν} (hphase : call.phase = .admitted target) :
      Moved rn call .dispatch
        { call with phase := .waiting target, handler := .running target.server }
  /-- The handler returns. -/
  | finish {server : ℕ} (reply : ρ) (hhandler : call.handler = .running server) :
      Moved rn call (.finish reply) { call with handler := .finished server reply }
  /-- The reply of the handler is received. -/
  | collect {target : Target ν} {server : ℕ} {reply : ρ} (hphase : call.phase = .waiting target)
      (hhandler : call.handler = .finished server reply) :
      Moved rn call .collect
        { call with phase := .leaving target (some reply), handler := .ended }
  /-- The handler is given up. -/
  | poll {target : Target ν} (hphase : call.phase = .waiting target)
      (hdead : rn.isServerDead call.endname target.servername target.server = true) :
      Moved rn call .poll { call with phase := .leaving target none, draining := true }
  /-- The reply of a handler that was given up is thrown away. -/
  | drain {server : ℕ} {reply : ρ} (hhandler : call.handler = .finished server reply)
      (hdraining : call.draining = true) :
      Moved rn call .drain { call with handler := .ended, draining := false }
  /-- The call fails at the end. -/
  | fail {target : Target ν} {reply : Option ρ} (fate : Fate)
      (hphase : call.phase = .leaving target reply) :
      Moved rn call (.check fate) { call with phase := .replying .failure }
  /-- The reply passes the last check. -/
  | pass {target : Target ν} {reply : ρ} (fate : Fate)
      (hphase : call.phase = .leaving target (some reply))
      (halive : rn.isServerDead call.endname target.servername target.server = false) :
      Moved rn call (.check fate) { call with phase := .replying (.success target reply) }
  /-- The caller gets its message. -/
  | reply {msg : ReplyMsg ν ρ} (hphase : call.phase = .replying msg) :
      Moved rn call .reply { call with phase := .returned msg }

variable {rn : Network ε ν} {call call' : Call ε ν κ ρ}

/-- A server is there when its end is enabled and it is the one under its name. -/
theorem Network.isServerDead_eq_false_iff {endname : ε} {servername : ν} {server : ℕ} :
    rn.isServerDead endname servername server = false ↔
      rn.enabled endname = true ∧ rn.servers servername = some server := by
  simp [isServerDead]

/-- The message after the last check. -/
theorem Network.answer_cases {endname : ε} {target : Target ν} {reply : Option ρ} {fate : Fate}
    {msg : ReplyMsg ν ρ} (h : rn.answer endname target reply fate = some msg) :
    msg = .failure ∨
      ∃ r, reply = some r ∧ msg = .success target r ∧
        rn.isServerDead endname target.servername target.server = false := by
  cases reply with
  | none => exact Or.inl (Option.some.inj h).symm
  | some r =>
      simp only [answer] at h
      split at h
      · exact Or.inl (Option.some.inj h).symm
      · next halive =>
        have halive := Bool.not_eq_true _ ▸ halive
        cases fate with
        | dropped =>
            by_cases hreliable : target.reliable = true
            · rw [if_pos hreliable] at h
              cases h
            · rw [if_neg hreliable] at h
              exact Or.inl (Option.some.inj h).symm
        | delayed =>
            by_cases hlong : target.longreordering = true
            · rw [if_pos hlong] at h
              exact Or.inr ⟨r, rfl, (Option.some.inj h).symm, halive⟩
            · rw [if_neg hlong] at h
              cases h
        | sent => exact Or.inr ⟨r, rfl, (Option.some.inj h).symm, halive⟩

/-- Every step of a call is one of these. -/
theorem Call.advance_moved {move : Move ρ} (h : call.advance rn move = some call') :
    Moved rn call move call' := by
  cases move <;> simp only [advance] at h
  case send =>
    split at h
    · next hphase =>
      split at h
      · next hlistening =>
        obtain rfl := Option.some.inj h
        exact .send hphase hlistening
      · cases h
    · cases h
  case destroyed =>
    split at h
    · next hphase =>
      split at h
      · next hdone =>
        obtain rfl := Option.some.inj h
        exact .destroyed hphase hdone
      · cases h
    · cases h
  case read =>
    split at h
    · next hphase =>
      split at h
      · next target htarget =>
        obtain rfl := Option.some.inj h
        exact .found hphase htarget
      · next htarget =>
        obtain rfl := Option.some.inj h
        exact .refuse hphase htarget
    · cases h
  case dropRequest =>
    split at h
    · next target hphase =>
      split at h
      · cases h
      · next hreliable =>
        obtain rfl := Option.some.inj h
        exact .dropRequest hphase (Bool.not_eq_true _ ▸ hreliable)
    · cases h
  case dispatch =>
    split at h
    · next target hphase =>
      obtain rfl := Option.some.inj h
      exact .dispatch hphase
    · cases h
  case finish reply =>
    split at h
    · next server hhandler =>
      obtain rfl := Option.some.inj h
      exact .finish reply hhandler
    · cases h
  case collect =>
    split at h
    · next target server reply hphase hhandler =>
      obtain rfl := Option.some.inj h
      exact .collect hphase hhandler
    · cases h
  case poll =>
    split at h
    · next target hphase =>
      split at h
      · next hdead =>
        obtain rfl := Option.some.inj h
        exact .poll hphase hdead
      · cases h
    · cases h
  case drain =>
    split at h
    · next server reply hhandler hdraining =>
      obtain rfl := Option.some.inj h
      exact .drain hhandler hdraining
    · cases h
  case check fate =>
    split at h
    · next target reply hphase =>
      obtain ⟨msg, hmsg, rfl⟩ := Option.map_eq_some_iff.mp h
      rcases Network.answer_cases hmsg with rfl | ⟨r, rfl, rfl, halive⟩
      · exact .fail fate hphase
      · exact .pass fate hphase halive
    · cases h
  case reply =>
    split at h
    · next msg hphase =>
      obtain rfl := Option.some.inj h
      exact .reply hphase
    · cases h

/-- What a method of the network leaves alone. -/
structure Network.Updated (rn : Network ε ν) (a : Tester ε ν) (rn' : Network ε ν) : Prop where
  /-- The goroutine of `MakeNetwork` goes on. -/
  listening : rn'.listening = rn.listening
  /-- `done` is not opened again. -/
  done : rn.done = true → rn'.done = true
  /-- Only two methods change the registered servers. -/
  servers : (∀ servername server, a ≠ .addServer servername server) →
    (∀ servername, a ≠ .deleteServer servername) → rn'.servers = rn.servers

/-- It holds of every method. -/
theorem Network.update_updated [DecidableEq ε] [DecidableEq ν] {rn' : Network ε ν}
    {a : Tester ε ν} (h : rn.update a = some rn') : rn.Updated a rn' := by
  cases a with
  | makeEnd endname =>
      rw [update] at h
      split at h
      · cases h
      · obtain rfl := Option.some.inj h
        exact ⟨rfl, id, fun _ _ => rfl⟩
  | addServer servername server =>
      obtain rfl := Option.some.inj h
      exact ⟨rfl, id, fun hadd _ => absurd rfl (hadd servername server)⟩
  | deleteServer servername =>
      obtain rfl := Option.some.inj h
      exact ⟨rfl, id, fun _ hdelete => absurd rfl (hdelete servername)⟩
  | cleanup =>
      rw [update] at h
      split at h
      · cases h
      · obtain rfl := Option.some.inj h
        exact ⟨rfl, fun _ => rfl, fun _ _ => rfl⟩
  | _ =>
      obtain rfl := Option.some.inj h
      exact ⟨rfl, id, fun _ _ => rfl⟩

/-- What a step of the system does. -/
inductive Stepped [DecidableEq ε] [DecidableEq ν] (s : State ε ν κ ρ) :
    Label ε ν κ ρ → State ε ν κ ρ → Prop
  /-- The tables change. -/
  | tester {a : Tester ε ν} {rn : Network ε ν} (hrn : s.network.update a = some rn) :
      Stepped s (.tester a) { s with network := rn }
  /-- There is one more call. -/
  | call (endname : ε) (request : κ) (hend : s.network.ends endname = true) :
      Stepped s (.call endname request) { s with
        calls := Function.update s.calls s.count (some ⟨endname, request, .calling, .idle, false⟩)
        count := s.count + 1 }
  /-- Nobody listens any more. -/
  | exitLoop (hdone : s.network.done = true) (hlistening : s.network.listening = true) :
      Stepped s .exitLoop { s with network := { s.network with listening := false } }
  /-- A call makes a step. -/
  | step {c : ℕ} {move : Move ρ} {call call' : Call ε ν κ ρ} (hcall : s.calls c = some call)
      (hmoved : Moved s.network call move call') :
      Stepped s (.step c move) { s with calls := Function.update s.calls c (some call') }

/-- Every step of the system is one of these. -/
theorem step_stepped [DecidableEq ε] [DecidableEq ν] {s s' : State ε ν κ ρ} {a : Label ε ν κ ρ}
    (h : step s a = some s') : Stepped s a s' := by
  cases a with
  | tester a =>
      obtain ⟨rn, hrn, rfl⟩ := Option.map_eq_some_iff.mp h
      exact .tester hrn
  | call endname request =>
      rw [step] at h
      split at h
      · next hend =>
        obtain rfl := Option.some.inj h
        exact .call endname request hend
      · cases h
  | exitLoop =>
      rw [step] at h
      split at h
      · next hboth =>
        obtain rfl := Option.some.inj h
        obtain ⟨hdone, hlistening⟩ := (Bool.and_eq_true _ _).mp hboth
        exact .exitLoop hdone hlistening
      · cases h
  | step c move =>
      obtain ⟨call, hcall, h⟩ := Option.bind_eq_some_iff.mp h
      obtain ⟨call', hadvance, rfl⟩ := Option.map_eq_some_iff.mp h
      exact .step hcall (Call.advance_moved hadvance)

end DistributedSystems.Labrpc
