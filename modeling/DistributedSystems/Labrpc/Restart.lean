import DistributedSystems.GoLang.Strings
import DistributedSystems.Labrpc.Delivery

/-! # Servers that are shut down and restarted

The tester of the course labs shuts servers down and restarts them on the network: `crash1` and
`start1` of `raft/config.go`, `ShutdownServer` and `StartServer` of `kvraft/config.go` and
`shardctrler/config.go`. An instance of a server cannot be killed. It goes on with the persister
that it was given, and the next instance gets a copy.

* `Command.program` — the steps of the tester, in the order of the source;
* `Service` — what a service promises with its replies, and keeps when it saves;
* `Stage`, `Consistent` — what holds of a server name between the steps of the tester;
* `Durable.step` — every step keeps that what was promised is in the persister of the name;
* `reply_durable` — what a positive reply promises is in the persisted state for ever. -/

namespace DistributedSystems.Labrpc

variable {ε ν κ ρ : Type}

/-! ## Persisters -/

/-- `Persister`, without its mutex: each method is one step. -/
structure Persister where
  /-- `raftstate`. -/
  raftstate : GoString := []
  /-- `snapshot`. -/
  snapshot : GoString := []
  deriving DecidableEq

namespace Persister

/-- `MakePersister`. -/
def makePersister : Persister := {}

/-- `Copy`. -/
def copy (ps : Persister) : Persister :=
  { makePersister with raftstate := ps.raftstate, snapshot := ps.snapshot }

/-- `ReadRaftState`. -/
def readRaftState (ps : Persister) : GoString := ps.raftstate

/-- `ReadSnapshot`. -/
def readSnapshot (ps : Persister) : GoString := ps.snapshot

/-- `Save`. -/
def save (ps : Persister) (raftstate snapshot : GoString) : Persister :=
  { ps with raftstate := raftstate, snapshot := snapshot }

end Persister

/-- The contract of a service: what a reply promises about the persisted state, and what a save
keeps. -/
structure Service (κ ρ : Type) where
  /-- The second state may be saved over the first. -/
  keeps : Persister → Persister → Bool
  /-- What the reply to a request promises about the persisted state. -/
  promise : κ → ρ → Persister → Bool
  /-- A save keeps every promise. -/
  kept : ∀ {ps ps' : Persister} {request : κ} {reply : ρ}, keeps ps ps' = true →
    promise request reply ps = true → promise request reply ps' = true

/-! ## The tester -/

/-- A step of the tester for one server. -/
inductive TesterStep
  /-- `net.DeleteServer(i)`. -/
  | deleteServer
  /-- `if saved[i] != nil` then `saved[i] = saved[i].Copy()`. -/
  | copySaved
  /-- The end of `crash1`: a new persister with what was read from the old one. -/
  | resave
  /-- `saved[i] = saved[i].Copy()`, or `MakePersister()` if there is none. -/
  | supplySaved
  /-- The new instance of the service, with `saved[i]`. -/
  | makeServer
  /-- `net.AddServer(i, srv)`. -/
  | addServer
  deriving DecidableEq

/-- A function of the tester. -/
inductive Command
  /-- `crash1` of `raft/config.go`. -/
  | crash1
  /-- `start1` of `raft/config.go`. -/
  | start1
  /-- `ShutdownServer`. -/
  | shutdownServer
  /-- `StartServer`. -/
  | startServer
  deriving DecidableEq

/-- What a function of the tester does for the server, in this order. -/
def Command.program : Command → List TesterStep
  | .crash1 => [.deleteServer, .copySaved, .resave]
  | .start1 =>
      -- it calls `crash1` first
      [.deleteServer, .copySaved, .resave, .supplySaved, .makeServer, .addServer]
  | .shutdownServer => [.deleteServer, .copySaved]
  | .startServer => [.supplySaved, .makeServer, .addServer]

/-- The network with the servers of a tester. Persisters and instances have addresses. -/
structure Harness (ε ν κ ρ : Type) where
  /-- The network. -/
  net : State ε ν κ ρ := {}
  /-- The persisters. -/
  persisters : ℕ → Persister := fun _ => {}
  /-- How many persisters there are. -/
  persisterCount : ℕ := 0
  /-- The persister of an instance. -/
  instances : ℕ → Option ℕ := fun _ => none
  /-- How many instances there are. -/
  instanceCount : ℕ := 0
  /-- `saved`. -/
  saved : ν → Option ℕ := fun _ => none
  /-- The instance that was made last. -/
  made : ν → Option ℕ := fun _ => none
  /-- What is left of the function that the tester is in. -/
  todo : ν → List TesterStep := fun _ => []

/-- A step of anybody. -/
inductive HarnessLabel (ε ν κ ρ : Type)
  /-- A step of the network. -/
  | network (a : Label ε ν κ ρ)
  /-- An instance saves its state; also one that was shut down. -/
  | save (server : ℕ) (raftstate snapshot : GoString)
  /-- The tester calls a function. -/
  | invoke (servername : ν) (command : Command)
  /-- The tester makes the next step of the function that it is in. -/
  | act (servername : ν)

namespace Harness

section

variable [DecidableEq ε] [DecidableEq ν]

/-- A new persister for a server. -/
def allocate (s : Harness ε ν κ ρ) (servername : ν) (ps : Persister) : Harness ε ν κ ρ :=
  { s with
    persisters := Function.update s.persisters s.persisterCount ps
    persisterCount := s.persisterCount + 1
    saved := Function.update s.saved servername (some s.persisterCount) }

/-- A handler may return a reply when its instance has persisted what the reply promises. -/
def mayFinish (service : Service κ ρ) (s : Harness ε ν κ ρ) (call : Call ε ν κ ρ) (reply : ρ) :
    Bool :=
  match call.handler with
  | .running server =>
      (s.instances server).any fun ps => service.promise call.request reply (s.persisters ps)
  | _ => false

/-- The steps of the network that are free: servers are added and deleted by the tester's functions
only, and a handler returns what its service promises. -/
def permits (service : Service κ ρ) (s : Harness ε ν κ ρ) : Label ε ν κ ρ → Bool
  | .tester (.addServer _ _) => false
  | .tester (.deleteServer _) => false
  | .step c (.finish reply) => (s.net.calls c).any fun call => s.mayFinish service call reply
  | _ => true

/-- One step of the tester. -/
def perform (s : Harness ε ν κ ρ) (servername : ν) : TesterStep → Option (Harness ε ν κ ρ)
  | .deleteServer =>
      (Labrpc.step s.net (.tester (.deleteServer servername))).map fun net => { s with net := net }
  | .copySaved =>
      match s.saved servername with
      | some ps => some (s.allocate servername (s.persisters ps).copy)
      | none => some s
  | .resave =>
      match s.saved servername with
      | some ps =>
          some (s.allocate servername
            (Persister.save {} (s.persisters ps).readRaftState (s.persisters ps).readSnapshot))
      | none => some s
  | .supplySaved =>
      match s.saved servername with
      | some ps => some (s.allocate servername (s.persisters ps).copy)
      | none => some (s.allocate servername .makePersister)
  | .makeServer =>
      (s.saved servername).map fun ps =>
        { s with
          instances := Function.update s.instances s.instanceCount (some ps)
          instanceCount := s.instanceCount + 1
          made := Function.update s.made servername (some s.instanceCount) }
  | .addServer =>
      (s.made servername).bind fun server =>
        (Labrpc.step s.net (.tester (.addServer servername server))).map fun net =>
          { s with net := net }

/-- One step. -/
def step (service : Service κ ρ) (s : Harness ε ν κ ρ) :
    HarnessLabel ε ν κ ρ → Option (Harness ε ν κ ρ)
  | .network a =>
      if s.permits service a then (Labrpc.step s.net a).map fun net => { s with net := net }
      else none
  | .save server raftstate snapshot =>
      (s.instances server).bind fun ps =>
        if service.keeps (s.persisters ps) ((s.persisters ps).save raftstate snapshot) then
          some { s with persisters :=
            Function.update s.persisters ps ((s.persisters ps).save raftstate snapshot) }
        else none
  | .invoke servername command =>
      if s.todo servername = [] then
        some { s with todo := Function.update s.todo servername command.program }
      else none
  | .act servername =>
      match s.todo servername with
      | [] => none
      | next :: rest =>
          (s.perform servername next).map fun s' =>
            { s' with todo := Function.update s'.todo servername rest }

end

end Harness

/-- **The network with servers that are shut down and restarted.** -/
def harness [DecidableEq ε] [DecidableEq ν] (service : Service κ ρ) :
    System (Harness ε ν κ ρ) (HarnessLabel ε ν κ ρ) where
  init := {}
  step := Harness.step service

/-! ## What a step leaves alone -/

/-- What was promised stays: in every persister, for every instance, and for every server name. -/
structure Harness.Extends (service : Service κ ρ) (s s' : Harness ε ν κ ρ) : Prop where
  /-- A persister keeps its promises. -/
  persisters : ∀ ps < s.persisterCount, ∀ request reply,
    service.promise request reply (s.persisters ps) = true →
    service.promise request reply (s'.persisters ps) = true
  /-- An instance keeps its persister. -/
  instances : ∀ server ps, s.instances server = some ps → s'.instances server = some ps
  /-- The persister of a name holds what it held. -/
  saved : ∀ servername ps, s.saved servername = some ps → ∃ ps', s'.saved servername = some ps' ∧
    ∀ request reply, service.promise request reply (s.persisters ps) = true →
      service.promise request reply (s'.persisters ps') = true

/-- The addresses are in use. -/
structure Harness.Allocated (s : Harness ε ν κ ρ) : Prop where
  /-- The persisters of names. -/
  saved : ∀ servername ps, s.saved servername = some ps → ps < s.persisterCount
  /-- The instances and their persisters. -/
  instances : ∀ server ps, s.instances server = some ps →
    server < s.instanceCount ∧ ps < s.persisterCount

namespace Harness

variable {service : Service κ ρ} {s s' : Harness ε ν κ ρ} {servername : ν}

/-- Nothing has changed. -/
theorem Extends.of_eq (hpersisters : s'.persisters = s.persisters)
    (hinstances : s'.instances = s.instances) (hsaved : s'.saved = s.saved) :
    Extends service s s' where
  persisters _ _ _ _ h := hpersisters ▸ h
  instances _ _ h := hinstances ▸ h
  saved _ ps h := ⟨ps, hsaved ▸ h, fun _ _ h => hpersisters ▸ h⟩

variable [DecidableEq ν]

section

variable (s) (ps : Persister)

@[simp] theorem allocate_saved_self (servername : ν) :
    (s.allocate servername ps).saved servername = some s.persisterCount :=
  Function.update_self ..

theorem allocate_saved_of_ne {servername other : ν} (h : other ≠ servername) :
    (s.allocate servername ps).saved other = s.saved other :=
  Function.update_of_ne h ..

@[simp] theorem allocate_persisters_self (servername : ν) :
    (s.allocate servername ps).persisters s.persisterCount = ps :=
  Function.update_self ..

theorem allocate_persisters_of_lt (servername : ν) {old : ℕ} (h : old < s.persisterCount) :
    (s.allocate servername ps).persisters old = s.persisters old :=
  Function.update_of_ne (Nat.ne_of_lt h) ..

end

/-- A new persister with the contents of the old one keeps what was promised. -/
theorem Extends.allocate (h : s.Allocated) {ps : Persister}
    (hps : ∀ old, s.saved servername = some old → ps = s.persisters old) :
    Extends service s (s.allocate servername ps) where
  persisters old hold request reply hpromise := by
    rw [allocate_persisters_of_lt s ps servername hold]
    exact hpromise
  instances _ _ h := h
  saved other old hold := by
    by_cases heq : other = servername
    · subst heq
      refine ⟨s.persisterCount, allocate_saved_self s ps other, fun request reply hpromise => ?_⟩
      rw [allocate_persisters_self, hps old hold]
      exact hpromise
    · refine ⟨old, (allocate_saved_of_ne s ps heq).trans hold, fun request reply hpromise => ?_⟩
      rw [allocate_persisters_of_lt s ps servername (h.saved other old hold)]
      exact hpromise

/-- The new address is in use. -/
theorem Allocated.allocate (h : s.Allocated) (servername : ν) (ps : Persister) :
    (s.allocate servername ps).Allocated where
  saved other old hold := by
    by_cases heq : other = servername
    · rw [heq, allocate_saved_self] at hold
      obtain rfl := Option.some.inj hold
      exact Nat.lt_succ_self _
    · rw [allocate_saved_of_ne s ps heq] at hold
      exact Nat.lt_succ_of_lt (h.saved other old hold)
  instances server old hold := by
    obtain ⟨hserver, hps⟩ := h.instances server old hold
    exact ⟨hserver, Nat.lt_succ_of_lt hps⟩

/-! ## The functions of the tester -/

/-- Where a server name is. -/
inductive Stage
  /-- An instance may be registered. -/
  | up
  /-- No instance is registered. -/
  | offline
  /-- No instance is registered, and the next one was made. -/
  | ready

/-- The stage after a step of the tester; `none` when the step must not be made. -/
def Stage.next : Stage → TesterStep → Option Stage
  | _, .deleteServer => some .offline
  | .offline, .copySaved => some .offline
  | .offline, .resave => some .offline
  | .offline, .supplySaved => some .offline
  | .offline, .makeServer => some .ready
  | .ready, .addServer => some .up
  | _, _ => none

/-- The steps of a function may be made one after the other. -/
def Stage.Runs : Stage → List TesterStep → Prop
  | _, [] => True
  | stage, next :: rest => ∃ stage', stage.next next = some stage' ∧ Runs stage' rest

/-- **What holds of a server name in a stage**: an instance that is registered, or will be, has the
persister of the name. -/
def Consistent (s : Harness ε ν κ ρ) (servername : ν) : Stage → Prop
  | .up => ∀ server, s.net.network.servers servername = some server →
      ∃ ps, s.saved servername = some ps ∧ s.instances server = some ps
  | .offline => s.net.network.servers servername = none
  | .ready => s.net.network.servers servername = none ∧ ∃ server ps,
      s.made servername = some server ∧ s.saved servername = some ps ∧
        s.instances server = some ps

omit [DecidableEq ν] in
/-- In every stage, a registered instance has the persister of the name. -/
theorem Consistent.up {stage : Stage} (h : s.Consistent servername stage) :
    s.Consistent servername .up := by
  cases stage with
  | up => exact h
  | offline =>
      intro server hserver
      rw [Consistent] at h
      rw [h] at hserver
      cases hserver
  | ready =>
      intro server hserver
      rw [h.1] at hserver
      cases hserver

omit [DecidableEq ν] in
/-- A step that does not touch the name. -/
theorem Consistent.frame {stage : Stage} (h : s.Consistent servername stage)
    (hservers : s'.net.network.servers servername = s.net.network.servers servername)
    (hsaved : s'.saved servername = s.saved servername)
    (hmade : s'.made servername = s.made servername)
    (hinstances : ∀ server ps, s.instances server = some ps → s'.instances server = some ps) :
    s'.Consistent servername stage := by
  cases stage with
  | up =>
      intro server hserver
      obtain ⟨ps, hps, hinstance⟩ := h server (hservers ▸ hserver)
      exact ⟨ps, hsaved.trans hps, hinstances server ps hinstance⟩
  | offline => exact hservers.trans h
  | ready =>
      obtain ⟨hnone, server, ps, hserver, hps, hinstance⟩ := h
      exact ⟨hservers.trans hnone, server, ps, hmade.trans hserver, hsaved.trans hps,
        hinstances server ps hinstance⟩

/-- What a step of the tester does. -/
inductive Performed (s : Harness ε ν κ ρ) (servername : ν) :
    TesterStep → Harness ε ν κ ρ → Prop
  /-- The server is deleted. -/
  | deleteServer : Performed s servername .deleteServer
      { s with net := { s.net with network := { s.net.network with
          servers := Function.update s.net.network.servers servername none } } }
  /-- There is nothing to copy. -/
  | skip (next : TesterStep) (hnext : next = .copySaved ∨ next = .resave) :
      Performed s servername next s
  /-- There is a new persister. -/
  | allocate {ps : Persister} (next : TesterStep)
      (hps : ∀ old, s.saved servername = some old → ps = s.persisters old)
      (hnext : next = .copySaved ∨ next = .resave ∨ next = .supplySaved) :
      Performed s servername next (s.allocate servername ps)
  /-- There is a new instance. -/
  | makeServer {ps : ℕ} (hsaved : s.saved servername = some ps) :
      Performed s servername .makeServer { s with
        instances := Function.update s.instances s.instanceCount (some ps)
        instanceCount := s.instanceCount + 1
        made := Function.update s.made servername (some s.instanceCount) }
  /-- The instance is registered. -/
  | addServer {server : ℕ} (hmade : s.made servername = some server) :
      Performed s servername .addServer
        { s with net := { s.net with network := { s.net.network with
            servers := Function.update s.net.network.servers servername (some server) } } }

/-- A persister is replaced by one with the same contents. -/
theorem Performed.of_saved {next : TesterStep} {ps : ℕ}
    (hnext : next = .copySaved ∨ next = .resave ∨ next = .supplySaved)
    (hsaved : s.saved servername = some ps) :
    Performed s servername next (s.allocate servername (s.persisters ps)) := by
  refine .allocate next (fun old hold => ?_) hnext
  obtain rfl := Option.some.inj (hsaved.symm.trans hold)
  rfl

/-- Every step of the tester is one of these. -/
theorem perform_performed [DecidableEq ε] {next : TesterStep}
    (h : s.perform servername next = some s') : Performed s servername next s' := by
  cases next with
  | deleteServer =>
      obtain rfl := Option.some.inj h
      exact .deleteServer
  | copySaved =>
      rw [perform] at h
      split at h
      · next ps hsaved =>
        obtain rfl := Option.some.inj h
        exact .of_saved (Or.inl rfl) hsaved
      · obtain rfl := Option.some.inj h
        exact .skip _ (Or.inl rfl)
  | resave =>
      rw [perform] at h
      split at h
      · next ps hsaved =>
        obtain rfl := Option.some.inj h
        exact .of_saved (Or.inr (Or.inl rfl)) hsaved
      · obtain rfl := Option.some.inj h
        exact .skip _ (Or.inr rfl)
  | supplySaved =>
      rw [perform] at h
      split at h
      · next ps hsaved =>
        obtain rfl := Option.some.inj h
        exact .of_saved (Or.inr (Or.inr rfl)) hsaved
      · next hsaved =>
        obtain rfl := Option.some.inj h
        refine .allocate _ (fun old hold => ?_) (Or.inr (Or.inr rfl))
        cases hsaved.symm.trans hold
  | makeServer =>
      obtain ⟨ps, hsaved, rfl⟩ := Option.map_eq_some_iff.mp h
      exact .makeServer hsaved
  | addServer =>
      obtain ⟨server, hmade, h⟩ := Option.bind_eq_some_iff.mp h
      obtain rfl := Option.some.inj h
      exact .addServer hmade

/-- A step that only moves a persister keeps a name offline. -/
theorem Stage.next_eq_offline {stage stage' : Stage} {next : TesterStep}
    (hnext : next = .copySaved ∨ next = .resave ∨ next = .supplySaved)
    (h : stage.next next = some stage') : stage = .offline ∧ stage' = .offline := by
  rcases hnext with rfl | rfl | rfl <;> cases stage <;> cases h <;> exact ⟨rfl, rfl⟩

/-- **The stages are right.** -/
theorem Performed.consistent {next : TesterStep} (h : Performed s servername next s')
    {stage stage' : Stage} (hconsistent : s.Consistent servername stage)
    (hnext : stage.next next = some stage') : s'.Consistent servername stage' := by
  cases h with
  | deleteServer =>
      have hoffline : stage' = .offline := by
        cases stage <;> exact (Option.some.inj hnext).symm
      subst hoffline
      exact Function.update_self ..
  | skip next hkind =>
      obtain ⟨rfl, rfl⟩ := Stage.next_eq_offline (hkind.imp_right Or.inl) hnext
      exact hconsistent
  | allocate next hps hkind =>
      obtain ⟨rfl, rfl⟩ := Stage.next_eq_offline hkind hnext
      exact hconsistent
  | @makeServer ps hsaved =>
      cases stage with
      | offline =>
          obtain rfl := Option.some.inj hnext
          exact ⟨hconsistent, s.instanceCount, ps, Function.update_self .., hsaved,
            Function.update_self ..⟩
      | up => cases hnext
      | ready => cases hnext
  | @addServer server hmade =>
      cases stage with
      | ready =>
          obtain rfl := Option.some.inj hnext
          obtain ⟨-, server', ps, hmade', hsaved, hinstance⟩ := hconsistent
          obtain rfl := Option.some.inj (hmade.symm.trans hmade')
          intro server'' hserver
          have hself : Function.update s.net.network.servers servername (some server) servername =
            some server'' := hserver
          rw [Function.update_self] at hself
          obtain rfl := Option.some.inj hself
          exact ⟨ps, hsaved, hinstance⟩
      | up => cases hnext
      | offline => cases hnext

/-- A step of the tester leaves the calls, the functions and the other names alone. -/
structure Elsewhere (s : Harness ε ν κ ρ) (servername : ν) (s' : Harness ε ν κ ρ) : Prop where
  /-- The calls. -/
  calls : s'.net.calls = s.net.calls
  /-- What is left of the functions. -/
  todo : s'.todo = s.todo
  /-- The registered instances. -/
  servers : ∀ other ≠ servername,
    s'.net.network.servers other = s.net.network.servers other
  /-- The persisters. -/
  saved : ∀ other ≠ servername, s'.saved other = s.saved other
  /-- The instances that were made. -/
  made : ∀ other ≠ servername, s'.made other = s.made other

theorem Performed.elsewhere {next : TesterStep} (h : Performed s servername next s') :
    Elsewhere s servername s' := by
  cases h with
  | deleteServer =>
      exact ⟨rfl, rfl, fun _ h => Function.update_of_ne h .., fun _ _ => rfl, fun _ _ => rfl⟩
  | skip next hkind => exact ⟨rfl, rfl, fun _ _ => rfl, fun _ _ => rfl, fun _ _ => rfl⟩
  | allocate next hps hkind =>
      exact ⟨rfl, rfl, fun _ _ => rfl, fun _ h => allocate_saved_of_ne s _ h, fun _ _ => rfl⟩
  | makeServer hsaved =>
      exact ⟨rfl, rfl, fun _ _ => rfl, fun _ _ => rfl, fun _ h => Function.update_of_ne h ..⟩
  | addServer hmade =>
      exact ⟨rfl, rfl, fun _ h => Function.update_of_ne h .., fun _ _ => rfl, fun _ _ => rfl⟩

/-- A step of the tester keeps what was promised. -/
theorem Performed.grows {next : TesterStep} (h : Performed s servername next s')
    (hallocated : s.Allocated) : Extends service s s' ∧ s'.Allocated := by
  cases h with
  | deleteServer => exact ⟨.of_eq rfl rfl rfl, hallocated.saved, hallocated.instances⟩
  | skip next hkind => exact ⟨.of_eq rfl rfl rfl, hallocated⟩
  | allocate next hps hkind => exact ⟨.allocate hallocated hps, hallocated.allocate servername _⟩
  | @makeServer ps hsaved =>
      have hne {server ps' : ℕ} (h : s.instances server = some ps') : server ≠ s.instanceCount :=
        Nat.ne_of_lt (hallocated.instances server ps' h).1
      refine ⟨⟨fun _ _ _ _ h => h, fun server ps' h => ?_, fun _ ps' h => ⟨ps', h, fun _ _ h => h⟩⟩,
        ⟨hallocated.saved, fun server ps' h => ?_⟩⟩
      · exact (Function.update_of_ne (hne h) ..).trans h
      · by_cases heq : server = s.instanceCount
        · have hself : Function.update s.instances s.instanceCount (some ps) server = some ps' := h
          rw [heq, Function.update_self] at hself
          obtain rfl := Option.some.inj hself
          exact ⟨heq ▸ Nat.lt_succ_self _, hallocated.saved servername ps hsaved⟩
        · obtain ⟨hserver, hps'⟩ :=
            hallocated.instances server ps' ((Function.update_of_ne heq ..).symm.trans h)
          exact ⟨Nat.lt_succ_of_lt hserver, hps'⟩
  | addServer hmade => exact ⟨.of_eq rfl rfl rfl, hallocated.saved, hallocated.instances⟩

/-! ## Promises -/

omit [DecidableEq ν]

/-- What a reply promises is in the persister of an instance. -/
def PromisedBy (service : Service κ ρ) (s : Harness ε ν κ ρ) (server : ℕ) (request : κ)
    (reply : ρ) : Prop :=
  ∃ ps, s.instances server = some ps ∧ service.promise request reply (s.persisters ps) = true

/-- What a reply promises is in the persister of a server name. -/
def PromisedFor (service : Service κ ρ) (s : Harness ε ν κ ρ) (servername : ν) (request : κ)
    (reply : ρ) : Prop :=
  ∃ ps, s.saved servername = some ps ∧ service.promise request reply (s.persisters ps) = true

theorem Extends.promisedBy (h : Extends service s s') (hallocated : s.Allocated) {server : ℕ}
    {request : κ} {reply : ρ} (hpromised : s.PromisedBy service server request reply) :
    s'.PromisedBy service server request reply := by
  obtain ⟨ps, hinstance, hpromise⟩ := hpromised
  exact ⟨ps, h.instances server ps hinstance,
    h.persisters ps (hallocated.instances server ps hinstance).2 request reply hpromise⟩

theorem Extends.promisedFor (h : Extends service s s') {request : κ} {reply : ρ}
    (hpromised : s.PromisedFor service servername request reply) :
    s'.PromisedFor service servername request reply := by
  obtain ⟨ps, hsaved, hpromise⟩ := hpromised
  obtain ⟨ps', hsaved', hkept⟩ := h.saved servername ps hsaved
  exact ⟨ps', hsaved', hkept request reply hpromise⟩

/-- An instance that is registered has the persister of its name. -/
theorem Consistent.promisedFor {stage : Stage} (h : s.Consistent servername stage) {server : ℕ}
    (hserver : s.net.network.servers servername = some server) {request : κ} {reply : ρ}
    (hpromised : s.PromisedBy service server request reply) :
    s.PromisedFor service servername request reply := by
  obtain ⟨ps, hinstance, hpromise⟩ := hpromised
  obtain ⟨ps', hsaved, hinstance'⟩ := h.up server hserver
  obtain rfl := Option.some.inj (hinstance.symm.trans hinstance')
  exact ⟨ps, hsaved, hpromise⟩

/-- What the replies of a call promise, on their way from the handler to the caller. -/
structure Kept (service : Service κ ρ) (s : Harness ε ν κ ρ) (call : Call ε ν κ ρ) : Prop where
  /-- The handler has returned: its instance has persisted it. -/
  finished : ∀ server reply, call.handler = .finished server reply →
    s.PromisedBy service server call.request reply
  /-- The reply was received, and not checked yet. -/
  collected : ∀ target reply, call.phase = .leaving target (some reply) →
    s.PromisedBy service target.server call.request reply
  /-- The reply has passed the last check: it is in the persister of the name. -/
  answered : ∀ target reply, (call.phase = .replying (.success target reply) ∨
      call.phase = .returned (.success target reply)) →
    s.PromisedFor service target.servername call.request reply

theorem Kept.mono {call : Call ε ν κ ρ} (h : s.Kept service call) (hext : Extends service s s')
    (hallocated : s.Allocated) : s'.Kept service call where
  finished server reply hhandler := hext.promisedBy hallocated (h.finished server reply hhandler)
  collected target reply hphase := hext.promisedBy hallocated (h.collected target reply hphase)
  answered target reply hphase := hext.promisedFor (h.answered target reply hphase)

end Harness

/-- A step of a call does not change the request; it makes a handler finish only by its return, and
receives only what the handler has returned. -/
theorem Moved.sources {rn : Network ε ν} {call call' : Call ε ν κ ρ} {move : Move ρ}
    (h : Moved rn call move call') :
    call'.request = call.request ∧
      (∀ server reply, call'.handler = .finished server reply →
        call.handler = .finished server reply ∨
          move = .finish reply ∧ call.handler = .running server) ∧
      (∀ target reply, call'.phase = .leaving target (some reply) →
        call.phase = .leaving target (some reply) ∨
          call.phase = .waiting target ∧ ∃ server, call.handler = .finished server reply) := by
  cases h with
  | @finish server reply hhandler =>
      refine ⟨rfl, ?_, fun _ _ h => Or.inl h⟩
      intro server' reply' h
      obtain ⟨rfl, rfl⟩ := Handler.finished.inj h
      exact Or.inr ⟨rfl, hhandler⟩
  | @collect target server reply hphase hhandler =>
      refine ⟨rfl, fun _ _ h => (nomatch h), ?_⟩
      intro target' reply' h
      obtain ⟨rfl, hreply⟩ := Phase.leaving.inj h
      obtain rfl := Option.some.inj hreply
      exact Or.inr ⟨hphase, server, hhandler⟩
  | dispatch hphase => exact ⟨rfl, fun _ _ h => (nomatch h), fun _ _ h => (nomatch h)⟩
  | drain hhandler hdraining => exact ⟨rfl, fun _ _ h => (nomatch h), fun _ _ h => Or.inl h⟩
  | poll hphase hdead =>
      refine ⟨rfl, fun _ _ h => Or.inl h, ?_⟩
      intro target' reply' h
      cases (Phase.leaving.inj h).2
  | _ => exact ⟨rfl, fun _ _ h => Or.inl h, fun _ _ h => (nomatch h)⟩

namespace Harness

variable {service : Service κ ρ} {s s' : Harness ε ν κ ρ} {servername : ν}

/-- What a handler that returns has persisted. -/
theorem promisedBy_of_mayFinish {call : Call ε ν κ ρ} {reply : ρ} {server : ℕ}
    (h : s.mayFinish service call reply = true) (hhandler : call.handler = .running server) :
    s.PromisedBy service server call.request reply := by
  rw [mayFinish, hhandler] at h
  obtain ⟨ps, hinstance, hpromise⟩ := (Option.any_eq_true _ _).mp h
  exact ⟨ps, hinstance, hpromise⟩

/-- **A step of a call keeps its promises.** The last check finds the instance registered, so that
its persister is the one of the name. -/
theorem Kept.moved {call call' : Call ε ν κ ρ} {move : Move ρ} {executions : List (ℕ × ρ)}
    (h : s.Kept service call) (hmoved : Moved s.net.network call move call')
    (hrecorded : call.Recorded executions)
    (hfinish : ∀ reply, move = .finish reply → s.mayFinish service call reply = true)
    (hstaged : ∀ servername, ∃ stage, s.Consistent servername stage) : s.Kept service call' := by
  obtain ⟨hrequest, hfinished, hleaving⟩ := hmoved.sources
  refine ⟨?_, ?_, ?_⟩
  · intro server reply hhandler
    rw [hrequest]
    rcases hfinished server reply hhandler with hbefore | ⟨hmove, hrunning⟩
    · exact h.finished server reply hbefore
    · exact promisedBy_of_mayFinish (hfinish reply hmove) hrunning
  · intro target reply hphase
    rw [hrequest]
    rcases hleaving target reply hphase with hbefore | ⟨hwaiting, server, hhandler⟩
    · exact h.collected target reply hbefore
    · have hserver : server = target.server := hrecorded.server_eq hwaiting hhandler
      exact hserver ▸ h.finished server reply hhandler
  · intro target reply hphase
    rw [hrequest]
    obtain ⟨-, hbefore | ⟨hleaving, halive⟩⟩ := hmoved.confirmed hphase
    · exact h.answered target reply hbefore
    · have hserver : s.net.network.servers target.servername = some target.server :=
        (Network.isServerDead_eq_false_iff.mp halive).2
      obtain ⟨stage, hconsistent⟩ := hstaged target.servername
      exact hconsistent.promisedFor hserver (h.collected target reply hleaving)

/-! ## Runs -/

variable [DecidableEq ε] [DecidableEq ν]

/-- **What holds of the tester's servers.** -/
structure Durable (service : Service κ ρ) (s : Harness ε ν κ ρ) : Prop where
  /-- The network is in a state of its own runs. -/
  reachable : (system ε ν κ ρ).Reachable s.net
  /-- The addresses are in use. -/
  allocated : s.Allocated
  /-- What is left of a function may be done. -/
  staged : ∀ servername, ∃ stage : Stage,
    s.Consistent servername stage ∧ stage.Runs (s.todo servername)
  /-- The promises are kept. -/
  kept : ∀ c call, s.net.calls c = some call → s.Kept service call

/-- A step that keeps what was promised and leaves the calls alone. -/
theorem Durable.of_extends (h : s.Durable service) (hext : Extends service s s')
    (hcalls : s'.net.calls = s.net.calls) (hreachable : (system ε ν κ ρ).Reachable s'.net)
    (hallocated : s'.Allocated)
    (hstaged : ∀ servername, ∃ stage : Stage,
      s'.Consistent servername stage ∧ stage.Runs (s'.todo servername)) : s'.Durable service where
  reachable := hreachable
  allocated := hallocated
  staged := hstaged
  kept c call hcall := (h.kept c call (hcalls ▸ hcall)).mono hext h.allocated

/-- The steps of the network that are free leave the registered instances alone. -/
theorem servers_of_permits {a : Label ε ν κ ρ} {net : State ε ν κ ρ}
    (hpermits : s.permits service a = true) (h : Stepped s.net a net) :
    net.network.servers = s.net.network.servers := by
  cases h with
  | tester hrn =>
      refine (Network.update_updated hrn).servers ?_ ?_
      · rintro servername server rfl
        cases hpermits
      · rintro servername rfl
        cases hpermits
  | call endname request hend => rfl
  | exitLoop hdone hlistening => rfl
  | step hcall hmoved => rfl

/-- A step of the network. -/
theorem Durable.network (h : s.Durable service) {a : Label ε ν κ ρ} {net : State ε ν κ ρ}
    (hpermits : s.permits service a = true) (ha : Labrpc.step s.net a = some net) :
    ({ s with net := net } : Harness ε ν κ ρ).Durable service := by
  have hstepped := step_stepped ha
  have hservers := servers_of_permits hpermits hstepped
  have hkeeps (call : Call ε ν κ ρ) (hkept : s.Kept service call) :
      ({ s with net := net } : Harness ε ν κ ρ).Kept service call :=
    hkept.mono (.of_eq rfl rfl rfl) h.allocated
  refine ⟨h.reachable.step ha, ⟨h.allocated.saved, h.allocated.instances⟩, ?_, ?_⟩
  · intro servername
    obtain ⟨stage, hconsistent, hruns⟩ := h.staged servername
    exact ⟨stage, hconsistent.frame (congrFun hservers servername) rfl rfl (fun _ _ h => h), hruns⟩
  · intro c' call' hcall'
    refine hkeeps call' ?_
    cases hstepped with
    | tester hrn => exact h.kept c' call' hcall'
    | exitLoop hdone hlistening => exact h.kept c' call' hcall'
    | call endname request hend =>
        dsimp only at hcall'
        by_cases heq : c' = s.net.count
        · rw [heq, Function.update_self] at hcall'
          obtain rfl := Option.some.inj hcall'
          exact ⟨fun _ _ h => (nomatch h), fun _ _ h => (nomatch h),
            fun _ _ h => h.elim (fun h => nomatch h) (fun h => nomatch h)⟩
        · rw [Function.update_of_ne heq] at hcall'
          exact h.kept c' call' hcall'
    | @step c move call call'' hcall hmoved =>
        dsimp only at hcall'
        by_cases heq : c' = c
        · rw [heq, Function.update_self] at hcall'
          obtain rfl := Option.some.inj hcall'
          obtain ⟨run, hrun⟩ := h.reachable
          refine (h.kept c call hcall).moved hmoved ((traced hrun).recorded c call hcall) ?_ ?_
          · rintro reply rfl
            have hany : (s.net.calls c).any (fun call => s.mayFinish service call reply) = true :=
              hpermits
            rw [hcall] at hany
            exact hany
          · intro servername
            obtain ⟨stage, hconsistent, -⟩ := h.staged servername
            exact ⟨stage, hconsistent⟩
        · rw [Function.update_of_ne heq] at hcall'
          exact h.kept c' call' hcall'

omit [DecidableEq ε] [DecidableEq ν] in
/-- A save that the service may make keeps what was promised. -/
theorem Extends.save {ps : ℕ} {contents : Persister}
    (hkeeps : service.keeps (s.persisters ps) contents = true) :
    Extends service s { s with persisters := Function.update s.persisters ps contents } := by
  have hkept (old : ℕ) (request : κ) (reply : ρ)
      (h : service.promise request reply (s.persisters old) = true) :
      service.promise request reply (Function.update s.persisters ps contents old) = true := by
    by_cases heq : old = ps
    · rw [heq, Function.update_self]
      exact service.kept hkeeps (heq ▸ h)
    · rw [Function.update_of_ne heq]
      exact h
  exact ⟨fun old _ => hkept old, fun _ _ h => h, fun _ old h => ⟨old, h, hkept old⟩⟩

/-- An instance saves its state. -/
theorem Durable.save (h : s.Durable service) {ps : ℕ} {contents : Persister}
    (hkeeps : service.keeps (s.persisters ps) contents = true) :
    ({ s with persisters := Function.update s.persisters ps contents } :
      Harness ε ν κ ρ).Durable service := by
  refine h.of_extends (.save hkeeps) rfl h.reachable ⟨h.allocated.saved, h.allocated.instances⟩ ?_
  intro servername
  obtain ⟨stage, hconsistent, hruns⟩ := h.staged servername
  exact ⟨stage, hconsistent.frame rfl rfl rfl (fun _ _ h => h), hruns⟩

/-- The rule that the source states: `StartServer` is called for a server that was shut down. -/
def obeys (s : Harness ε ν κ ρ) : HarnessLabel ε ν κ ρ → Bool
  | .invoke servername .startServer => s.net.network.servers servername == none
  | _ => true

/-- The functions that delete the server first may be called at any time. -/
theorem Stage.up_runs {command : Command} (h : command ≠ .startServer) :
    Stage.up.Runs command.program := by
  cases command with
  | crash1 => exact ⟨_, rfl, _, rfl, _, rfl, trivial⟩
  | start1 => exact ⟨_, rfl, _, rfl, _, rfl, _, rfl, _, rfl, _, rfl, trivial⟩
  | shutdownServer => exact ⟨_, rfl, _, rfl, trivial⟩
  | startServer => exact absurd rfl h

/-- `StartServer` may be called for a server that was shut down. -/
theorem Stage.offline_runs : Stage.offline.Runs Command.startServer.program :=
  ⟨_, rfl, _, rfl, _, rfl, trivial⟩

/-- The tester calls a function. -/
theorem Durable.invoke (h : s.Durable service) {command : Command}
    (hobeys : s.obeys (.invoke servername command) = true) :
    ({ s with todo := Function.update s.todo servername command.program } :
      Harness ε ν κ ρ).Durable service := by
  refine h.of_extends (.of_eq rfl rfl rfl) rfl h.reachable
    ⟨h.allocated.saved, h.allocated.instances⟩ ?_
  intro other
  obtain ⟨stage, hconsistent, hruns⟩ := h.staged other
  by_cases heq : other = servername
  · subst heq
    simp only [Function.update_self]
    by_cases hcommand : command = .startServer
    · subst hcommand
      have hnone : s.net.network.servers other = none := eq_of_beq hobeys
      exact ⟨.offline, hnone, Stage.offline_runs⟩
    · exact ⟨.up, hconsistent.up.frame rfl rfl rfl (fun _ _ h => h), Stage.up_runs hcommand⟩
  · simp only [Function.update_of_ne heq]
    exact ⟨stage, hconsistent.frame rfl rfl rfl (fun _ _ h => h), hruns⟩

/-- A step of the tester is a step of the network, or leaves it alone. -/
theorem Performed.reachable {next : TesterStep} (h : Performed s servername next s')
    (hreachable : (system ε ν κ ρ).Reachable s.net) : (system ε ν κ ρ).Reachable s'.net := by
  cases h with
  | deleteServer => exact hreachable.step (a := .tester (.deleteServer servername)) rfl
  | @addServer server hmade =>
      exact hreachable.step (a := .tester (.addServer servername server)) rfl
  | _ => exact hreachable

/-- The tester goes on with the function that it is in. -/
theorem Durable.act (h : s.Durable service) {next : TesterStep} {rest : List TesterStep}
    (htodo : s.todo servername = next :: rest) (hperformed : Performed s servername next s') :
    ({ s' with todo := Function.update s'.todo servername rest } :
      Harness ε ν κ ρ).Durable service := by
  have hboth : Extends service s s' ∧ s'.Allocated := hperformed.grows h.allocated
  obtain ⟨hext, hallocated⟩ := hboth
  have helsewhere := hperformed.elsewhere
  refine h.of_extends ⟨hext.persisters, hext.instances, hext.saved⟩ helsewhere.calls
    (hperformed.reachable h.reachable) ⟨hallocated.saved, hallocated.instances⟩ ?_
  intro other
  obtain ⟨stage, hconsistent, hruns⟩ := h.staged other
  by_cases heq : other = servername
  · subst heq
    rw [htodo] at hruns
    obtain ⟨stage', hnext, hrest⟩ := hruns
    simp only [Function.update_self]
    exact ⟨stage', (hperformed.consistent hconsistent hnext).frame rfl rfl rfl (fun _ _ h => h),
      hrest⟩
  · simp only [Function.update_of_ne heq, helsewhere.todo]
    exact ⟨stage, hconsistent.frame (helsewhere.servers other heq) (helsewhere.saved other heq)
      (helsewhere.made other heq) hext.instances, hruns⟩

/-- **Every step keeps what was promised.** -/
theorem Durable.step (h : s.Durable service) {a : HarnessLabel ε ν κ ρ} (hobeys : s.obeys a = true)
    (ha : Harness.step service s a = some s') : s'.Durable service := by
  cases a with
  | network a =>
      rw [Harness.step] at ha
      split at ha
      · next hpermits =>
        obtain ⟨net, hnet, rfl⟩ := Option.map_eq_some_iff.mp ha
        exact h.network hpermits hnet
      · cases ha
  | save server raftstate snapshot =>
      obtain ⟨ps, -, ha⟩ := Option.bind_eq_some_iff.mp ha
      split at ha
      · next hkeeps =>
        obtain rfl := Option.some.inj ha
        exact h.save hkeeps
      · cases ha
  | invoke servername command =>
      rw [Harness.step] at ha
      split at ha
      · obtain rfl := Option.some.inj ha
        exact h.invoke hobeys
      · cases ha
  | act servername =>
      rw [Harness.step] at ha
      split at ha
      · cases ha
      · next next rest htodo =>
        obtain ⟨s₁, hs₁, rfl⟩ := Option.map_eq_some_iff.mp ha
        exact h.act htodo (perform_performed hs₁)

/-- It holds before the first server is started. -/
theorem durable_init (service : Service κ ρ) :
    ({} : Harness ε ν κ ρ).Durable service where
  reachable := System.Reachable.init
  allocated := ⟨fun _ _ h => (nomatch h), fun _ _ h => (nomatch h)⟩
  staged _ := ⟨.offline, rfl, trivial⟩
  kept _ _ h := nomatch h

end Harness

/-- **What a positive reply promises is never lost.** In every run of the network with any number of
servers that are shut down and restarted, where instances that were shut down go on running and
saving: as long as `StartServer` is only called after a shutdown (`start1` does it itself), once
`Call` has returned a reply to a request, what the service promises with it is in the persister of
the server name, and an instance that is registered under the name works on that persister. -/
theorem reply_durable [DecidableEq ε] [DecidableEq ν] {service : Service κ ρ}
    {run : List (HarnessLabel ε ν κ ρ)} {s : Harness ε ν κ ρ}
    (hrun : (harness service).exec (harness service).init run = some s)
    (hobeys : (harness service).Along (fun s a => s.obeys a = true) (harness service).init run)
    {c : ℕ} {call : Call ε ν κ ρ} (hcall : s.net.calls c = some call) {target : Target ν}
    {reply : ρ} (hphase : call.phase = .returned (.success target reply)) :
    ∃ ps, s.saved target.servername = some ps ∧
      service.promise call.request reply (s.persisters ps) = true ∧
      ∀ server, s.net.network.servers target.servername = some server →
        s.instances server = some ps := by
  have h : s.Durable service :=
    System.Along.invariant (P := Harness.Durable service) (Harness.durable_init service)
      (fun s a s' h hobeys ha => h.step hobeys ha) hobeys hrun
  obtain ⟨ps, hsaved, hpromise⟩ := (h.kept c call hcall).answered target reply (Or.inr hphase)
  refine ⟨ps, hsaved, hpromise, ?_⟩
  intro server hserver
  obtain ⟨stage, hconsistent, -⟩ := h.staged target.servername
  obtain ⟨ps', hsaved', hinstance⟩ := hconsistent.up server hserver
  obtain rfl := Option.some.inj (hsaved.symm.trans hsaved')
  exact hinstance

/-- A service that keeps a log of bytes, and promises with `true` that the byte of the request is in
the log. -/
def logService : Service Byte Bool where
  keeps ps ps' := ps.raftstate.isPrefixOf ps'.raftstate
  promise request reply ps := !reply || ps.raftstate.contains request
  kept := by
    intro ps ps' request reply hkeeps hpromise
    have hstart : ps.raftstate <+: ps'.raftstate := by simpa using hkeeps
    cases reply with
    | false => rfl
    | true =>
        have hmem : request ∈ ps.raftstate := by simpa using hpromise
        simpa using hstart.subset hmem

/-- A server is started, and answers a request after it has saved it. -/
def savedRun : List (HarnessLabel ℕ ℕ Byte Bool) :=
  [.network (.tester (.makeEnd 0)), .network (.tester (.connect 0 0)),
    .network (.tester (.enable 0 true)), .invoke 0 .startServer, .act 0, .act 0, .act 0,
    .network (.call 0 5), .network (.step 0 .send), .network (.step 0 .read),
    .network (.step 0 .dispatch), .save 0 [5] [], .network (.step 0 (.finish true)),
    .network (.step 0 .collect)]

/-- The reply passes the last check; then the server is shut down and restarted before the caller
has the reply, and the old instance saves once more. -/
def restartedRun : List (HarnessLabel ℕ ℕ Byte Bool) :=
  savedRun ++ [.network (.step 0 (.check .sent)), .invoke 0 .shutdownServer, .act 0, .act 0,
    .save 0 [5, 6] [], .invoke 0 .startServer, .act 0, .act 0, .act 0, .network (.step 0 .reply)]

/-- The restarted server has the byte that the caller was promised. -/
theorem reply_durable_restartedRun :
    ∃ s call target ps, (harness logService).exec (harness logService).init restartedRun = some s ∧
      s.net.calls 0 = some call ∧ call.phase = .returned (.success target true) ∧
      s.saved target.servername = some ps ∧
      logService.promise call.request true (s.persisters ps) = true := by
  have hobeys : (harness logService).Along (fun s a => s.obeys a = true) (harness logService).init
      restartedRun := by
    decide +kernel
  have hrun : ((harness logService).exec (harness logService).init restartedRun).map
      (fun s => s.net.calls 0) =
      some (some ⟨0, 5, .returned (.success ⟨0, 0, true, false⟩ true), .ended, false⟩) := by
    decide +kernel
  obtain ⟨s, hs, hcall⟩ := Option.map_eq_some_iff.mp hrun
  obtain ⟨ps, hsaved, hpromise, -⟩ := reply_durable hs hobeys hcall rfl
  exact ⟨s, _, _, ps, hs, hcall, rfl, hsaved, hpromise⟩

/-- `StartServer` without a shutdown: the persister is copied while the old instance is still
registered and answers. -/
def overlappingRun : List (HarnessLabel ℕ ℕ Byte Bool) :=
  savedRun.take 11 ++ [.invoke 0 .startServer, .act 0, .save 0 [5] [],
    .network (.step 0 (.finish true)), .network (.step 0 .collect),
    .network (.step 0 (.check .sent)), .network (.step 0 .reply)]

example : ((harness logService).exec (harness logService).init overlappingRun).map (fun s =>
    (s.saved 0).map fun ps => logService.promise 5 true (s.persisters ps)) = some (some false) := by
  decide +kernel

end DistributedSystems.Labrpc
