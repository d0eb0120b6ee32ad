import DistributedSystems.Http.Server
import DistributedSystems.Transition.System
import Mathlib.Data.Finset.Card
import Mathlib.Data.Finset.Range

/-! # The connection limit

`Listen` and `handleConnection` of `http/server.go` as a labelled system. The accept loop sends every
connection into a channel with room for `maxConnections`, and then starts a goroutine for it; the
goroutine closes the connection and receives one value from the channel when it ends, whichever is
at its head. Connections are numbered in the order in which they are accepted.

* `Listener.Inv` — the channel has one value for each connection that was sent and whose goroutine
  has not received yet;
* `connections_bounded` — the bounds that follow. -/

namespace DistributedSystems.Http

/-- Where the accept loop is. -/
inductive LoopPhase
  /-- In `listener.Accept`. -/
  | accepting
  /-- Sending a connection into the channel. -/
  | sending (connection : ℕ)
  /-- Starting the goroutine of a connection. -/
  | starting (connection : ℕ)
  /-- `log.Fatal` has ended the process. -/
  | exited
  deriving DecidableEq

/-- Where the goroutine of a connection is. -/
inductive ConnectionPhase
  /-- It was not started. -/
  | absent
  /-- In `http.ReadRequest`. -/
  | reading
  /-- In `handleRequest`. -/
  | handling (request : Request)
  /-- In `writeResponse`. -/
  | writing (response : Response)
  /-- Before `connection.Close` of the deferred function. -/
  | closing
  /-- Before the receive of the deferred function. -/
  | receiving
  /-- It has returned. -/
  | done

/-- The state of the server. -/
structure Listener where
  /-- Where the accept loop is. -/
  loop : LoopPhase := .accepting
  /-- The number of connections accepted. -/
  accepted : ℕ := 0
  /-- The number of connections sent into the channel. -/
  sent : ℕ := 0
  /-- The channel. -/
  channel : List ℕ := []
  /-- The goroutines of the connections. -/
  phase : ℕ → ConnectionPhase := fun _ => .absent

/-- A step of the server. -/
inductive ListenerAction
  /-- `Accept` returns a connection. -/
  | accept
  /-- `Accept` fails. -/
  | acceptFails
  /-- The accept loop sends a connection into the channel. -/
  | send
  /-- The accept loop starts a goroutine. -/
  | start
  /-- `ReadRequest` of a connection returns a request, or an error. -/
  | readRequest (connection : ℕ) (request : Option Request)
  /-- `handleRequest` of a connection returns. -/
  | handleRequest (connection : ℕ) (result : Except HandlerError Response)
  /-- `writeResponse` of a connection returns; its error is ignored. -/
  | writeResponse (connection : ℕ)
  /-- A connection is closed. -/
  | close (connection : ℕ)
  /-- The goroutine of a connection receives from the channel. -/
  | receive (connection : ℕ)

namespace Listener

/-- Move the goroutine of a connection. -/
def setPhase (s : Listener) (connection : ℕ) (phase : ConnectionPhase) : Listener :=
  { s with phase := Function.update s.phase connection phase }

/-- One step; `none` when it is not enabled. A send needs room in the channel, and a receive a
value. -/
def step (maxConnections : ℕ) (s : Listener) : ListenerAction → Option Listener
  | .accept =>
      match s.loop with
      | .accepting => some { s with loop := .sending s.accepted, accepted := s.accepted + 1 }
      | _ => none
  | .acceptFails =>
      match s.loop with
      | .accepting => some { s with loop := .exited }
      | _ => none
  | .send =>
      match s.loop with
      | .sending connection =>
          if s.channel.length < maxConnections then
            some { s with
              loop := .starting connection
              sent := s.sent + 1
              channel := s.channel ++ [connection] }
          else none
      | _ => none
  | .start =>
      match s.loop with
      | .starting connection => some ({ s with loop := .accepting }.setPhase connection .reading)
      | _ => none
  | .readRequest connection request =>
      match s.phase connection with
      | .reading =>
          match request with
          | some request => some (s.setPhase connection (.handling request))
          | none =>
              some (s.setPhase connection (.writing (handleError (.httpError ⟨.badRequest⟩))))
      | _ => none
  | .handleRequest connection result =>
      match s.phase connection with
      | .handling _ =>
          match result with
          | .ok response => some (s.setPhase connection (.writing response))
          | .error err => some (s.setPhase connection (.writing (handleError err)))
      | _ => none
  | .writeResponse connection =>
      match s.phase connection with
      | .writing _ => some (s.setPhase connection .closing)
      | _ => none
  | .close connection =>
      match s.phase connection with
      | .closing => some (s.setPhase connection .receiving)
      | _ => none
  | .receive connection =>
      match s.phase connection, s.channel with
      | .receiving, _ :: rest => some ({ s with channel := rest }.setPhase connection .done)
      | _, _ => none

end Listener

/-- The server as a system; no step is possible once the process has ended. -/
def listener (maxConnections : ℕ) : System Listener ListenerAction where
  init := {}
  step s a := if s.loop = .exited then none else s.step maxConnections a

/-! ## Counting -/

/-- The goroutine was started and has not received yet. -/
def ConnectionPhase.running : ConnectionPhase → Bool
  | .absent => false
  | .done => false
  | _ => true

/-- The goroutine has received from the channel. -/
def ConnectionPhase.received : ConnectionPhase → Bool
  | .done => true
  | _ => false

/-- The connection was closed. -/
def ConnectionPhase.closed : ConnectionPhase → Bool
  | .receiving => true
  | .done => true
  | _ => false

/-- A goroutine that runs has not received. -/
theorem ConnectionPhase.received_of_running {phase : ConnectionPhase} (h : phase.running = true) :
    phase.received = false := by
  cases phase with
  | absent => exact absurd h (by simp [running])
  | done => exact absurd h (by simp [running])
  | _ => rfl

namespace Listener

variable {maxConnections : ℕ} {s s' : Listener}

/-- The connections that were sent and whose goroutine has not received yet. -/
def pending (s : Listener) : Finset ℕ :=
  (Finset.range s.sent).filter fun c => (s.phase c).received = false

/-- The goroutines between their start and their receive. -/
def active (s : Listener) : Finset ℕ :=
  (Finset.range s.accepted).filter fun c => (s.phase c).running = true

/-- The connections that were accepted and not yet closed. -/
def unclosed (s : Listener) : Finset ℕ :=
  (Finset.range s.accepted).filter fun c => (s.phase c).closed = false

/-- The goroutine of a connection goes on from a phase to the next. -/
inductive Moves (c : ℕ) : ListenerAction → ConnectionPhase → ConnectionPhase → Prop
  /-- A request was read. -/
  | readRequest (request : Request) :
      Moves c (.readRequest c (some request)) .reading (.handling request)
  /-- No request could be read. -/
  | readFails :
      Moves c (.readRequest c none) .reading (.writing (handleError (.httpError ⟨.badRequest⟩)))
  /-- The handler has returned a response. -/
  | handleRequest (request : Request) (response : Response) :
      Moves c (.handleRequest c (.ok response)) (.handling request) (.writing response)
  /-- The handler has returned an error. -/
  | handleFails (request : Request) (err : HandlerError) :
      Moves c (.handleRequest c (.error err)) (.handling request) (.writing (handleError err))
  /-- The response was written. -/
  | writeResponse (response : Response) : Moves c (.writeResponse c) (.writing response) .closing
  /-- The connection is closed. -/
  | close : Moves c (.close c) .closing .receiving

/-- A goroutine that moves is running, and goes on running. -/
theorem Moves.running {c : ℕ} {a : ListenerAction} {old new : ConnectionPhase}
    (h : Moves c a old new) : old.running = true ∧ new.running = true := by
  cases h with
  | _ => exact ⟨rfl, rfl⟩

/-- The steps, one constructor for each kind. -/
inductive Step (maxConnections : ℕ) (s : Listener) : ListenerAction → Listener → Prop
  /-- A connection is accepted. -/
  | accept (hloop : s.loop = .accepting) :
      Step maxConnections s .accept
        { s with loop := .sending s.accepted, accepted := s.accepted + 1 }
  /-- `Accept` fails. -/
  | acceptFails (hloop : s.loop = .accepting) :
      Step maxConnections s .acceptFails { s with loop := .exited }
  /-- A connection is sent. -/
  | send (c : ℕ) (hloop : s.loop = .sending c) (hroom : s.channel.length < maxConnections) :
      Step maxConnections s .send { s with
        loop := .starting c, sent := s.sent + 1, channel := s.channel ++ [c] }
  /-- A goroutine is started. -/
  | start (c : ℕ) (hloop : s.loop = .starting c) :
      Step maxConnections s .start ({ s with loop := .accepting }.setPhase c .reading)
  /-- A goroutine goes on to its next phase. -/
  | move (a : ListenerAction) (c : ℕ) (old new : ConnectionPhase) (hold : s.phase c = old)
      (hmove : Moves c a old new) : Step maxConnections s a (s.setPhase c new)
  /-- A goroutine receives. -/
  | receive (c head : ℕ) (rest : List ℕ) (hold : s.phase c = .receiving)
      (hchannel : s.channel = head :: rest) :
      Step maxConnections s (.receive c) ({ s with channel := rest }.setPhase c .done)

/-- Every step is of one of these kinds. -/
theorem step_cases {a : ListenerAction} (h : s.step maxConnections a = some s') :
    Step maxConnections s a s' := by
  cases a with
  | accept =>
      simp only [step] at h
      split at h
      · next hloop =>
        obtain rfl := Option.some.inj h
        exact .accept hloop
      · exact absurd h (by simp)
  | acceptFails =>
      simp only [step] at h
      split at h
      · next hloop =>
        obtain rfl := Option.some.inj h
        exact .acceptFails hloop
      · exact absurd h (by simp)
  | send =>
      simp only [step] at h
      split at h
      · next c hloop =>
        split at h
        · next hroom =>
          obtain rfl := Option.some.inj h
          exact .send c hloop hroom
        · exact absurd h (by simp)
      · exact absurd h (by simp)
  | start =>
      simp only [step] at h
      split at h
      · next c hloop =>
        obtain rfl := Option.some.inj h
        exact .start c hloop
      · exact absurd h (by simp)
  | readRequest c request =>
      simp only [step] at h
      split at h
      · next hc =>
        split at h
        · obtain rfl := Option.some.inj h
          exact .move _ c _ _ hc (.readRequest _)
        · obtain rfl := Option.some.inj h
          exact .move _ c _ _ hc .readFails
      · exact absurd h (by simp)
  | handleRequest c result =>
      simp only [step] at h
      split at h
      · next hc =>
        split at h
        · obtain rfl := Option.some.inj h
          exact .move _ c _ _ hc (.handleRequest _ _)
        · obtain rfl := Option.some.inj h
          exact .move _ c _ _ hc (.handleFails _ _)
      · exact absurd h (by simp)
  | writeResponse c =>
      simp only [step] at h
      split at h
      · next hc =>
        obtain rfl := Option.some.inj h
        exact .move _ c _ _ hc (.writeResponse _)
      · exact absurd h (by simp)
  | close c =>
      simp only [step] at h
      split at h
      · next hc =>
        obtain rfl := Option.some.inj h
        exact .move _ c _ _ hc .close
      · exact absurd h (by simp)
  | receive c =>
      simp only [step] at h
      split at h
      · next head rest hc hchannel =>
        obtain rfl := Option.some.inj h
        exact .receive c head rest hc hchannel
      · exact absurd h (by simp)

/-- The invariant of the server. -/
structure Inv (maxConnections : ℕ) (s : Listener) : Prop where
  /-- At most the connection that is being sent was accepted and not sent. -/
  accepted : s.accepted = s.sent + if s.loop = .sending s.sent then 1 else 0
  /-- The loop sends the next connection. -/
  sending : ∀ c, s.loop = .sending c → c = s.sent
  /-- The loop starts the goroutine of the connection that was sent last. -/
  starting : ∀ c, s.loop = .starting c → c + 1 = s.sent
  /-- The goroutines that were started. -/
  started : ∀ c, s.phase c = .absent ↔ s.sent ≤ c ∨ s.loop = .starting c
  /-- The channel has one value for each connection whose goroutine has not received. -/
  channel : s.channel.length = s.pending.card
  /-- The channel has room for `maxConnections` values. -/
  room : s.channel.length ≤ maxConnections

/-- A goroutine that has left its start belongs to a connection that was sent. -/
theorem Inv.lt_sent (h : Inv maxConnections s) {c : ℕ} (hc : s.phase c ≠ .absent) : c < s.sent := by
  by_contra hle
  exact hc ((h.started c).mpr (Or.inl (not_lt.mp hle)))

/-- A goroutine that goes on without receiving keeps the pending connections. -/
theorem pending_setPhase {c : ℕ} {phase : ConnectionPhase} (hold : (s.phase c).received = false)
    (hnew : phase.received = false) : (s.setPhase c phase).pending = s.pending := by
  refine Finset.filter_congr fun x _ => ?_
  by_cases hx : x = c
  · subst hx
    simp [setPhase, hold, hnew]
  · simp [setPhase, Function.update_of_ne hx]

/-- A goroutine that receives is no longer pending. -/
theorem pending_setPhase_done (c : ℕ) : (s.setPhase c .done).pending = s.pending.erase c := by
  ext x
  rw [Finset.mem_erase, pending, pending, Finset.mem_filter, Finset.mem_filter]
  by_cases hx : x = c
  · subst hx
    simp [setPhase, ConnectionPhase.received]
  · simp [setPhase, hx]

/-- A connection that is sent is pending. -/
theorem Inv.pending_send (h : Inv maxConnections s) :
    ((Finset.range (s.sent + 1)).filter fun c => (s.phase c).received = false) =
      insert s.sent s.pending := by
  have habsent : s.phase s.sent = .absent := (h.started s.sent).mpr (Or.inl le_rfl)
  rw [Finset.range_add_one, Finset.filter_insert, habsent,
    if_pos (show ConnectionPhase.absent.received = false from rfl), pending]

/-- **Every step keeps the invariant.** -/
theorem Inv.step (h : Inv maxConnections s) {a : ListenerAction}
    (hstep : Step maxConnections s a s') : Inv maxConnections s' := by
  cases hstep with
  | accept hloop =>
      have haccepted : s.accepted = s.sent := by simpa [hloop] using h.accepted
      refine ⟨?_, fun c hc => ?_, fun c hc => absurd hc (by simp), fun c => ?_, h.channel, h.room⟩
      · simp [haccepted]
      · exact (LoopPhase.sending.inj hc).symm.trans haccepted
      · simpa [hloop] using h.started c
  | acceptFails hloop =>
      have haccepted : s.accepted = s.sent := by simpa [hloop] using h.accepted
      refine ⟨?_, fun c hc => absurd hc (by simp), fun c hc => absurd hc (by simp), fun c => ?_,
        h.channel, h.room⟩
      · simpa using haccepted
      · simpa [hloop] using h.started c
  | send c hloop hroom =>
      obtain rfl := h.sending c hloop
      have haccepted : s.accepted = s.sent + 1 := by simpa [hloop] using h.accepted
      refine ⟨?_, fun c hc => absurd hc (by simp), fun c hc => ?_, fun c => ?_, ?_, ?_⟩
      · simpa using haccepted
      · rw [LoopPhase.starting.inj hc]
      · rw [h.started c, hloop]
        simp only [reduceCtorEq, or_false, LoopPhase.starting.injEq]
        omega
      · have hcard : (insert s.sent s.pending).card = s.pending.card + 1 :=
          Finset.card_insert_of_notMem (by simp [pending])
        rw [pending, h.pending_send, hcard, ← h.channel, List.length_append, List.length_singleton]
      · rw [List.length_append, List.length_singleton]
        exact hroom
  | start c hloop =>
      have haccepted : s.accepted = s.sent := by simpa [hloop] using h.accepted
      have hsent := h.starting c hloop
      have habsent : s.phase c = .absent := (h.started c).mpr (Or.inr hloop)
      refine ⟨by simpa [setPhase] using haccepted, fun c hc => absurd hc (by simp [setPhase]),
        fun c hc => absurd hc (by simp [setPhase]), fun x => ?_, ?_, h.room⟩
      · by_cases hx : x = c
        · subst hx
          simp only [setPhase, Function.update_self, reduceCtorEq, or_false, false_iff]
          omega
        · simp only [setPhase, Function.update_of_ne hx, h.started x, hloop, reduceCtorEq,
            LoopPhase.starting.injEq, or_false, or_iff_left_iff_imp]
          exact fun heq => absurd heq.symm hx
      · exact h.channel.trans (congrArg Finset.card (pending_setPhase (by rw [habsent]; rfl) rfl)).symm
  | move _ c old phase hc hmove =>
      obtain ⟨hold, hnew⟩ := hmove.running
      rw [← hc] at hold
      refine ⟨h.accepted, h.sending, h.starting, fun x => ?_, ?_, h.room⟩
      · by_cases hx : x = c
        · subst hx
          have hphase : phase ≠ .absent := by
            rintro rfl
            exact absurd hnew (by simp [ConnectionPhase.running])
          have hphase' : s.phase x ≠ .absent := by
            intro habsent
            rw [habsent] at hold
            exact absurd hold (by simp [ConnectionPhase.running])
          exact iff_of_false (by simpa [setPhase] using hphase) (mt (h.started x).mpr hphase')
        · simpa [setPhase, Function.update_of_ne hx] using h.started x
      · rw [pending_setPhase (ConnectionPhase.received_of_running hold)
          (ConnectionPhase.received_of_running hnew)]
        exact h.channel
  | receive c head rest hold hchannel =>
      have hpending : c ∈ s.pending := by
        rw [pending, Finset.mem_filter, Finset.mem_range, hold]
        exact ⟨h.lt_sent (by simp [hold]), rfl⟩
      have hlength : rest.length + 1 = s.pending.card := by rw [← h.channel, hchannel]; rfl
      have hroom := h.room
      rw [hchannel, List.length_cons] at hroom
      refine ⟨h.accepted, h.sending, h.starting, fun x => ?_, ?_, Nat.le_of_succ_le hroom⟩
      · by_cases hx : x = c
        · subst hx
          have hphase : s.phase x ≠ .absent := by simp [hold]
          exact iff_of_false (by simp [setPhase]) (mt (h.started x).mpr hphase)
        · simpa [setPhase, Function.update_of_ne hx] using h.started x
      · have herase : ({ s with channel := rest }.setPhase c .done).pending = s.pending.erase c :=
          pending_setPhase_done (s := { s with channel := rest }) c
        rw [herase, Finset.card_erase_of_mem hpending, ← hlength]
        rfl

/-- The invariant holds in every reachable state. -/
theorem Inv.of_reachable (hs : (listener maxConnections).Reachable s) : Inv maxConnections s := by
  refine System.Reachable.invariant (P := Inv maxConnections) ?_ ?_ hs
  · refine ⟨rfl, fun c hc => absurd hc (by simp [listener]),
      fun c hc => absurd hc (by simp [listener]), fun c => ?_, rfl, Nat.zero_le _⟩
    exact iff_of_true rfl (Or.inl (Nat.zero_le c))
  · intro s a s' _ h ha
    change (if s.loop = .exited then none else s.step maxConnections a) = some s' at ha
    split at ha
    · exact absurd ha (by simp)
    · exact h.step (step_cases ha)

/-- A goroutine between its start and its receive belongs to a pending connection. -/
theorem Inv.active_subset (h : Inv maxConnections s) : s.active ⊆ s.pending := by
  intro c hc
  obtain ⟨-, hrunning⟩ := Finset.mem_filter.mp hc
  have hphase : s.phase c ≠ .absent := by
    intro habsent
    rw [habsent] at hrunning
    exact absurd hrunning (by simp [ConnectionPhase.running])
  exact Finset.mem_filter.mpr ⟨Finset.mem_range.mpr (h.lt_sent hphase),
    ConnectionPhase.received_of_running hrunning⟩

/-- A connection that was not closed is pending, or was accepted last. -/
theorem Inv.unclosed_subset (h : Inv maxConnections s) : s.unclosed ⊆ insert s.sent s.pending := by
  intro c hc
  obtain ⟨hlt, hclosed⟩ := Finset.mem_filter.mp hc
  have haccepted : s.accepted ≤ s.sent + 1 := by
    rw [h.accepted]
    split <;> omega
  have hle : c ≤ s.sent := Nat.lt_succ_iff.mp ((Finset.mem_range.mp hlt).trans_le haccepted)
  rcases hle.eq_or_lt with rfl | hlt
  · exact Finset.mem_insert_self _ _
  · refine Finset.mem_insert_of_mem (Finset.mem_filter.mpr ⟨Finset.mem_range.mpr hlt, ?_⟩)
    cases hphase : s.phase c with
    | done => simp [hphase, ConnectionPhase.closed] at hclosed
    | _ => rfl

end Listener

/-- **The connection limit.** In every reachable state the channel has one value for each connection
that was sent and whose goroutine has not received; so at most `maxConnections` goroutines are
between their start and their receive, a receive never blocks, and at most `maxConnections + 1`
connections are accepted and not closed. -/
theorem connections_bounded (maxConnections : ℕ) {s : Listener}
    (hs : (listener maxConnections).Reachable s) :
    s.channel.length = s.pending.card ∧ s.active.card ≤ maxConnections ∧
      (∀ c, s.phase c = .receiving → ∃ s', s.step maxConnections (.receive c) = some s') ∧
      s.unclosed.card ≤ maxConnections + 1 := by
  have h := Listener.Inv.of_reachable hs
  have hpending : s.pending.card ≤ maxConnections := h.channel ▸ h.room
  refine ⟨h.channel, (Finset.card_le_card h.active_subset).trans hpending, fun c hc => ?_, ?_⟩
  · -- the connection of the goroutine is pending, so the channel is not empty
    have hmem : c ∈ s.pending := Finset.mem_filter.mpr
      ⟨Finset.mem_range.mpr (h.lt_sent (by simp [hc])), by rw [hc]; rfl⟩
    have hpos : 0 < s.channel.length := h.channel ▸ Finset.card_pos.mpr ⟨c, hmem⟩
    obtain ⟨head, rest, hchannel⟩ := List.exists_cons_of_length_pos hpos
    exact ⟨_, by rw [Listener.step, hc, hchannel]⟩
  · calc s.unclosed.card ≤ (insert s.sent s.pending).card := Finset.card_le_card h.unclosed_subset
      _ ≤ s.pending.card + 1 := Finset.card_insert_le _ _
      _ ≤ maxConnections + 1 := Nat.succ_le_succ hpending

/-- With one slot, the second connection is accepted while the first one is served, and its send
waits. -/
theorem connections_bounded_one :
    ∃ s, (listener 1).exec (listener 1).init
        [.accept, .send, .start, .accept, .readRequest 0 none, .writeResponse 0] = some s ∧
      (s.step 1 .send).isNone ∧ s.unclosed.card = 2 ∧
      s.channel.length = s.pending.card ∧ s.active.card ≤ 1 ∧
      (∀ c, s.phase c = .receiving → ∃ s', s.step 1 (.receive c) = some s') ∧
      s.unclosed.card ≤ 1 + 1 := by
  have hrun : ((listener 1).exec (listener 1).init
      [.accept, .send, .start, .accept, .readRequest 0 none, .writeResponse 0]).map
      (fun s => decide ((s.step 1 .send).isNone ∧ s.unclosed.card = 2)) = some true := by
    decide +kernel
  obtain ⟨s, hs, hcounts⟩ := Option.map_eq_some_iff.mp hrun
  obtain ⟨hsend, hcard⟩ := of_decide_eq_true hcounts
  exact ⟨s, hs, hsend, hcard, connections_bounded 1 ⟨_, hs⟩⟩

end DistributedSystems.Http
