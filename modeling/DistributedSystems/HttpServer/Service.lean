import DistributedSystems.Http.ConnectionLimit
import DistributedSystems.HttpServer.Linearizability
import DistributedSystems.Transition.Termination

/-! # The file server as a whole

The accept loop and the goroutines of `http/server.go` together with the handlers of the file server:
the goroutine of a connection reads a request, runs the handler one file operation at a time, writes
the response, closes the connection and frees its slot.

* `FileServer.Linked` — how the phase of a goroutine goes with the program of its handler;
* `service_bounded` — at most `maxConnections` handlers use the file system, and at most so many
  temporary files are in use;
* `service_drains` — a connection is answered at most once; while no connection is accepted every run
  ends, and it ends only when every connection was answered and closed, and its slot freed. -/

namespace DistributedSystems.HttpServer

open FileSystem Http
open GoPath (IsName)

/-- The state of the file server: its goroutines, and their handlers on the file system. -/
structure FileServer where
  /-- The accept loop and the goroutines. -/
  listener : Listener := {}
  /-- The handlers. -/
  pool : Pool Empty Empty Job Response

/-- A step of the file server. -/
inductive ServiceAction
  /-- `Accept` returns a connection. -/
  | accept
  /-- `Accept` fails. -/
  | acceptFails
  /-- The accept loop sends a connection into the channel. -/
  | send
  /-- The accept loop starts a goroutine. -/
  | start
  /-- `ReadRequest` of a connection returns a request, or an error. -/
  | readRequest (connection : ℕ) (job : Option Job)
  /-- The handler of a connection makes a file operation. -/
  | call (connection : ℕ) (out : Outcome Empty)
  /-- The handler of a connection returns. -/
  | handleRequest (connection : ℕ)
  /-- `writeResponse` of a connection returns. -/
  | writeResponse (connection : ℕ)
  /-- A connection is closed. -/
  | close (connection : ℕ)
  /-- The goroutine of a connection receives from the channel. -/
  | receive (connection : ℕ)

namespace FileServer

variable (maxConnections : ℕ) (E : Env)

/-- A step that only the goroutines make. -/
def listen (s : FileServer) (a : ListenerAction) : Option FileServer :=
  (s.listener.step maxConnections a).map fun listener => { s with listener := listener }

/-- A step of a handler. -/
def handle (s : FileServer) (a : Label Empty Job) : Option FileServer :=
  (s.pool.step E (serve E) a).map fun pool => { s with pool := pool }

/-- One step of the file server; `none` when it is not possible. -/
def step (s : FileServer) : ServiceAction → Option FileServer
  | .accept => s.listen maxConnections .accept
  | .acceptFails => s.listen maxConnections .acceptFails
  | .send => s.listen maxConnections .send
  | .start => s.listen maxConnections .start
  | .readRequest c none => s.listen maxConnections (.readRequest c none)
  | .readRequest c (some job) =>
      (s.listen maxConnections (.readRequest c (some job.request))).bind fun s =>
        s.handle E (.start c job)
  | .call c out => s.handle E (.step c out)
  | .handleRequest c =>
      (responseOf s.pool c).bind fun response =>
        s.listen maxConnections (.handleRequest c (.ok response))
  | .writeResponse c => s.listen maxConnections (.writeResponse c)
  | .close c => s.listen maxConnections (.close c)
  | .receive c => s.listen maxConnections (.receive c)

end FileServer

/-- The file server as a system; no step is possible once the process has ended. -/
def service (maxConnections : ℕ) (E : Env) (w : World) : System FileServer ServiceAction where
  init := { pool := { world := w } }
  step s a := if s.listener.loop = .exited then none else s.step maxConnections E a

variable {maxConnections : ℕ} {E : Env} {w₀ : World} {s s' : FileServer} {a : ServiceAction}

/-- A step of the file server is made before the process has ended. -/
theorem service_step (h : (service maxConnections E w₀).step s a = some s') :
    s.listener.loop ≠ .exited ∧ s.step maxConnections E a = some s' := by
  unfold service at h
  dsimp only at h
  split at h
  · exact absurd h (by simp)
  · next hloop => exact ⟨hloop, h⟩

/-! ## The two parts -/

namespace FileServer

theorem listen_eq_some {a : ListenerAction} (h : s.listen maxConnections a = some s') :
    s.listener.step maxConnections a = some s'.listener ∧ s'.pool = s.pool := by
  obtain ⟨listener, hstep, rfl⟩ := Option.map_eq_some_iff.mp h
  exact ⟨hstep, rfl⟩

theorem handle_eq_some {a : Label Empty Job} (h : s.handle E a = some s') :
    s.pool.step E (serve E) a = some s'.pool ∧ s'.listener = s.listener := by
  obtain ⟨pool, hstep, rfl⟩ := Option.map_eq_some_iff.mp h
  exact ⟨hstep, rfl⟩

/-- A step of the file server that is a step of the goroutines only. -/
inductive Listens (p : Pool Empty Empty Job Response) : ServiceAction → ListenerAction → Prop
  | accept : Listens p .accept .accept
  | acceptFails : Listens p .acceptFails .acceptFails
  | send : Listens p .send .send
  | start : Listens p .start .start
  | readFails (c : ℕ) : Listens p (.readRequest c none) (.readRequest c none)
  /-- The handler has returned; its errors are responses already. -/
  | handleRequest (c : ℕ) (response : Response) (hresponse : responseOf p c = some response) :
      Listens p (.handleRequest c) (.handleRequest c (.ok response))
  | writeResponse (c : ℕ) : Listens p (.writeResponse c) (.writeResponse c)
  | close (c : ℕ) : Listens p (.close c) (.close c)
  | receive (c : ℕ) : Listens p (.receive c) (.receive c)

/-- The kinds of steps: the goroutines move, or a handler does, or a handler is started. -/
theorem step_parts (h : s.step maxConnections E a = some s') :
    (∃ b, Listens s.pool a b ∧ s.listen maxConnections b = some s') ∨
      (∃ c out, a = .call c out ∧ s.handle E (.step c out) = some s') ∨
      ∃ c job s₁, a = .readRequest c (some job) ∧
        s.listen maxConnections (.readRequest c (some job.request)) = some s₁ ∧
        s₁.handle E (.start c job) = some s' := by
  cases a with
  | accept => exact Or.inl ⟨_, .accept, h⟩
  | acceptFails => exact Or.inl ⟨_, .acceptFails, h⟩
  | send => exact Or.inl ⟨_, .send, h⟩
  | start => exact Or.inl ⟨_, .start, h⟩
  | readRequest c job =>
      cases job with
      | none => exact Or.inl ⟨_, .readFails c, h⟩
      | some job =>
          obtain ⟨s₁, hlisten, hhandle⟩ := Option.bind_eq_some_iff.mp h
          exact Or.inr (Or.inr ⟨c, job, s₁, rfl, hlisten, hhandle⟩)
  | call c out => exact Or.inr (Or.inl ⟨c, out, rfl, h⟩)
  | handleRequest c =>
      obtain ⟨response, hresponse, hlisten⟩ := Option.bind_eq_some_iff.mp h
      exact Or.inl ⟨_, .handleRequest c response hresponse, hlisten⟩
  | writeResponse c => exact Or.inl ⟨_, .writeResponse c, h⟩
  | close c => exact Or.inl ⟨_, .close c, h⟩
  | receive c => exact Or.inl ⟨_, .receive c, h⟩

/-- **The goroutines make a run of the `listener`.** -/
theorem reachable_listener (hs : (service maxConnections E w₀).Reachable s) :
    (Http.listener maxConnections).Reachable s.listener := by
  refine System.Reachable.invariant (P := fun s => (Http.listener maxConnections).Reachable s.listener)
    System.Reachable.init ?_ hs
  intro s a s' _ ih ha
  obtain ⟨hloop, ha⟩ := service_step ha
  have hlisten {b : ListenerAction} {t : FileServer} (hb : s.listen maxConnections b = some t) :
      (Http.listener maxConnections).Reachable t.listener := by
    refine ih.step (a := b) ?_
    rw [Http.listener]
    exact (if_neg hloop).trans (listen_eq_some hb).1
  rcases step_parts ha with ⟨b, -, hb⟩ | ⟨c, out, -, hcall⟩ | ⟨c, job, s₁, -, hb, hstart⟩
  · exact hlisten hb
  · rw [(handle_eq_some hcall).2]
    exact ih
  · rw [(handle_eq_some hstart).2]
    exact hlisten hb

/-- **The handlers make a run of the `pool`.** -/
theorem reachable_pool (hs : (service maxConnections E w₀).Reachable s) :
    (FileSystem.pool E (serve E) w₀).Reachable s.pool := by
  refine System.Reachable.invariant
    (P := fun s => (FileSystem.pool E (serve E) w₀).Reachable s.pool) System.Reachable.init ?_ hs
  intro s a s' _ ih ha
  obtain ⟨hloop, ha⟩ := service_step ha
  rcases step_parts ha with ⟨b, -, hb⟩ | ⟨c, out, -, hcall⟩ | ⟨c, job, s₁, -, hb, hstart⟩
  · rw [(listen_eq_some hb).2]
    exact ih
  · exact ih.step (a := .step c out) (handle_eq_some hcall).1
  · rw [← (listen_eq_some hb).2] at ih
    exact ih.step (a := .start c job) (handle_eq_some hstart).1

/-! ## The steps -/

/-- The steps of the file server: of the goroutines, of a handler, or of both. -/
inductive Step (maxConnections : ℕ) (E : Env) (s : FileServer) : ServiceAction → FileServer → Prop
  /-- The goroutines make a step. -/
  | listen (a : ServiceAction) (b : ListenerAction) (l : Listener) (hlistens : Listens s.pool a b)
      (hstep : Listener.Step maxConnections s.listener b l) :
      Step maxConnections E s a { s with listener := l }
  /-- A request was read, and its handler is started. -/
  | readRequest (c : ℕ) (job : Job) (hc : s.listener.phase c = .reading)
      (hnone : s.pool.threads c = none) :
      Step maxConnections E s (.readRequest c (some job))
        { listener := s.listener.setPhase c (.handling job.request)
          pool := s.pool.setThread c { job := job, rest := serve E job } }
  /-- A handler makes a file operation. -/
  | call (c : ℕ) (out : Outcome Empty) (t : Thread Empty Empty Job Response) (o : Op Empty)
      (k : o.Res Empty → FileProg Response) (r : o.Res Empty) (w : World)
      (ht : s.pool.threads c = some t) (hrest : t.rest = .op o k)
      (hperform : perform E s.pool.world o out = some (r, w)) :
      Step maxConnections E s (.call c out)
        { s with pool := afterCall s.pool c t w (k r) (entries E s.pool.world o r) }

/-- A step is of one of the kinds. -/
theorem step_cases (h : s.step maxConnections E a = some s') : Step maxConnections E s a s' := by
  rcases step_parts h with ⟨b, hlistens, hb⟩ | ⟨c, out, rfl, hcall⟩ | ⟨c, job, s₁, rfl, hb, hstart⟩
  · obtain ⟨l, hl, rfl⟩ := Option.map_eq_some_iff.mp hb
    exact .listen a b l hlistens (Listener.step_cases hl)
  · obtain ⟨pool, hpool, rfl⟩ := Option.map_eq_some_iff.mp hcall
    cases Pool.step_cases hpool with
    | call _ _ t o k r w ht hrest hperform => exact .call c out t o k r w ht hrest hperform
  · obtain ⟨l, hl, rfl⟩ := Option.map_eq_some_iff.mp hb
    obtain ⟨pool, hpool, rfl⟩ := Option.map_eq_some_iff.mp hstart
    cases Listener.step_cases hl with
    | move _ _ _ _ hc hmove =>
        cases hmove
        cases Pool.step_cases hpool with
        | start _ _ hnone => exact .readRequest c job hc hnone

/-! ## Goroutines and handlers -/

/-- The phase of a goroutine goes with the program of its handler. -/
def Linked : ConnectionPhase → Option (Thread Empty Empty Job Response) → Prop
  | .absent, none => True
  | .reading, none => True
  | .handling request, some t => t.job.request = request ∧ t.crashed = false
  | .writing response, none => response = errorResponse .badRequest
  | .writing response, some t => t.rest = .ret response
  | .closing, none => True
  | .closing, some t => ∃ response, t.rest = .ret response
  | .receiving, none => True
  | .receiving, some t => ∃ response, t.rest = .ret response
  | .done, none => True
  | .done, some t => ∃ response, t.rest = .ret response
  | _, _ => False

/-- A handler that has not returned belongs to a goroutine that runs it. -/
theorem Linked.handling {phase : ConnectionPhase} {t : Thread Empty Empty Job Response}
    (h : Linked phase (some t)) (hrest : ∀ response, t.rest ≠ .ret response) :
    phase = .handling t.job.request := by
  cases phase with
  | handling request => exact congrArg _ h.1.symm
  | absent => exact h.elim
  | reading => exact h.elim
  | writing response => exact absurd h (hrest response)
  | closing => exact absurd h.choose_spec (hrest _)
  | receiving => exact absurd h.choose_spec (hrest _)
  | done => exact absurd h.choose_spec (hrest _)

/-- A goroutine that moves still goes with the program of its handler. -/
theorem Linked.move {p : Pool Empty Empty Job Response} {b : ListenerAction}
    (hlistens : Listens p a b) {c : ℕ} {old new : ConnectionPhase} (hmove : Listener.Moves c b old new)
    (h : Linked old (p.threads c)) : Linked new (p.threads c) := by
  cases hmove with
  | readRequest request => cases hlistens
  | handleFails request err => cases hlistens
  | handleRequest request response =>
      cases hlistens with
      | handleRequest _ _ hresponse =>
          obtain ⟨t, ht, hrest⟩ := exists_of_responseOf hresponse
          rw [ht]
          exact hrest
  | readFails =>
      cases ht : p.threads c with
      | none => rfl
      | some t => rw [ht] at h; exact h.elim
  | writeResponse response =>
      cases ht : p.threads c with
      | none => trivial
      | some t => rw [ht] at h; exact ⟨response, h⟩
  | close =>
      cases ht : p.threads c with
      | none => trivial
      | some t => rw [ht] at h; exact h

@[simp] theorem phase_setPhase_self (l : Listener) (c : ℕ) (phase : ConnectionPhase) :
    (l.setPhase c phase).phase c = phase := Function.update_self _ _ _

@[simp] theorem phase_setPhase_ne (l : Listener) {c c' : ℕ} (h : c' ≠ c) (phase : ConnectionPhase) :
    (l.setPhase c phase).phase c' = l.phase c' := Function.update_of_ne h _ _

/-- The phases and the programs go together. -/
def AllLinked (s : FileServer) : Prop := ∀ c, Linked (s.listener.phase c) (s.pool.threads c)

/-- The goroutine of a connection moves and its handler does not. -/
theorem AllLinked.setPhase (h : s.AllLinked) {l : Listener} (hl : l.phase = s.listener.phase) {c : ℕ}
    {phase : ConnectionPhase} (hphase : Linked phase (s.pool.threads c)) :
    AllLinked { s with listener := l.setPhase c phase } := by
  intro c'
  by_cases hc : c' = c
  · subst hc
    rw [phase_setPhase_self]
    exact hphase
  · rw [phase_setPhase_ne _ hc, hl]
    exact h c'

/-- **A step keeps the phases and the programs together.** -/
theorem AllLinked.step (h : s.AllLinked) (hinv : Listener.Inv maxConnections s.listener)
    (hstep : Step maxConnections E s a s') : s'.AllLinked := by
  cases hstep with
  | listen _ b l hlistens hstep =>
      cases hstep with
      | accept hloop => exact h
      | acceptFails hloop => exact h
      | send c hloop hroom => exact h
      | start c hloop =>
          have hc := h c
          rw [(hinv.started c).mpr (Or.inr hloop)] at hc
          refine h.setPhase (l := { s.listener with loop := .accepting }) rfl ?_
          cases ht : s.pool.threads c with
          | none => trivial
          | some t => rw [ht] at hc; exact hc
      | move _ c old new hc hmove => exact h.setPhase rfl (Linked.move hlistens hmove (hc ▸ h c))
      | receive c head rest hc hchannel =>
          have hold := h c
          rw [hc] at hold
          refine h.setPhase (l := { s.listener with channel := rest }) rfl ?_
          cases ht : s.pool.threads c with
          | none => trivial
          | some t => rw [ht] at hold; exact hold
  | readRequest c job hc hnone =>
      intro c'
      by_cases hc' : c' = c
      · subst hc'
        rw [phase_setPhase_self, Pool.threads_setThread_self]
        exact ⟨rfl, rfl⟩
      · rw [phase_setPhase_ne _ hc', Pool.threads_setThread_ne _ hc']
        exact h c'
  | call c out t o k r w ht hrest hperform =>
      intro c'
      by_cases hc' : c' = c
      · subst hc'
        have hold := h c'
        rw [ht] at hold
        have hphase := hold.handling fun response => by simp [hrest]
        rw [Pool.threads_setThread_self, hphase]
        rw [hphase] at hold
        exact ⟨rfl, hold.2⟩
      · rw [Pool.threads_setThread_ne _ hc']
        exact h c'

/-- **In every reachable state the phases of the goroutines go with the programs of the
handlers.** -/
theorem allLinked (hs : (service maxConnections E w₀).Reachable s) : s.AllLinked := by
  have hinit : AllLinked { pool := { world := w₀ } } := fun _ => trivial
  refine System.Reachable.invariant (P := AllLinked) hinit ?_ hs
  intro s a s' hs h ha
  exact h.step (Listener.Inv.of_reachable (reachable_listener hs)) (step_cases (service_step ha).2)

/-- A handler that has not returned belongs to a goroutine that holds a slot. -/
theorem mem_active (hs : (service maxConnections E w₀).Reachable s) {c : ℕ}
    {t : Thread Empty Empty Job Response} (ht : s.pool.threads c = some t)
    (hrest : ∀ response, t.rest ≠ .ret response) : c ∈ s.listener.active := by
  have hlinked := allLinked hs c
  rw [ht] at hlinked
  have hphase := hlinked.handling hrest
  have hinv := Listener.Inv.of_reachable (reachable_listener hs)
  have hsent : c < s.listener.sent := hinv.lt_sent (by simp [hphase])
  refine Finset.mem_filter.mpr ⟨Finset.mem_range.mpr ?_, by rw [hphase]; rfl⟩
  rw [hinv.accepted]
  omega

end FileServer

/-! ## What is in use -/

/-- **At most `maxConnections` requests use the file system.** In every reachable state of the file
server at most `maxConnections` handlers have not returned; and apart from the temporary files whose
removal failed, at most `maxConnections` temporary files are there. -/
theorem service_bounded (hwd : ∀ c ∈ E.wd, IsName c) (hfresh : w₀.Fresh)
    (hs : (service maxConnections E w₀).Reachable s) :
    (∀ handlers : Finset ℕ,
      (∀ c ∈ handlers, ∃ t, s.pool.threads c = some t ∧ ∀ response, t.rest ≠ .ret response) →
        handlers.card ≤ maxConnections) ∧
    (∀ temps : Finset Location,
      (∀ l ∈ temps, l ∈ s.pool.world.used ∧ s.pool.world.node l ≠ none ∧
        ∀ c t, s.pool.threads c = some t → .removeFailed l ∉ t.log) →
          temps.card ≤ maxConnections) := by
  have hlistener := Listener.Inv.of_reachable (FileServer.reachable_listener hs)
  have hpending : s.listener.pending.card ≤ maxConnections := hlistener.channel ▸ hlistener.room
  have hactive : s.listener.active.card ≤ maxConnections :=
    (Finset.card_le_card hlistener.active_subset).trans hpending
  have hhandlers (handlers : Finset ℕ) (h : ∀ c ∈ handlers, ∃ t, s.pool.threads c = some t ∧
      ∀ response, t.rest ≠ .ret response) : handlers.card ≤ maxConnections := by
    refine (Finset.card_le_card fun c hc => ?_).trans hactive
    obtain ⟨t, ht, hrest⟩ := h c hc
    exact FileServer.mem_active hs ht hrest
  refine ⟨hhandlers, fun temps htemps => ?_⟩
  obtain ⟨own, hinv⟩ := (replies hwd).exists_inv hfresh (FileServer.reachable_pool hs)
  -- a temporary file belongs to a handler
  have howner (l : Location) (hl : l ∈ temps) :
      ∃ c name inode bytes, own c = .holds name inode bytes ∧ E.locate name = l := by
    obtain ⟨hused, hnode, hkept⟩ := htemps l hl
    rcases hinv.leftovers hused hnode with howned | ⟨c, hfailed⟩
    · exact howned
    · cases ht : s.pool.threads c with
      | none => simp [Pool.logOf, ht] at hfailed
      | some t =>
          rw [Pool.logOf_of_thread ht] at hfailed
          exact absurd hfailed (hkept c t ht)
  choose! owner name inode bytes hholds hlocate using howner
  -- different files belong to different handlers
  have hinjective : Set.InjOn owner temps := by
    intro l hl l' hl' heq
    have hsame := (hholds l hl).symm.trans ((congrArg own heq).trans (hholds l' hl'))
    rw [← hlocate l hl, ← hlocate l' hl', (Own.holds.inj hsame).1]
  rw [← Finset.card_image_of_injOn hinjective]
  refine hhandlers _ fun c hc => ?_
  obtain ⟨l, hl, rfl⟩ := Finset.mem_image.mp hc
  cases ht : s.pool.threads (owner l) with
  | none => exact absurd ((hinv.unstarted ht).symm.trans (hholds l hl)) (by simp)
  | some t =>
      refine ⟨t, rfl, fun response hrest => ?_⟩
      -- a handler that has returned owns nothing
      have hsafe := hinv.safe ht
      rw [hrest] at hsafe
      exact absurd (hsafe.1.symm.trans (hholds l hl)) (by simp)

/-- With one slot, the upload of the first connection has made its temporary file, and the second
connection waits for the slot. -/
theorem service_bounded_one :
    ∃ s, (service 1 exampleServer exampleWorld).exec (service 1 exampleServer exampleWorld).init
        [.accept, .send, .start, .accept,
          .readRequest 0 (some (exampleUpload ⟨[.ofString "new"], none⟩)),
          .call 0 (.temp (.ofString "1"))] = some s ∧
      s.pool.world.used = [[.ofString "srv", publicName, .ofString "upload-1"]] ∧
      (∀ handlers : Finset ℕ,
        (∀ c ∈ handlers, ∃ t, s.pool.threads c = some t ∧ ∀ response, t.rest ≠ .ret response) →
          handlers.card ≤ 1) := by
  have hwd : ∀ c ∈ exampleServer.wd, IsName c := by decide
  have hfresh : exampleWorld.Fresh := ⟨rfl, exampleWorld_bound⟩
  have hrun : ((service 1 exampleServer exampleWorld).exec
      (service 1 exampleServer exampleWorld).init
      [.accept, .send, .start, .accept,
        .readRequest 0 (some (exampleUpload ⟨[.ofString "new"], none⟩)),
        .call 0 (.temp (.ofString "1"))]).map (fun s => s.pool.world.used) =
      some [[.ofString "srv", publicName, .ofString "upload-1"]] := by
    decide +kernel
  obtain ⟨s, hs, hused⟩ := Option.map_eq_some_iff.mp hrun
  exact ⟨s, hs, hused, (service_bounded hwd hfresh ⟨_, hs⟩).1⟩

/-! ## The server comes to rest -/

/-- How far the server is with a connection. -/
inductive Position
  /-- It was accepted. -/
  | accepted
  /-- It was sent into the channel. -/
  | sent
  /-- Its request is read. -/
  | reading
  /-- Its handler has this to do. -/
  | handling (rest : FileProg Response)
  /-- Its response is written. -/
  | writing
  /-- It is closed. -/
  | closing
  /-- Its slot is freed. -/
  | receiving
  /-- Its goroutine has returned. -/
  | done

/-- The server goes on with a connection, from the second position to the first. -/
inductive Position.Next : Position → Position → Prop
  | send : Next .sent .accepted
  | start : Next .reading .sent
  | readRequest (rest : FileProg Response) : Next (.handling rest) .reading
  | readFails : Next .writing .reading
  | call (o : Op Empty) (k : o.Res Empty → FileProg Response) (r : o.Res Empty) :
      Next (.handling (k r)) (.handling (.op o k))
  | handleRequest (response : Response) : Next .writing (.handling (.ret response))
  | writeResponse : Next .closing .writing
  | close : Next .receiving .closing
  | receive : Next .done .receiving

/-- The server does not go on with a connection forever. -/
theorem Position.wellFounded_next : WellFounded Position.Next := by
  have hdone : Acc Next .done := ⟨_, fun y hy => by cases hy⟩
  have hreceiving : Acc Next .receiving := ⟨_, fun y hy => by cases hy; exact hdone⟩
  have hclosing : Acc Next .closing := ⟨_, fun y hy => by cases hy; exact hreceiving⟩
  have hwriting : Acc Next .writing := ⟨_, fun y hy => by cases hy; exact hclosing⟩
  -- by induction on what the handler has to do
  have hhandling (rest : FileProg Response) : Acc Next (.handling rest) := by
    induction rest with
    | ret response => exact ⟨_, fun y hy => by cases hy; exact hwriting⟩
    | op o k ih => exact ⟨_, fun y hy => by cases hy with | call _ _ r => exact ih r⟩
  have hreading : Acc Next .reading := by
    refine ⟨_, fun y hy => ?_⟩
    cases hy with
    | readRequest rest => exact hhandling rest
    | readFails => exact hwriting
  have hsent : Acc Next .sent := ⟨_, fun y hy => by cases hy; exact hreading⟩
  refine ⟨fun position => ?_⟩
  cases position with
  | accepted => exact ⟨_, fun y hy => by cases hy; exact hsent⟩
  | sent => exact hsent
  | reading => exact hreading
  | handling rest => exact hhandling rest
  | writing => exact hwriting
  | closing => exact hclosing
  | receiving => exact hreceiving
  | done => exact hdone

namespace FileServer

/-- How far the server is with a connection. -/
def position (s : FileServer) (c : ℕ) : Position :=
  match s.listener.phase c with
  | .absent => if s.listener.loop = .starting c then .sent else .accepted
  | .reading => .reading
  | .handling _ => (s.pool.threads c).elim .reading fun t => .handling t.rest
  | .writing _ => .writing
  | .closing => .closing
  | .receiving => .receiving
  | .done => .done

/-- How far the server is with the connections it has accepted. -/
def progress (s : FileServer) : Multiset Position :=
  (Multiset.range s.listener.accepted).map s.position

end FileServer

/-- `Accept` does not return. -/
def ServiceAction.Internal : ServiceAction → Prop
  | .accept => False
  | .acceptFails => False
  | _ => True

namespace FileServer

/-- The position of a connection that nothing happens to. -/
theorem position_congr {c : ℕ} (hphase : s'.listener.phase c = s.listener.phase c)
    (hthread : s'.pool.threads c = s.pool.threads c)
    (hloop : s'.listener.loop = .starting c ↔ s.listener.loop = .starting c) :
    s'.position c = s.position c := by
  simp only [position, hphase, hthread, hloop]

/-- A step that goes on with one connection. -/
theorem position_update {c : ℕ} {p : Position} (hself : s'.position c = p)
    (hphase : ∀ c', c' ≠ c → s'.listener.phase c' = s.listener.phase c')
    (hthread : ∀ c', c' ≠ c → s'.pool.threads c' = s.pool.threads c')
    (hloop : ∀ c', c' ≠ c → (s'.listener.loop = .starting c' ↔ s.listener.loop = .starting c')) :
    s'.position = Function.update s.position c p := by
  funext c'
  by_cases hc : c' = c
  · subst hc
    rw [Function.update_self, hself]
  · rw [Function.update_of_ne hc]
    exact position_congr (hphase c' hc) (hthread c' hc) (hloop c' hc)

/-- A goroutine that moves goes on to the next position. -/
theorem next_move {b : ListenerAction} (hlistens : Listens s.pool a b) {c : ℕ}
    {old new : ConnectionPhase} (hc : s.listener.phase c = old) (hmove : Listener.Moves c b old new) :
    Position.Next (FileServer.position { s with listener := s.listener.setPhase c new } c)
      (s.position c) := by
  cases hmove with
  | readRequest request => cases hlistens
  | handleFails request err => cases hlistens
  | readFails =>
      simp only [position, phase_setPhase_self, hc]
      exact .readFails
  | handleRequest request response =>
      cases hlistens with
      | handleRequest _ _ hresponse =>
          obtain ⟨t, ht, hrest⟩ := exists_of_responseOf hresponse
          simp only [position, phase_setPhase_self, hc, ht, Option.elim_some, hrest]
          exact .handleRequest response
  | writeResponse response =>
      simp only [position, phase_setPhase_self, hc]
      exact .writeResponse
  | close =>
      simp only [position, phase_setPhase_self, hc]
      exact .close

/-- **A step goes on with one connection**, as long as `Accept` does not return. -/
theorem exists_next (hinv : Listener.Inv maxConnections s.listener) (hlinked : s.AllLinked)
    (hstep : Step maxConnections E s a s') (ha : a.Internal) :
    s'.listener.accepted = s.listener.accepted ∧ ∃ c < s.listener.accepted, ∃ p,
      Position.Next p (s.position c) ∧ s'.position = Function.update s.position c p := by
  have hsent : s.listener.sent ≤ s.listener.accepted := by rw [hinv.accepted]; omega
  have hlt {c : ℕ} {phase : ConnectionPhase} (hc : s.listener.phase c = phase)
      (hphase : phase ≠ .absent) : c < s.listener.accepted :=
    (hinv.lt_sent (hc ▸ hphase)).trans_le hsent
  cases hstep with
  | listen _ b l hlistens hstep =>
      cases hstep with
      | accept hloop => cases hlistens; exact ha.elim
      | acceptFails hloop => cases hlistens; exact ha.elim
      | send c hloop hroom =>
          obtain rfl := hinv.sending c hloop
          have habsent : s.listener.phase s.listener.sent = .absent :=
            (hinv.started _).mpr (Or.inl le_rfl)
          have haccepted : s.listener.accepted = s.listener.sent + 1 := by
            rw [hinv.accepted, if_pos hloop]
          refine ⟨rfl, s.listener.sent, by omega, .sent, ?_, position_update ?_ (fun _ _ => rfl)
            (fun _ _ => rfl) fun c' hc' => ?_⟩
          · simp only [position, habsent, hloop, reduceCtorEq, if_false]
            exact .send
          · simp only [position, habsent, if_true]
          · simp only [hloop, reduceCtorEq, LoopPhase.starting.injEq, iff_false]
            exact hc'.symm
      | start c hloop =>
          have habsent : s.listener.phase c = .absent := (hinv.started c).mpr (Or.inr hloop)
          have hc := hinv.starting c hloop
          refine ⟨rfl, c, by omega, .reading, ?_, position_update ?_
            (fun c' hc' => phase_setPhase_ne _ hc' _) (fun _ _ => rfl) fun c' hc' => ?_⟩
          · simp only [position, habsent, hloop, if_true]
            exact .start
          · simp only [position, phase_setPhase_self]
          · simp only [Listener.setPhase, hloop, reduceCtorEq, LoopPhase.starting.injEq, false_iff]
            exact hc'.symm
      | move _ c old new hc hmove =>
          have hrunning : old ≠ .absent := by
            rintro rfl
            exact absurd hmove.running.1 (by decide)
          exact ⟨rfl, c, hlt hc hrunning, _, next_move hlistens hc hmove, position_update rfl
            (fun c' hc' => phase_setPhase_ne _ hc' _) (fun _ _ => rfl) fun _ _ => Iff.rfl⟩
      | receive c head rest hc hchannel =>
          refine ⟨rfl, c, hlt hc (by simp), .done, ?_, position_update ?_
            (fun c' hc' => phase_setPhase_ne _ hc' _) (fun _ _ => rfl) fun _ _ => Iff.rfl⟩
          · simp only [position, hc]
            exact .receive
          · simp only [position, phase_setPhase_self]
  | readRequest c job hc hnone =>
      refine ⟨rfl, c, hlt hc (by simp), .handling (serve E job), ?_, position_update ?_
        (fun c' hc' => phase_setPhase_ne _ hc' _)
        (fun c' hc' => Pool.threads_setThread_ne _ hc' _) fun _ _ => Iff.rfl⟩
      · simp only [position, hc]
        exact .readRequest _
      · simp only [position, phase_setPhase_self, Pool.threads_setThread_self, Option.elim_some]
  | call c out t o k r w ht hrest hperform =>
      have hold := hlinked c
      rw [ht] at hold
      have hphase := hold.handling fun response => by simp [hrest]
      refine ⟨rfl, c, hlt hphase (by simp), .handling (k r), ?_, position_update ?_
        (fun _ _ => rfl) (fun c' hc' => Pool.threads_setThread_ne _ hc' _) fun _ _ => Iff.rfl⟩
      · simp only [position, hphase, ht, Option.elim_some, hrest]
        exact .call o k r
      · simp only [position, hphase, Pool.threads_setThread_self, Option.elim_some]

/-- A handler that has not returned can make its next call. -/
theorem exists_call (hfaults : E.faults = true) {c : ℕ} {t : Thread Empty Empty Job Response}
    (ht : s.pool.threads c = some t) (hcrashed : t.crashed = false) {o : Op Empty}
    {k : o.Res Empty → FileProg Response} (hrest : t.rest = .op o k) :
    ∃ out s', s.step maxConnections E (.call c out) = some s' := by
  have hfails : ∃ x, failure (R := Empty) s.pool.world ⟨.other, []⟩ 0 o = some x := by
    cases o with
    | call request => exact request.elim
    | _ => exact ⟨_, rfl⟩
  obtain ⟨⟨r, w⟩, hx⟩ := hfails
  have hperform : perform E s.pool.world o (.fail ⟨.other, []⟩ 0 : Outcome Empty) = some (r, w) := by
    rw [perform, if_pos (Or.inl hfaults), hx]
  exact ⟨.fail ⟨.other, []⟩ 0, _, by
    rw [step, handle, Pool.step_call ht hcrashed hrest hperform, Option.map_some]⟩

/-- A goroutine that runs can make its next step. -/
theorem exists_step_of_running (hfaults : E.faults = true)
    (hinv : Listener.Inv maxConnections s.listener) (hlinked : s.AllLinked) {c : ℕ}
    (hc : (s.listener.phase c).running = true) :
    ∃ a s', a.Internal ∧ s.step maxConnections E a = some s' := by
  cases hphase : s.listener.phase c with
  | absent => exact absurd hc (by simp [hphase, ConnectionPhase.running])
  | done => exact absurd hc (by simp [hphase, ConnectionPhase.running])
  | reading =>
      exact ⟨.readRequest c none, _, trivial, by rw [step, listen, Listener.step, hphase]; rfl⟩
  | handling request =>
      have hold := hlinked c
      rw [hphase] at hold
      cases ht : s.pool.threads c with
      | none => rw [ht] at hold; exact hold.elim
      | some t =>
          rw [ht] at hold
          cases hrest : t.rest with
          | op o k =>
              have hcall : ∃ out s', s.step maxConnections E (.call c out) = some s' :=
                exists_call hfaults ht hold.2 hrest
              obtain ⟨out, s', hs'⟩ := hcall
              exact ⟨.call c out, s', trivial, hs'⟩
          | ret response =>
              have hresponse : responseOf s.pool c = some response := by
                obtain ⟨job, rest, crashed, log⟩ := t
                obtain rfl : rest = .ret response := hrest
                rw [responseOf, ht]
              exact ⟨.handleRequest c, _, trivial, by
                rw [step, hresponse, Option.bind_some, listen, Listener.step, hphase]; rfl⟩
  | writing response =>
      exact ⟨.writeResponse c, _, trivial, by rw [step, listen, Listener.step, hphase]; rfl⟩
  | closing => exact ⟨.close c, _, trivial, by rw [step, listen, Listener.step, hphase]; rfl⟩
  | receiving =>
      -- the connection is pending, so the channel is not empty
      have hmem : c ∈ s.listener.pending := Finset.mem_filter.mpr
        ⟨Finset.mem_range.mpr (hinv.lt_sent (by simp [hphase])), by rw [hphase]; rfl⟩
      have hpos : 0 < s.listener.channel.length :=
        hinv.channel ▸ Finset.card_pos.mpr ⟨c, hmem⟩
      obtain ⟨head, rest, hchannel⟩ := List.exists_cons_of_length_pos hpos
      exact ⟨.receive c, _, trivial, by
        rw [step, listen, Listener.step, hphase, hchannel]; rfl⟩

/-- **The server is at rest only when it is done**: if no step is possible before `Accept` returns,
then the loop is in `Accept`, every goroutine has returned and the channel is empty. -/
theorem rest_of_stuck (hfaults : E.faults = true) (hmax : 1 ≤ maxConnections)
    (hinv : Listener.Inv maxConnections s.listener) (hlinked : s.AllLinked)
    (hloop : s.listener.loop ≠ .exited)
    (hstuck : ∀ a, a.Internal → s.step maxConnections E a = none) :
    s.listener.loop = .accepting ∧ (∀ c < s.listener.accepted, s.listener.phase c = .done) ∧
      s.listener.channel = [] := by
  have hrunning (c : ℕ) : s.listener.phase c = .absent ∨ s.listener.phase c = .done := by
    by_cases hc : (s.listener.phase c).running = true
    · have hstep : ∃ a s', a.Internal ∧ s.step maxConnections E a = some s' :=
        exists_step_of_running hfaults hinv hlinked hc
      obtain ⟨a, s', ha, hs'⟩ := hstep
      exact absurd ((hstuck a ha).symm.trans hs') (by simp)
    · cases hphase : s.listener.phase c <;> simp_all [ConnectionPhase.running]
  -- a pending connection is one whose goroutine is about to be started
  have hpending (c : ℕ) (hc : c ∈ s.listener.pending) : s.listener.loop = .starting c := by
    obtain ⟨hlt, hreceived⟩ := Finset.mem_filter.mp hc
    rcases hrunning c with habsent | hdone
    · rcases (hinv.started c).mp habsent with hle | hstarting
      · exact absurd (Finset.mem_range.mp hlt) (not_lt.mpr hle)
      · exact hstarting
    · rw [hdone] at hreceived
      exact absurd hreceived (by simp [ConnectionPhase.received])
  have hempty (hne : ∀ c, s.listener.loop ≠ .starting c) : s.listener.channel = [] := by
    have hnone : s.listener.pending = ∅ :=
      Finset.eq_empty_of_forall_notMem fun c hc => hne c (hpending c hc)
    exact List.eq_nil_of_length_eq_zero (by rw [hinv.channel, hnone, Finset.card_empty])
  cases hcase : s.listener.loop with
  | exited => exact absurd hcase hloop
  | starting c =>
      have hstart := hstuck .start trivial
      simp [step, listen, Listener.step, hcase] at hstart
  | sending c =>
      have hroom : s.listener.channel.length < maxConnections := by
        rw [hempty (by simp [hcase]), List.length_nil]
        exact hmax
      have hsend := hstuck .send trivial
      simp [step, listen, Listener.step, hcase, hroom] at hsend
  | accepting =>
      refine ⟨rfl, fun c hc => (hrunning c).resolve_left fun habsent => ?_, hempty (by simp [hcase])⟩
      have haccepted : s.listener.accepted = s.listener.sent := by
        simpa [hcase] using hinv.accepted
      rcases (hinv.started c).mp habsent with hle | hstarting
      · omega
      · exact absurd (hcase.symm.trans hstarting) (by simp)

end FileServer

/-! ## Every connection is answered once -/

/-- The step writes the response of a connection. -/
def ServiceAction.answers (c : ℕ) : ServiceAction → Bool
  | .writeResponse c' => c' == c
  | _ => false

/-- The response of the connection was written. -/
def answered : ConnectionPhase → Bool
  | .closing => true
  | .receiving => true
  | .done => true
  | _ => false

/-- A step writes the response of a connection once, and does not take it back. -/
theorem FileServer.Step.answers (hinv : Listener.Inv maxConnections s.listener)
    (hstep : FileServer.Step maxConnections E s a s') (c : ℕ) :
    (answered (s'.listener.phase c)).toNat =
      (answered (s.listener.phase c)).toNat + (a.answers c).toNat := by
  -- a step that moves another connection, or none, and one that moves this one
  have hmove {l : Listener} (hl : l.phase = s.listener.phase) {c' : ℕ} {phase : ConnectionPhase}
      (hc' : (answered phase).toNat =
        (answered (s.listener.phase c')).toNat + (a.answers c').toNat)
      (hother : c ≠ c' → a.answers c = false) :
      (answered ((l.setPhase c' phase).phase c)).toNat =
        (answered (s.listener.phase c)).toNat + (a.answers c).toNat := by
    by_cases hc : c = c'
    · subst hc
      rw [phase_setPhase_self, hc']
    · rw [phase_setPhase_ne _ hc, hl, hother hc]
      rfl
  cases hstep with
  | call c' out t o k r w ht hrest hperform => rfl
  | readRequest c' job hc hnone => exact hmove rfl (by rw [hc]; rfl) fun _ => rfl
  | listen _ b l hlistens hstep =>
      cases hstep with
      | accept hloop => cases hlistens; rfl
      | acceptFails hloop => cases hlistens; rfl
      | send c' hloop hroom => cases hlistens; rfl
      | start c' hloop =>
          cases hlistens
          have habsent : s.listener.phase c' = .absent := (hinv.started c').mpr (Or.inr hloop)
          exact hmove (l := { s.listener with loop := .accepting }) rfl (by rw [habsent]; rfl)
            fun _ => rfl
      | move _ c' old new hc hmoves =>
          cases hmoves with
          | readRequest request => cases hlistens
          | handleFails request err => cases hlistens
          | readFails => cases hlistens; exact hmove rfl (by rw [hc]; rfl) fun _ => rfl
          | handleRequest request response =>
              cases hlistens
              exact hmove rfl (by rw [hc]; rfl) fun _ => rfl
          | writeResponse response =>
              cases hlistens
              refine hmove rfl ?_ fun hne => ?_
              · rw [hc]
                simp [answered, ServiceAction.answers]
              · simpa [ServiceAction.answers] using Ne.symm hne
          | close => cases hlistens; exact hmove rfl (by rw [hc]; rfl) fun _ => rfl
      | receive c' head rest hc hchannel =>
          cases hlistens
          exact hmove (l := { s.listener with channel := rest }) rfl (by rw [hc]; rfl) fun _ => rfl

/-- In every run the responses that were written for a connection are at most one. -/
theorem countP_answers {as : List ServiceAction}
    (hs : (service maxConnections E w₀).exec (service maxConnections E w₀).init as = some s) (c : ℕ) :
    as.countP (·.answers c) = (answered (s.listener.phase c)).toNat := by
  refine System.exec_induction (S := service maxConnections E w₀)
    (P := fun as s => as.countP (·.answers c) = (answered (s.listener.phase c)).toNat) rfl ?_ hs
  intro as s a s' hs ih ha
  have hinv := Listener.Inv.of_reachable (FileServer.reachable_listener ⟨as, hs⟩)
  rw [(FileServer.step_cases (service_step ha).2).answers hinv c, List.countP_append, ih,
    List.countP_singleton]
  cases a.answers c <;> rfl

/-- **The file server answers every connection.** Let file operations be able to fail, and let there
be at least one slot. In every run:

* a response is written for a connection at most once;
* the server does not go on forever without accepting a connection;
* when it can make no step without accepting one, then every connection that was accepted has had
  its one response, was closed and has freed its slot, and the loop waits for the next one. -/
theorem service_drains (hfaults : E.faults = true) (hmax : 1 ≤ maxConnections)
    {as : List ServiceAction}
    (hs : (service maxConnections E w₀).exec (service maxConnections E w₀).init as = some s) :
    (∀ c, as.countP (·.answers c) ≤ 1) ∧
    ¬ (service maxConnections E w₀).Endless (fun _ a => a.Internal) s ∧
    (s.listener.loop ≠ .exited →
      (∀ a, a.Internal → (service maxConnections E w₀).step s a = none) →
        s.listener.loop = .accepting ∧ s.listener.channel = [] ∧
        ∀ c < s.listener.accepted, s.listener.phase c = .done ∧ as.countP (·.answers c) = 1) := by
  have hreachable : (service maxConnections E w₀).Reachable s := ⟨as, hs⟩
  refine ⟨fun c => ?_, ?_, fun hloop hstuck => ?_⟩
  · rw [countP_answers hs]
    exact Bool.toNat_le _
  · refine System.not_endless Position.wellFounded_next.cutExpand FileServer.progress
      (P := (service maxConnections E w₀).Reachable) ?_ hreachable
    intro s a s' hs ha hstep
    refine ⟨hs.step hstep, ?_⟩
    obtain ⟨haccepted, c, hc, p, hnext, hposition⟩ := FileServer.exists_next
      (Listener.Inv.of_reachable (FileServer.reachable_listener hs)) (FileServer.allLinked hs)
      (FileServer.step_cases (service_step hstep).2) ha
    rw [FileServer.progress, FileServer.progress, haccepted, hposition]
    exact System.cutExpand_update hc hnext
  · have hinternal (a : ServiceAction) (ha : a.Internal) : s.step maxConnections E a = none := by
      have hnone := hstuck a ha
      rw [service] at hnone
      exact (if_neg hloop).symm.trans hnone
    obtain ⟨hrest, hdone, hchannel⟩ := FileServer.rest_of_stuck hfaults hmax
      (Listener.Inv.of_reachable (FileServer.reachable_listener hreachable))
      (FileServer.allLinked hreachable) hloop hinternal
    refine ⟨hrest, hchannel, fun c hc => ⟨hdone c hc, ?_⟩⟩
    rw [countP_answers hs, hdone c hc]
    rfl

/-- A connection whose request cannot be read. -/
def drainingRun : List ServiceAction :=
  [.accept, .send, .start, .readRequest 0 none, .writeResponse 0, .close 0, .receive 0]

/-- The connection was answered and closed, and the server waits for the next one. -/
theorem service_drains_one :
    ∃ s, (service 1 exampleServer exampleWorld).exec (service 1 exampleServer exampleWorld).init
        drainingRun = some s ∧
      (∀ a, a.Internal → (service 1 exampleServer exampleWorld).step s a = none) ∧
      s.listener.loop = .accepting ∧ s.listener.channel = [] ∧
      (∀ c < s.listener.accepted, s.listener.phase c = .done ∧
        drainingRun.countP (·.answers c) = 1) ∧
      ¬ (service 1 exampleServer exampleWorld).Endless (fun _ a => a.Internal) s := by
  have hrun : ∃ s, (service 1 exampleServer exampleWorld).exec
      (service 1 exampleServer exampleWorld).init drainingRun = some s ∧
      s.listener.loop = .accepting ∧ (∀ c, s.listener.phase c = if c = 0 then .done else .absent) ∧
      s.pool.threads = fun _ => none := by
    refine ⟨_, rfl, rfl, fun c => ?_, rfl⟩
    by_cases hc : c = 0
    · subst hc
      rfl
    · simp [Listener.setPhase, service, hc]
  obtain ⟨s, hs, hloop, hphase, hthreads⟩ := hrun
  have hstuck : ∀ a, a.Internal → (service 1 exampleServer exampleWorld).step s a = none := by
    intro a ha
    rw [service]
    dsimp only
    rw [if_neg (by simp [hloop])]
    cases a with
    | accept | acceptFails => exact ha.elim
    | send | start => simp [FileServer.step, FileServer.listen, Listener.step, hloop]
    | call c out => simp [FileServer.step, FileServer.handle, Pool.step, hthreads]
    | handleRequest c => simp [FileServer.step, responseOf, hthreads]
    | readRequest c job =>
        cases job <;> by_cases hc : c = 0 <;>
          simp [FileServer.step, FileServer.listen, Listener.step, hphase, hc]
    | writeResponse c | close c | receive c =>
        by_cases hc : c = 0 <;>
          simp [FileServer.step, FileServer.listen, Listener.step, hphase, hc]
  obtain ⟨-, hends, hdrained⟩ := service_drains rfl le_rfl hs
  obtain ⟨hrest, hchannel, hdone⟩ := hdrained (by simp [hloop]) hstuck
  exact ⟨s, hs, hstuck, hrest, hchannel, hdone, hends⟩

end DistributedSystems.HttpServer
