import DistributedSystems.HttpServer.AtomicServer
import DistributedSystems.HttpServer.Extensions

/-! # The file server is linearizable

Requests are served at the same time, one file operation at a time. To an observer they look as if
each of them were served in one step: the runs of the server are simulated by those of the
`atomicServer`. An upload takes effect when its temporary file is renamed. A GET request takes
effect when its file is opened, since nobody writes to a file that is open at a visible location;
what it reads later is what was there then. -/

namespace DistributedSystems.HttpServer

open FileSystem Http
open GoPath (IsName absolute base)

variable {E : Env}

/-! ## The program of a GET request

After each call of a GET request for a file, what is left of its program is one of these. -/

/-- The response for what was read. -/
def readResponse (job : Job) (type : GoString) : Except FileError GoString → Response
  | .error err => errorResponse (statusFromFileError (.os err))
  | .ok data => pageResponse job type data

/-- The file was read. -/
def getClose (job : Job) (type : GoString) (f : OpenFile) (data : Except FileError GoString) :
    FileProg Response :=
  .op (.close f) fun _ => .ret (readResponse job type data)

/-- The file was opened. -/
def getRead (job : Job) (type : GoString) (f : OpenFile) : FileProg Response :=
  .op (.readAll f) (getClose job type f)

/-- The path is not that of a directory. -/
def getOpen (job : Job) (type diskPath : GoString) : FileProg Response :=
  .op (.openFile diskPath) fun
    | .error err => .ret (errorResponse (statusFromFileError (.os err)))
    | .ok f => getRead job type f

/-- The path was resolved. -/
def getStat (job : Job) (type diskPath : GoString) : FileProg Response :=
  .op (.stat diskPath) fun
    | .error err => .ret (errorResponse (statusFromFileError (.os err)))
    | .ok true => .ret (errorResponse (statusFromFileError (.os errInvalid)))
    | .ok false => getOpen job type diskPath

/-- A GET request for a file. -/
structure Resolves (E : Env) (job : Job) (type diskPath : GoString) : Prop where
  /-- It is a GET request. -/
  get : job.request.method = .ofString "GET"
  /-- Its path has an allowed extension. -/
  allowed : contentTypeForPath job.request.path = some type
  /-- Its path is resolved. -/
  resolved : resolvePath (job.getwd E) job.request.path = .ok diskPath

/-- The program of a GET request for a file. -/
theorem Resolves.serve_eq {job : Job} {type diskPath : GoString}
    (h : Resolves E job type diskPath) : serve E job = getStat job type diskPath := by
  rw [serve_get h.get, getHandler, h.allowed]
  dsimp only
  rw [readFile, h.resolved]
  refine congrArg (Prog.op _) (funext fun r => ?_)
  rcases r with err | isDir
  · rfl
  · cases isDir with
    | true => rfl
    | false =>
        refine congrArg (Prog.op _) (funext fun r => ?_)
        rcases r with err | f
        · rfl
        · refine congrArg (Prog.op _) (funext fun data => congrArg (Prog.op _) (funext fun _ => ?_))
          rcases data with err | data
          · rfl
          · rfl

/-! ## What a request logs -/

variable {log : List (Entry Empty)}

/-- A request that has just published a file had not logged anything before. -/
theorem log_eq_nil_of_published {job : Job} {response : Response} {l : Location} {bytes : GoString}
    {log' : List (Entry Empty)} (hbegins : log ++ [.published l bytes] <+: log')
    (h : Replied E job log' response) : log = [] := by
  have hmem : Entry.published l bytes ∈ log' := hbegins.subset (by simp)
  cases h with
  | page type diskPath bytes' => simp at hmem
  | error log _ hstatus hlog =>
      obtain ⟨l', hl'⟩ := hlog _ hmem
      exact absurd hl' (by simp)
  | created l' l'' bytes' hpost =>
      cases log with
      | nil => rfl
      | cons e log =>
          -- the published file is the first entry, so it is not a later one
          obtain ⟨rest, hrest⟩ := hbegins
          have htail := (List.cons.inj hrest).2
          cases log with
          | nil => simp at htail
          | cons e' log => simp at htail

/-! ## The stage of a request -/

/-- How far the abstract server is with the request of a thread. -/
def StageOf (E : Env) (w : World) (t : Thread Empty Empty Job Response) : Stage → Prop
  | .invoked =>
      t.job.request.method = .ofString "POST" ∧ (∀ response, t.rest ≠ .ret response) ∧
        (∀ l bytes, .published l bytes ∉ t.log) ∨
      ∃ type diskPath, Resolves E t.job type diskPath ∧
        (t.rest = getStat t.job type diskPath ∨ t.rest = getOpen t.job type diskPath)
  | .found bytes =>
      ∃ type diskPath f, Resolves E t.job type diskPath ∧
        (t.rest = getRead t.job type f ∧ f.name = diskPath ∧ w.data f.inode = bytes ∨
          t.rest = getClose t.job type f (.ok bytes) ∨
          ∃ err, t.rest = getClose t.job type f (.error err))
  | .stored =>
      t.job.request.method = .ofString "POST" ∧ (∀ response, t.rest ≠ .ret response) ∧
        ∃ l bytes, .published l bytes ∈ t.log
  | .answered response => t.rest = .ret response

/-- A thread and a request at the abstract server. -/
def Matched (E : Env) (w : World) :
    Option (Thread Empty Empty Job Response) → Option Pending → Prop
  | none, none => True
  | some t, some pending => pending.job = t.job ∧ StageOf E w t pending.stage
  | _, _ => False

/-- The files and the requests of the server are those of the abstract server. -/
structure Simulates (E : Env) (s : Pool Empty Empty Job Response) (a : AtomicServer) : Prop where
  /-- The files that may be served. -/
  store : ∀ l, Visible E l → a.store l = s.world.content l
  /-- The requests. -/
  matched : ∀ i, Matched E s.world (s.threads i) (a.requests i)

variable {s : Pool Empty Empty Job Response} {a : AtomicServer} {i : ℕ}
  {t : Thread Empty Empty Job Response} {w w₀ : World}

/-- What is seen when what is left of a program is `rest`. -/
def answerEvents (i : ℕ) : FileProg Response → List ServerEvent
  | .ret response => [.answer i response]
  | .op _ _ => []

/-- A thread that has not returned has a call to make. -/
theorem exists_op {p : FileProg Response} (h : ∀ response, p ≠ .ret response) :
    ∃ o k, p = .op o k := by
  cases p with
  | ret response => exact absurd rfl (h response)
  | op o k => exact ⟨o, k, rfl⟩

/-- The request of a thread at the abstract server. -/
theorem Simulates.pending (h : Simulates E s a) (ht : s.threads i = some t) :
    ∃ stage, a.requests i = some ⟨t.job, stage⟩ ∧ StageOf E s.world t stage := by
  have hmatched := h.matched i
  rw [ht] at hmatched
  cases hrequest : a.requests i with
  | none => rw [hrequest] at hmatched; exact hmatched.elim
  | some pending =>
      rw [hrequest] at hmatched
      obtain ⟨hjob, hstage⟩ := hmatched
      exact ⟨pending.stage, by rw [← hjob], hstage⟩

/-- A request with a call to make is a GET request for a file, or a POST request. -/
theorem StageOf.method {stage : Stage} (h : StageOf E w t stage) {o : Op Empty}
    {k : o.Res Empty → FileProg Response} (hrest : t.rest = .op o k) :
    (∃ type diskPath, Resolves E t.job type diskPath) ∨
      t.job.request.method = .ofString "POST" := by
  cases stage with
  | invoked =>
      rcases h with ⟨hpost, -⟩ | ⟨type, diskPath, hresolves, -⟩
      · exact Or.inr hpost
      · exact Or.inl ⟨type, diskPath, hresolves⟩
  | found bytes =>
      obtain ⟨type, diskPath, f, hresolves, -⟩ := h
      exact Or.inl ⟨type, diskPath, hresolves⟩
  | stored => exact Or.inr h.1
  | answered response => exact absurd (hrest.symm.trans h) (by simp)

/-- A stage is kept while nobody changes the file that is read. -/
theorem StageOf.of_data {stage : Stage} (h : StageOf E s.world t stage)
    (hdata : ∀ type f, t.rest = getRead t.job type f → Resolves E t.job type f.name →
      w.data f.inode = s.world.data f.inode) : StageOf E w t stage := by
  cases stage with
  | found bytes =>
      obtain ⟨type, diskPath, f, hresolves, ⟨hrest, rfl, rfl⟩ | hrest⟩ := h
      · exact ⟨type, _, f, hresolves, Or.inl ⟨hrest, rfl, hdata type f hrest hresolves⟩⟩
      · exact ⟨type, diskPath, f, hresolves, Or.inr hrest⟩
  | invoked => exact h
  | stored => exact h
  | answered response => exact h

/-- A thread is matched as long as its stage is kept. -/
theorem Matched.mono {thread : Option (Thread Empty Empty Job Response)} {pending : Option Pending}
    (h : Matched E s.world thread pending)
    (hkeep : ∀ t stage, thread = some t → StageOf E s.world t stage → StageOf E w t stage) :
    Matched E w thread pending := by
  cases thread with
  | none => cases pending with
    | none => trivial
    | some pending => exact h
  | some t => cases pending with
    | none => exact h
    | some pending => exact ⟨h.1, hkeep t _ rfl h.2⟩

/-- A file that a GET request reads is not changed by a call. -/
def Still (E : Env) (s : Pool Empty Empty Job Response) (w : World) : Prop :=
  ∀ j t, s.threads j = some t → ∀ type f, t.rest = getRead t.job type f →
    Resolves E t.job type f.name → w.data f.inode = s.world.data f.inode

/-- The servers stay related when a thread makes a call, and its request goes on accordingly. -/
theorem Simulates.setThread (h : Simulates E s a) (hstill : Still E s w) {stage : Stage}
    (hstage : StageOf E w t stage) (store : Location → Option GoString)
    (hstore : ∀ l, Visible E l → store l = w.content l) :
    Simulates E ({ s with world := w }.setThread i t)
      ({ a with store := store }.setStage i t.job stage) where
  store := hstore
  matched j := by
    by_cases hj : j = i
    · subst hj
      rw [Pool.threads_setThread_self, AtomicServer.requests_setStage_self]
      exact ⟨rfl, hstage⟩
    · rw [Pool.threads_setThread_ne _ hj, AtomicServer.requests_setStage_ne hj]
      exact (h.matched j).mono fun t' stage' ht' hstage' => hstage'.of_data (hstill j t' ht')

/-- A step of the server is matched by a run of the abstract server with the same events. -/
def StepMatched (E : Env) (w₀ : World) (a : AtomicServer) (events : List ServerEvent)
    (s' : Pool Empty Empty Job Response) : Prop :=
  ∃ bs a', (atomicServer E w₀).exec a bs = some a' ∧
    (atomicServer E w₀).trace AtomicServer.events a bs = events ∧ Simulates E s' a'

/-- A call after which the request is at the same stage. -/
theorem Simulates.silent (h : Simulates E s a) (hstill : Still E s w)
    (hstore : ∀ l, Visible E l → w.content l = s.world.content l) {stage : Stage}
    (hrequest : a.requests i = some ⟨t.job, stage⟩) (hstage : StageOf E w t stage) :
    StepMatched E w₀ a [] ({ s with world := w }.setThread i t) := by
  refine ⟨[], a, rfl, rfl, ?_⟩
  have hsame := h.setThread (i := i) hstill hstage a.store
    fun l hl => (h.store l hl).trans (hstore l hl).symm
  rwa [AtomicServer.setStage, ← hrequest, Function.update_eq_self] at hsame

/-- A call after which the request is answered. -/
theorem Simulates.answer (h : Simulates E s a) (hstill : Still E s w)
    (hstore : ∀ l, Visible E l → w.content l = s.world.content l) {stage : Stage}
    (hrequest : a.requests i = some ⟨t.job, stage⟩) {status : Option StatusCode}
    {response : Response} (hanswer : stage.answer t.job status = some response)
    (hrest : t.rest = .ret response) :
    StepMatched E w₀ a [.answer i response] ({ s with world := w }.setThread i t) := by
  have hstep := atomicServer_answer (E := E) (w := w₀) hrequest hanswer
  have hstage : StageOf E w t (.answered response) := hrest
  refine ⟨[.answer i status], _, ?_, ?_, h.setThread (i := i) hstill hstage a.store
    fun l hl => (h.store l hl).trans (hstore l hl).symm⟩
  · rw [System.exec_cons, hstep, Option.bind_some, System.exec_nil]
  · rw [System.trace_cons hstep, System.trace_nil, AtomicServer.events,
      AtomicServer.requests_setStage_self]
    rfl

/-! ## The calls of a GET request -/

variable {out : Outcome Empty}

/-- What the server is after a call of a thread. -/
abbrev afterCall (s : Pool Empty Empty Job Response) (i : ℕ) (t : Thread Empty Empty Job Response)
    (w : World) (rest : FileProg Response) (es : List (Entry Empty)) :
    Pool Empty Empty Job Response :=
  { s with world := w }.setThread i { t with rest := rest, log := t.log ++ es }

theorem Still.refl (s : Pool Empty Empty Job Response) : Still E s s.world :=
  fun _ _ _ _ _ _ _ => rfl

/-- A call that leaves the file system as it is and ends with an error. -/
theorem Simulates.fail (h : Simulates E s a) {stage : Stage}
    (hrequest : a.requests i = some ⟨t.job, stage⟩)
    (hstage : stage = .invoked ∨ ∃ bytes, stage = .found bytes) (err : Err) (es : List (Entry Empty)) :
    StepMatched E w₀ a [.answer i (errorResponse (statusFromFileError err))]
      (afterCall s i t s.world (.ret (errorResponse (statusFromFileError err))) es) := by
  have hanswer : stage.answer t.job (some (statusFromFileError err)) =
      some (errorResponse (statusFromFileError err)) := by
    have hle := badRequest_le_statusFromFileError err
    rcases hstage with rfl | ⟨bytes, rfl⟩
    · exact if_pos hle
    · exact if_pos hle
  exact h.answer (t := { t with rest := .ret _, log := t.log ++ es }) (.refl s) (fun l hl => rfl)
    hrequest hanswer rfl

/-- **The calls of a GET request**: it takes effect when its file is opened. -/
theorem Simulates.get (h : Simulates E s a) (hwd : ∀ c ∈ E.wd, IsName c) {own : ℕ → Own}
    (hinv : (replies hwd).Inv w₀ s own) (ht : s.threads i = some t)
    {type diskPath : GoString} (hresolves : Resolves E t.job type diskPath) {stage : Stage}
    (hrequest : a.requests i = some ⟨t.job, stage⟩) (hstage : StageOf E s.world t stage)
    {o : Op Empty} {k : o.Res Empty → FileProg Response} (hrest : t.rest = .op o k)
    {r : o.Res Empty} (hperform : perform E s.world o out = some (r, w)) :
    StepMatched E w₀ a (answerEvents i (k r))
      (afterCall s i t w (k r) (entries E s.world o r)) := by
  have hpost : t.job.request.method ≠ .ofString "POST" := by rw [hresolves.get]; decide
  cases stage with
  | stored => exact absurd hstage.1 hpost
  | answered response => exact absurd (hrest.symm.trans hstage) (by simp)
  | invoked =>
      rcases hstage with ⟨hmethod, -⟩ | ⟨type, diskPath, hresolves, hstat | hopen⟩
      · exact absurd hmethod hpost
      · -- the path is examined
        cases hrest.symm.trans hstat
        obtain rfl := perform_quiet rfl hperform
        rcases r with err | isDir
        · exact h.fail hrequest (Or.inl rfl) _ _
        · cases isDir with
          | true => exact h.fail hrequest (Or.inl rfl) _ _
          | false =>
              exact h.silent (t := { t with rest := getOpen _ _ _, log := _ }) (.refl s)
                (fun l hl => rfl) hrequest (Or.inr ⟨type, diskPath, hresolves, Or.inr rfl⟩)
      · -- the file is opened
        cases hrest.symm.trans hopen
        obtain rfl := perform_quiet rfl hperform
        rcases r with err | f
        · exact h.fail hrequest (Or.inl rfl) _ _
        · have hname := perform_openFile hperform
          have hnode := perform_openFile_node hperform
          have hvisible := (visible_of_resolvePath hwd hresolves.allowed hresolves.resolved).1
          have hstore : a.store (E.locate diskPath) = some (s.world.data f.inode) :=
            (h.store _ hvisible).trans (World.content_of_node _ hnode)
          have hlook := atomicServer_look (w := w₀) hrequest hresolves.get hresolves.resolved hstore
          have hfound : StageOf E s.world
              { t with rest := getRead t.job type f, log := t.log ++ [] }
              (.found (s.world.data f.inode)) :=
            ⟨type, diskPath, f, hresolves, Or.inl ⟨rfl, hname, rfl⟩⟩
          refine ⟨[.look i], _, ?_, ?_, h.setThread (i := i) (.refl s) hfound a.store h.store⟩
          · rw [System.exec_cons, hlook, Option.bind_some, System.exec_nil]
          · rw [System.trace_cons hlook, System.trace_nil]
            rfl
  | found bytes =>
      obtain ⟨type, diskPath, f, hresolves, ⟨hread, rfl, rfl⟩ | hclose⟩ := hstage
      · -- the file is read
        cases hrest.symm.trans hread
        obtain rfl := perform_quiet rfl hperform
        have hsafe := hinv.safe ht
        rw [hread] at hsafe
        have hvalid := hinv.ownership.valid i
        rw [hsafe.1] at hvalid
        rcases r with err | bytes
        · exact h.silent (t := { t with rest := getClose _ _ f (.error err), log := _ }) (.refl s)
            (fun l hl => rfl) hrequest ⟨type, _, f, hresolves, Or.inr (Or.inr ⟨err, rfl⟩)⟩
        · have hbytes := perform_readAll hperform
          rw [hvalid.2, List.drop_zero] at hbytes
          subst hbytes
          exact h.silent (t := { t with rest := getClose _ _ f (.ok _), log := _ }) (.refl s)
            (fun l hl => rfl) hrequest ⟨type, _, f, hresolves, Or.inr (Or.inl rfl)⟩
      · -- the file is closed
        rcases hclose with hclose | ⟨err, hclose⟩
        · cases hrest.symm.trans hclose
          obtain rfl := perform_quiet rfl hperform
          have hanswer : (Stage.found bytes).answer t.job none =
              some (pageResponse t.job type bytes) := by
            rw [Stage.answer, hresolves.allowed, Option.map_some]
          exact h.answer (t := { t with rest := .ret _, log := _ }) (.refl s) (fun l hl => rfl)
            hrequest hanswer rfl
        · cases hrest.symm.trans hclose
          obtain rfl := perform_quiet rfl hperform
          exact h.fail hrequest (Or.inr ⟨bytes, rfl⟩) _ _

/-! ## The calls of a POST request -/

/-- Nobody changes a file that a GET request reads. -/
theorem still_of_effect (hwd : ∀ c ∈ E.wd, IsName c) {own : ℕ → Own}
    (hinv : (replies hwd).Inv w₀ s own) {own' : Own} {es : List (Entry Empty)} {job : Job}
    (he : FileSystem.Effect E ((replies hwd).contract job) s.world log (own i) w own' es) :
    Still E s w := by
  intro j t ht type f hread hresolves
  have hsafe := hinv.safe ht
  rw [hread] at hsafe
  exact hinv.ownership.data_still rfl he hsafe.1
    (visible_of_resolvePath hwd hresolves.allowed hresolves.resolved).1

/-- A request that has just published a file has not returned yet. -/
theorem not_replied_published {job : Job} {l : Location} {bytes : GoString} {response : Response} :
    ¬ Replied E job [.published l bytes] response := by
  intro h
  cases h with
  | error _ _ hstatus hlog =>
      obtain ⟨l', hl'⟩ := hlog _ (List.mem_singleton_self _)
      exact absurd hl' (by simp)

/-- A POST request that was stored is answered with `201 Created`, and one that was not with an
error. -/
theorem Replied.answer {job : Job} {response : Response} (h : Replied E job log response)
    (hpost : job.request.method = .ofString "POST") :
    (∃ l bytes, .published l bytes ∈ log) ∧ Stage.stored.answer job none = some response ∨
    (∀ l bytes, .published l bytes ∉ log) ∧
      ∃ status, Stage.invoked.answer job status = some response := by
  cases h with
  | page type diskPath bytes hget => exact absurd (hget.symm.trans hpost) (by decide)
  | created l l' bytes => exact Or.inl ⟨⟨l, bytes, List.mem_cons_self⟩, rfl⟩
  | error _ status hstatus hlog =>
      refine Or.inr ⟨fun l bytes hmem => ?_, some status, if_pos hstatus.badRequest_le⟩
      obtain ⟨l', hl'⟩ := hlog _ hmem
      exact absurd hl' (by simp)

/-- **The calls of a POST request**: it takes effect when its file is renamed. -/
theorem Simulates.post (h : Simulates E s a) (hwd : ∀ c ∈ E.wd, IsName c) {own : ℕ → Own}
    (hinv : (replies hwd).Inv w₀ s own) (ht : s.threads i = some t)
    (hpost : t.job.request.method = .ofString "POST") {stage : Stage}
    (hrequest : a.requests i = some ⟨t.job, stage⟩) (hstage : StageOf E s.world t stage)
    {o : Op Empty} {k : o.Res Empty → FileProg Response} (hrest : t.rest = .op o k)
    {r : o.Res Empty} (hperform : perform E s.world o out = some (r, w)) :
    StepMatched E w₀ a (answerEvents i (k r))
      (afterCall s i t w (k r) (entries E s.world o r)) := by
  have hsafe := hinv.safe ht
  rw [hrest] at hsafe
  obtain ⟨own', hk, he⟩ := exists_effect hsafe (hinv.ownership.present i) hperform
  have hstill := still_of_effect hwd hinv he
  have hstages : stage = .invoked ∧ (∀ l bytes, .published l bytes ∉ t.log) ∨
      stage = .stored ∧ ∃ l bytes, .published l bytes ∈ t.log := by
    cases stage with
    | invoked =>
        rcases hstage with ⟨-, -, hlog⟩ | ⟨type, diskPath, hresolves, -⟩
        · exact Or.inl ⟨rfl, hlog⟩
        · exact absurd (hresolves.get.symm.trans hpost) (by decide)
    | found bytes =>
        obtain ⟨type, diskPath, f, hresolves, -⟩ := hstage
        exact absurd (hresolves.get.symm.trans hpost) (by decide)
    | stored => exact Or.inr ⟨rfl, hstage.2.2⟩
    | answered response => exact absurd (hrest.symm.trans hstage) (by simp)
  rcases hinv.ownership.content_cases rfl he with
    ⟨l, bytes, hes, ⟨-, herr, rfl, rfl⟩, hcontent, hother⟩ | ⟨hes, hcontent⟩
  · -- the file is published, which is the first thing that is logged
    rw [hes] at hk ⊢
    obtain ⟨own'', log', response, hbegins, -, hreplied⟩ := exists_post_of_wp hk
    have hlog := log_eq_nil_of_published hbegins hreplied
    obtain ⟨rfl, -⟩ := hstages.resolve_right fun ⟨_, l, bytes, hmem⟩ => by simp [hlog] at hmem
    have hnot (response : Response) : k r ≠ .ret response := by
      intro hret
      rw [hret, hlog] at hk
      exact not_replied_published hk.2
    obtain ⟨o', k', hop⟩ := exists_op hnot
    have hstored : StageOf E w { t with
        rest := k r
        log := t.log ++ [.published (uploadFile E t.job) t.job.body.chunks.flatten] } .stored :=
      ⟨hpost, hnot, _, _, List.mem_append_right _ (List.mem_singleton_self _)⟩
    have hstep := atomicServer_store (E := E) (w := w₀) hrequest hpost herr
    refine ⟨[.store i], _, ?_, ?_, h.setThread (i := i) hstill hstored
      (Function.update a.store (uploadFile E t.job) (some t.job.body.chunks.flatten)) fun l hl => ?_⟩
    · rw [System.exec_cons, hstep, Option.bind_some, System.exec_nil]
      rfl
    · rw [System.trace_cons hstep, System.trace_nil, hop]
      rfl
    · by_cases heq : l = uploadFile E t.job
      · rw [heq, Function.update_self]
        exact hcontent.symm
      · rw [Function.update_of_ne heq]
        exact (h.store l hl).trans (hother l hl heq).symm
  · have hmem (l : Location) (bytes : GoString) :
        .published l bytes ∈ t.log ++ entries E s.world o r ↔ .published l bytes ∈ t.log := by
      simp [hes l bytes]
    cases hret : k r with
    | op o' k' =>
        refine h.silent (t := { t with rest := .op o' k', log := t.log ++ _ }) hstill hcontent
          hrequest ?_
        rcases hstages with ⟨rfl, hlog⟩ | ⟨rfl, l, bytes, hlog⟩
        · exact Or.inl ⟨hpost, by simp, fun l bytes => mt (hmem l bytes).mp (hlog l bytes)⟩
        · exact ⟨hpost, by simp, l, bytes, (hmem l bytes).mpr hlog⟩
    | ret response =>
        rw [hret] at hk
        have hreplied : Replied E t.job (t.log ++ entries E s.world o r) response := hk.2
        rcases hreplied.answer hpost with ⟨⟨l, bytes, hlog⟩, hanswer⟩ | ⟨hlog, status, hanswer⟩
        · obtain ⟨rfl, -⟩ := hstages.resolve_left fun h => h.2 l bytes ((hmem l bytes).mp hlog)
          exact h.answer (t := { t with rest := .ret _, log := t.log ++ _ }) hstill hcontent hrequest
            hanswer rfl
        · obtain ⟨rfl, -⟩ := hstages.resolve_right fun ⟨_, l, bytes, hold⟩ =>
            hlog l bytes ((hmem l bytes).mpr hold)
          exact h.answer (t := { t with rest := .ret _, log := t.log ++ _ }) hstill hcontent hrequest
            hanswer rfl

/-! ## The simulation -/

/-- A request is answered with an error at once, or is a GET request for a file, or is a POST request
that has calls to make. -/
theorem serve_cases (hwd : ∀ c ∈ E.wd, IsName c) (job : Job) :
    (∃ status, .badRequest ≤ status ∧ serve E job = .ret (errorResponse status)) ∨
      (∃ type diskPath, Resolves E job type diskPath) ∨
      job.request.method = .ofString "POST" ∧ ∀ response, serve E job ≠ .ret response := by
  by_cases hret : ∃ response, serve E job = .ret response
  · obtain ⟨response, hret⟩ := hret
    have hreplied := wp_replied hwd job
    rw [hret] at hreplied
    cases hreplied.2 with
    | error _ status hstatus hlog => exact Or.inl ⟨status, hstatus.badRequest_le, hret⟩
  · refine Or.inr ?_
    have hcall : ∀ response, serve E job ≠ .ret response := fun response h => hret ⟨response, h⟩
    by_cases hget : job.request.method = .ofString "GET"
    · left
      rw [serve_get hget, getHandler] at hcall
      cases htype : contentTypeForPath job.request.path with
      | none => rw [htype] at hcall; exact absurd rfl (hcall _)
      | some type =>
          cases hresolve : resolvePath (job.getwd E) job.request.path with
          | error err => rw [htype, readFile, hresolve] at hcall; exact absurd rfl (hcall _)
          | ok diskPath => exact ⟨type, diskPath, hget, htype, hresolve⟩
    · refine Or.inr ⟨?_, hcall⟩
      by_contra hpost
      have hnone : handlers (job.getwd E) job.body job.request.method = none := by
        rw [handlers, if_neg hget, if_neg hpost]
      unfold serve respond handleRequest at hcall
      dsimp only at hcall
      rw [hnone] at hcall
      split at hcall
      · exact absurd rfl (hcall _)
      · exact absurd rfl (hcall _)

/-- **A request comes in.** -/
theorem Simulates.start (h : Simulates E s a) (hwd : ∀ c ∈ E.wd, IsName c)
    (hnone : s.threads i = none) (job : Job) :
    StepMatched E w₀ a (.invoke i job :: answerEvents i (serve E job))
      (s.setThread i { job := job, rest := serve E job }) := by
  have hrequest : a.requests i = none := by
    have hmatched := h.matched i
    rw [hnone] at hmatched
    cases hrequest : a.requests i with
    | none => rfl
    | some pending => rw [hrequest] at hmatched; exact hmatched.elim
  have hinvoke : (atomicServer E w₀).step a (.invoke i job) = some (a.setStage i job .invoked) :=
    atomicServer_invoke hrequest
  -- a request with calls to make has come in and nothing else
  have hcalls (hrest : ∀ response, serve E job ≠ .ret response)
      (hstage : StageOf E s.world { job := job, rest := serve E job } .invoked) :
      StepMatched E w₀ a (.invoke i job :: answerEvents i (serve E job))
        (s.setThread i { job := job, rest := serve E job }) := by
    obtain ⟨o, k, hop⟩ := exists_op hrest
    refine ⟨[.invoke i job], _, ?_, ?_, h.setThread (i := i) (.refl s) hstage a.store h.store⟩
    · rw [System.exec_cons, hinvoke, Option.bind_some, System.exec_nil]
    · rw [System.trace_cons hinvoke, System.trace_nil, hop]
      rfl
  rcases serve_cases hwd job with ⟨status, hstatus, hret⟩ | ⟨type, diskPath, hresolves⟩ | ⟨hpost, hcall⟩
  · have hanswer : Stage.invoked.answer job (some status) = some (errorResponse status) :=
      if_pos hstatus
    have hanswered := atomicServer_answer (E := E) (w := w₀) (s := a.setStage i job .invoked)
      (AtomicServer.requests_setStage_self _) hanswer
    rw [AtomicServer.setStage_setStage] at hanswered
    have hstage : StageOf E s.world { job := job, rest := serve E job }
        (.answered (errorResponse status)) := hret
    refine ⟨[.invoke i job, .answer i (some status)], _, ?_, ?_,
      h.setThread (i := i) (.refl s) hstage a.store h.store⟩
    · rw [System.exec_cons, hinvoke, Option.bind_some, System.exec_cons, hanswered,
        Option.bind_some, System.exec_nil]
    · rw [System.trace_cons hinvoke, System.trace_cons hanswered, System.trace_nil, hret,
        AtomicServer.events, AtomicServer.events, AtomicServer.requests_setStage_self]
      rfl
  · refine hcalls (fun response => ?_) (Or.inr ⟨type, diskPath, hresolves, Or.inl hresolves.serve_eq⟩)
    rw [hresolves.serve_eq, getStat]
    simp
  · exact hcalls hcall (Or.inl ⟨hpost, hcall, fun l bytes => List.not_mem_nil⟩)

end DistributedSystems.HttpServer
