import DistributedSystems.HttpServer.Requests

/-! # The file server as a store

Requests are served one after the other. A POST request stores its body in the file that the base
name of its path names, so a GET request reads it back by any path that resolves to that file
(`store_faithful`); the directories of the path of the POST request are not part of the name
(`post_flattened`). -/

namespace DistributedSystems.HttpServer

open FileSystem Http
open GoPath (IsName absolute base)

variable {E : Env} {w w' : World}

/-! ## Stored files -/

/-- The file at a location can be read and has the given bytes. -/
structure Holds (E : Env) (l : Location) (bytes : GoString) (w : World) : Prop where
  /-- Its path is taken by every call. -/
  bad : E.bad (absolute l) = none
  /-- What is above it are directories. -/
  blocked : w.blocked l = none
  /-- It is a file with the bytes. -/
  file : w.HasFile l bytes

/-- A stored file can be read. -/
theorem Stored.holds {l : Location} {bytes : GoString} (h : Stored E l bytes w w') :
    Holds E l bytes w' := by
  refine ⟨h.bad, ?_, h.file⟩
  rw [← h.blocked]
  exact World.blocked_congr fun above _ hne => h.node above hne

/-- A file is kept while nothing changes at its location and above it. -/
theorem Holds.keeps {P : Location → Prop} {l : Location} {bytes : GoString} (h : Holds E l bytes w)
    (hkeeps : w.Keeps P w') (hP : ∀ above, above <+: l → ¬ P above) : Holds E l bytes w' := by
  refine ⟨h.bad, ?_, h.file.keeps hkeeps (hP l List.prefix_rfl)⟩
  rw [← h.blocked]
  exact World.blocked_congr fun above habove _ => hkeeps.node above (hP above habove)

/-- The path of a file. -/
theorem resolvePath_of_fileOf (hwd : ∀ c ∈ E.wd, IsName c) {path : GoString} {l : Location}
    (h : fileOf E path = some l) :
    resolvePath (.ok (absolute E.wd)) path = .ok (absolute l) ∧ E.locate (absolute l) = l := by
  have hnames : ∀ c ∈ E.wd ++ publicName :: components path, IsName c :=
    List.forall_mem_append.mpr
      ⟨hwd, List.forall_mem_cons.mpr ⟨isName_publicName, isName_components⟩⟩
  rw [fileOf, resolvePath_eq hwd] at h
  rw [resolvePath_eq hwd]
  split at h
  · exact absurd h (by simp [Except.toOption])
  · next hdots =>
    obtain rfl : E.locate (absolute (E.wd ++ publicName :: components path)) = l :=
      Option.some.inj h
    rw [if_neg hdots, E.locate_absolute hnames]
    exact ⟨rfl, E.locate_absolute hnames⟩

/-- A file that can be read is read. -/
theorem Holds.readResult (hwd : ∀ c ∈ E.wd, IsName c) {l : Location} {bytes : GoString}
    (h : Holds E l bytes w) {path : GoString} (hpath : fileOf E path = some l) :
    readResult E w (.ok (absolute E.wd)) path = .ok bytes := by
  obtain ⟨hresolve, hlocate⟩ := resolvePath_of_fileOf hwd hpath
  obtain ⟨i, -, hnode, hdata⟩ := h.file
  have hrefuses : w.refuses E (.stat (absolute l) : Op Empty) = none := by
    rw [World.refuses, hlocate, h.bad, h.blocked, hnode]
    rfl
  simp only [HttpServer.readResult, hresolve, hrefuses, hlocate, hnode, hdata]

/-- Every inode with a name was allocated. -/
def Allocated (w : World) : Prop := ∀ l i, w.node l = some (.file i) → i < w.next

/-- What is read at a location outside of `P`, with nothing of `P` above it, is kept. -/
theorem readResult_keeps {P : Location → Prop} (h : w.Keeps P w') (hallocated : Allocated w)
    {getwd : Except FileError GoString} {path : GoString}
    (hP : ∀ diskPath, resolvePath getwd path = .ok diskPath →
      ∀ above, above <+: E.locate diskPath → ¬ P above) :
    readResult E w' getwd path = readResult E w getwd path := by
  unfold HttpServer.readResult
  cases hresolve : resolvePath getwd path with
  | error err => rfl
  | ok diskPath =>
      have hkept := hP diskPath hresolve
      have hblocked : w'.blocked (E.locate diskPath) = w.blocked (E.locate diskPath) :=
        World.blocked_congr fun above habove _ => h.node above (hkept above habove)
      simp only [World.refuses, hblocked, h.node _ (hkept _ List.prefix_rfl)]
      split
      · rfl
      · split
        · next i hnode => rw [h.data i (hallocated _ i hnode)]
        · rfl

/-- What is read below a new file: nothing was found before, and now there is no directory. -/
theorem Stored.readResult_below {l rest : Location} {bytes : GoString}
    (h : Stored E l bytes w w') {getwd : Except FileError GoString} {path diskPath : GoString}
    (hresolve : resolvePath getwd path = .ok diskPath) (hlocate : E.locate diskPath = l ++ rest)
    (hrest : rest ≠ []) :
    readResult E w' getwd path = readResult E w getwd path ∨
      readResult E w getwd path = .error (.os .noEntry) ∧
        readResult E w' getwd path = .error (.os .notDirectory) := by
  obtain ⟨i, -, hnode, -⟩ := h.file
  have hafter : w'.blocked (l ++ rest) = some .notDirectory := by
    rw [w'.blocked_below h.holds.blocked (by simp [hnode]) hrest, hnode, if_neg (by simp)]
  have hbefore := w.blocked_below h.blocked h.not_dir hrest
  unfold HttpServer.readResult
  simp only [hresolve, World.refuses, hlocate, hafter, hbefore]
  cases E.bad diskPath with
  | some err => exact Or.inl rfl
  | none =>
      by_cases hnone : w.node l = none
      · rw [if_pos hnone]
        exact Or.inr ⟨rfl, rfl⟩
      · rw [if_neg hnone]
        exact Or.inl rfl

/-! ## Requests one after the other -/

/-- A request with the outcomes of its calls. -/
structure Exchange where
  /-- The request. -/
  job : Job
  /-- The outcomes of the calls that its handler makes. -/
  outs : List (Outcome Empty)

/-- The response to a request. -/
def Exchange.response (E : Env) (w : World) (a : Exchange) : Option Response :=
  ((serve E a.job).run E w a.outs).map Run.value

/-- **The store**: requests are served one after the other. -/
def store (E : Env) (w₀ : World) : System World Exchange where
  init := w₀
  step w a := ((serve E a.job).run E w a.outs).map Run.world

/-- A run of a request gives a step and a response. -/
theorem store_run (w₀ : World) {a : Exchange} {x : Run Empty Response}
    (h : (serve E a.job).run E w a.outs = some x) :
    (store E w₀).step w a = some x.world ∧ a.response E w = some x.value :=
  ⟨congrArg (Option.map Run.world) h, congrArg (Option.map Run.value) h⟩

/-- An upload to a file, answered with `201 Created`. -/
def UploadsTo (E : Env) (l : Location) (w : World) (a : Exchange) : Prop :=
  (∃ response ∈ a.response E w, response.statusCode = .created) ∧
    fileOf E (base a.job.request.path) = some l

/-- One step: an upload, or nothing changes. -/
theorem store_step (hfaults : E.faults = false) (hwd : ∀ c ∈ E.wd, IsName c) {w₀ : World}
    {a : Exchange} (ha : (store E w₀).step w a = some w') :
    UploadsTo E (uploadFile E a.job) w a ∧
        Stored E (uploadFile E a.job) a.job.body.chunks.flatten w w' ∨
      (∀ response ∈ a.response E w, response.statusCode ≠ .created) ∧
        w.Keeps (fun _ => False) w' := by
  obtain ⟨x, hrun, rfl⟩ := Option.map_eq_some_iff.mp ha
  have hresponse := (store_run w₀ hrun).2
  rcases ensures_serve hfaults hwd a.job a.outs x hrun with ⟨hcreated, -, hfile, hstored⟩ | h
  · exact Or.inl ⟨⟨⟨x.value, hresponse, hcreated⟩, hfile⟩, hstored⟩
  · refine Or.inr ⟨fun response hmem => ?_, h.2⟩
    obtain rfl := Option.some.inj (hresponse.symm.trans hmem)
    exact h.1

/-- Inodes stay allocated. -/
theorem allocated_of_reachable (hfaults : E.faults = false) (hwd : ∀ c ∈ E.wd, IsName c)
    {w₀ : World} (hallocated : Allocated w₀) (hw : (store E w₀).Reachable w) : Allocated w := by
  refine hw.invariant hallocated fun w a w' _ h ha l i hnode => ?_
  rcases store_step hfaults hwd ha with ⟨-, hstored⟩ | ⟨-, hkeeps⟩
  · by_cases hl : l = uploadFile E a.job
    · obtain ⟨j, hlt, hnew, -⟩ := hstored.file
      rw [hl, hnew] at hnode
      obtain rfl : j = i := by simpa using hnode
      exact hlt
    · rw [hstored.node l hl] at hnode
      exact (h l i hnode).trans_le hstored.next_le
  · rw [hkeeps.node l not_false] at hnode
    exact (h l i hnode).trans_le hkeeps.next_le

/-- A stored file stays until the next upload to it. -/
theorem Holds.exec (hfaults : E.faults = false) (hwd : ∀ c ∈ E.wd, IsName c) {w₀ : World}
    {job : Job} {bytes : GoString} (h : Holds E (uploadFile E job) bytes w) {as : List Exchange}
    (has : (store E w₀).exec w as = some w')
    (hkept : (store E w₀).Along (fun w a => ¬ UploadsTo E (uploadFile E job) w a) w as) :
    Holds E (uploadFile E job) bytes w' := by
  refine hkept.invariant h (fun w a w' h hC ha => ?_) has
  rcases store_step hfaults hwd ha with ⟨hupload, hstored⟩ | ⟨-, hkeeps⟩
  · refine h.keeps hstored.toKeeps fun above habove heq => hC ?_
    -- the other file is beside this one, not above it
    have hsame : uploadFile E a.job = uploadFile E job := by
      rw [heq] at habove
      exact habove.eq_of_length (by simp [uploadFile])
    exact hsame ▸ hupload
  · exact h.keeps hkeeps fun _ _ => not_false

/-- The GET requests after an upload: other files are answered as before, except below the new
file. -/
theorem Stored.getResponse (hwd : ∀ c ∈ E.wd, IsName c) {l : Location} {bytes : GoString}
    (h : Stored E l bytes w w') (hallocated : Allocated w) {get : Job}
    (hfile : fileOf E get.request.path ≠ some l) :
    getResponse E w' get = getResponse E w get ∨
      (∃ rest ≠ [], fileOf E get.request.path = some (l ++ rest)) ∧
        (getResponse E w get).statusCode = .notFound ∧
        (getResponse E w' get).statusCode = .internalServerError := by
  unfold HttpServer.getResponse
  cases htype : contentTypeForPath get.request.path with
  | none => exact Or.inl rfl
  | some type =>
      by_cases hbelow : ∃ rest, fileOf E get.request.path = some (l ++ rest)
      · obtain ⟨rest, hrest⟩ := hbelow
        have hne : rest ≠ [] := by
          rintro rfl
          exact hfile (by rw [hrest, List.append_nil])
        cases hgetwd : get.getwdErr with
        | some err =>
            simp only [HttpServer.readResult, Job.getwd, hgetwd, resolvePath_error, true_or]
        | none =>
            have hwd' : get.getwd E = .ok (absolute E.wd) := by rw [Job.getwd, hgetwd]
            obtain ⟨hresolve, hlocate⟩ := resolvePath_of_fileOf hwd hrest
            rw [hwd']
            rcases h.readResult_below hresolve hlocate hne with heq | ⟨hbefore, hafter⟩
            · rw [heq]
              exact Or.inl rfl
            · rw [hbefore, hafter]
              exact Or.inr ⟨⟨rest, hne, hrest⟩, rfl, rfl⟩
      · refine Or.inl ?_
        rw [readResult_keeps h.toKeeps hallocated fun diskPath hresolve above habove hl => hbelow ?_]
        obtain ⟨rest, hrest⟩ := hl ▸ habove
        refine ⟨rest, ?_⟩
        cases hgetwd : get.getwdErr with
        | some err =>
            rw [Job.getwd, hgetwd, resolvePath_error] at hresolve
            exact absurd hresolve (by simp)
        | none =>
            rw [Job.getwd, hgetwd] at hresolve
            rw [fileOf, hresolve, hrest]
            rfl

/-- **The server stores what is uploaded under the base name of a path.** Requests are served one
after the other, from any files, and no call fails unless the file system refuses it. When an
upload is answered with `201 Created`:

* the base name of its path resolves to a file;
* until the next such upload to that file, a GET request with an allowed extension whose path
  resolves to it is answered with the body of the upload;
* a GET request whose path resolves to another file is answered as before; but a path below the
  file, where nothing was found before, now runs into a file that is no directory. -/
theorem store_faithful (hfaults : E.faults = false) (hwd : ∀ c ∈ E.wd, IsName c) {w₀ : World}
    (hallocated : Allocated w₀) (hw : (store E w₀).Reachable w) {a : Exchange}
    (ha : (store E w₀).step w a = some w')
    (hcreated : ∃ response ∈ a.response E w, response.statusCode = .created) :
    ∃ l, fileOf E (base a.job.request.path) = some l ∧
      (∀ as w'' get, (store E w₀).exec w' as = some w'' →
        (store E w₀).Along (fun w a => ¬ UploadsTo E l w a) w' as →
        get.request.method = .ofString "GET" → get.getwdErr = none →
        (contentTypeForPath get.request.path).isSome → fileOf E get.request.path = some l →
        (∃ response, Answers E w'' get response) ∧ ∀ response, Answers E w'' get response →
          response.statusCode = .ok ∧ response.body = a.job.body.chunks.flatten) ∧
      ∀ get response response', get.request.method = .ofString "GET" →
        fileOf E get.request.path ≠ some l → Answers E w get response →
        Answers E w' get response' → response' = response ∨
          (∃ rest ≠ [], fileOf E get.request.path = some (l ++ rest)) ∧
            response.statusCode = .notFound ∧
            response'.statusCode = .internalServerError := by
  rcases store_step hfaults hwd ha with ⟨hupload, hstored⟩ | ⟨hnot, -⟩
  · refine ⟨_, hupload.2, ?_, ?_⟩
    · intro as w'' get has hkept hget hgetwd htype hfile
      refine ⟨⟨_, (answers_get hfaults hget).mpr rfl⟩, fun response hanswer => ?_⟩
      obtain rfl := (answers_get hfaults hget).mp hanswer
      obtain ⟨type, htype⟩ := Option.isSome_iff_exists.mp htype
      have hread := (hstored.holds.exec hfaults hwd has hkept).readResult hwd hfile
      have hwd' : get.getwd E = .ok (absolute E.wd) := by rw [Job.getwd, hgetwd]
      simp only [getResponse, htype, hwd', hread]
      exact ⟨rfl, rfl⟩
    · intro get response response' hget hfile hbefore hafter
      obtain rfl := (answers_get hfaults hget).mp hbefore
      obtain rfl := (answers_get hfaults hget).mp hafter
      exact hstored.getResponse hwd (allocated_of_reachable hfaults hwd hallocated hw) hfile
  · obtain ⟨response, hmem, hstatus⟩ := hcreated
    exact absurd hstatus (hnot response hmem)

/-- A server whose calls do not fail. -/
def quietServer : Env := { exampleServer with faults := false }

/-- A GET request to that server. -/
def exampleGet (path : GoString) : Job := exampleJob (.ofString "GET") path ⟨[], none⟩

/-- An upload whose path has a directory. -/
def exampleExchange : Exchange where
  job := exampleJob (.ofString "POST") (.ofString "/dir/a.html") ⟨[.ofString "new"], none⟩
  outs := [.temp (.ofString "1"), .done, .done, .done, .done, .fail .noEntry 0, .done]

/-- The upload is answered with `201 Created`. -/
theorem exampleExchange_created : ∃ w', (store quietServer exampleWorld).step exampleWorld
      exampleExchange = some w' ∧
    (∃ response ∈ exampleExchange.response quietServer exampleWorld,
      response.statusCode = .created) ∧
    (getResponse quietServer w' (exampleGet (.ofString "/dir/a.html"))).statusCode = .notFound ∧
    (getResponse quietServer w' (exampleGet (.ofString "/a.html"))).body = .ofString "new" := by
  have hrun : ((serve quietServer exampleExchange.job).run quietServer exampleWorld
      exampleExchange.outs).map (fun x => (x.value.statusCode,
        (getResponse quietServer x.world (exampleGet (.ofString "/dir/a.html"))).statusCode,
        (getResponse quietServer x.world (exampleGet (.ofString "/a.html"))).body)) =
      some (.created, .notFound, .ofString "new") := by
    decide +kernel
  obtain ⟨x, hx, heq⟩ := Option.map_eq_some_iff.mp hrun
  obtain ⟨hcreated, heq⟩ := Prod.mk.inj heq
  obtain ⟨hnotFound, hbody⟩ := Prod.mk.inj heq
  obtain ⟨hstep, hresponse⟩ := store_run exampleWorld hx
  exact ⟨x.world, hstep, ⟨x.value, hresponse, hcreated⟩, hnotFound, hbody⟩

/-- The upload with a directory in its path is read back without the directory. -/
theorem store_faithful_base : ∃ w', (store quietServer exampleWorld).step exampleWorld
      exampleExchange = some w' ∧
    ∀ response, Answers quietServer w' (exampleGet (.ofString "/a.html")) response →
      response.statusCode = .ok ∧ response.body = .ofString "new" := by
  obtain ⟨w', hstep, hcreated, -⟩ := exampleExchange_created
  obtain ⟨l, hl, hread, -⟩ := store_faithful rfl (by decide)
    (fun _ _ => exampleWorld_bound) .init hstep hcreated
  have hfile : fileOf quietServer (.ofString "/a.html") = some l := by
    rw [← hl]
    decide +kernel
  exact ⟨w', hstep, (hread [] w' _ rfl trivial rfl rfl (by decide) hfile).2⟩

/-- **The path of an upload is not read back**: an upload to `/dir/a.html` is answered with
`201 Created`, and then a GET request with that path with `404 Not Found`; but `/a.html`, which
resolves to another file, has changed. -/
theorem post_flattened : ∃ w', (store quietServer exampleWorld).step exampleWorld
      exampleExchange = some w' ∧
    (∃ response ∈ exampleExchange.response quietServer exampleWorld,
      response.statusCode = .created) ∧
    (∃ response, Answers quietServer w' (exampleGet exampleExchange.job.request.path) response ∧
      response.statusCode = .notFound) ∧
    fileOf quietServer (.ofString "/a.html") ≠
      fileOf quietServer exampleExchange.job.request.path ∧
    (∃ response, Answers quietServer exampleWorld (exampleGet (.ofString "/a.html")) response ∧
      response.body = .ofString "old") ∧
    ∃ response, Answers quietServer w' (exampleGet (.ofString "/a.html")) response ∧
      response.body = .ofString "new" := by
  obtain ⟨w', hstep, hcreated, hnotFound, hnew⟩ := exampleExchange_created
  refine ⟨w', hstep, hcreated, ⟨_, (answers_get rfl rfl).mpr rfl, hnotFound⟩, by decide +kernel,
    ⟨_, (answers_get rfl rfl).mpr rfl, by decide +kernel⟩,
    ⟨_, (answers_get rfl rfl).mpr rfl, hnew⟩⟩

end DistributedSystems.HttpServer
