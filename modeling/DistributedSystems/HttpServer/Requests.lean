import DistributedSystems.HttpServer.UploadSafety

/-! # What one request does

A request is served alone, and no call fails unless the file system refuses it. Then the response
depends on the files only:

* `answers_get` — what a GET request is answered with;
* `ensures_serve` — a request stores the body of an upload and is answered with `201 Created`, or
  changes nothing. -/

namespace DistributedSystems.HttpServer

open FileSystem Http
open GoPath (IsName absolute base)
open Prog (Ensures)

variable {E : Env} {w w' : World}

/-- The response to what a handler returns. -/
def reply : Except HandlerError ResponseBuilder → Response
  | .error err => handleError err
  | .ok responseBuilder => responseBuilder.build

/-- A request that has a handler runs it. -/
theorem serve_eq {job : Job} {handler : RequestHandler FileProg}
    (hvalid : isValid job.request.method = true)
    (hhandler : handlers (job.getwd E) job.body job.request.method = some handler) :
    serve E job =
      handler job.request (newResponseBuilder (some job.request)) >>= fun r => .ret (reply r) := by
  unfold serve respond handleRequest
  dsimp only
  rw [hvalid, if_neg (by simp), hhandler]
  refine (Prog.bind_bind _ _ _).trans (congrArg _ (funext fun r => ?_))
  rcases r with err | responseBuilder
  · rfl
  · rfl

/-! ## GET requests -/

/-- What `readFile` returns. -/
def readResult (E : Env) (w : World) (getwd : Except FileError GoString) (requestPath : GoString) :
    Except Err GoString :=
  match resolvePath getwd requestPath with
  | .error err => .error (.os err)
  | .ok diskPath =>
      match w.refuses E (.stat diskPath : Op Empty) with
      | some err => .error (.os err)
      | none =>
          match w.node (E.locate diskPath) with
          | some (.file i) => .ok (w.data i)
          | _ => .error (.os errInvalid)

/-- The response to a GET request. -/
def getResponse (E : Env) (w : World) (job : Job) : Response :=
  match contentTypeForPath job.request.path with
  | none => handleError (.httpError ⟨.badRequest⟩)
  | some type =>
      match readResult E w (job.getwd E) job.request.path with
      | .error err => handleError (.httpError ⟨statusFromFileError err⟩)
      | .ok data =>
          (((newResponseBuilder (some job.request)).bytes data).header contentType type).build

/-- `readFile` changes nothing. -/
theorem ensures_readFile (hfaults : E.faults = false) (getwd : Except FileError GoString)
    (requestPath : GoString) :
    Ensures E w (readFile getwd requestPath) fun x =>
      x.world = w ∧ x.value = readResult E w getwd requestPath := by
  cases hresolve : resolvePath getwd requestPath with
  | error err =>
      rw [readFile, readResult, hresolve]
      exact Ensures.ret ⟨rfl, rfl⟩
  | ok diskPath =>
      rw [readFile, hresolve]
      refine Ensures.op fun out r w' hstat => ?_
      rcases perform_of_not_faults hfaults hstat with ⟨err, n, hrefuses, hfail⟩ | ⟨hrefuses, hok⟩
      · obtain ⟨rfl, rfl⟩ := Prod.mk.inj (Option.some.inj hfail)
        exact Ensures.ret ⟨rfl, by simp only [readResult, hresolve, hrefuses]⟩
      · obtain ⟨rfl, rfl⟩ := Prod.mk.inj (Option.some.inj (success_plain rfl hok))
        have hstat := hrefuses
        simp only [World.refuses, Option.or_eq_none_iff] at hstat
        cases hnode : w.node (E.locate diskPath) with
        | none => exact absurd hstat.2 (by simp [hnode])
        | some node =>
            cases node with
            | dir => exact Ensures.ret ⟨rfl, by simp only [readResult, hresolve, hrefuses, hnode]⟩
            | file i =>
                -- the file is opened, read and closed
                have hopened : w.refuses E (.openFile diskPath : Op Empty) = none :=
                  Option.or_eq_none_iff.mpr
                    ⟨hstat.1.1, w.missing_eq_none.mpr ⟨hstat.1.2, i, hnode⟩⟩
                refine Ensures.op fun out r w₁ hopen => ?_
                have hopen := success_of_not_refused hfaults rfl hopened hopen
                rw [success, World.openAt, hnode] at hopen
                obtain ⟨rfl, rfl⟩ := Prod.mk.inj (Option.some.inj hopen)
                refine Ensures.op fun out r w₁ hread => ?_
                have hread := success_of_not_refused hfaults rfl rfl hread
                obtain ⟨rfl, rfl⟩ := Prod.mk.inj (Option.some.inj hread)
                refine Ensures.op fun out r w₁ hclose => ?_
                have hclose := success_of_not_refused hfaults rfl rfl hclose
                obtain ⟨rfl, rfl⟩ := Prod.mk.inj (Option.some.inj hclose)
                exact Ensures.ret ⟨rfl, by simp only [readResult, hresolve, hrefuses, hnode]; rfl⟩

/-- `readFile` always returns. -/
theorem plain_readFile (getwd : Except FileError GoString) (requestPath : GoString) :
    (readFile getwd requestPath).Plain := by
  unfold readFile
  split
  · trivial
  · refine ⟨rfl, fun r => ?_⟩
    rcases r with err | isDir
    · trivial
    · cases isDir with
      | true => trivial
      | false =>
          refine ⟨rfl, fun r => ?_⟩
          rcases r with err | f
          · trivial
          · refine ⟨rfl, fun data => ⟨rfl, fun _ => ?_⟩⟩
            rcases data with err | data
            · trivial
            · trivial

/-- A GET request runs its handler. -/
theorem serve_get {job : Job} (hget : job.request.method = .ofString "GET") :
    serve E job = getHandler (job.getwd E) job.request (newResponseBuilder (some job.request)) >>=
      fun r => .ret (reply r) :=
  serve_eq (by rw [hget]; decide) (if_pos hget)

/-- A GET request changes nothing. -/
theorem ensures_get (hfaults : E.faults = false) {job : Job}
    (hget : job.request.method = .ofString "GET") :
    Ensures E w (serve E job) fun x => x.world = w ∧ x.value = getResponse E w job := by
  rw [serve_get hget, getHandler, getResponse]
  cases htype : contentTypeForPath job.request.path with
  | none => exact Ensures.ret ⟨rfl, rfl⟩
  | some type =>
      refine Ensures.bind (Ensures.bind
        ((ensures_readFile hfaults _ _).mono fun x ⟨hworld, hvalue⟩ => ?_))
      simp only [← hvalue]
      rcases x.value with err | data
      · exact Ensures.ret (Ensures.ret ⟨hworld, rfl⟩)
      · exact Ensures.ret (Ensures.ret ⟨hworld, rfl⟩)

/-- A GET request is always answered. -/
theorem plain_get {job : Job} (hget : job.request.method = .ofString "GET") :
    (serve E job).Plain := by
  rw [serve_get hget, getHandler]
  refine Prog.All.bind ?_ fun _ => trivial
  split
  · trivial
  · refine Prog.All.bind (plain_readFile _ _) fun r => ?_
    rcases r with err | data
    · trivial
    · trivial

/-- A request, served alone, can be answered with a response. -/
def Answers (E : Env) (w : World) (job : Job) (response : Response) : Prop :=
  ∃ outs x, (serve E job).run E w outs = some x ∧ x.value = response

/-- **What a GET request is answered with.** -/
theorem answers_get (hfaults : E.faults = false) {job : Job}
    (hget : job.request.method = .ofString "GET") {response : Response} :
    Answers E w job response ↔ response = getResponse E w job := by
  constructor
  · rintro ⟨outs, x, hrun, rfl⟩
    exact (ensures_get hfaults hget outs x hrun).2
  · rintro rfl
    obtain ⟨outs, x, hrun⟩ := (plain_get (E := E) hget).exists_run w
    exact ⟨outs, x, hrun, (ensures_get hfaults hget outs x hrun).2⟩

/-! ## POST requests -/

/-- A new file with the given bytes is at a location, in the place of a file or of nothing. -/
structure Stored (E : Env) (l : Location) (bytes : GoString) (w w' : World) : Prop
    extends w.Keeps (· = l) w' where
  /-- The file is there. -/
  file : w'.HasFile l bytes
  /-- There was no directory. -/
  not_dir : w.node l ≠ some .dir
  /-- What is above it are directories. -/
  blocked : w.blocked l = none
  /-- Its path is taken by every call. -/
  bad : E.bad (absolute l) = none

/-- The copy of a body is appended to the file. -/
theorem ensures_copy (hfaults : E.faults = false) {f : OpenFile}
    (hoffset : f.offset = (w.data f.inode).length) (chunks : List GoString)
    (err : Option FileError) :
    Ensures E w (copy f chunks err) fun x =>
      x.value = err ∧ x.world = w.setData f.inode (w.data f.inode ++ chunks.flatten) := by
  induction chunks generalizing f w with
  | nil =>
      refine Ensures.ret ⟨rfl, ?_⟩
      rw [List.flatten_nil, List.append_nil, World.setData_self]
  | cons chunk chunks ih =>
      unfold copy
      split
      · next hnil =>
        subst hnil
        exact ih hoffset
      · refine Ensures.op fun out r w₁ hwrite => ?_
        have hwrite := success_of_not_refused hfaults rfl rfl hwrite
        obtain ⟨rfl, rfl⟩ := Prod.mk.inj (Option.some.inj hwrite)
        rw [hoffset, World.writeData_end]
        refine (ih (f := f.advance chunk.length) ?_).mono fun x hx => ⟨hx.1, ?_⟩
        · simp [OpenFile.advance, hoffset]
        · rw [hx.2]
          simp [OpenFile.advance]

/-- Between the deferred calls the body is written, and the file is renamed unless there is an
error. -/
theorem ensures_publishUpload (hfaults : E.faults = false) {tmp : OpenFile}
    (hoffset : tmp.offset = 0) (hdata : w.data tmp.inode = []) (reader : Body)
    (destination : GoString) :
    Ensures E w (publishUpload tmp reader destination) fun x =>
      x.value ≠ none ∧ x.world = w.setData tmp.inode reader.chunks.flatten ∨
      x.value = none ∧ (w.setData tmp.inode reader.chunks.flatten).refuses E
          (.rename tmp.name destination : Op Empty) = none ∧
        x.world = (w.setData tmp.inode reader.chunks.flatten).move (E.locate tmp.name)
          (E.locate destination) := by
  refine Ensures.bind ((ensures_copy hfaults (by rw [hoffset, hdata]; rfl) _ _).mono ?_)
  rintro ⟨events, w₁, r⟩ ⟨rfl, hworld⟩
  rw [hdata, List.nil_append] at hworld
  obtain rfl := hworld
  dsimp only
  cases herr : reader.err with
  | some err => exact Ensures.ret (Or.inl ⟨by simp, rfl⟩)
  | none =>
      refine Ensures.op fun out r w₁ hsync => ?_
      have hsync := success_of_not_refused hfaults rfl rfl hsync
      obtain ⟨rfl, rfl⟩ := Prod.mk.inj (Option.some.inj hsync)
      refine Ensures.op fun out r w₁ hclose => ?_
      have hclose := success_of_not_refused hfaults rfl rfl hclose
      obtain ⟨rfl, rfl⟩ := Prod.mk.inj (Option.some.inj hclose)
      refine Ensures.op fun out r w₁ hrename => Ensures.ret ?_
      rcases perform_rename hrename with ⟨err, rfl, rfl⟩ | ⟨-, hrefuses, rfl, rfl⟩
      · exact Or.inl ⟨by simp, rfl⟩
      · exact Or.inr ⟨rfl, hrefuses, rfl⟩

/-- Nothing is left of a temporary file that is removed. -/
theorem keeps_unlink {tmp : Location} (hfree : w.node tmp = none) (bytes : GoString) :
    w.Keeps (fun _ => False) ((w.staged tmp bytes).unlink tmp) where
  node l _ := by
    by_cases hl : l = tmp
    · subst hl
      exact (Function.update_self _ _ _).trans hfree.symm
    · exact (Function.update_of_ne hl _ _).trans (Function.update_of_ne hl _ _)
  data i hi := w.data_staged tmp bytes hi
  next_le := Nat.le_succ _

/-- A temporary file that is renamed is stored. -/
theorem stored_move {tmp l : Location} (hfree : w.node tmp = none) (hne : l ≠ tmp)
    (hlength : tmp.length = l.length) {bytes : GoString}
    (hblocked : (w.staged tmp bytes).blocked l = none)
    (hdir : (w.staged tmp bytes).node l ≠ some .dir) (hbad : E.bad (absolute l) = none) :
    Stored E l bytes w ((w.staged tmp bytes).move tmp l) where
  toKeeps := w.keeps_move_staged hfree bytes
  file := w.hasFile_move_staged tmp l bytes
  not_dir h := hdir ((Function.update_of_ne hne _ _).trans h)
  blocked := by
    rw [← hblocked]
    refine (World.blocked_congr fun above habove habovene => Function.update_of_ne ?_ _ _).symm
    -- the temporary file is beside the file, not above it
    rintro rfl
    exact habovene (habove.eq_of_length hlength)
  bad := hbad

/-- What an upload does once its temporary file is made: it stores the body, or returns an error
and changes nothing. -/
theorem ensures_upload (hfaults : E.faults = false) {tmp : OpenFile} (hoffset : tmp.offset = 0)
    (hinode : tmp.inode = w.next) (hfree : w.node (E.locate tmp.name) = none)
    (hbad : E.bad tmp.name = none) (hblocked : w.blocked (E.locate tmp.name) = none)
    (reader : Body) {l : Location} (hlocate : E.locate (absolute l) = l)
    (hne : l ≠ E.locate tmp.name) (hlength : (E.locate tmp.name).length = l.length) :
    Ensures E (w.staged (E.locate tmp.name) [])
      (publishUpload tmp reader (absolute l) >>= fun err =>
        Prog.remove tmp.name >>= fun _ => Prog.close tmp >>= fun _ => pure err) fun x =>
      x.value = none ∧ Stored E l reader.chunks.flatten w x.world ∨
      x.value ≠ none ∧ w.Keeps (fun _ => False) x.world := by
  refine Ensures.bind ((ensures_publishUpload hfaults hoffset ?_ reader (absolute l)).mono ?_)
  · rw [hinode]
    exact Function.update_self _ _ _
  rintro ⟨events, w₁, r⟩ h
  rw [hinode, World.setData_staged, hlocate] at h
  refine Ensures.op fun out r' w₂ hremove => Ensures.op fun out' r'' w₃ hclose => Ensures.ret ?_
  have hclose := success_of_not_refused hfaults rfl rfl hclose
  obtain ⟨rfl, rfl⟩ := Prod.mk.inj (Option.some.inj hclose)
  rcases h with ⟨hr, rfl⟩ | ⟨hr, hrefuses, rfl⟩
  · -- the temporary file is removed
    have hmissing : (w.staged (E.locate tmp.name) reader.chunks.flatten).refuses E
        (.remove tmp.name : Op Empty) = none := by
      refine Option.or_eq_none_iff.mpr ⟨hbad, (World.missing_eq_none _).mpr ⟨?_, w.next, ?_⟩⟩
      · rw [← hblocked]
        exact World.blocked_congr fun above _ habove => Function.update_of_ne habove _ _
      · exact Function.update_self _ _ _
    have hremove := success_of_not_refused hfaults rfl hmissing hremove
    obtain ⟨rfl, rfl⟩ := Prod.mk.inj (Option.some.inj hremove)
    exact Or.inr ⟨hr, keeps_unlink hfree _⟩
  · -- the temporary name is gone, so its removal changes nothing
    obtain rfl := perform_remove_gone (World.node_move_old _ hne.symm) hremove
    simp only [World.refuses, Option.or_eq_none_iff, hlocate] at hrefuses
    refine Or.inl ⟨hr, stored_move hfree hne hlength hrefuses.2.1 ?_ hrefuses.1.1.2⟩
    intro hdir
    exact absurd hrefuses.2.2 (by simp [hdir])

/-- **What an upload does**: it stores the body, or returns an error and changes nothing. -/
theorem ensures_saveUploadedFile (hfaults : E.faults = false) (hwd : ∀ c ∈ E.wd, IsName c)
    (reader : Body) {name : GoString} (hname : IsName name)
    (hallowed : (contentTypeForPath name).isSome) :
    Ensures E w (saveUploadedFile reader (absolute (E.wd ++ [publicName, name]))) fun x =>
      x.value = none ∧ Stored E (E.wd ++ [publicName, name]) reader.chunks.flatten w x.world ∨
      x.value ≠ none ∧ w.Keeps (fun _ => False) x.world := by
  refine Ensures.op fun out r w₁ hcreate => ?_
  rcases perform_createTemp hcreate with
    ⟨err, rfl, rfl⟩ | ⟨random, -, hdir, hrandom, hfree, hbad, rfl, rfl⟩
  · exact Ensures.ret (Or.inr ⟨by simp, .refl _ _⟩)
  · have htmp := locate_tempName (E := E) hrandom
    have hblocked : w.blocked (E.locate (tempName publicDir (.ofString "upload-") random)) =
        none := by
      rwa [htmp, List.append_cons, World.blocked_concat, ← locate_publicDir,
        ← World.blocked_concat _ _ []]
    have hne : E.wd ++ [publicName, name] ≠
        E.locate (tempName publicDir (.ofString "upload-") random) := by
      intro heq
      refine tempName_not_visible (E := E) hrandom ⟨[], name, ?_, hallowed⟩
      rw [← heq, List.append_cons]
    have hlocate : E.locate (absolute (E.wd ++ [publicName, name])) = E.wd ++ [publicName, name] :=
      E.locate_absolute (List.forall_mem_append.mpr ⟨hwd, by simp [isName_publicName, hname]⟩)
    have hoffset : (⟨tempName publicDir (.ofString "upload-") random, w.next, 0⟩ :
        OpenFile).offset = 0 := rfl
    have hlength : (E.locate (tempName publicDir (.ofString "upload-") random)).length =
        (E.wd ++ [publicName, name]).length := by
      rw [htmp]
      simp
    exact ensures_upload hfaults hoffset rfl hfree hbad hblocked reader hlocate hne hlength

/-- The file that a path resolves to. -/
def fileOf (E : Env) (path : GoString) : Option Location :=
  (resolvePath (.ok (absolute E.wd)) path).toOption.map E.locate

/-- The file of an upload. -/
def uploadFile (E : Env) (job : Job) : Location := E.wd ++ [publicName, base job.request.path]

/-- `writeFile` stores the body in the file that the base name resolves to, or returns an error and
changes nothing. -/
theorem ensures_writeFile (hfaults : E.faults = false) (hwd : ∀ c ∈ E.wd, IsName c) (job : Job) :
    Ensures E w (writeFile (job.getwd E) job.request.path job.body) fun x =>
      x.value = none ∧ fileOf E (base job.request.path) = some (uploadFile E job) ∧
        Stored E (uploadFile E job) job.body.chunks.flatten w x.world ∨
      x.value ≠ none ∧ w.Keeps (fun _ => False) x.world := by
  have hkept := World.Keeps.refl w fun _ => False
  unfold writeFile
  dsimp only
  split
  · exact Ensures.ret (Or.inr ⟨by simp, hkept⟩)
  · next hfilename =>
    split
    · exact Ensures.ret (Or.inr ⟨by simp, hkept⟩)
    · next type htype =>
      split
      · exact Ensures.ret (Or.inr ⟨by simp, hkept⟩)
      · next destination hdestination =>
        have hallowed : (contentTypeForPath (base job.request.path)).isSome := by rw [htype]; rfl
        obtain ⟨hgetwd, hname, rfl⟩ := upload_destination hwd hfilename hallowed hdestination
        have hfile : fileOf E (base job.request.path) = some (uploadFile E job) := by
          rw [Job.getwd, hgetwd] at hdestination
          rw [fileOf, hdestination]
          refine congrArg some (E.locate_absolute (List.forall_mem_append.mpr ⟨hwd, ?_⟩))
          simp [isName_publicName, hname]
        refine Ensures.bind
          ((ensures_saveUploadedFile hfaults hwd job.body hname hallowed).mono ?_)
        rintro x (⟨hvalue, hstored⟩ | ⟨hvalue, hkept⟩)
        · exact Ensures.ret (Or.inl ⟨by simp [hvalue], hfile, hstored⟩)
        · exact Ensures.ret (Or.inr ⟨by simpa using hvalue, hkept⟩)

/-- A POST request runs its handler. -/
theorem serve_post {job : Job} (hpost : job.request.method = .ofString "POST") :
    serve E job = postHandler (job.getwd E) job.body job.request
      (newResponseBuilder (some job.request)) >>= fun r => .ret (reply r) := by
  refine serve_eq (by rw [hpost]; decide) ?_
  rw [handlers, if_neg (by rw [hpost]; decide), if_pos hpost]

/-- The response to a GET request is not `201 Created`. -/
theorem getResponse_ne (job : Job) : (getResponse E w job).statusCode ≠ .created := by
  unfold getResponse
  split
  · decide
  · split
    · exact statusFromFileError_ne (by decide) _
    · exact (by decide : StatusCode.ok ≠ .created)

/-- **What a request does**: it stores the body of an upload and is answered with `201 Created`, or
changes nothing and is answered otherwise. -/
theorem ensures_serve (hfaults : E.faults = false) (hwd : ∀ c ∈ E.wd, IsName c) (job : Job) :
    Ensures E w (serve E job) fun x =>
      x.value.statusCode = .created ∧ job.request.method = .ofString "POST" ∧
        fileOf E (base job.request.path) = some (uploadFile E job) ∧
        Stored E (uploadFile E job) job.body.chunks.flatten w x.world ∨
      x.value.statusCode ≠ .created ∧ w.Keeps (fun _ => False) x.world := by
  have hkept := World.Keeps.refl w fun _ => False
  by_cases hget : job.request.method = .ofString "GET"
  · refine (ensures_get hfaults hget).mono fun x ⟨hworld, hvalue⟩ => Or.inr ⟨?_, ?_⟩
    · rw [hvalue]
      exact getResponse_ne job
    · rw [hworld]
      exact hkept
  · by_cases hpost : job.request.method = .ofString "POST"
    · rw [serve_post hpost, postHandler]
      refine Ensures.bind (Ensures.bind ((ensures_writeFile hfaults hwd job).mono ?_))
      rintro ⟨events, w₁, r⟩ (⟨hr, hfile, hstored⟩ | ⟨hr, hkept⟩)
      · obtain rfl : r = none := hr
        exact Ensures.ret (Ensures.ret (Or.inl ⟨rfl, hpost, hfile, hstored⟩))
      · obtain ⟨err, rfl⟩ := Option.ne_none_iff_exists'.mp hr
        exact Ensures.ret (Ensures.ret (Or.inr ⟨statusFromFileError_ne (by decide) err, hkept⟩))
    · -- there is no handler
      unfold serve respond handleRequest
      dsimp only
      split
      · exact Ensures.ret (Or.inr ⟨(by decide : StatusCode.badRequest ≠ .created), hkept⟩)
      · rw [handlers, if_neg hget, if_neg hpost]
        exact Ensures.ret (Or.inr ⟨(by decide : StatusCode.notImplemented ≠ .created), hkept⟩)

end DistributedSystems.HttpServer
