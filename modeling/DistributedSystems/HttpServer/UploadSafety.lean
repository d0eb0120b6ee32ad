import DistributedSystems.HttpServer.Files
import DistributedSystems.Storage.FilePoolSafety

/-! # Uploads are atomic

Any number of requests are served at the same time, one file operation at a time, and every
operation may fail. The programs of the handlers keep to the discipline of publishing files by a
rename (`replies`), and `uploads_atomic` says what follows for the files of `./public`. How a request
is answered for what it has read and published is `Replied`. -/

namespace DistributedSystems.HttpServer

open FileSystem Http
open GoPath (IsName absolute base)

variable (E : Env)

/-- A file of `./public` with an allowed extension. -/
def Visible (l : Location) : Prop :=
  ∃ below name, l = (E.wd ++ publicName :: below) ++ [name] ∧ (contentTypeForPath name).isSome

/-- The complete body of an upload, for the file that its path names. -/
def Publishes (job : Job) (l : Location) (bytes : GoString) : Prop :=
  job.request.method = .ofString "POST" ∧ job.body.err = none ∧ bytes = job.body.chunks.flatten ∧
    l = E.wd ++ [publicName, base job.request.path]

/-- What a request may do with files. -/
def uploadContract (job : Job) : Contract Empty where
  visible := Visible E
  publishes := Publishes E job
  mayCall _ _ := False

variable {E} {C : Contract Empty} {log : List (Entry Empty)}

/-! ## Temporary names -/

/-- The digits of a temporary name are neither a separator nor a dot. -/
theorem notMem_temp {random : GoString} (hrandom : ∀ x ∈ random, 48 ≤ x ∧ x ≤ 57) :
    GoPath.slash ∉ GoString.ofString "upload-" ++ random ∧
      GoPath.dot ∉ GoString.ofString "upload-" ++ random := by
  have hdigit (y : Byte) (hy : y < 48) : y ∉ random := fun hmem =>
    absurd (hrandom y hmem).1 (not_le.mpr hy)
  constructor
  · exact List.not_mem_append (by decide) (hdigit _ (by decide))
  · exact List.not_mem_append (by decide) (hdigit _ (by decide))

/-- The location of a temporary file. -/
theorem locate_tempName {random : GoString} (hrandom : ∀ x ∈ random, 48 ≤ x ∧ x ≤ 57) :
    E.locate (tempName publicDir (.ofString "upload-") random) =
      E.wd ++ [publicName, .ofString "upload-" ++ random] := by
  obtain ⟨hslash, hdot⟩ := notMem_temp hrandom
  have hname : IsName (.ofString "upload-" ++ random) :=
    ⟨fun h => absurd (List.append_eq_nil_iff.mp h).1 (by decide), hslash,
      fun h => hdot (by rw [h]; decide), fun h => hdot (by rw [h]; decide)⟩
  have htemp : tempName publicDir (.ofString "upload-") random =
      publicDir ++ GoPath.slash :: (GoString.ofString "upload-" ++ random) := by
    unfold tempName
    rw [if_neg (by decide), if_neg (by decide)]
  have hpublic : GoPath.elements publicDir = [[GoPath.dot], publicName] := by decide
  have hupload : GoPath.elements (.ofString "upload-" ++ random) = [.ofString "upload-" ++ random] :=
    List.splitOn_eq_singleton hslash
  have habs : GoPath.isAbs (publicDir ++ GoPath.slash :: (GoString.ofString "upload-" ++ random)) =
      false := rfl
  rw [Env.locate, htemp, habs, if_neg Bool.false_ne_true, GoPath.elements_append_slash, hpublic,
    hupload, GoPath.evalElements]
  simp [GoPath.push_name hname, GoPath.push_name isName_publicName]

/-- The location of the directory. -/
theorem locate_publicDir : E.locate publicDir = E.wd ++ [publicName] := by
  have hpublic : GoPath.elements publicDir = [[GoPath.dot], publicName] := by decide
  have habs : GoPath.isAbs publicDir = false := rfl
  rw [Env.locate, habs, if_neg Bool.false_ne_true, hpublic, GoPath.evalElements]
  simp [GoPath.push_name isName_publicName]

/-- A temporary file has no allowed extension. -/
theorem tempName_not_visible {random : GoString} (hrandom : ∀ x ∈ random, 48 ≤ x ∧ x ≤ 57) :
    ¬ Visible E (E.locate (tempName publicDir (.ofString "upload-") random)) := by
  rintro ⟨below, name, hl, hallowed⟩
  rw [locate_tempName hrandom] at hl
  -- the last name of the location is the temporary name
  have hname : name = .ofString "upload-" ++ random := by
    have hlast := congrArg List.getLast? hl
    rw [List.getLast?_concat, List.append_cons, List.getLast?_concat] at hlast
    exact (Option.some.inj hlast).symm
  rw [hname, contentTypeForPath, GoPath.ext_eq_nil (notMem_temp hrandom).2] at hallowed
  exact absurd hallowed (by decide)

/-! ## The programs keep to the rules -/

/-- Reading a file returns what was read at the path that is resolved; with an error nothing was
read. -/
theorem wp_readFile (getwd : Except FileError GoString) (requestPath : GoString) :
    wp E C (readFile getwd requestPath)
      (fun own log' r => own = .idle ∧
        match r with
        | .error _ => log' = log
        | .ok data => ∃ diskPath, resolvePath getwd requestPath = .ok diskPath ∧
            log' = log ++ [.read (E.locate diskPath) data])
      .idle log := by
  unfold readFile
  split
  · exact ⟨rfl, rfl⟩
  · next diskPath hresolve =>
    refine ⟨fun err => ⟨rfl, rfl⟩, fun isDir => ?_⟩
    cases isDir with
    | true => exact ⟨rfl, rfl⟩
    | false =>
        refine ⟨rfl, fun err => ⟨rfl, rfl⟩, fun f hname _ => ⟨rfl, fun err => ?_, fun bytes => ?_⟩⟩
        · exact ⟨⟨rfl, rfl⟩, fun err => ⟨rfl, rfl⟩⟩
        · have hread : ∃ diskPath', resolvePath getwd requestPath = .ok diskPath' ∧
              log ++ [Entry.read (E.locate f.name) bytes] =
                log ++ [.read (E.locate diskPath') bytes] :=
            ⟨diskPath, hresolve, by rw [hname]⟩
          exact ⟨⟨rfl, hread⟩, fun err => ⟨rfl, hread⟩⟩

/-- Copying a body writes it to the temporary file; without an error it is written as a whole. -/
theorem wp_copy {f : OpenFile} {written : GoString} (hoffset : f.offset = written.length)
    (chunks : List GoString) (err : Option FileError) :
    wp E C (copy f chunks err)
      (fun own log' r => log' = log ∧ ∃ bytes, own = .holds f.name f.inode bytes ∧
        (r = none → err = none ∧ bytes = written ++ chunks.flatten))
      (.holds f.name f.inode written) log := by
  induction chunks generalizing f written with
  | nil => exact ⟨rfl, written, rfl, fun hr => ⟨hr, by simp⟩⟩
  | cons chunk chunks ih =>
      unfold copy
      split
      · next hnil =>
        subst hnil
        exact ih hoffset
      · refine ⟨written, rfl, hoffset, ?_, fun err' n hn => ?_⟩
        · have hoffset' : (f.advance chunk.length).offset = (written ++ chunk).length := by
            simp [OpenFile.advance, hoffset]
          have hrest := ih hoffset'
          rw [List.flatten_cons, ← List.append_assoc]
          exact hrest
        · exact ⟨rfl, _, rfl, fun hr => absurd hr (by simp)⟩

/-- Between the deferred calls the temporary file is published as a whole and the result is no
error, or it is kept and there is an error. -/
theorem wp_publishUpload {tmp : OpenFile} (hoffset : tmp.offset = 0) {reader : Body}
    {destination : GoString} (hvisible : C.visible (E.locate destination))
    (hpublishes : reader.err = none →
      C.publishes (E.locate destination) reader.chunks.flatten) :
    wp E C (publishUpload tmp reader destination)
      (fun own log' r =>
        own = .spent tmp.name ∧ (∃ l bytes, log' = log ++ [.published l bytes]) ∧ r = none ∨
          (∃ bytes, own = .holds tmp.name tmp.inode bytes) ∧ log' = log ∧ r ≠ none)
      (.holds tmp.name tmp.inode []) log := by
  refine wp_bind (wp_mono ?_ (wp_copy hoffset reader.chunks reader.err))
  rintro own log' r ⟨rfl, bytes, rfl, hbytes⟩
  have hkept (err : FileError) : (Own.holds tmp.name tmp.inode bytes = .spent tmp.name ∧
      (∃ l bytes, log' = log' ++ [.published l bytes]) ∧ some err = none) ∨
      (∃ bytes', Own.holds tmp.name tmp.inode bytes = .holds tmp.name tmp.inode bytes') ∧
        log' = log' ∧ some err ≠ none :=
    Or.inr ⟨⟨bytes, rfl⟩, rfl, by simp⟩
  cases r with
  | some err => exact hkept err
  | none =>
      obtain ⟨herr, rfl⟩ := hbytes rfl
      refine ⟨⟨⟨tmp.inode, _, rfl, hvisible, hpublishes herr, ?_, hkept⟩, hkept⟩, hkept⟩
      exact Or.inl ⟨rfl, ⟨_, _, rfl⟩, rfl⟩

/-- The log of an upload with a result. -/
def UploadLog (log : List (Entry Empty)) : Option Err → Prop
  | none => ∃ l bytes l', log = [.published l bytes, .removeFailed l']
  | some _ => ∀ e ∈ log, ∃ l, e = .removeFailed l

/-- An upload publishes one file and returns no error, or publishes nothing and returns one. -/
theorem wp_saveUploadedFile {reader : Body} {destination : GoString}
    (hhidden : ∀ random : GoString, (∀ x ∈ random, 48 ≤ x ∧ x ≤ 57) →
      ¬ C.visible (E.locate (tempName publicDir (.ofString "upload-") random)))
    (hvisible : C.visible (E.locate destination))
    (hpublishes : reader.err = none →
      C.publishes (E.locate destination) reader.chunks.flatten) :
    wp E C (saveUploadedFile reader destination)
      (fun own log r => own = .idle ∧ UploadLog log (r.map .os)) .idle [] := by
  have hnothing (err : FileError) : UploadLog [] ((some err).map .os) :=
    fun e he => absurd he List.not_mem_nil
  refine ⟨rfl, hhidden, fun err => ⟨rfl, hnothing err⟩, fun tmp hoffset => ?_⟩
  refine wp_bind (p := publishUpload tmp reader destination)
    (wp_mono ?_ (wp_publishUpload hoffset hvisible hpublishes))
  rintro own log' r (⟨rfl, ⟨l, bytes, rfl⟩, rfl⟩ | ⟨⟨bytes, rfl⟩, rfl, hr⟩)
  · -- the file was renamed: its temporary name is not found
    refine ⟨Or.inr rfl, fun err => ⟨?_, fun err' => ?_⟩⟩
    · exact ⟨rfl, l, bytes, _, rfl⟩
    · exact ⟨rfl, l, bytes, _, rfl⟩
  · obtain ⟨err, rfl⟩ := Option.ne_none_iff_exists'.mp hr
    have hfailed : UploadLog ([] ++ [.removeFailed (E.locate tmp.name)]) ((some err).map .os) :=
      fun e he => ⟨_, List.mem_singleton.mp he⟩
    refine ⟨Or.inl ⟨⟨tmp.inode, bytes, rfl⟩, ?_⟩, fun err' => ?_⟩
    · exact ⟨⟨rfl, hnothing err⟩, fun err' => ⟨rfl, hnothing err⟩⟩
    · exact ⟨⟨rfl, hfailed⟩, fun err'' => ⟨rfl, hfailed⟩⟩

/-- A POST request publishes one file and returns no error, or publishes nothing and returns one. -/
theorem wp_writeFile (hwd : ∀ c ∈ E.wd, IsName c) {job : Job}
    (hpost : job.request.method = .ofString "POST") :
    wp E (uploadContract E job) (writeFile (job.getwd E) job.request.path job.body)
      (fun own log r => own = .idle ∧ UploadLog log r) .idle [] := by
  have hquiet (err : Err) : Own.idle = .idle ∧ UploadLog [] (some err) :=
    ⟨rfl, fun e he => absurd he List.not_mem_nil⟩
  unfold writeFile
  dsimp only
  split
  · exact hquiet _
  · next hfilename =>
    split
    · exact hquiet _
    · next type htype =>
      split
      · exact hquiet _
      · next destination hdestination =>
        have hallowed : (contentTypeForPath (base job.request.path)).isSome := by rw [htype]; rfl
        obtain ⟨-, hname, rfl⟩ := upload_destination hwd hfilename hallowed hdestination
        have hlocate : E.locate (absolute (E.wd ++ [publicName, base job.request.path])) =
            E.wd ++ [publicName, base job.request.path] :=
          E.locate_absolute (List.forall_mem_append.mpr ⟨hwd, by simp [isName_publicName, hname]⟩)
        refine wp_bind (p := saveUploadedFile job.body _) (wp_mono (fun own log r h => h)
          (wp_saveUploadedFile (fun random => tempName_not_visible) ?_ fun herr => ?_))
        · exact ⟨[], _, hlocate.trans (List.append_cons _ _ _), hallowed⟩
        · exact ⟨hpost, herr, rfl, hlocate⟩

/-! ## What a request is answered with -/

/-- The status of an error response: that of a file error, or that of a method without a handler. -/
def ErrorStatus (job : Job) (status : StatusCode) : Prop :=
  status ∈ fileErrorStatuses ∨
    status = .notImplemented ∧ job.request.method ≠ .ofString "GET"

theorem ErrorStatus.badRequest_le {job : Job} {status : StatusCode} (h : ErrorStatus job status) :
    .badRequest ≤ status := by
  rcases h with hmem | ⟨rfl, -⟩
  · exact badRequest_le_of_mem status hmem
  · decide

/-- What a request is answered with after a log. -/
inductive Replied (E : Env) (job : Job) : List (Entry Empty) → Response → Prop
  /-- The page that was read, at the file that the path resolves to. -/
  | page (type diskPath bytes : GoString) (hget : job.request.method = .ofString "GET")
      (htype : contentTypeForPath job.request.path = some type)
      (hresolve : resolvePath (job.getwd E) job.request.path = .ok diskPath) :
      Replied E job [.read (E.locate diskPath) bytes] (pageResponse job type bytes)
  /-- An upload that was published. -/
  | created (l l' : Location) (bytes : GoString)
      (hpost : job.request.method = .ofString "POST") :
      Replied E job [.published l bytes, .removeFailed l'] (createdResponse job)
  /-- An error; nothing was read or published. -/
  | error (log : List (Entry Empty)) (status : StatusCode) (hstatus : ErrorStatus job status)
      (hlog : ∀ e ∈ log, ∃ l, e = .removeFailed l) : Replied E job log (errorResponse status)

/-- **The handlers keep to the rules**, and answer for what they have read and published. -/
theorem wp_replied (hwd : ∀ c ∈ E.wd, IsName c) (job : Job) :
    wp E (uploadContract E job) (serve E job)
      (fun own log response => own = .idle ∧ Replied E job log response) .idle [] := by
  have hquiet {status : StatusCode} (hstatus : ErrorStatus job status) :
      Own.idle = .idle ∧ Replied E job [] (errorResponse status) :=
    ⟨rfl, .error [] status hstatus fun e he => absurd he List.not_mem_nil⟩
  unfold serve respond handleRequest
  dsimp only
  split
  · exact hquiet (Or.inl (by decide))
  · unfold handlers
    split
    · next hnone =>
      refine hquiet (Or.inr ⟨rfl, fun hget => ?_⟩)
      rw [if_pos hget] at hnone
      exact absurd hnone (by simp)
    · next handler hhandler =>
      split at hhandler
      · -- a GET request reads a file
        next hget =>
        obtain rfl := Option.some.inj hhandler
        unfold getHandler
        split
        · exact hquiet (Or.inl (by decide))
        · next type htype =>
          refine wp_bind (wp_bind (wp_bind (wp_mono ?_ (wp_readFile _ _))))
          rintro own log (err | data) ⟨rfl, hlog⟩
          · subst hlog
            exact hquiet (Or.inl (statusFromFileError_mem err))
          · obtain ⟨diskPath, hresolve, rfl⟩ := hlog
            exact ⟨rfl, .page type diskPath data hget htype hresolve⟩
      · split at hhandler
        · -- a POST request may publish one
          next hpost =>
          obtain rfl := Option.some.inj hhandler
          refine wp_bind (wp_bind (wp_bind (wp_mono ?_ (wp_writeFile hwd hpost))))
          rintro own log (_ | err) ⟨rfl, hlog⟩
          · obtain ⟨l, bytes, l', rfl⟩ := hlog
            exact ⟨rfl, .created l l' bytes hpost⟩
          · exact ⟨rfl, .error log _ (Or.inl (statusFromFileError_mem err)) hlog⟩
        · exact absurd hhandler (by simp)

/-- The requests as a discipline of publishing files, with how they are answered. -/
def replies (hwd : ∀ c ∈ E.wd, IsName c) : Discipline E Empty Empty Job Response where
  visible := Visible E
  prog := serve E
  publishes := Publishes E
  mayCall _ _ _ := False
  returns := Replied E
  safe := wp_replied hwd

/-- A request that has published a file is answered with `201 Created`. -/
theorem Replied.statusCode_of_published {job : Job} {response : Response}
    (h : Replied E job log response) {l : Location} {bytes : GoString}
    (hmem : .published l bytes ∈ log) : response.statusCode = .created := by
  cases h with
  | page type diskPath bytes' => simp at hmem
  | created => rfl
  | error _ status hstatus hlog =>
      obtain ⟨l', hl'⟩ := hlog _ hmem
      exact absurd hl' (by simp)

/-! ## Atomic uploads -/

/-- **Uploads are atomic.** In every run of any number of requests, each made of single file
operations that may fail:

* a file of `./public` with an allowed extension is as it was at the start (and absent if it was),
  or it has the complete body of a POST request whose path has its base name: none is removed;
* a step of a request that is then not answered with `201 Created` changes no such file;
* when every request is answered, a temporary file is left only where its removal failed. -/
theorem uploads_atomic (hwd : ∀ c ∈ E.wd, IsName c) {w₀ : World} (hfresh : w₀.Fresh) :
    (∀ s l, (pool E (serve E) w₀).Reachable s → Visible E l →
      s.world.content l = w₀.content l ∨
        ∃ i t bytes, s.threads i = some t ∧ Publishes E t.job l bytes ∧
          s.world.content l = some bytes) ∧
    (∀ s a s' as s'' t response l, (pool E (serve E) w₀).Reachable s →
      (pool E (serve E) w₀).step s a = some s' → (pool E (serve E) w₀).exec s' as = some s'' →
      s''.threads a.thread = some t → t.rest = .ret response → response.statusCode ≠ .created →
      Visible E l → s'.world.content l = s.world.content l) ∧
    (∀ s l, (pool E (serve E) w₀).Reachable s →
      (∀ i t, s.threads i = some t → ∃ response, t.rest = .ret response) →
      l ∈ s.world.used → s.world.node l ≠ none →
        ∃ i t, s.threads i = some t ∧ .removeFailed l ∈ t.log) := by
  refine ⟨fun s l hs hl => ?_, ?_, fun s l hs hreturned => ?_⟩
  · rcases (replies hwd).content_initial_or_published hfresh hs hl with
      heq | ⟨i, t, bytes, ht, -, hpublishes, hcontent⟩
    · exact Or.inl heq
    · exact Or.inr ⟨i, t, bytes, ht, hpublishes, hcontent⟩
  · intro s a s' as s'' t response l hs ha has ht hrest hstatus hl
    rcases (replies hwd).content_step hfresh hs ha hl with heq | ⟨t', bytes, ht', hmem, -⟩
    · exact heq
    · -- the thread has published the file, so it answers with `201 Created`
      obtain ⟨t'', ht'', -, hlog⟩ := Pool.exec_thread has ht'
      obtain rfl := Option.some.inj (ht.symm.trans ht'')
      have hs'' := (hs.step ha).exec has
      have hreplied : Replied E t.job t.log response := (replies hwd).returned hfresh hs'' ht hrest
      exact absurd (hreplied.statusCode_of_published (hlog.subset hmem)) hstatus
  · exact (replies hwd).leftover hfresh hs hreturned

/-- A server in `/srv`, with `a.html` in its `./public`. -/
def exampleServer : Env := { wd := [.ofString "srv"] }

/-- The file system of that server. -/
def exampleWorld : World where
  node l :=
    if l = [] ∨ l = [.ofString "srv"] ∨ l = [.ofString "srv", .ofString "public"] then some .dir
    else if l = [.ofString "srv", .ofString "public", .ofString "a.html"] then some (.file 0)
    else none
  data _ := .ofString "old"
  next := 1

/-- The inode of `a.html` was allocated. -/
theorem exampleWorld_bound {l : Location} {inode : ℕ}
    (h : exampleWorld.node l = some (.file inode)) : inode < exampleWorld.next := by
  unfold exampleWorld at h
  dsimp only at h
  split at h
  · exact absurd h (by simp)
  · split at h
    · obtain rfl : 0 = inode := by simpa using h
      exact Nat.zero_lt_one
    · exact absurd h (by simp)

/-- A request to that server. -/
def exampleJob (method path : GoString) (body : Body) : Job where
  request :=
    { method := method, proto := .ofString "HTTP/1.1", path := path, urlHost := [],
      host := .ofString "localhost" }
  body := body

/-- An upload of `a.html`. -/
def exampleUpload (body : Body) : Job :=
  exampleJob (.ofString "POST") (.ofString "/a.html") body

/-- Two uploads of one file at the same time: the body of the first breaks off, the second is
published, and the first is answered with an error. -/
def exampleUploads : List (Label Empty Job) :=
  [.start 0 (exampleUpload ⟨[.ofString "par"], some ⟨.other, .ofString "unexpected EOF"⟩⟩),
    .start 1 (exampleUpload ⟨[.ofString "ne", .ofString "w"], none⟩),
    .step 0 (.temp (.ofString "1")), .step 1 (.temp (.ofString "2")), .step 1 .done, .step 0 .done,
    .step 1 .done, .step 1 .done, .step 1 .done, .step 1 .done, .step 0 .done, .step 0 .done,
    .step 1 (.fail .noEntry 0), .step 1 .done]

/-- Both uploads are answered, and `a.html` has the complete body of the second one. -/
theorem uploads_atomic_two :
    exampleWorld.Fresh ∧ ∃ s, (pool exampleServer (serve exampleServer) exampleWorld).Reachable s ∧
      s.world.content [.ofString "srv", publicName, .ofString "a.html"] =
        some (.ofString "new") ∧
      ∃ i t, s.threads i = some t ∧ Publishes exampleServer t.job
        [.ofString "srv", publicName, .ofString "a.html"] (.ofString "new") := by
  have hwd : ∀ c ∈ exampleServer.wd, IsName c := by decide
  have hfresh : exampleWorld.Fresh := ⟨rfl, exampleWorld_bound⟩
  have hrun : ((pool exampleServer (serve exampleServer) exampleWorld).exec
      { world := exampleWorld } exampleUploads).map
        (fun s => s.world.content [.ofString "srv", publicName, .ofString "a.html"]) =
      some (some (.ofString "new")) := by
    decide +kernel
  obtain ⟨s, hs, hcontent⟩ := Option.map_eq_some_iff.mp hrun
  have hreachable : (pool exampleServer (serve exampleServer) exampleWorld).Reachable s :=
    ⟨exampleUploads, hs⟩
  have hvisible : Visible exampleServer [.ofString "srv", publicName, .ofString "a.html"] :=
    ⟨[], .ofString "a.html", rfl, by decide⟩
  rcases (uploads_atomic hwd hfresh).1 s _ hreachable hvisible with
    hold | ⟨i, t, bytes, ht, hpublishes, hbytes⟩
  · exact absurd (hcontent.symm.trans hold) (by decide)
  · obtain rfl : .ofString "new" = bytes := Option.some.inj (hcontent.symm.trans hbytes)
    exact ⟨hfresh, s, hreachable, hcontent, i, t, ht, hpublishes⟩

end DistributedSystems.HttpServer
