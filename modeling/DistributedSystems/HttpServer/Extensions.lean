import DistributedSystems.HttpServer.UploadSafety

/-! # Only files with allowed extensions are used

The handlers check the extension of the text of a path, and use the file that the path resolves to.
`resolvePath_last` and `writeFile_cases` say that this file has the extension that was checked, for
every path. What follows for the server, while any number of requests are served, is
`extension_check_agrees`: a file without an allowed extension is never served, and never changed,
apart from the temporary file of an upload by the upload itself. -/

namespace DistributedSystems.HttpServer

open FileSystem Http
open GoPath (IsName absolute elements)

variable {E : Env}

/-- The file that a path with an allowed extension resolves to is one that may be served. -/
theorem visible_of_resolvePath (hwd : ∀ c ∈ E.wd, IsName c) {job : Job} {p type diskPath : GoString}
    (htype : contentTypeForPath p = some type)
    (h : resolvePath (job.getwd E) p = .ok diskPath) :
    Visible E (E.locate diskPath) ∧ contentTypeForPath diskPath = some type := by
  rw [(getwd_of_resolvePath h).2] at h
  obtain ⟨below, last, -, hlast, hnames, rfl⟩ := resolvePath_of_contentType hwd htype h
  constructor
  · refine ⟨below, last, ?_, by rw [hlast]; rfl⟩
    rw [E.locate_absolute (List.forall_mem_append.mpr ⟨hwd, hnames⟩)]
    simp
  · exact (resolvePath_last (GoPath.isAbs_absolute _) htype h).2.1

section Replied

variable {job : Job} {log : List (Entry Empty)} {response : Response}

/-- Only a file that may be served is read. -/
theorem Replied.visible_of_read (h : Replied E job log response) (hwd : ∀ c ∈ E.wd, IsName c)
    {l : Location} {bytes : GoString} (hmem : .read l bytes ∈ log) : Visible E l := by
  cases h with
  | page type diskPath bytes' hget htype hresolve =>
      obtain ⟨rfl, -⟩ := Entry.read.inj (List.mem_singleton.mp hmem)
      exact (visible_of_resolvePath hwd htype hresolve).1
  | created l l' bytes' => simp at hmem
  | error _ status hstatus hlog =>
      obtain ⟨l', hl'⟩ := hlog _ hmem
      exact absurd hl' (by simp)

/-- The response `200 OK` has what was read, with the content type of the path. -/
theorem Replied.served (h : Replied E job log response) (hok : response.statusCode = .ok) :
    ∃ type diskPath, contentTypeForPath job.request.path = some type ∧
      resolvePath (job.getwd E) job.request.path = .ok diskPath ∧
      .read (E.locate diskPath) response.body ∈ log ∧
      response.headers[contentType]? = some [type] := by
  cases h with
  | page type diskPath bytes hget htype hresolve =>
      refine ⟨type, diskPath, htype, hresolve, List.mem_singleton_self _, ?_⟩
      exact Std.TreeMap.getElem?_insert_self
  | created => exact absurd hok (show StatusCode.created ≠ .ok by decide)
  | error _ status hstatus hlog =>
      have hle := hstatus.badRequest_le
      rw [show status = .ok from hok] at hle
      exact absurd hle (by decide)

/-- The other responses have no body. -/
theorem Replied.bodiless (h : Replied E job log response) (hne : response.statusCode ≠ .ok) :
    response.body = [] := by
  cases h with
  | page => exact absurd rfl hne
  | created => rfl
  | error => rfl

end Replied

/-- **The extension check agrees with the file that is used.** For every path, the file that a GET
request opens has the last element of the path and the content type that is sent, and is not
`./public`; a POST request saves to a file in `./public` itself with an allowed extension, if it
saves at all. In every run of any number of requests, each made of single file operations that may
fail:

* a response has the contents of a file with an allowed extension, with its content type, or no
  body, and no other file is read for it;
* a file without an allowed extension that was there at the start is never changed;
* a file without an allowed extension is changed only by the request that made it, as the temporary
  file of its upload; temporary files have no allowed extension. -/
theorem extension_check_agrees (hwd : ∀ c ∈ E.wd, IsName c) {w₀ : World} (hfresh : w₀.Fresh) :
    (∀ wd p type q, GoPath.isAbs wd = true → contentTypeForPath p = some type →
      resolvePath (.ok wd) p = .ok q →
        (elements q).getLast? = (elements p).getLast? ∧ contentTypeForPath q = some type ∧
        GoPath.abs (.ok wd : Except FileError GoString) publicDir ≠ .ok q) ∧
    (∀ wd p body, GoPath.isAbs wd = true →
      (∃ err, writeFile (.ok wd) p body = pure (some err)) ∨
      ∃ absBase name, GoPath.abs (.ok wd : Except FileError GoString) publicDir = .ok absBase ∧
        GoPath.slash ∉ name ∧ (contentTypeForPath (absBase ++ GoPath.slash :: name)).isSome ∧
        writeFile (.ok wd) p body =
          saveUploadedFile body (absBase ++ GoPath.slash :: name) >>= fun err =>
            pure (err.map .os)) ∧
    (∀ s i t response, (pool E (serve E) w₀).Reachable s → s.threads i = some t →
      t.rest = .ret response →
        (∀ l bytes, .read l bytes ∈ t.log → Visible E l) ∧
        (response.statusCode = .ok → ∃ q type,
          resolvePath (t.job.getwd E) t.job.request.path = .ok q ∧
          .read (E.locate q) response.body ∈ t.log ∧ contentTypeForPath q = some type ∧
          response.headers[contentType]? = some [type]) ∧
        (response.statusCode ≠ .ok → response.body = [])) ∧
    (∀ s l bytes, (pool E (serve E) w₀).Reachable s → ¬ Visible E l →
      w₀.content l = some bytes → s.world.content l = some bytes) ∧
    (∀ as s a s' l bytes,
      (pool E (serve E) w₀).exec (pool E (serve E) w₀).init as = some s →
      (pool E (serve E) w₀).step s a = some s' → ¬ Visible E l →
      s.world.content l = some bytes → ¬ Pool.Made E (serve E) w₀ as a.thread l →
        s'.world.content l = some bytes) ∧
    (∀ random : GoString, (∀ x ∈ random, 48 ≤ x ∧ x ≤ 57) →
      ¬ Visible E (E.locate (tempName publicDir (.ofString "upload-") random))) := by
  refine ⟨?_, ?_, ?_, ?_, ?_, fun random hrandom => tempName_not_visible hrandom⟩
  · intro wd p type q habs htype hresolve
    exact resolvePath_last habs htype hresolve
  · intro wd p body habs
    exact writeFile_cases habs p body
  · intro s i t response hs ht hrest
    have hreplied : Replied E t.job t.log response := (replies hwd).returned hfresh hs ht hrest
    refine ⟨fun l bytes hread => hreplied.visible_of_read hwd hread, fun hok => ?_,
      hreplied.bodiless⟩
    obtain ⟨type, q, htype, hresolve, hread, hheader⟩ := hreplied.served hok
    exact ⟨q, type, hresolve, hread, (visible_of_resolvePath hwd htype hresolve).2, hheader⟩
  · intro s l bytes hs hl hcontent
    exact (replies hwd).hidden_initial hfresh hs hl hcontent
  · intro as s a s' l bytes hs ha hl hcontent hmade
    exact (replies hwd).hidden_step hfresh hs ha hl hcontent hmade

/-- A GET request for `a.html`, by a path with `..`, while an upload of it is in progress. -/
def exampleRead : List (Label Empty Job) :=
  [.start 0 (exampleUpload ⟨[.ofString "new"], none⟩), .step 0 (.temp (.ofString "1")),
    .step 0 .done,
    .start 1 (exampleJob (.ofString "GET") (.ofString "/upload-1/../a.html") ⟨[], none⟩),
    .step 1 .done, .step 1 .done, .step 1 .done, .step 1 .done]

/-- The response of a thread that has returned. -/
def responseOf (s : Pool Empty Empty Job Response) (i : ℕ) : Option Response :=
  match s.threads i with
  | some ⟨_, .ret response, _, _⟩ => some response
  | _ => none

theorem exists_of_responseOf {s : Pool Empty Empty Job Response} {i : ℕ} {response : Response}
    (h : responseOf s i = some response) : ∃ t, s.threads i = some t ∧ t.rest = .ret response := by
  unfold responseOf at h
  split at h
  · next ht => exact ⟨_, ht, congrArg Prog.ret (Option.some.inj h)⟩
  · exact absurd h (by simp)

theorem extension_check_agrees_read :
    exampleWorld.Fresh ∧
      ∃ s t response, (pool exampleServer (serve exampleServer) exampleWorld).Reachable s ∧
        s.threads 1 = some t ∧ t.rest = .ret response ∧ response.body = .ofString "old" ∧
        (∀ l bytes, .read l bytes ∈ t.log → Visible exampleServer l) ∧
        ∃ q type, contentTypeForPath q = some type ∧
          response.headers[contentType]? = some [type] := by
  have hwd : ∀ c ∈ exampleServer.wd, IsName c := by decide
  have hfresh : exampleWorld.Fresh := ⟨rfl, exampleWorld_bound⟩
  have hrun : ((pool exampleServer (serve exampleServer) exampleWorld).exec
      { world := exampleWorld } exampleRead).map
        (fun s => (responseOf s 1).map fun response => (response.statusCode, response.body)) =
      some (some (.ok, .ofString "old")) := by
    decide +kernel
  obtain ⟨s, hs, hresponse⟩ := Option.map_eq_some_iff.mp hrun
  obtain ⟨response, hreturned, hok⟩ := Option.map_eq_some_iff.mp hresponse
  obtain ⟨hstatus, hbody⟩ := Prod.mk.inj hok
  have hreachable : (pool exampleServer (serve exampleServer) exampleWorld).Reachable s :=
    ⟨exampleRead, hs⟩
  unfold responseOf at hreturned
  split at hreturned
  · next job response' crashed log ht =>
    obtain rfl := Option.some.inj hreturned
    obtain ⟨hvisible, hserved, -⟩ :=
      (extension_check_agrees hwd hfresh).2.2.1 s 1 _ response' hreachable ht rfl
    obtain ⟨q, type, -, -, htype, hheader⟩ := hserved hstatus
    exact ⟨hfresh, s, _, response', hreachable, ht, rfl, hbody, hvisible, q, type, htype, hheader⟩
  · exact absurd hreturned (by simp)

end DistributedSystems.HttpServer
