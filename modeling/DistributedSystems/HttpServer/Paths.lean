import DistributedSystems.GoLang.Path
import DistributedSystems.Storage.FileSystem

/-! # Request paths of the file server

`contentTypeForPath` and `resolvePath` of `http_server/files.go`. `resolvePath` maps a request path
to a file below `./public`: the path is cleaned from the root, joined to the directory, made
absolute, and refused when its path relative to the directory starts with `..`.

* `components` — the request path evaluated from the root;
* `resolvePath_eq` — what `resolvePath` returns;
* `resolvePath_inside` — whatever it returns lies below `./public`, at the components of the
  request path;
* `guardExact_iff` — it refuses more than the paths that leave the directory: those whose first
  component starts with two dots. -/

namespace DistributedSystems.HttpServer

open FileSystem (FileError ErrorKind)
open GoPath

/-- `publicDir`. -/
def publicDir : GoString := .ofString "./public"

/-- `allowedContentTypes`. -/
def allowedContentTypes : List (GoString × GoString) :=
  [(.ofString ".html", .ofString "text/html"),
    (.ofString ".txt", .ofString "text/plain"),
    (.ofString ".css", .ofString "text/css"),
    (.ofString ".jpg", .ofString "image/jpeg"),
    (.ofString ".jpeg", .ofString "image/jpeg"),
    (.ofString ".gif", .ofString "image/gif")]

/-- `contentTypeForPath`. -/
def contentTypeForPath (p : GoString) : Option GoString :=
  allowedContentTypes.lookup (ext p).toLower

/-- `os.ErrPermission`. -/
def errPermission : FileError := ⟨.permission, .ofString "permission denied"⟩

/-- `os.ErrInvalid`. -/
def errInvalid : FileError := ⟨.invalid, .ofString "invalid argument"⟩

/-- `resolvePath`, with the result of `os.Getwd` that the calls of `filepath.Abs` see. -/
def resolvePath (getwd : Except FileError GoString) (requestPath : GoString) :
    Except FileError GoString :=
  let cleaned := clean (slash :: requestPath)
  let cleaned := cleaned.trimPrefix [slash]
  let fullPath := join publicDir cleaned
  match abs getwd publicDir with
  | .error err => .error err
  | .ok absBase =>
      match abs getwd fullPath with
      | .error err => .error err
      | .ok absFull =>
          match rel absBase absFull with
          | .error text => .error ⟨.other, text⟩
          | .ok rel => if rel.hasPrefix [dot, dot] then .error errPermission else .ok absFull

/-- Without a working directory no path is resolved. -/
theorem resolvePath_error (err : FileError) (requestPath : GoString) :
    resolvePath (.error err) requestPath = .error err := by
  have hbase : abs (.error err : Except FileError GoString) publicDir = .error err := by
    rw [GoPath.abs, if_neg (by decide)]
  rw [resolvePath, hbase]

/-! ## The request path from the root -/

/-- The components of a request path, evaluated from the root: empty components and `.` are
skipped, and `..` takes the last component back, if there is one. -/
def components (requestPath : GoString) : List GoString :=
  (evalElements true [] (elements requestPath)).reverse

/-- The components are names. -/
theorem isName_components {requestPath : GoString} : ∀ c ∈ components requestPath, IsName c := by
  intro c hc
  exact isName_of_mem_eval slash_notMem_elements (by simp) c (List.mem_reverse.mp hc)

/-- The name of the directory. -/
def publicName : GoString := .ofString "public"

theorem isName_publicName : IsName publicName := by
  refine ⟨?_, ?_, ?_, ?_⟩ <;> decide

/-- `cleaned` of `resolvePath`. -/
theorem trim_clean (requestPath : GoString) :
    (clean (slash :: requestPath)).trimPrefix [slash] = joinElements (components requestPath) := by
  rw [clean_rooted rfl, elements_cons_slash]
  rfl

/-- `fullPath` of `resolvePath`. -/
theorem join_publicDir {names : List GoString} (h : ∀ c ∈ names, IsName c) :
    join publicDir (joinElements names) = joinElements (publicName :: names) := by
  have hpublic : evalElements false [] (elements publicDir) = [publicName] := by decide
  rw [join, if_pos (by decide)]
  refine clean_unrooted rfl ?_ ?_
  · rw [elements_append_slash, evalElements_append, hpublic, evalElements_joinElements h,
      List.reverse_cons]
  · by_cases hnil : names = []
    · subst hnil
      decide
    · rw [joinElements_cons hnil]
      simp

variable {wd : List GoString}

/-- `absBase` of `resolvePath`, in a working directory given by names. -/
theorem abs_publicDir (hwd : ∀ c ∈ wd, IsName c) :
    abs (.ok (absolute wd) : Except FileError GoString) publicDir =
      .ok (absolute (wd ++ [publicName])) := by
  have hjoin : join (absolute wd) publicDir = absolute (wd ++ [publicName]) := by
    have hpublic : elements publicDir = [[dot], publicName] := by decide
    rw [join_absolute hwd, hpublic, evalElements, List.foldl_cons, push_dot, List.foldl_cons,
      push_name isName_publicName, List.foldl_nil, List.reverse_cons, List.reverse_reverse]
  rw [GoPath.abs, if_neg (by decide), hjoin]

/-- **What `resolvePath` returns**: the path of the components below `./public`, unless the first
one starts with `..`. -/
theorem resolvePath_eq (hwd : ∀ c ∈ wd, IsName c) (requestPath : GoString) :
    resolvePath (.ok (absolute wd)) requestPath =
      if (joinElements (components requestPath)).hasPrefix [dot, dot] then .error errPermission
      else .ok (absolute (wd ++ publicName :: components requestPath)) := by
  have hnames : ∀ c ∈ publicName :: components requestPath, IsName c :=
    List.forall_mem_cons.mpr ⟨isName_publicName, isName_components⟩
  have hbase : ∀ c ∈ wd ++ [publicName], IsName c :=
    List.forall_mem_append.mpr ⟨hwd, by simpa using isName_publicName⟩
  have hfull : absolute (wd ++ publicName :: components requestPath) =
      absolute ((wd ++ [publicName]) ++ components requestPath) := by rw [List.append_cons]
  unfold resolvePath
  simp only [trim_clean, join_publicDir isName_components, abs_publicDir hwd,
    abs_of_names hwd hnames (List.cons_ne_nil _ _), hfull, rel_of_names hbase isName_components]
  by_cases hnil : components requestPath = []
  · simp [hnil, GoString.hasPrefix]
  · rw [if_neg hnil]

/-! ## File names -/

/-- An element with an allowed extension is a name. -/
theorem isName_of_contentType {name : GoString} (hslash : slash ∉ name)
    (h : (contentTypeForPath name).isSome) : IsName name := by
  refine ⟨?_, hslash, ?_, ?_⟩ <;> rintro rfl <;> exact absurd h (by decide)

/-- A name has itself as its only component. -/
theorem components_of_isName {name : GoString} (h : IsName name) : components name = [name] := by
  have helements : elements name = [name] := List.splitOn_eq_singleton h.not_mem
  rw [components, helements, evalElements, List.foldl_cons, push_name h]
  rfl

/-- What `writeFile` resolves a file name to. -/
theorem resolvePath_of_isName (hwd : ∀ c ∈ wd, IsName c) {name result : GoString} (h : IsName name)
    (hresult : resolvePath (.ok (absolute wd)) name = .ok result) :
    result = absolute (wd ++ [publicName, name]) := by
  rw [resolvePath_eq hwd, components_of_isName h] at hresult
  split at hresult
  · exact absurd hresult (by simp)
  · exact (Except.ok.inj hresult).symm

/-! ## Containment -/

/-- **Whatever `resolvePath` returns lies below `./public`**: it is the absolute path of the
directory followed by the components of the request path, evaluated from the root, and has no
element `..`. -/
theorem resolvePath_inside {wd : GoString} (habs : isAbs wd = true) (hclean : clean wd = wd)
    {requestPath result : GoString} (h : resolvePath (.ok wd) requestPath = .ok result) :
    ∃ absBase, abs (.ok wd : Except FileError GoString) publicDir = .ok absBase ∧
      result = absBase ++ (components requestPath).flatMap (slash :: ·) ∧
      (∀ c ∈ components requestPath, IsName c) ∧ [dot, dot] ∉ elements result := by
  obtain ⟨names, hnames, rfl⟩ := exists_names_of_clean habs hclean
  have hall : ∀ c ∈ names ++ publicName :: components requestPath, IsName c :=
    List.forall_mem_append.mpr
      ⟨hnames, List.forall_mem_cons.mpr ⟨isName_publicName, isName_components⟩⟩
  rw [resolvePath_eq hnames] at h
  split at h
  · exact absurd h (by simp)
  · obtain rfl := Except.ok.inj h
    refine ⟨_, abs_publicDir hnames, ?_, isName_components, ?_⟩
    · rw [List.append_cons, absolute_append (by simp)]
    · intro hmem
      rw [elements_absolute hall (by simp)] at hmem
      rcases List.mem_cons.mp hmem with hnil | hmem
      · exact absurd hnil (by simp)
      · exact (hall _ hmem).ne_dotdot rfl

/-- A request path with every kind of component, in the working directory `/srv`. -/
theorem resolvePath_inside_dotted :
    ∃ absBase, abs (.ok (.ofString "/srv") : Except FileError GoString) publicDir = .ok absBase ∧
      .ofString "/srv/public/b/c.html" =
        absBase ++ (components (.ofString "/../a/../b//./c.html")).flatMap (slash :: ·) ∧
      (∀ c ∈ components (.ofString "/../a/../b//./c.html"), IsName c) ∧
      [dot, dot] ∉ elements (.ofString "/srv/public/b/c.html") :=
  resolvePath_inside (by decide) (by decide) (by decide +kernel)

/-! ## The file that is used

The extension is checked on the text of the request path, and the file is opened by its components.
Both have the same last element, since an element with an allowed extension is a name. -/

/-- The components of a path end with its last element, if that is a name. -/
theorem components_of_last {p last : GoString} {init : List GoString}
    (hp : elements p = init ++ [last]) (h : IsName last) :
    components p = (evalElements true [] init).reverse ++ [last] := by
  rw [components, hp, evalElements_append]
  show (push true _ last).reverse = _
  rw [push_name h, List.reverse_cons]

/-- What `resolvePath` returns for a path with an allowed extension ends with its last element. -/
theorem resolvePath_of_contentType (hwd : ∀ c ∈ wd, IsName c) {p type result : GoString}
    (htype : contentTypeForPath p = some type)
    (h : resolvePath (.ok (absolute wd)) p = .ok result) :
    ∃ below last, (elements p).getLast? = some last ∧ contentTypeForPath last = some type ∧
      (∀ c ∈ publicName :: (below ++ [last]), IsName c) ∧
      result = absolute (wd ++ publicName :: (below ++ [last])) := by
  obtain ⟨init, last, hp, hext⟩ := exists_last p
  have hlast : contentTypeForPath last = some type := by
    rw [← htype, contentTypeForPath, contentTypeForPath, hext]
  have hmem : last ∈ elements p := by
    rw [hp]
    exact List.mem_append_right init (List.mem_singleton_self last)
  have hname : IsName last :=
    isName_of_contentType (slash_notMem_elements last hmem) (by rw [hlast]; rfl)
  have hcomponents := components_of_last hp hname
  refine ⟨(evalElements true [] init).reverse, last, ?_, hlast, ?_, ?_⟩
  · rw [hp, List.getLast?_concat]
  · rw [← hcomponents]
    exact List.forall_mem_cons.mpr ⟨isName_publicName, isName_components⟩
  · rw [resolvePath_eq hwd, hcomponents] at h
    split at h
    · exact absurd h (by simp)
    · exact (Except.ok.inj h).symm

/-- `resolvePath` does not depend on the working directory being clean. -/
theorem resolvePath_clean {wd : GoString} (h : isAbs wd = true) (requestPath : GoString) :
    resolvePath (.ok (clean wd)) requestPath = resolvePath (.ok wd) requestPath := by
  simp only [resolvePath, abs_clean h]

/-- **The extension check agrees with the file that is used**: the path that is resolved has the
last element of the request path and the content type found for it, and is not `./public`. -/
theorem resolvePath_last {wd p type result : GoString} (habs : isAbs wd = true)
    (htype : contentTypeForPath p = some type) (h : resolvePath (.ok wd) p = .ok result) :
    (elements result).getLast? = (elements p).getLast? ∧ contentTypeForPath result = some type ∧
      abs (.ok wd : Except FileError GoString) publicDir ≠ .ok result := by
  obtain ⟨names, hnames, hclean⟩ := exists_names_of_isAbs habs
  rw [← resolvePath_clean habs, hclean] at h
  obtain ⟨below, last, hlast, htype', hbelow, rfl⟩ := resolvePath_of_contentType hnames htype h
  have helements : elements (absolute (names ++ publicName :: (below ++ [last]))) =
      ([] :: (names ++ publicName :: below)) ++ [last] := by
    rw [elements_absolute (List.forall_mem_append.mpr ⟨hnames, hbelow⟩) (by simp)]
    simp
  refine ⟨?_, ?_, ?_⟩
  · rw [helements, List.getLast?_concat, hlast]
  · rw [← htype', contentTypeForPath, contentTypeForPath, ext_of_elements helements]
  · -- the file is below the directory
    have hfull : absolute (names ++ publicName :: (below ++ [last])) =
        absolute (names ++ [publicName]) ++ (below ++ [last]).flatMap (slash :: ·) := by
      rw [List.append_cons]
      exact absolute_append (by simp) _
    rw [← abs_clean habs, hclean, abs_publicDir hnames, hfull]
    intro heq
    exact absurd (List.append_right_eq_self.mp (Except.ok.inj heq).symm) (by simp)

/-! ## What the guard refuses -/

/-- `absFull` of `resolvePath`: the request path, resolved by its text alone. -/
def absFull (getwd : Except FileError GoString) (requestPath : GoString) :
    Except FileError GoString :=
  abs getwd (join publicDir ((clean (slash :: requestPath)).trimPrefix [slash]))

/-- The request path, resolved by its text alone, lies outside `./public`. -/
def Escapes (wd requestPath : GoString) : Prop :=
  ∃ base full relative, abs (.ok wd : Except FileError GoString) publicDir = .ok base ∧
    absFull (.ok wd) requestPath = .ok full ∧ rel base full = .ok relative ∧ LeadsOut relative

/-- The guard refuses the request paths that escape, and no others. -/
structure GuardExact (wd requestPath : GoString) : Prop where
  /-- A path that is refused escapes. -/
  permission : resolvePath (.ok wd) requestPath = .error errPermission → Escapes wd requestPath
  /-- A path that stays inside is resolved. -/
  inside : ¬ Escapes wd requestPath → ∃ result, resolvePath (.ok wd) requestPath = .ok result

/-- No request path escapes, since it is evaluated from the root first. -/
theorem not_escapes (hwd : ∀ c ∈ wd, IsName c) (requestPath : GoString) :
    ¬ Escapes (absolute wd) requestPath := by
  rintro ⟨base, full, relative, hbase, hfull, hrel, hout⟩
  have hnames : ∀ c ∈ publicName :: components requestPath, IsName c :=
    List.forall_mem_cons.mpr ⟨isName_publicName, isName_components⟩
  have hpublic : ∀ c ∈ wd ++ [publicName], IsName c :=
    List.forall_mem_append.mpr ⟨hwd, by simpa using isName_publicName⟩
  rw [abs_publicDir hwd] at hbase
  rw [absFull, trim_clean, join_publicDir isName_components,
    abs_of_names hwd hnames (List.cons_ne_nil _ _), List.append_cons] at hfull
  obtain rfl := Except.ok.inj hbase
  obtain rfl := Except.ok.inj hfull
  rw [rel_of_names hpublic isName_components] at hrel
  obtain rfl := Except.ok.inj hrel
  split at hout
  · exact absurd hout (by decide)
  · exact not_leadsOut_joinElements isName_components hout

/-- **When the guard is exact**: it compares with the text `..` and not with the element, and so
refuses every request path whose first component starts with two dots. -/
theorem guardExact_iff {wd : GoString} (habs : isAbs wd = true) (hclean : clean wd = wd)
    (requestPath : GoString) :
    GuardExact wd requestPath ↔
      ∀ first ∈ (components requestPath).head?, first.hasPrefix [dot, dot] = false := by
  obtain ⟨names, hnames, rfl⟩ := exists_names_of_clean habs hclean
  have hinside := not_escapes hnames requestPath
  have hresolve := resolvePath_eq hnames requestPath
  -- what the guard tests is the first component
  have hguard : (joinElements (components requestPath)).hasPrefix [dot, dot] = false ↔
      ∀ first ∈ (components requestPath).head?, first.hasPrefix [dot, dot] = false := by
    cases components requestPath with
    | nil => simp [GoString.hasPrefix]
    | cons first rest => simp [hasPrefix_joinElements (by decide : slash ∉ [dot, dot])]
  rw [← hguard]
  constructor
  · intro hexact
    by_contra hrefused
    rw [if_pos (Bool.eq_true_of_not_eq_false hrefused)] at hresolve
    exact hinside (hexact.permission hresolve)
  · intro hpass
    rw [if_neg (Bool.eq_false_iff.mp hpass)] at hresolve
    constructor
    · intro hrefused
      exact absurd (hresolve.symm.trans hrefused) (by simp)
    · exact fun _ => ⟨_, hresolve⟩

/-- Two dots at the start of a later component do no harm. -/
theorem guardExact_iff_later : GuardExact (.ofString "/srv") (.ofString "/a/..b.html") :=
  (guardExact_iff (by decide) (by decide) _).mpr (by decide +kernel)

/-- The file `..foo.html` of `./public` is refused, although its path stays inside. -/
theorem guard_refuses_name :
    resolvePath (.ok (.ofString "/srv")) (.ofString "/..foo.html") = .error errPermission ∧
      absFull (.ok (.ofString "/srv")) (.ofString "/..foo.html") =
        .ok (.ofString "/srv/public/..foo.html") ∧
      ¬ GuardExact (.ofString "/srv") (.ofString "/..foo.html") := by
  have hrefused : resolvePath (.ok (.ofString "/srv")) (.ofString "/..foo.html") =
      .error errPermission := by decide +kernel
  refine ⟨hrefused, by decide +kernel, fun hexact => ?_⟩
  have hsrv : ∀ c ∈ [GoString.ofString "srv"], IsName c := by decide
  exact not_escapes hsrv _ (hexact.permission hrefused)

end DistributedSystems.HttpServer
