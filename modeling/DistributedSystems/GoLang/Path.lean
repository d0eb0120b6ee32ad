import DistributedSystems.GoLang.Strings
import Mathlib.Data.List.TakeWhile

/-! # Lexical paths

The functions of `path` and `path/filepath` on Unix that work on the text of a path: `clean`,
`join`, `abs`, `rel`, `base` and `ext`. `clean` is the loop of the library: it reads the path byte
by byte, writes to a buffer, and takes elements back from the buffer at `..`.

* `evalElements` — the elements of a path evaluated on a stack;
* `clean_eq` — the loop computes the rendering of that stack;
* `clean_rooted`, `clean_unrooted` — `clean` on a path whose elements are known;
* `abs_of_names`, `rel_of_names` — absolute and relative paths between paths given by names;
* `ext_of_elements` — the extension of a path is that of its last element. -/

namespace DistributedSystems.GoPath

/-- The separator, `'/'`. -/
abbrev slash : Byte := 47

/-- The byte `'.'`. -/
abbrev dot : Byte := 46

/-- The elements of a path, `strings.Split(p, "/")`. -/
def elements (p : GoString) : List GoString := p.splitOn slash

/-- The elements joined by separators, `strings.Join(elems, "/")`. -/
def joinElements (elems : List GoString) : GoString := [slash].intercalate elems

/-! ## Definitions -/

/-- The loop of `Clean` that takes the last element back from the buffer, which is kept in reverse:
the last byte is dropped, and further ones until a separator was dropped or only `dotdot` bytes are
left. -/
def backtrack : GoString → ℕ → GoString
  | [], _ => []
  | x :: out, dotdot => if dotdot < out.length ∧ x ≠ slash then backtrack out dotdot else out

/-- The main loop of `Clean` on the rest of the path, with the buffer in reverse. The first `dotdot`
bytes of the buffer are never taken back. Every turn reads at least one byte, so that the length of
the path is enough fuel. -/
def cleanLoop (rooted : Bool) : ℕ → GoString → GoString → ℕ → GoString
  | 0, _, out, _ => out
  | _ + 1, [], out, _ => out
  | fuel + 1, r :: rest, out, dotdot =>
      if r = slash then
        -- an empty element
        cleanLoop rooted fuel rest out dotdot
      else if r = dot ∧ (rest = [] ∨ rest.head? = some slash) then
        -- the element `.`
        cleanLoop rooted fuel rest out dotdot
      else if r = dot ∧ rest.head? = some dot ∧
          (rest.tail = [] ∨ rest.tail.head? = some slash) then
        -- the element `..`: take the last element back, or keep it at the start of a relative path
        if dotdot < out.length then cleanLoop rooted fuel rest.tail (backtrack out dotdot) dotdot
        else if rooted then cleanLoop rooted fuel rest.tail out dotdot
        else
          let out := dot :: dot :: (if out = [] then [] else slash :: out)
          cleanLoop rooted fuel rest.tail out out.length
      else
        -- a real element, with a separator before it if needed
        let out := if (rooted ∧ out.length ≠ 1) ∨ (¬ rooted ∧ out.length ≠ 0) then slash :: out else out
        cleanLoop rooted fuel ((r :: rest).dropWhile (· ≠ slash))
          (((r :: rest).takeWhile (· ≠ slash)).reverse ++ out) dotdot

/-- `IsAbs`. -/
def isAbs (path : GoString) : Bool := path.head? = some slash

/-- `Clean`: the shortest path name equivalent to a path by purely lexical processing. -/
def clean (path : GoString) : GoString :=
  if path = [] then [dot]
  else
    let out :=
      if isAbs path then cleanLoop true path.length path.tail [slash] 1
      else cleanLoop false path.length path [] 0
    if out = [] then [dot] else out.reverse

/-- `Join` of two elements: empty ones at the start are ignored, and the result is cleaned. -/
def join (a b : GoString) : GoString :=
  if a ≠ [] then clean (a ++ slash :: b) else if b ≠ [] then clean b else []

/-- `Abs`, with the result of `os.Getwd`. -/
def abs {ε : Type} (getwd : Except ε GoString) (path : GoString) : Except ε GoString :=
  if isAbs path then .ok (clean path)
  else
    match getwd with
    | .error err => .error err
    | .ok wd => .ok (join wd path)

/-- Two lists of elements without their longest common beginning. -/
def dropCommon : List GoString → List GoString → List GoString × List GoString
  | a :: as, b :: bs => if a = b then dropCommon as bs else (a :: as, b :: bs)
  | as, bs => (as, bs)

/-- `Rel`: the path of `targpath` relative to `basepath`. The element `..` goes up from each element
of the base that is not shared; a base that goes up itself has no known way down. -/
def rel (basepath targpath : GoString) : Except GoString GoString :=
  let base := clean basepath
  let targ := clean targpath
  let err : GoString :=
    .ofString "Rel: can't make " ++ targpath ++ .ofString " relative to " ++ basepath
  if targ = base then .ok [dot]
  else
    let base := if base = [dot] then [] else base
    if isAbs base ≠ isAbs targ then .error err
    else
      let (up, down) := dropCommon ((elements base).filter (· ≠ [])) ((elements targ).filter (· ≠ []))
      if up.head? = some [dot, dot] then .error err
      else .ok (joinElements (up.map (fun _ => [dot, dot]) ++ down))

/-- `filepath.Base`: the last element of a path, without trailing separators. -/
def base (path : GoString) : GoString :=
  if path = [] then [dot]
  else
    match path.reverse.dropWhile (· = slash) with
    | [] => [slash]
    | rev => (rev.takeWhile (· ≠ slash)).reverse

/-- `filepath.Dir`: all but the last element of a path. -/
def dir (path : GoString) : GoString := clean (path.reverse.dropWhile (· ≠ slash)).reverse

/-- `filepath.Ext`: the text from the last dot of the last element on, if there is one. -/
def ext (path : GoString) : GoString :=
  let last := path.reverse.takeWhile (· ≠ slash)
  if dot ∈ last then dot :: (last.takeWhile (· ≠ dot)).reverse else []

/-! ## Elements and joins -/

/-- An element that stands for itself: it is not empty, `.` or `..`, and has no separator. -/
@[mk_iff isName_iff] structure IsName (c : GoString) : Prop where
  /-- It is not empty. -/
  ne_nil : c ≠ []
  /-- It has no separator. -/
  not_mem : slash ∉ c
  /-- It is not `.`. -/
  ne_dot : c ≠ [dot]
  /-- It is not `..`. -/
  ne_dotdot : c ≠ [dot, dot]

instance (c : GoString) : Decidable (IsName c) := decidable_of_iff' _ (isName_iff c)

@[simp] theorem elements_nil : elements [] = [[]] := rfl

theorem elements_append_slash (a b : GoString) :
    elements (a ++ slash :: b) = elements a ++ elements b := List.splitOn_append_cons_self a b

theorem elements_cons_slash (b : GoString) : elements (slash :: b) = [] :: elements b :=
  elements_append_slash [] b

/-- A byte other than the separator belongs to the first element. -/
theorem elements_cons_ne {x : Byte} (hx : x ≠ slash) (p : GoString) :
    elements (x :: p) = (elements p).modifyHead (x :: ·) := by
  rw [elements, List.splitOn, List.splitOnP_cons_eq_if_modifyHead, if_neg (by simpa using hx)]
  rfl

/-- An element followed by nothing or by a separator is the first element. -/
theorem elements_append {c rest : GoString} (hc : slash ∉ c)
    (hrest : rest = [] ∨ rest.head? = some slash) :
    ∃ elems, elements rest = [] :: elems ∧ elements (c ++ rest) = c :: elems := by
  cases rest with
  | nil =>
      refine ⟨[], rfl, ?_⟩
      rw [List.append_nil]
      exact List.splitOn_eq_singleton hc
  | cons x rest =>
      obtain rfl : x = slash := by simpa using hrest
      exact ⟨elements rest, elements_cons_slash rest,
        List.splitOn_append_cons_self_of_not_mem hc rest⟩

@[simp] theorem joinElements_nil : joinElements [] = [] := rfl

@[simp] theorem joinElements_singleton (c : GoString) : joinElements [c] = c :=
  List.intercalate_singleton

theorem joinElements_cons {elems : List GoString} (h : elems ≠ []) (c : GoString) :
    joinElements (c :: elems) = c ++ slash :: joinElements elems := by
  rw [joinElements, List.intercalate_cons_of_ne_nil h, List.append_assoc]
  rfl

theorem joinElements_append {as bs : List GoString} (ha : as ≠ []) (hb : bs ≠ []) :
    joinElements (as ++ bs) = joinElements as ++ slash :: joinElements bs := by
  induction as with
  | nil => exact absurd rfl ha
  | cons a as ih =>
      by_cases has : as = []
      · subst has
        rw [List.singleton_append, joinElements_cons hb, joinElements_singleton]
      · rw [List.cons_append, joinElements_cons (by simp [has]), ih has, joinElements_cons has,
          List.append_assoc, List.cons_append]

/-- The elements of joined names are the names. -/
theorem elements_joinElements {elems : List GoString} (h : ∀ c ∈ elems, slash ∉ c)
    (hne : elems ≠ []) : elements (joinElements elems) = elems :=
  List.splitOn_intercalate slash h hne

/-! ## The last element -/

/-- `Base` is `.`, a separator, or an element of the path. -/
theorem base_cases (p : GoString) :
    base p = [dot] ∨ base p = [slash] ∨ base p ≠ [] ∧ slash ∉ base p := by
  unfold base
  split
  · exact Or.inl rfl
  · split
    · exact Or.inr (Or.inl rfl)
    · next rev hrev =>
      refine Or.inr (Or.inr ⟨?_, ?_⟩)
      · obtain ⟨x, rest, hx⟩ := List.exists_cons_of_ne_nil hrev
        have hslash : x ≠ slash := by
          intro heq
          have hnot := List.head_dropWhile_not (l := p.reverse) (· = slash) (by simp [hx])
          simp [hx, heq] at hnot
        rw [hx, List.takeWhile_cons_of_pos (by simpa using hslash)]
        simp
      · intro hmem
        have hall := List.mem_takeWhile_imp (List.mem_reverse.mp hmem)
        simp at hall

/-- A path without a dot has no extension. -/
theorem ext_eq_nil {p : GoString} (h : dot ∉ p) : ext p = [] := by
  refine if_neg fun hmem => h ?_
  exact List.mem_reverse.mp (List.takeWhile_subset _ hmem)

/-! ## Evaluation on a stack -/

/-- The element `..` on a stack of elements, the last one first: it takes the last element back, and
does nothing at the root; at the start of a relative path it stays. -/
def pop (rooted : Bool) : List GoString → List GoString
  | [] => if rooted then [] else [[dot, dot]]
  | top :: below => if top = [dot, dot] then [dot, dot] :: top :: below else below

/-- One element of a path on the stack of the elements before it: empty elements and `.` do nothing,
and `..` goes up. -/
def push (rooted : Bool) (stack : List GoString) (c : GoString) : List GoString :=
  if c = [] ∨ c = [dot] then stack
  else if c = [dot, dot] then pop rooted stack
  else c :: stack

/-- The stack that the elements of a path leave, the last element first. -/
def evalElements (rooted : Bool) (stack : List GoString) (elems : List GoString) : List GoString :=
  elems.foldl (push rooted) stack

theorem push_name {c : GoString} (h : IsName c) (rooted : Bool) (stack : List GoString) :
    push rooted stack c = c :: stack := by
  rw [push, if_neg (by simp [h.ne_nil, h.ne_dot]), if_neg h.ne_dotdot]

@[simp] theorem push_nil (rooted : Bool) (stack : List GoString) : push rooted stack [] = stack :=
  if_pos (Or.inl rfl)

@[simp] theorem push_dot (rooted : Bool) (stack : List GoString) :
    push rooted stack [dot] = stack := if_pos (Or.inr rfl)

/-- Names are pushed one after the other. -/
theorem evalElements_names {elems : List GoString} (h : ∀ c ∈ elems, IsName c) (rooted : Bool)
    (stack : List GoString) : evalElements rooted stack elems = elems.reverse ++ stack := by
  induction elems generalizing stack with
  | nil => rfl
  | cons c elems ih =>
      rw [evalElements, List.foldl_cons, push_name (h c List.mem_cons_self), ← evalElements,
        ih fun c' hc' => h c' (List.mem_cons_of_mem c hc')]
      simp

theorem evalElements_append (rooted : Bool) (stack as bs : List GoString) :
    evalElements rooted stack (as ++ bs) =
      evalElements rooted (evalElements rooted stack as) bs := List.foldl_append

/-- Evaluation from the root leaves names only. -/
theorem isName_of_mem_eval {elems stack : List GoString} (hslash : ∀ c ∈ elems, slash ∉ c)
    (hstack : ∀ c ∈ stack, IsName c) : ∀ c ∈ evalElements true stack elems, IsName c := by
  induction elems generalizing stack with
  | nil => exact hstack
  | cons e elems ih =>
      refine ih (fun c hc => hslash c (List.mem_cons_of_mem e hc)) fun c hc => ?_
      rw [push] at hc
      split at hc
      · exact hstack c hc
      next hplain =>
        split at hc
        · cases stack with
          | nil => simp [pop] at hc
          | cons top below =>
              have htop := (hstack top List.mem_cons_self).ne_dotdot
              rw [pop, if_neg htop] at hc
              exact hstack c (List.mem_cons_of_mem top hc)
        next hdotdot =>
          rcases List.mem_cons.mp hc with rfl | hc
          · exact ⟨fun h => hplain (Or.inl h), hslash c List.mem_cons_self,
              fun h => hplain (Or.inr h), hdotdot⟩
          · exact hstack c hc

/-! ## The loop of `Clean` -/

/-- What the buffer of `Clean` starts with. -/
def start (rooted : Bool) : GoString := if rooted then [slash] else []

/-- The buffer of `Clean`, in reverse, for a stack of elements. -/
def renderRev (rooted : Bool) : List GoString → GoString
  | [] => start rooted
  | c :: stack => c.reverse ++ if stack = [] then start rooted else slash :: renderRev rooted stack

/-- The path of a stack of elements, read from the bottom. -/
theorem reverse_renderRev (rooted : Bool) (stack : List GoString) :
    (renderRev rooted stack).reverse = start rooted ++ joinElements stack.reverse := by
  have hstart : (start rooted).reverse = start rooted := by cases rooted <;> rfl
  induction stack with
  | nil => rw [renderRev, hstart, List.reverse_nil, joinElements_nil, List.append_nil]
  | cons c stack ih =>
      rw [renderRev, List.reverse_append, List.reverse_reverse, List.reverse_cons]
      by_cases h : stack = []
      · subst h
        rw [if_pos rfl, hstart, List.reverse_nil, List.nil_append, joinElements_singleton]
      · rw [if_neg h, List.reverse_cons, ih, joinElements_append (by simpa using h) (by simp),
          joinElements_singleton]
        simp

theorem length_start_le (rooted : Bool) (stack : List GoString) :
    (start rooted).length ≤ (renderRev rooted stack).length := by
  cases stack with
  | nil => exact le_rfl
  | cons c stack =>
      rw [renderRev, List.length_append]
      split
      · omega
      · have := length_start_le rooted stack
        rw [List.length_cons]
        omega

/-- A stack with a name is longer than the start of the buffer. -/
theorem length_start_lt (rooted : Bool) {c : GoString} (hc : c ≠ []) (stack : List GoString) :
    (start rooted).length < (renderRev rooted (c :: stack)).length := by
  have hpos := List.length_pos_iff.mpr hc
  rw [renderRev, List.length_append, List.length_reverse]
  split
  · omega
  · have := length_start_le rooted stack
    rw [List.length_cons]
    omega

/-- More elements make the buffer longer. -/
theorem length_renderRev_append (rooted : Bool) (names ups : List GoString) :
    (renderRev rooted ups).length ≤ (renderRev rooted (names ++ ups)).length := by
  induction names with
  | nil => exact le_rfl
  | cons c names ih =>
      rw [List.cons_append, renderRev, List.length_append]
      split
      · next hnil =>
        obtain ⟨rfl, rfl⟩ := List.append_eq_nil_iff.mp hnil
        exact Nat.le_add_left _ _
      · rw [List.length_cons]
        omega

/-- Taking back a name that follows a separator. -/
theorem backtrack_append_slash {xs out : GoString} (hxs : slash ∉ xs) {dotdot : ℕ}
    (h : dotdot ≤ out.length) : backtrack (xs ++ slash :: out) dotdot = out := by
  induction xs with
  | nil => rw [List.nil_append, backtrack, if_neg (by simp)]
  | cons x xs ih =>
      have hx : x ≠ slash := fun h => hxs (h ▸ List.mem_cons_self)
      rw [List.cons_append, backtrack, if_pos, ih fun h => hxs (List.mem_cons_of_mem x h)]
      refine ⟨?_, hx⟩
      rw [List.length_append, List.length_cons]
      omega

/-- Taking back a name at the start of the buffer. -/
theorem backtrack_append {xs out : GoString} (hne : xs ≠ []) (hxs : slash ∉ xs) :
    backtrack (xs ++ out) out.length = out := by
  induction xs with
  | nil => exact absurd rfl hne
  | cons x xs ih =>
      have hx : x ≠ slash := fun h => hxs (h ▸ List.mem_cons_self)
      rw [List.cons_append, backtrack]
      by_cases h : xs = []
      · subst h
        rw [if_neg (by simp), List.nil_append]
      · rw [if_pos, ih h fun h => hxs (List.mem_cons_of_mem x h)]
        have := List.length_pos_iff.mpr h
        exact ⟨by rw [List.length_append]; omega, hx⟩

/-- **The buffer holds a stack**: names over elements `..`, of which there are none in a rooted
path; the elements `..` are the part that is never taken back. -/
structure Holds (rooted : Bool) (stack : List GoString) (out : GoString) (dotdot : ℕ) : Prop where
  /-- The bytes of the buffer. -/
  out_eq : out = renderRev rooted stack
  /-- The elements, and the part that stays. -/
  split : ∃ names ups, stack = names ++ ups ∧ (∀ c ∈ names, IsName c) ∧
    (∀ c ∈ ups, c = [dot, dot]) ∧ (rooted = true → ups = []) ∧
    dotdot = (renderRev rooted ups).length

/-- The buffer is at its start exactly when the stack is empty. -/
theorem Holds.length_eq_start {rooted : Bool} {stack : List GoString} {out : GoString} {dotdot : ℕ}
    (h : Holds rooted stack out dotdot) :
    out.length = (start rooted).length ↔ stack = [] := by
  obtain ⟨names, ups, hstack, hnames, hups, -, -⟩ := h.split
  rw [h.out_eq]
  constructor
  · intro hlen
    cases hs : stack with
    | nil => rfl
    | cons c rest =>
        have hc : c ≠ [] := by
          rcases List.mem_append.mp (hstack ▸ hs ▸ List.mem_cons_self : c ∈ names ++ ups) with hc | hc
          · exact (hnames c hc).ne_nil
          · rw [hups c hc]
            simp
        have := length_start_lt rooted hc rest
        rw [hs] at hlen
        omega
  · rintro rfl
    rfl

/-- A name is appended, with a separator before it unless the buffer is at its start. -/
theorem Holds.name {rooted : Bool} {stack : List GoString} {out : GoString} {dotdot : ℕ}
    (h : Holds rooted stack out dotdot) {c : GoString} (hc : IsName c) :
    Holds rooted (c :: stack) (c.reverse ++
      if (rooted ∧ out.length ≠ 1) ∨ (¬ rooted ∧ out.length ≠ 0) then slash :: out else out)
      dotdot := by
  have hcond : ((rooted ∧ out.length ≠ 1) ∨ (¬ rooted ∧ out.length ≠ 0)) ↔ ¬ stack = [] := by
    rw [← h.length_eq_start]
    cases rooted <;> simp [start]
  obtain ⟨names, ups, hstack, hnames, hups, hroot, hdotdot⟩ := h.split
  refine ⟨?_, c :: names, ups, by rw [hstack, List.cons_append], ?_, hups, hroot, hdotdot⟩
  · rw [renderRev]
    by_cases hs : stack = []
    · rw [if_pos hs, if_neg (by rw [hcond]; simp [hs]), h.out_eq, hs, renderRev]
    · rw [if_neg hs, if_pos (hcond.mpr hs), h.out_eq]
  · intro c' hc'
    rcases List.mem_cons.mp hc' with rfl | hc'
    · exact hc
    · exact hnames c' hc'

/-- The element `..` takes a name back. -/
theorem Holds.back {rooted : Bool} {stack : List GoString} {out : GoString} {dotdot : ℕ}
    (h : Holds rooted stack out dotdot) (hlt : dotdot < out.length) :
    Holds rooted (pop rooted stack) (backtrack out dotdot) dotdot := by
  obtain ⟨names, ups, hstack, hnames, hups, hroot, hdotdot⟩ := h.split
  cases names with
  | nil =>
      -- without a name the buffer ends where the elements `..` end
      rw [List.nil_append] at hstack
      rw [h.out_eq, hdotdot, hstack] at hlt
      exact absurd hlt (lt_irrefl _)
  | cons c names =>
      have hc := hnames c List.mem_cons_self
      have hpop : pop rooted stack = names ++ ups := by
        rw [hstack, List.cons_append, pop, if_neg hc.ne_dotdot]
      refine ⟨?_, names, ups, hpop, fun c' hc' => hnames c' (List.mem_cons_of_mem c hc'), hups,
        hroot, hdotdot⟩
      rw [hpop, h.out_eq, hstack, List.cons_append, renderRev]
      have hrev : slash ∉ c.reverse := by simpa using hc.not_mem
      split
      · next hnil =>
        obtain ⟨rfl, rfl⟩ := List.append_eq_nil_iff.mp hnil
        rw [hdotdot]
        exact backtrack_append (by simpa using hc.ne_nil) hrev
      · refine backtrack_append_slash hrev ?_
        rw [hdotdot]
        exact length_renderRev_append rooted names ups

/-- With nothing to take back, the stack is a list of elements `..`. -/
theorem Holds.all_dotdot {rooted : Bool} {stack : List GoString} {out : GoString} {dotdot : ℕ}
    (h : Holds rooted stack out dotdot) (hle : ¬ dotdot < out.length) :
    (∀ c ∈ stack, c = [dot, dot]) ∧ (rooted = true → stack = []) := by
  obtain ⟨names, ups, hstack, hnames, hups, hroot, hdotdot⟩ := h.split
  cases names with
  | nil => exact ⟨hstack ▸ hups, fun hr => hstack.trans (hroot hr)⟩
  | cons c names =>
      have hlong : (renderRev rooted ups).length < out.length := by
        rw [h.out_eq, hstack, List.cons_append, renderRev, List.length_append, List.length_reverse]
        have hpos := List.length_pos_iff.mpr (hnames c List.mem_cons_self).ne_nil
        split
        · next hnil =>
          obtain ⟨rfl, rfl⟩ := List.append_eq_nil_iff.mp hnil
          rw [renderRev]
          omega
        · have := length_renderRev_append rooted names ups
          rw [List.length_cons]
          omega
      exact absurd (hdotdot ▸ hlong) hle

/-- The element `..` stays at the start of a relative path. -/
theorem Holds.up {stack : List GoString} {out : GoString} {dotdot : ℕ}
    (h : Holds false stack out dotdot) (hle : ¬ dotdot < out.length) :
    Holds false (pop false stack) (dot :: dot :: if out = [] then [] else slash :: out)
      (dot :: dot :: if out = [] then [] else slash :: out).length := by
  obtain ⟨hall, -⟩ := h.all_dotdot hle
  have hnil : out = [] ↔ stack = [] := by
    rw [← h.length_eq_start, ← List.length_eq_zero_iff]
    rfl
  have hpop : pop false stack = [dot, dot] :: stack := by
    cases stack with
    | nil => rfl
    | cons top below => rw [pop, if_pos (hall top List.mem_cons_self)]
  have hout : (dot :: dot :: if out = [] then [] else slash :: out) =
      renderRev false ([dot, dot] :: stack) := by
    rw [renderRev, h.out_eq]
    by_cases hs : stack = []
    · rw [if_pos hs, if_pos (h.out_eq ▸ hnil.mpr hs)]
      rfl
    · rw [if_neg hs, if_neg (h.out_eq ▸ fun ho => hs (hnil.mp ho))]
      rfl
  refine ⟨by rw [hpop, hout], [], [dot, dot] :: stack, hpop, by simp, ?_, by simp, by rw [hout]⟩
  intro c hc
  rcases List.mem_cons.mp hc with rfl | hc
  · rfl
  · exact hall c hc

/-- An element of the path and what follows it, on the stack. -/
theorem evalElements_elements (rooted : Bool) {c rest : GoString} (hc : slash ∉ c)
    (hrest : rest = [] ∨ rest.head? = some slash) (stack : List GoString) :
    evalElements rooted stack (elements (c ++ rest)) =
      evalElements rooted (push rooted stack c) (elements rest) := by
  obtain ⟨elems, hnil, happend⟩ := elements_append hc hrest
  rw [hnil, happend, evalElements, evalElements, List.foldl_cons, List.foldl_cons, push_nil]

/-- What is left after an element is empty or starts with a separator. -/
theorem dropWhile_slash (p : GoString) :
    p.dropWhile (· ≠ slash) = [] ∨ (p.dropWhile (· ≠ slash)).head? = some slash := by
  induction p with
  | nil => exact Or.inl rfl
  | cons x p ih =>
      by_cases hx : x = slash
      · exact Or.inr (by simp [hx])
      · simpa [hx] using ih

/-- The element that the last branch of the loop reads is a name. -/
theorem isName_takeWhile {r : Byte} {rest : GoString} (hr : r ≠ slash)
    (hdot : ¬ (r = dot ∧ (rest = [] ∨ rest.head? = some slash)))
    (hdotdot : ¬ (r = dot ∧ rest.head? = some dot ∧
      (rest.tail = [] ∨ rest.tail.head? = some slash))) :
    IsName ((r :: rest).takeWhile (· ≠ slash)) := by
  have hsplit := List.takeWhile_append_dropWhile (p := (· ≠ slash)) (l := r :: rest)
  have hdrop := dropWhile_slash (r :: rest)
  refine ⟨by simp [hr], fun h => ?_, fun h => ?_, fun h => ?_⟩
  · have := List.mem_takeWhile_imp h
    simp at this
  · rw [h] at hsplit
    obtain ⟨rfl, hrest⟩ := List.cons.inj hsplit
    change (dot :: rest).dropWhile (· ≠ slash) = rest at hrest
    rw [hrest] at hdrop
    exact hdot ⟨rfl, hdrop⟩
  · rw [h] at hsplit
    obtain ⟨rfl, hrest⟩ := List.cons.inj hsplit
    rw [← hrest] at hdotdot
    exact hdotdot ⟨rfl, rfl, hdrop⟩

/-- **The loop evaluates the elements of the rest of the path on the stack.** -/
theorem cleanLoop_eq {rooted : Bool} {fuel : ℕ} {rest : GoString} {stack : List GoString}
    {out : GoString} {dotdot : ℕ} (hfuel : rest.length ≤ fuel)
    (h : Holds rooted stack out dotdot) :
    cleanLoop rooted fuel rest out dotdot =
      renderRev rooted (evalElements rooted stack (elements rest)) := by
  induction fuel generalizing rest stack out dotdot with
  | zero =>
      obtain rfl := List.length_eq_zero_iff.mp (Nat.le_zero.mp hfuel)
      exact h.out_eq
  | succ fuel ih =>
      cases rest with
      | nil => exact h.out_eq
      | cons r rest =>
          have hlen : rest.length ≤ fuel := Nat.le_of_succ_le_succ hfuel
          have htail : rest.tail.length ≤ fuel := by
            rw [List.length_tail]
            omega
          rw [cleanLoop]
          split
          · next hr =>
            subst hr
            rw [ih hlen h, elements_cons_slash, evalElements, evalElements, List.foldl_cons, push_nil]
          split
          · next hdot =>
            obtain ⟨rfl, hrest⟩ := hdot
            have heval := evalElements_elements rooted (c := [dot]) (by decide) hrest stack
            rw [push_dot, List.singleton_append] at heval
            rw [ih hlen h, heval]
          split
          · next hdotdot =>
            obtain ⟨rfl, hhead, hrest⟩ := hdotdot
            obtain ⟨rest, rfl⟩ := List.head?_eq_some_iff.mp hhead
            rw [List.tail_cons] at hrest htail ⊢
            have heval := evalElements_elements rooted (c := [dot, dot]) (by decide)
              hrest stack
            have hpush : push rooted stack [dot, dot] = pop rooted stack := by
              rw [push, if_neg (by decide), if_pos rfl]
            rw [hpush, List.cons_append, List.singleton_append] at heval
            rw [heval]
            split
            · next hlt => exact ih htail (h.back hlt)
            · next hle =>
              cases rooted with
              | true =>
                  -- at the root there is nothing to go up to
                  obtain rfl := (h.all_dotdot hle).2 rfl
                  exact ih htail h
              | false => exact ih htail (h.up hle)
          · next hr hdot hdotdot =>
            have hname := isName_takeWhile hr hdot hdotdot
            have hsplit := List.takeWhile_append_dropWhile (p := (· ≠ slash)) (l := r :: rest)
            have hdrop : ((r :: rest).dropWhile (· ≠ slash)).length ≤ fuel := by
              rw [List.dropWhile_cons_of_pos (by simpa using hr)]
              exact (List.length_dropWhile_le _ _).trans hlen
            have heval := evalElements_elements rooted hname.not_mem
              (dropWhile_slash (r :: rest)) stack
            rw [hsplit, push_name hname] at heval
            rw [heval]
            exact ih hdrop (h.name hname)

/-! ## Cleaned paths -/

/-- The path of a stack of elements: `.` if it would be empty. -/
def render (rooted : Bool) (stack : List GoString) : GoString :=
  if start rooted ++ joinElements stack.reverse = [] then [dot]
  else start rooted ++ joinElements stack.reverse

/-- **`Clean` renders the evaluation of the elements on a stack.** -/
theorem clean_eq (path : GoString) :
    clean path = render (isAbs path) (evalElements (isAbs path) [] (elements path)) := by
  have hstart (rooted : Bool) : Holds rooted [] (start rooted) (start rooted).length :=
    ⟨rfl, [], [], rfl, by simp, by simp, fun _ => rfl, rfl⟩
  have hloop : path ≠ [] →
      (if isAbs path then cleanLoop true path.length path.tail [slash] 1
        else cleanLoop false path.length path [] 0) =
      renderRev (isAbs path) (evalElements (isAbs path) [] (elements path)) := by
    intro hne
    cases habs : isAbs path with
    | false => exact cleanLoop_eq le_rfl (hstart false)
    | true =>
        obtain ⟨rest, rfl⟩ := List.head?_eq_some_iff.mp (of_decide_eq_true habs)
        rw [elements_cons_slash]
        exact cleanLoop_eq (Nat.le_succ _) (hstart true)
  unfold clean
  split
  · next hnil =>
    subst hnil
    rfl
  · next hne =>
    rw [hloop hne, render, ← reverse_renderRev]
    simp only [List.reverse_eq_nil_iff]

/-- The absolute path of a list of names. -/
def absolute (names : List GoString) : GoString := slash :: joinElements names

/-- `Clean` of an absolute path evaluates it from the root. -/
theorem clean_rooted {path : GoString} (h : isAbs path = true) :
    clean path = absolute (evalElements true [] (elements path)).reverse := by
  rw [clean_eq, h, render, if_neg (by simp [start])]
  rfl

/-- `Clean` of a relative path that leaves names. -/
theorem clean_unrooted {path : GoString} (h : isAbs path = false) {names : List GoString}
    (heval : evalElements false [] (elements path) = names.reverse) (hne : joinElements names ≠ []) :
    clean path = joinElements names := by
  rw [clean_eq, h, heval, render, List.reverse_reverse, if_neg (by simpa [start] using hne)]
  rfl

/-- The absolute path of names below a directory other than the root. -/
theorem absolute_append {names : List GoString} (hne : names ≠ []) (below : List GoString) :
    absolute (names ++ below) = absolute names ++ below.flatMap (slash :: ·) := by
  induction below generalizing names with
  | nil => simp
  | cons c below ih =>
      rw [List.append_cons, ih (by simp), absolute, absolute, joinElements_append hne (by simp),
        joinElements_singleton]
      simp

@[simp] theorem isAbs_absolute (names : List GoString) : isAbs (absolute names) = true := rfl

/-- The elements of a path are free of separators. -/
theorem slash_notMem_elements {p : GoString} : ∀ c ∈ elements p, slash ∉ c := by
  induction p with
  | nil => simp
  | cons x p ih =>
      by_cases hx : x = slash
      · subst hx
        rw [elements_cons_slash]
        exact List.forall_mem_cons.mpr ⟨List.not_mem_nil, ih⟩
      · rw [elements_cons_ne hx]
        intro c hc
        cases hp : elements p with
        | nil => simp [hp] at hc
        | cons first others =>
            rw [hp] at ih hc
            rcases List.mem_cons.mp hc with rfl | hc
            · rw [List.mem_cons, not_or]
              exact ⟨Ne.symm hx, ih first List.mem_cons_self⟩
            · exact ih c (List.mem_cons_of_mem first hc)

/-- Evaluating joined names pushes them, also when there is none. -/
theorem evalElements_joinElements {names : List GoString} (h : ∀ c ∈ names, IsName c)
    (rooted : Bool) (stack : List GoString) :
    evalElements rooted stack (elements (joinElements names)) = names.reverse ++ stack := by
  by_cases hnil : names = []
  · subst hnil
    exact push_nil rooted stack
  · rw [elements_joinElements (fun c hc => (h c hc).not_mem) hnil, evalElements_names h]

/-- Evaluating the absolute path of names pushes them. -/
theorem evalElements_absolute {names : List GoString} (h : ∀ c ∈ names, IsName c) :
    evalElements true [] (elements (absolute names)) = names.reverse := by
  rw [absolute, elements_cons_slash, evalElements, List.foldl_cons, push_nil, ← evalElements,
    evalElements_joinElements h, List.append_nil]

/-- The elements of the absolute path of names: an empty one, and the names. -/
theorem elements_absolute {names : List GoString} (h : ∀ c ∈ names, IsName c) (hne : names ≠ []) :
    elements (absolute names) = [] :: names := by
  rw [absolute, elements_cons_slash, elements_joinElements (fun c hc => (h c hc).not_mem) hne]

/-- The elements of the absolute path of names that are not empty are the names. -/
theorem filter_elements_absolute {names : List GoString} (h : ∀ c ∈ names, IsName c) :
    (elements (absolute names)).filter (· ≠ []) = names := by
  by_cases hnil : names = []
  · subst hnil
    rfl
  · rw [elements_absolute h hnil, List.filter_cons_of_neg (by simp)]
    exact List.filter_eq_self.mpr fun c hc => by simpa using (h c hc).ne_nil

/-- The absolute path of names is clean. -/
theorem clean_absolute {names : List GoString} (h : ∀ c ∈ names, IsName c) :
    clean (absolute names) = absolute names := by
  rw [clean_rooted rfl, evalElements_absolute h, List.reverse_reverse]

/-- Cleaning an absolute path gives the path of names. -/
theorem exists_names_of_isAbs {path : GoString} (habs : isAbs path = true) :
    ∃ names : List GoString, (∀ c ∈ names, IsName c) ∧ clean path = absolute names := by
  refine ⟨(evalElements true [] (elements path)).reverse, fun c hc => ?_, clean_rooted habs⟩
  exact isName_of_mem_eval slash_notMem_elements (by simp) c (List.mem_reverse.mp hc)

/-- A clean absolute path is the path of names. -/
theorem exists_names_of_clean {path : GoString} (habs : isAbs path = true)
    (hclean : clean path = path) :
    ∃ names : List GoString, (∀ c ∈ names, IsName c) ∧ path = absolute names := by
  obtain ⟨names, hnames, heq⟩ := exists_names_of_isAbs habs
  exact ⟨names, hnames, hclean.symm.trans heq⟩

/-- Joining a relative path to the absolute path of names evaluates it from there. -/
theorem join_absolute {names : List GoString} (h : ∀ c ∈ names, IsName c) (p : GoString) :
    join (absolute names) p = absolute (evalElements true names.reverse (elements p)).reverse := by
  rw [join, if_pos (by simp [absolute]), clean_rooted rfl, elements_append_slash,
    evalElements_append, evalElements_absolute h]

/-- The path of names is relative. -/
theorem isAbs_joinElements {names : List GoString} (h : ∀ c ∈ names, IsName c) (hne : names ≠ []) :
    isAbs (joinElements names) = false := by
  cases names with
  | nil => exact absurd rfl hne
  | cons c names =>
      have hc := h c List.mem_cons_self
      obtain ⟨x, xs, rfl⟩ := List.exists_cons_of_ne_nil hc.ne_nil
      have hx : x ≠ slash := fun hx => hc.not_mem (hx ▸ List.mem_cons_self)
      by_cases hnil : names = []
      · subst hnil
        simpa [isAbs] using hx
      · rw [joinElements_cons hnil]
        simpa [isAbs] using hx

/-- `Abs` of a relative path of names, in a working directory of names. -/
theorem abs_of_names {ε : Type} {wd names : List GoString} (hwd : ∀ c ∈ wd, IsName c)
    (h : ∀ c ∈ names, IsName c) (hne : names ≠ []) :
    abs (.ok (absolute wd) : Except ε GoString) (joinElements names) =
      .ok (absolute (wd ++ names)) := by
  rw [abs, isAbs_joinElements h hne]
  refine congrArg Except.ok ?_
  rw [join_absolute hwd, evalElements_joinElements h, List.reverse_append, List.reverse_reverse,
    List.reverse_reverse]

/-- Lists of elements with a common beginning. -/
theorem dropCommon_append (common as bs : List GoString) :
    dropCommon (common ++ as) (common ++ bs) = dropCommon as bs := by
  induction common with
  | nil => rfl
  | cons c common ih => rw [List.cons_append, List.cons_append, dropCommon, if_pos rfl, ih]

/-- `Rel` from the absolute path of names to one below it. -/
theorem rel_of_names {names below : List GoString} (h : ∀ c ∈ names, IsName c)
    (hbelow : ∀ c ∈ below, IsName c) :
    rel (absolute names) (absolute (names ++ below)) =
      .ok (if below = [] then [dot] else joinElements below) := by
  have hall : ∀ c ∈ names ++ below, IsName c := List.forall_mem_append.mpr ⟨h, hbelow⟩
  unfold rel
  simp only [clean_absolute h, clean_absolute hall]
  by_cases hnil : below = []
  · subst hnil
    rw [if_pos rfl, List.append_nil, if_pos rfl]
  · have hne : absolute (names ++ below) ≠ absolute names := by
      intro heq
      have hlists := congrArg (fun p => (elements p).filter (· ≠ [])) heq
      simp only [filter_elements_absolute h, filter_elements_absolute hall] at hlists
      exact hnil (List.append_right_eq_self.mp hlists)
    have hdot : absolute names ≠ [dot] := by
      intro heq
      exact absurd (List.cons.inj heq).1 (by decide)
    have hcommon : dropCommon names (names ++ below) = ([], below) := by
      have happend := dropCommon_append names [] below
      rw [List.append_nil] at happend
      rw [happend]
      rfl
    rw [if_neg hne, if_neg hnil, if_neg hdot, if_neg (by simp), filter_elements_absolute h,
      filter_elements_absolute hall, hcommon]
    rfl

/-- A path has a last element, and the extension of that. -/
theorem exists_last (p : GoString) :
    ∃ init last, elements p = init ++ [last] ∧ ext p = ext last := by
  have hsplit := List.takeWhile_append_dropWhile (p := (· ≠ slash)) (l := p.reverse)
  set last := p.reverse.takeWhile (· ≠ slash) with hlast
  have hslash : slash ∉ last.reverse := by
    intro hmem
    have hne := List.mem_takeWhile_imp (List.mem_reverse.mp hmem)
    exact absurd hne (by simp)
  have hext : ext p = ext last.reverse := by
    rw [ext, ext, List.reverse_reverse, ← hlast, List.takeWhile_idem]
  -- before it there is nothing, or a separator
  rcases dropWhile_slash p.reverse with hnil | hhead
  · refine ⟨[], last.reverse, ?_, hext⟩
    rw [hnil, List.append_nil] at hsplit
    rw [hsplit, List.reverse_reverse] at hslash ⊢
    exact List.splitOn_eq_singleton hslash
  · obtain ⟨before, hbefore⟩ := List.head?_eq_some_iff.mp hhead
    refine ⟨elements before.reverse, last.reverse, ?_, hext⟩
    rw [hbefore] at hsplit
    have hp : p = before.reverse ++ slash :: last.reverse := by
      rw [← List.reverse_reverse p, ← hsplit]
      simp
    rw [hp, elements_append_slash]
    exact congrArg _ (List.splitOn_eq_singleton hslash)

/-- The extension of a path is that of its last element. -/
theorem ext_of_elements {p last : GoString} {init : List GoString}
    (h : elements p = init ++ [last]) : ext p = ext last := by
  obtain ⟨init', last', h', hext⟩ := exists_last p
  obtain ⟨-, hlast⟩ := List.append_inj' (h'.symm.trans h) rfl
  rw [hext, List.singleton_inj.mp hlast]

/-- Joining to an absolute path does not depend on its being clean. -/
theorem join_clean {path : GoString} (h : isAbs path = true) (p : GoString) :
    join (clean path) p = join path p := by
  have hne : path ≠ [] := by
    rintro rfl
    exact absurd h (by decide)
  have hnames : ∀ c ∈ (evalElements true [] (elements path)).reverse, IsName c := fun c hc =>
    isName_of_mem_eval slash_notMem_elements (by simp) c (List.mem_reverse.mp hc)
  obtain ⟨rest, rfl⟩ := List.head?_eq_some_iff.mp (of_decide_eq_true h)
  rw [clean_rooted h, join_absolute hnames, List.reverse_reverse, join, if_pos hne,
    clean_rooted rfl, elements_append_slash, evalElements_append]

/-- Nor does making a path absolute there. -/
theorem abs_clean {ε : Type} {wd : GoString} (h : isAbs wd = true) (p : GoString) :
    abs (.ok (clean wd) : Except ε GoString) p = abs (.ok wd) p := by
  unfold abs
  split
  · rfl
  · exact congrArg Except.ok (join_clean h p)

/-- A relative path that leads out of the directory it starts from: it is `..`, or starts with
`../`. -/
def LeadsOut (relative : GoString) : Prop :=
  relative = [dot, dot] ∨ relative.hasPrefix [dot, dot, slash] = true

instance (relative : GoString) : Decidable (LeadsOut relative) :=
  inferInstanceAs (Decidable (_ ∨ _))

/-- A path of names stays inside the directory it starts from. -/
theorem not_leadsOut_joinElements {names : List GoString} (h : ∀ c ∈ names, IsName c) :
    ¬ LeadsOut (joinElements names) := by
  -- the first element of a path that leads out is `..`
  have hfirst : ∀ rest, elements (joinElements names) ≠ [dot, dot] :: rest := by
    intro rest heq
    by_cases hnil : names = []
    · subst hnil
      exact absurd heq (by simp)
    · rw [elements_joinElements (fun c hc => (h c hc).not_mem) hnil] at heq
      subst heq
      exact (h [dot, dot] List.mem_cons_self).ne_dotdot rfl
  rintro (heq | hpre)
  · exact hfirst [] (by rw [heq]; rfl)
  · obtain ⟨rest, hrest⟩ := List.isPrefixOf_iff_prefix.mp hpre
    apply hfirst (elements rest)
    rw [← hrest]
    exact elements_append_slash [dot, dot] rest

/-- What a joined path starts with, up to the first separator, its first element starts with. -/
theorem hasPrefix_joinElements {beginning : GoString} (h : slash ∉ beginning) (c : GoString)
    (elems : List GoString) :
    (joinElements (c :: elems)).hasPrefix beginning = c.hasPrefix beginning := by
  by_cases hnil : elems = []
  · subst hnil
    rw [joinElements_singleton]
  · rw [joinElements_cons hnil, GoString.hasPrefix, GoString.hasPrefix, Bool.eq_iff_iff,
      List.isPrefixOf_iff_prefix, List.isPrefixOf_iff_prefix]
    constructor
    · intro hpre
      rcases List.prefix_or_prefix_of_prefix hpre (List.prefix_append c _) with hc | hc
      · exact hc
      · -- a longer beginning would have the separator
        obtain ⟨longer, rfl⟩ := hc
        rw [List.prefix_append_right_inj] at hpre
        rcases List.prefix_cons_iff.mp hpre with rfl | ⟨t, rfl, -⟩
        · exact ⟨[], by rw [List.append_nil, List.append_nil]⟩
        · exact absurd (List.mem_append_right c List.mem_cons_self) h
    · exact fun hpre => hpre.trans (List.prefix_append c _)

end DistributedSystems.GoPath
