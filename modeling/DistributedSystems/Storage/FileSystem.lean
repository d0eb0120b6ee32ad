import DistributedSystems.GoLang.Path
import DistributedSystems.Storage.ByteFile
import Mathlib.Data.List.Infix
import Mathlib.Logic.Function.Basic

/-! # A file system and the calls of programs

A `World` maps locations to directories and files; a file is an inode, and an open file keeps its
inode when another file takes its name. A call is an `Op`, its result has the type `Op.Res`, and
`perform` says what a call does: the `Outcome` carries every choice that the program does not make.

* A call that the file system refuses (`World.refuses`) cannot succeed.
* When the environment has `faults`, every call may also fail for another reason. A failed call
  changes nothing, except that a failed write may have written a part of its bytes.
* A rename replaces its destination in one step.
* `createTemp` returns a name that no call has used before.

There are no symbolic links, and directories are neither made nor removed. -/

namespace DistributedSystems.FileSystem

open GoPath (elements evalElements isAbs)

/-! ## Errors -/

/-- Which of the errors of package `os` an error is. -/
inductive ErrorKind
  /-- `os.ErrNotExist`. -/
  | notExist
  /-- `os.ErrExist`. -/
  | exist
  /-- `os.ErrPermission`. -/
  | permission
  /-- `os.ErrInvalid`. -/
  | invalid
  /-- None of them. -/
  | other
  deriving DecidableEq

/-- An error of a file operation. -/
structure FileError where
  /-- Which error it is for `errors.Is`. -/
  kind : ErrorKind
  /-- Its text. -/
  text : GoString
  deriving DecidableEq

namespace FileError

/-- `ENOENT`. -/
def noEntry : FileError := ⟨.notExist, .ofString "no such file or directory"⟩

/-- `ENOTDIR`. -/
def notDirectory : FileError := ⟨.other, .ofString "not a directory"⟩

/-- `EISDIR`. -/
def isDirectory : FileError := ⟨.other, .ofString "is a directory"⟩

/-- `EEXIST`. -/
def alreadyExists : FileError := ⟨.exist, .ofString "file exists"⟩

end FileError

/-! ## Locations and worlds -/

/-- Where a file is: the names from the root down. -/
abbrev Location := List GoString

/-- The environment of the programs. -/
structure Env where
  /-- The working directory. -/
  wd : Location
  /-- The error for a path that no call takes, such as one with a zero byte or a name too long. -/
  bad : GoString → Option FileError := fun _ => none
  /-- Calls may fail although the file system does not refuse them. -/
  faults : Bool := true

/-- The location of a path. -/
def Env.locate (E : Env) (path : GoString) : Location :=
  (evalElements true (if isAbs path then [] else E.wd.reverse) (elements path)).reverse

/-- The location of the absolute path of names. -/
theorem Env.locate_absolute (E : Env) {names : List GoString} (h : ∀ c ∈ names, GoPath.IsName c) :
    E.locate (GoPath.absolute names) = names := by
  rw [Env.locate, GoPath.isAbs_absolute, if_pos rfl, GoPath.evalElements_absolute h,
    List.reverse_reverse]

/-- The location of a file name. -/
theorem Env.locate_name (E : Env) {name : GoString} (h : GoPath.IsName name) :
    E.locate name = E.wd ++ [name] := by
  have habs : isAbs name = false := by
    cases name with
    | nil => rfl
    | cons x name => exact decide_eq_false fun hx => h.not_mem (by simp_all)
  have helements : elements name = [name] := List.splitOn_eq_singleton h.not_mem
  rw [Env.locate, habs, if_neg Bool.false_ne_true, helements, evalElements, List.foldl_cons,
    GoPath.push_name h, List.foldl_nil, List.reverse_cons, List.reverse_reverse]

/-- What is at a location. -/
inductive Node
  /-- A directory. -/
  | dir
  /-- A file with its inode. -/
  | file (inode : ℕ)
  deriving DecidableEq

/-- The state of the file system. -/
structure World where
  /-- What is at each location. -/
  node : Location → Option Node
  /-- The contents of each inode. -/
  data : ℕ → GoString
  /-- The first inode that was never used. -/
  next : ℕ
  /-- The locations that `createTemp` has made. -/
  used : List Location := []

/-- No temporary file was made yet, and every inode with a name was allocated. -/
structure World.Fresh (w : World) : Prop where
  /-- No temporary file was made. -/
  used_eq : w.used = []
  /-- Every inode with a name was allocated. -/
  bound : ∀ {l inode}, w.node l = some (.file inode) → inode < w.next

/-- An open file. -/
structure OpenFile where
  /-- The path it was opened with. -/
  name : GoString
  /-- Its inode. -/
  inode : ℕ
  /-- The offset of the next byte. -/
  offset : ℕ := 0
  deriving DecidableEq

/-- The file after `n` bytes were read or written. -/
def OpenFile.advance (f : OpenFile) (n : ℕ) : OpenFile := { f with offset := f.offset + n }

/-! ## Calls -/

/-- A call of a program; `Q` are the requests it sends to other processes. -/
inductive Op (Q : Type)
  /-- `os.CreateTemp`. -/
  | createTemp (dir pattern : GoString)
  /-- `os.Create`. -/
  | create (path : GoString)
  /-- `os.Open`. -/
  | openFile (path : GoString)
  /-- `File.Write`. -/
  | write (f : OpenFile) (bytes : GoString)
  /-- `File.Sync`. -/
  | sync (f : OpenFile)
  /-- `File.Close`. -/
  | close (f : OpenFile)
  /-- `io.ReadAll`. -/
  | readAll (f : OpenFile)
  /-- `os.Rename`. -/
  | rename (old new : GoString)
  /-- `os.Remove`. -/
  | remove (path : GoString)
  /-- `os.Stat`. -/
  | stat (path : GoString)
  /-- A call of another process. -/
  | call (request : Q)

/-- The result of a call; `R` are the answers of other processes. -/
def Op.Res {Q : Type} (R : Type) : Op Q → Type
  | .createTemp .. | .create .. | .openFile .. => Except FileError OpenFile
  | .write .. => ℕ × Option FileError
  | .sync .. | .close .. | .rename .. | .remove .. => Option FileError
  | .readAll .. => Except FileError GoString
  | .stat .. => Except FileError Bool
  | .call .. => R

/-- What the program does not choose about a call. -/
inductive Outcome (R : Type)
  /-- It succeeds. -/
  | done
  /-- It fails; a write has written `n` bytes before. -/
  | fail (err : FileError) (n : ℕ)
  /-- `createTemp` succeeds with a random string. -/
  | temp (random : GoString)
  /-- The answer of another process. -/
  | answer (r : R)

/-- The call fails. -/
def Outcome.failed {R : Type} : Outcome R → Bool
  | .fail .. => true
  | _ => false

/-- The name that `os.CreateTemp` makes: the last `*` of the pattern is replaced by the random
string, which is appended if there is none. -/
def tempName (dir pattern random : GoString) : GoString :=
  let rev := pattern.reverse
  -- 42 is `'*'`
  let name :=
    if 42 ∈ pattern then
      (rev.dropWhile (· ≠ 42)).tail.reverse ++ random ++ (rev.takeWhile (· ≠ 42)).reverse
    else pattern ++ random
  if dir.getLast? = some GoPath.slash then dir ++ name else dir ++ GoPath.slash :: name

namespace World

variable (w : World)

/-- The contents of the file at a location. -/
def content (l : Location) : Option GoString :=
  match w.node l with
  | some (.file i) => some (w.data i)
  | _ => none

theorem content_of_node {l : Location} {i : ℕ} (h : w.node l = some (.file i)) :
    w.content l = some (w.data i) := by
  rw [content, h]

/-- A location with contents is that of a file. -/
theorem exists_of_content {w : World} {l : Location} {bytes : GoString}
    (h : w.content l = some bytes) : ∃ i, w.node l = some (.file i) ∧ w.data i = bytes := by
  unfold content at h
  split at h
  · next i hnode => exact ⟨i, hnode, Option.some.inj h⟩
  · exact absurd h (by simp)

/-- The error of the walk to a location: what is above it has to be a directory. -/
def blocked (l : Location) : Option FileError :=
  l.inits.dropLast.findSome? fun above =>
    match w.node above with
    | some .dir => none
    | some (.file _) => some .notDirectory
    | none => some .noEntry

/-- One more step of the walk. -/
theorem blocked_concat (l : Location) (c : GoString) :
    w.blocked (l ++ [c]) = (w.blocked l).or
      (match w.node l with
      | some .dir => none
      | some (.file _) => some .notDirectory
      | none => some .noEntry) := by
  have hinits : (l ++ [c]).inits.dropLast = l.inits.dropLast ++ [l] := by
    induction l using List.reverseRecOn with
    | nil => rfl
    | append_singleton l c _ => simp [List.inits_append]
  rw [blocked, hinits, List.findSome?_append]
  simp [blocked]

/-- The walk is not blocked when there are more directories. -/
theorem blocked_mono {w w' : World} (h : ∀ l, w.node l = some .dir → w'.node l = some .dir)
    {l : Location} (hblocked : w.blocked l = none) : w'.blocked l = none := by
  induction l using List.reverseRecOn with
  | nil => rfl
  | append_singleton l c ih =>
      rw [blocked_concat, Option.or_eq_none_iff] at hblocked ⊢
      refine ⟨ih hblocked.1, ?_⟩
      have hdir : w.node l = some .dir := by
        have hnode := hblocked.2
        split at hnode
        · assumption
        · exact absurd hnode (by simp)
        · exact absurd hnode (by simp)
      rw [h l hdir]

/-- The walk to a location sees what is above it. -/
theorem blocked_congr {w w' : World} {l : Location}
    (h : ∀ above, above <+: l → above ≠ l → w'.node above = w.node above) :
    w'.blocked l = w.blocked l := by
  induction l using List.reverseRecOn with
  | nil => rfl
  | append_singleton l c ih =>
      have hne {above : Location} (hl : above <+: l) : above ≠ l ++ [c] := by
        rintro rfl
        exact absurd hl.length_le (by simp)
      have hl : l <+: l ++ [c] := List.prefix_append l [c]
      rw [blocked_concat, blocked_concat, h l hl (hne List.prefix_rfl),
        ih fun above habove _ => h above (habove.trans hl) (hne habove)]

/-- The walk ends at the first location that is not a directory. -/
theorem blocked_below {l : Location} (hblocked : w.blocked l = none) (hdir : w.node l ≠ some .dir)
    {rest : Location} (hrest : rest ≠ []) :
    w.blocked (l ++ rest) = some (if w.node l = none then .noEntry else .notDirectory) := by
  induction rest using List.reverseRecOn with
  | nil => exact absurd rfl hrest
  | append_singleton rest c ih =>
      rw [← List.append_assoc, blocked_concat]
      by_cases hnil : rest = []
      · subst hnil
        rw [List.append_nil, hblocked, Option.none_or]
        split <;> simp_all
      · rw [ih hnil, Option.some_or]

/-- The error of a call that needs a file at a location. -/
def missing (l : Location) : Option FileError :=
  (w.blocked l).or
    (match w.node l with
    | some (.file _) => none
    | some .dir => some .isDirectory
    | none => some .noEntry)

theorem missing_eq_none {l : Location} :
    w.missing l = none ↔ w.blocked l = none ∧ ∃ i, w.node l = some (.file i) := by
  rw [missing, Option.or_eq_none_iff]
  refine and_congr_right fun _ => ?_
  split <;> simp_all

/-- The error for which the file system refuses a call. -/
def refuses {Q : Type} (E : Env) : Op Q → Option FileError
  | .createTemp dir _ => (E.bad dir).or (w.blocked (E.locate dir ++ [[]]))
  | .create path =>
      ((E.bad path).or (w.blocked (E.locate path))).or
        (if w.node (E.locate path) = some .dir then some .isDirectory else none)
  -- opening a directory succeeds, and reading it fails: here both fail at once
  | .openFile path => (E.bad path).or (w.missing (E.locate path))
  | .rename old new =>
      (((E.bad old).or (E.bad new)).or (w.missing (E.locate old))).or
        ((w.blocked (E.locate new)).or
          (if w.node (E.locate new) = some .dir then some .alreadyExists else none))
  | .remove path => (E.bad path).or (w.missing (E.locate path))
  | .stat path =>
      ((E.bad path).or (w.blocked (E.locate path))).or
        (if w.node (E.locate path) = none then some .noEntry else none)
  | _ => none

/-- A new empty file at a location. -/
def addFile (l : Location) : World :=
  { w with
    node := Function.update w.node l (some (.file w.next))
    data := Function.update w.data w.next []
    next := w.next + 1 }

/-- Write to an inode at an offset. -/
def writeData (i offset : ℕ) (bytes : GoString) : World :=
  { w with data := Function.update w.data i (ByteFile.writeAt 0 (w.data i) offset bytes) }

/-- Give an inode new contents. -/
def setData (i : ℕ) (bytes : GoString) : World :=
  { w with data := Function.update w.data i bytes }

@[simp] theorem data_setData_self (i : ℕ) (bytes : GoString) : (w.setData i bytes).data i = bytes :=
  Function.update_self _ _ _

@[simp] theorem setData_setData (i : ℕ) (bytes bytes' : GoString) :
    (w.setData i bytes).setData i bytes' = w.setData i bytes' := by
  simp [setData]

@[simp] theorem setData_self (i : ℕ) : w.setData i (w.data i) = w := by
  simp [setData]

/-- A write at the end. -/
theorem writeData_end (i : ℕ) (bytes : GoString) :
    w.writeData i (w.data i).length bytes = w.setData i (w.data i ++ bytes) := by
  have hdrop : (w.data i).drop ((w.data i).length + bytes.length) = [] :=
    List.drop_of_length_le (Nat.le_add_right _ _)
  simp [writeData, setData, ByteFile.writeAt, hdrop]

/-- Give the file at `old` the name `new`. -/
def move (old new : Location) : World :=
  { w with node := Function.update (Function.update w.node old none) new (w.node old) }

@[simp] theorem node_move_self (old new : Location) : (w.move old new).node new = w.node old :=
  Function.update_self _ _ _

theorem node_move_old {old new : Location} (h : old ≠ new) : (w.move old new).node old = none :=
  (Function.update_of_ne h _ _).trans (Function.update_self _ _ _)

/-- Remove the name of a file. -/
def unlink (l : Location) : World := { w with node := Function.update w.node l none }

/-- The world with a temporary file that has the given contents. -/
def staged (tmp : Location) (bytes : GoString) : World :=
  { w.addFile tmp with used := tmp :: w.used }.setData w.next bytes

/-- The files of a world with a temporary file are those of the world without it. -/
theorem data_staged (tmp : Location) (bytes : GoString) {i : ℕ} (hi : i < w.next) :
    (w.staged tmp bytes).data i = w.data i :=
  (Function.update_of_ne hi.ne _ _).trans (Function.update_of_ne hi.ne _ _)

/-- Writing the whole temporary file. -/
theorem setData_staged (tmp : Location) (bytes bytes' : GoString) :
    (w.staged tmp bytes).setData w.next bytes' = w.staged tmp bytes' := setData_setData _ _ _ _

/-- Open a location for writing, as an empty file. -/
def truncate (path : GoString) (l : Location) : OpenFile × World :=
  match w.node l with
  | some (.file i) => (⟨path, i, 0⟩, { w with data := Function.update w.data i [] })
  | _ => (⟨path, w.next, 0⟩, w.addFile l)

/-- The open file of a location. -/
def openAt (path : GoString) (l : Location) : Option OpenFile :=
  match w.node l with
  | some (.file i) => some ⟨path, i, 0⟩
  | _ => none

/-- A file with the given bytes is at a location. -/
def HasFile (l : Location) (bytes : GoString) : Prop :=
  ∃ i < w.next, w.node l = some (.file i) ∧ w.data i = bytes

/-- What was at the locations outside `P`, and in the files, is still there. -/
structure Keeps (P : Location → Prop) (w' : World) : Prop where
  /-- The names outside `P` are as before. -/
  node : ∀ l, ¬ P l → w'.node l = w.node l
  /-- The files have the contents they had. -/
  data : ∀ i < w.next, w'.data i = w.data i
  /-- No inode is allocated twice. -/
  next_le : w.next ≤ w'.next

theorem Keeps.refl (P : Location → Prop) : w.Keeps P w := ⟨fun _ _ => rfl, fun _ _ => rfl, le_rfl⟩

variable {w} {w' : World} {P : Location → Prop} {l : Location} {bytes : GoString}

theorem HasFile.content (h : w.HasFile l bytes) : w.content l = some bytes := by
  obtain ⟨i, -, hnode, hdata⟩ := h
  rw [w.content_of_node hnode, hdata]

/-- A file outside `P` is kept. -/
theorem HasFile.keeps (h : w.HasFile l bytes) (hkeeps : w.Keeps P w') (hl : ¬ P l) :
    w'.HasFile l bytes := by
  obtain ⟨i, hlt, hnode, hdata⟩ := h
  refine ⟨i, hlt.trans_le hkeeps.next_le, ?_, ?_⟩
  · rw [hkeeps.node l hl, hnode]
  · rw [hkeeps.data i hlt, hdata]

theorem Keeps.trans {w'' : World} (h : w.Keeps P w') (h' : w'.Keeps P w'') : w.Keeps P w'' where
  node l hl := (h'.node l hl).trans (h.node l hl)
  data i hi := (h'.data i (hi.trans_le h.next_le)).trans (h.data i hi)
  next_le := h.next_le.trans h'.next_le

variable (w)

/-- A temporary file that is renamed changes its new location only. -/
theorem keeps_move_staged {tmp : Location} (hfree : w.node tmp = none) (bytes : GoString) :
    w.Keeps (· = l) ((w.staged tmp bytes).move tmp l) where
  node l' hl' := by
    refine (Function.update_of_ne hl' _ _).trans ?_
    by_cases htmp : l' = tmp
    · subst htmp
      exact (Function.update_self _ _ _).trans hfree.symm
    · exact (Function.update_of_ne htmp _ _).trans (Function.update_of_ne htmp _ _)
  data i hi := w.data_staged tmp bytes hi
  next_le := Nat.le_succ _

/-- It is at its new location with its contents. -/
theorem hasFile_move_staged (tmp l : Location) (bytes : GoString) :
    ((w.staged tmp bytes).move tmp l).HasFile l bytes := by
  refine ⟨w.next, Nat.lt_succ_self _, ?_, Function.update_self _ _ _⟩
  exact (Function.update_self _ _ _).trans (Function.update_self _ _ _)

end World

variable {Q R : Type}

/-- What a failed call returns and leaves behind. -/
def failure (w : World) (err : FileError) (n : ℕ) : (o : Op Q) → Option (o.Res R × World)
  | .createTemp .. | .create .. | .openFile .. | .readAll .. | .stat .. => some (.error err, w)
  | .sync .. | .close .. | .rename .. | .remove .. => some (some err, w)
  | .write f bytes =>
      if n ≤ bytes.length then
        some ((n, some err), w.writeData f.inode f.offset (bytes.take n))
      else none
  | .call .. => none

/-- What a call that is not refused returns and does. -/
def success (E : Env) (w : World) : (o : Op Q) → Outcome R → Option (o.Res R × World)
  | .createTemp dir pattern, .temp random =>
      let name := tempName dir pattern random
      -- 48 and 57 are `'0'` and `'9'`
      if (∀ x ∈ random, 48 ≤ x ∧ x ≤ 57) ∧ E.locate name ∉ w.used ∧
          w.node (E.locate name) = none ∧ E.bad name = none then
        some (.ok ⟨name, w.next, 0⟩,
          { w.addFile (E.locate name) with used := E.locate name :: w.used })
      else none
  | .create path, .done =>
      let opened := w.truncate path (E.locate path)
      some (.ok opened.1, opened.2)
  | .openFile path, .done => (w.openAt path (E.locate path)).map fun f => (.ok f, w)
  | .write f bytes, .done => some ((bytes.length, none), w.writeData f.inode f.offset bytes)
  | .sync _, .done | .close _, .done => some (none, w)
  | .readAll f, .done => some (.ok ((w.data f.inode).drop f.offset), w)
  | .rename old new, .done => some (none, w.move (E.locate old) (E.locate new))
  | .remove path, .done => some (none, w.unlink (E.locate path))
  | .stat path, .done => some (.ok (decide (w.node (E.locate path) = some .dir)), w)
  | .call _, .answer r => some (r, w)
  | _, _ => none

/-- A call of a program that neither makes a temporary file nor waits for another process. -/
def Op.plain : Op Q → Bool
  | .createTemp .. | .call .. => false
  | _ => true

/-- Such a call succeeds in one way. -/
theorem success_plain {E : Env} {w : World} {o : Op Q} (hplain : o.plain = true) {out : Outcome R}
    {x : o.Res R × World} (h : success E w o out = some x) :
    success (R := R) E w o .done = some x := by
  cases o with
  | createTemp | call => exact absurd hplain Bool.false_ne_true
  | _ =>
      cases out with
      | done => exact h
      | _ => exact absurd h (by simp [success])

/-- **What a call does**, with its outcome; `none` when the outcome is not possible. -/
def perform (E : Env) (w : World) (o : Op Q) : Outcome R → Option (o.Res R × World)
  | .fail err n => if E.faults ∨ w.refuses E o = some err then failure w err n o else none
  | out => if w.refuses E o = none then success E w o out else none

/-- A call that is not refused may succeed. -/
theorem perform_done {E : Env} {w : World} {o : Op Q} (h : w.refuses E o = none) :
    perform E w o (.done : Outcome R) = success E w o .done := if_pos h

/-- A call fails, or is not refused and succeeds. -/
theorem perform_cases {E : Env} {w : World} {o : Op Q} {out : Outcome R} {x : o.Res R × World}
    (h : perform E w o out = some x) :
    (out.failed = true ∧ ∃ err n, (E.faults = true ∨ w.refuses E o = some err) ∧
      failure w err n o = some x) ∨
    out.failed = false ∧ w.refuses E o = none ∧ success E w o out = some x := by
  unfold perform at h
  split at h
  · next err n =>
    split at h
    · next hor => exact Or.inl ⟨rfl, err, n, hor, h⟩
    · exact absurd h (by simp)
  · next hfail =>
    have hfailed : out.failed = false := by
      cases out with
      | fail err n => exact absurd rfl (hfail err n)
      | _ => rfl
    split at h
    · next hrefuses => exact Or.inr ⟨hfailed, hrefuses, h⟩
    · exact absurd h (by simp)

/-- The result of the call is an error. -/
def Op.failed : (o : Op Q) → o.Res R → Bool
  | .createTemp .., .error _ | .create .., .error _ | .openFile .., .error _ => true
  | .readAll .., .error _ | .stat .., .error _ => true
  | .sync .., some _ | .close .., some _ | .rename .., some _ | .remove .., some _ => true
  | .write .., (_, some _) => true
  | _, _ => false

/-- The result is an error exactly when the call fails. -/
theorem perform_failed {E : Env} {w w' : World} {o : Op Q} {out : Outcome R} {r : o.Res R}
    (h : perform E w o out = some (r, w')) : o.failed r = out.failed := by
  rcases perform_cases h with ⟨hout, err, n, -, hfail⟩ | ⟨hout, -, hok⟩
  · rw [hout]
    cases o with
    | write f bytes =>
        simp only [failure] at hfail
        split at hfail
        · obtain ⟨rfl, -⟩ := Prod.mk.inj (Option.some.inj hfail)
          rfl
        · exact absurd hfail (by simp)
    | call => exact absurd hfail (by simp [failure])
    | _ =>
        obtain ⟨rfl, -⟩ := Prod.mk.inj (Option.some.inj hfail)
        rfl
  · rw [hout]
    cases o with
    | createTemp dir pattern =>
        cases out with
        | temp random =>
            simp only [success] at hok
            split at hok
            · obtain ⟨rfl, -⟩ := Prod.mk.inj (Option.some.inj hok)
              rfl
            · exact absurd hok (by simp)
        | _ => exact absurd hok (by simp [success])
    | openFile path =>
        obtain ⟨f, -, heq⟩ := Option.map_eq_some_iff.mp (success_plain rfl hok)
        obtain ⟨rfl, -⟩ := Prod.mk.inj heq
        rfl
    | call request => rfl
    | _ =>
        obtain ⟨rfl, -⟩ := Prod.mk.inj (Option.some.inj (success_plain rfl hok))
        rfl

/-- What `os.CreateTemp` returns: an error, or a new file with a name that was free. -/
theorem perform_createTemp {E : Env} {w w' : World} {dir pattern : GoString} {out : Outcome R}
    {r : Except FileError OpenFile}
    (h : perform E w (.createTemp dir pattern : Op Q) out = some (r, w')) :
    (∃ err, r = .error err ∧ w' = w) ∨
      ∃ random, out.failed = false ∧ w.blocked (E.locate dir ++ [[]]) = none ∧
        (∀ x ∈ random, 48 ≤ x ∧ x ≤ 57) ∧ w.node (E.locate (tempName dir pattern random)) = none ∧
        E.bad (tempName dir pattern random) = none ∧
        r = .ok ⟨tempName dir pattern random, w.next, 0⟩ ∧
        w' = w.staged (E.locate (tempName dir pattern random)) [] := by
  rcases perform_cases h with ⟨-, err, n, -, hfail⟩ | ⟨hout, hrefuses, hok⟩
  · obtain ⟨hr, hw⟩ := Prod.mk.inj (Option.some.inj hfail)
    exact Or.inl ⟨err, hr.symm, hw.symm⟩
  · have habove := (Option.or_eq_none_iff.mp hrefuses).2
    cases out with
    | temp random =>
        unfold success at hok
        dsimp only at hok
        split at hok
        · next hnew =>
          obtain ⟨hrandom, -, hfree, hbad⟩ := hnew
          obtain ⟨hr, hw⟩ := Prod.mk.inj (Option.some.inj hok)
          refine Or.inr ⟨random, hout, habove, hrandom, hfree, hbad, hr.symm, hw.symm.trans ?_⟩
          simp [World.staged, World.setData, World.addFile]
        · exact absurd hok (by simp)
    | _ => exact absurd hok (by simp [success])

/-- What a write returns. -/
theorem perform_write {E : Env} {w w' : World} {f : OpenFile} {bytes : GoString} {out : Outcome R}
    {r : ℕ × Option FileError} (h : perform E w (.write f bytes : Op Q) out = some (r, w')) :
    (out.failed = true ∧ ∃ n err, r = (n, some err)) ∨
      out.failed = false ∧ r = (bytes.length, none) ∧ w' = w.writeData f.inode f.offset bytes := by
  rcases perform_cases h with ⟨hout, err, n, -, hfail⟩ | ⟨hout, -, hok⟩
  · unfold failure at hfail
    dsimp only at hfail
    split at hfail
    · exact Or.inl ⟨hout, n, err, (Prod.mk.inj (Option.some.inj hfail)).1.symm⟩
    · exact absurd hfail (by simp)
  · obtain ⟨hr, hw⟩ := Prod.mk.inj (Option.some.inj (success_plain rfl hok))
    exact Or.inr ⟨hout, hr.symm, hw.symm⟩

/-- An open file has the name it was opened with. -/
theorem perform_openFile {E : Env} {w w' : World} {path : GoString} {f : OpenFile} {out : Outcome R}
    (h : perform E w (.openFile path : Op Q) out = some (.ok f, w')) : f.name = path := by
  rcases perform_cases h with ⟨-, err, n, -, hfail⟩ | ⟨-, -, hok⟩
  · exact absurd (Prod.mk.inj (Option.some.inj hfail)).1 (by simp)
  · obtain ⟨f', hf', heq⟩ := Option.map_eq_some_iff.mp (success_plain rfl hok)
    obtain rfl := Except.ok.inj (Prod.mk.inj heq).1
    unfold World.openAt at hf'
    split at hf'
    · rw [← Option.some.inj hf']
    · exact absurd hf' (by simp)

/-- A plain call that has not failed succeeds. -/
theorem success_of_not_failed {E : Env} {w : World} {o : Op Q} (hplain : o.plain = true)
    {out : Outcome R} (hout : out.failed = false) {x : o.Res R × World}
    (h : perform E w o out = some x) : success (R := R) E w o .done = some x := by
  rcases perform_cases h with ⟨hfailed, -⟩ | ⟨-, -, hok⟩
  · exact absurd (hout.symm.trans hfailed) Bool.false_ne_true
  · exact success_plain hplain hok

/-- A file that is created is empty, and has the name it was created with. -/
theorem perform_create {E : Env} {w w' : World} {path : GoString} {f : OpenFile} {out : Outcome R}
    (h : perform E w (.create path : Op Q) out = some (.ok f, w')) :
    out.failed = false ∧ f.name = path ∧ f.offset = 0 ∧
      w'.node (E.locate path) = some (.file f.inode) ∧ w'.data f.inode = [] := by
  rcases perform_cases h with ⟨-, err, n, -, hfail⟩ | ⟨hout, -, hok⟩
  · exact absurd (Prod.mk.inj (Option.some.inj hfail)).1 (by simp)
  · obtain ⟨hf, rfl⟩ := Prod.mk.inj (Option.some.inj (success_plain rfl hok))
    obtain rfl := Except.ok.inj hf
    refine ⟨hout, ?_⟩
    unfold World.truncate
    split
    · next i hnode => exact ⟨rfl, rfl, hnode, Function.update_self _ _ _⟩
    · exact ⟨rfl, rfl, Function.update_self _ _ _, Function.update_self _ _ _⟩

/-- A close changes no file. -/
theorem perform_close {E : Env} {w w' : World} {f : OpenFile} {out : Outcome R}
    {r : Option FileError} (h : perform E w (.close f : Op Q) out = some (r, w')) :
    w' = w ∧ ((∃ err, r = some err) ∨ out.failed = false ∧ r = none) := by
  rcases perform_cases h with ⟨-, err, n, -, hfail⟩ | ⟨hout, -, hok⟩
  · obtain ⟨hr, hw⟩ := Prod.mk.inj (Option.some.inj hfail)
    exact ⟨hw.symm, Or.inl ⟨err, hr.symm⟩⟩
  · obtain ⟨hr, hw⟩ := Prod.mk.inj (Option.some.inj (success_plain rfl hok))
    exact ⟨hw.symm, Or.inr ⟨hout, hr.symm⟩⟩

/-- The call leaves the file system as it is. -/
def Op.quiet : Op Q → Bool
  | .openFile _ => true
  | .sync _ => true
  | .close _ => true
  | .readAll _ => true
  | .stat _ => true
  | .call _ => true
  | _ => false

/-- A call that leaves the file system as it is. -/
theorem perform_quiet {E : Env} {w w' : World} {o : Op Q} (hquiet : o.quiet = true)
    {out : Outcome R} {r : o.Res R} (h : perform E w o out = some (r, w')) : w' = w := by
  rcases perform_cases h with ⟨-, err, n, -, hfail⟩ | ⟨-, -, hok⟩
  · cases o with
    | call => exact absurd hfail (by simp [failure])
    | createTemp | create | write | rename | remove => exact absurd hquiet (by simp [Op.quiet])
    | _ => exact (Prod.mk.inj (Option.some.inj hfail)).2.symm
  · cases o with
    | call request =>
        cases out with
        | answer r' => exact (Prod.mk.inj (Option.some.inj hok)).2.symm
        | _ => exact absurd hok (by simp [success])
    | openFile path =>
        obtain ⟨f, -, heq⟩ := Option.map_eq_some_iff.mp (success_plain rfl hok)
        exact (Prod.mk.inj heq).2.symm
    | createTemp | create | write | rename | remove => exact absurd hquiet (by simp [Op.quiet])
    | _ => exact (Prod.mk.inj (Option.some.inj (success_plain rfl hok))).2.symm

/-- What is opened is the file at the location. -/
theorem perform_openFile_node {E : Env} {w w' : World} {path : GoString} {f : OpenFile}
    {out : Outcome R} (h : perform E w (.openFile path : Op Q) out = some (.ok f, w')) :
    w.node (E.locate path) = some (.file f.inode) := by
  rcases perform_cases h with ⟨-, err, n, -, hfail⟩ | ⟨-, -, hok⟩
  · exact absurd (Prod.mk.inj (Option.some.inj hfail)).1 (by simp)
  · obtain ⟨f', hf', heq⟩ := Option.map_eq_some_iff.mp (success_plain rfl hok)
    obtain rfl := Except.ok.inj (Prod.mk.inj heq).1
    unfold World.openAt at hf'
    split at hf'
    · next inode hnode =>
      rw [← Option.some.inj hf']
      exact hnode
    · exact absurd hf' (by simp)

/-- What is read is the file from the offset on. -/
theorem perform_readAll {E : Env} {w w' : World} {f : OpenFile} {bytes : GoString}
    {out : Outcome R} (h : perform E w (.readAll f : Op Q) out = some (.ok bytes, w')) :
    bytes = (w.data f.inode).drop f.offset := by
  rcases perform_cases h with ⟨-, err, n, -, hfail⟩ | ⟨-, -, hok⟩
  · exact absurd (Prod.mk.inj (Option.some.inj hfail)).1 (by simp)
  · obtain ⟨hbytes, -⟩ := Prod.mk.inj (Option.some.inj (success_plain rfl hok))
    exact (Except.ok.inj hbytes).symm

/-- What a rename returns and does. -/
theorem perform_rename {E : Env} {w w' : World} {old new : GoString} {out : Outcome R}
    {r : Option FileError} (h : perform E w (.rename old new : Op Q) out = some (r, w')) :
    (∃ err, r = some err ∧ w' = w) ∨
      out.failed = false ∧ w.refuses E (.rename old new : Op Q) = none ∧ r = none ∧
        w' = w.move (E.locate old) (E.locate new) := by
  rcases perform_cases h with ⟨-, err, n, -, hfail⟩ | ⟨hout, hrefuses, hok⟩
  · obtain ⟨hr, hw⟩ := Prod.mk.inj (Option.some.inj hfail)
    exact Or.inl ⟨err, hr.symm, hw.symm⟩
  · obtain ⟨hr, hw⟩ := Prod.mk.inj (Option.some.inj (success_plain rfl hok))
    exact Or.inr ⟨hout, hrefuses, hr.symm, hw.symm⟩

/-- Removing a name that is gone changes nothing. -/
theorem perform_remove_gone {E : Env} {w w' : World} {path : GoString} {out : Outcome R}
    {r : Option FileError} (hgone : w.node (E.locate path) = none)
    (h : perform E w (.remove path : Op Q) out = some (r, w')) : w' = w := by
  rcases perform_cases h with ⟨-, err, n, -, hfail⟩ | ⟨-, hrefuses, -⟩
  · exact (Prod.mk.inj (Option.some.inj hfail)).2.symm
  · obtain ⟨-, i, hnode⟩ := w.missing_eq_none.mp (Option.or_eq_none_iff.mp hrefuses).2
    exact absurd (hgone.symm.trans hnode) (by simp)

/-- A call of another process changes no file and is not counted as failed. -/
theorem perform_call {E : Env} {w w' : World} {request : Q} {out : Outcome R} {r : R}
    (h : perform E w (.call request) out = some (r, w')) : out.failed = false ∧ w' = w := by
  rcases perform_cases h with ⟨-, err, n, -, hfail⟩ | ⟨hout, -, hok⟩
  · exact absurd hfail (by simp [failure])
  · cases out with
    | answer r' => exact ⟨hout, (Prod.mk.inj (Option.some.inj hok)).2.symm⟩
    | _ => exact absurd hok (by simp [success])

/-- Without faults a call fails exactly when it is refused. -/
theorem perform_of_not_faults {E : Env} (hfaults : E.faults = false) {w : World} {o : Op Q}
    {out : Outcome R} {x : o.Res R × World} (h : perform E w o out = some x) :
    (∃ err n, w.refuses E o = some err ∧ failure w err n o = some x) ∨
      w.refuses E o = none ∧ success E w o out = some x := by
  rcases perform_cases h with ⟨-, err, n, hor, hfail⟩ | ⟨-, hok⟩
  · exact Or.inl ⟨err, n, hor.resolve_left (by simp [hfaults]), hfail⟩
  · exact Or.inr hok

/-- Without faults a plain call that is not refused succeeds. -/
theorem success_of_not_refused {E : Env} (hfaults : E.faults = false) {w : World} {o : Op Q}
    (hplain : o.plain = true) (hrefuses : w.refuses E o = none) {out : Outcome R}
    {x : o.Res R × World} (h : perform E w o out = some x) :
    success (R := R) E w o .done = some x := by
  rcases perform_of_not_faults hfaults h with ⟨err, n, hrefused, -⟩ | ⟨-, hsuccess⟩
  · exact absurd (hrefuses.symm.trans hrefused) (by simp)
  · exact success_plain hplain hsuccess

end DistributedSystems.FileSystem
