import DistributedSystems.Storage.FileSystem

/-! # Programs over a file system

A `Prog` is a tree of calls: after each call it goes on with the result. The monad structure lets
programs be written in the order of their statements. `run` runs one program alone, with the
outcomes of its calls given in order, and lists its calls.

* `Ensures` — what every run of a program satisfies, with a rule for each way to make programs;
* `Plain.exists_run` — a program that neither makes temporary files nor waits for other processes
  has a run from every file system. -/

namespace DistributedSystems.FileSystem

variable {Q R α β : Type}

/-- A **program**: it returns, or makes a call and goes on with its result. -/
inductive Prog (Q R α : Type)
  /-- Return. -/
  | ret (a : α)
  /-- Make a call. -/
  | op (o : Op Q) (k : o.Res R → Prog Q R α)

namespace Prog

/-- A program followed by a program. -/
def bind : Prog Q R α → (α → Prog Q R β) → Prog Q R β
  | .ret a, f => f a
  | .op o k, f => .op o fun r => (k r).bind f

instance : Monad (Prog Q R) where
  pure := .ret
  bind := bind

@[simp] theorem op_bind (o : Op Q) (k : o.Res R → Prog Q R α) (f : α → Prog Q R β) :
    (.op o k >>= f : Prog Q R β) = .op o fun r => k r >>= f := rfl

theorem bind_bind (p : Prog Q R α) (f : α → Prog Q R β) {γ : Type} (g : β → Prog Q R γ) :
    p >>= f >>= g = p >>= fun a => f a >>= g := by
  induction p with
  | ret a => rfl
  | op o k ih => exact congrArg (Prog.op o) (funext ih)

/-- A single call. -/
def perform (o : Op Q) : Prog Q R (o.Res R) := .op o .ret

/-- `os.CreateTemp`. -/
def createTemp (dir pattern : GoString) : Prog Q R (Except FileError OpenFile) :=
  perform (.createTemp dir pattern)

/-- `os.Create`. -/
def create (path : GoString) : Prog Q R (Except FileError OpenFile) := perform (.create path)

/-- `os.Open`. -/
def openFile (path : GoString) : Prog Q R (Except FileError OpenFile) := perform (.openFile path)

/-- `File.Write`: the number of bytes written, and the error. -/
def write (f : OpenFile) (bytes : GoString) : Prog Q R (ℕ × Option FileError) :=
  perform (.write f bytes)

/-- `File.Sync`. -/
def sync (f : OpenFile) : Prog Q R (Option FileError) := perform (.sync f)

/-- `File.Close`. -/
def close (f : OpenFile) : Prog Q R (Option FileError) := perform (.close f)

/-- `io.ReadAll`. -/
def readAll (f : OpenFile) : Prog Q R (Except FileError GoString) := perform (.readAll f)

/-- `os.Rename`. -/
def rename (old new : GoString) : Prog Q R (Option FileError) := perform (.rename old new)

/-- `os.Remove`. -/
def remove (path : GoString) : Prog Q R (Option FileError) := perform (.remove path)

/-- `os.Stat`: whether it is a directory. -/
def stat (path : GoString) : Prog Q R (Except FileError Bool) := perform (.stat path)

/-- A call of another process. -/
def call (request : Q) : Prog Q R R := perform (.call request)

end Prog

/-! ## Running a program alone -/

/-- A call that was made, and whether it failed. -/
structure Event (Q : Type) where
  /-- The call. -/
  op : Op Q
  /-- It failed. -/
  failed : Bool

/-- What a finished run of a program has done. -/
structure Run (Q α : Type) where
  /-- The calls, in order. -/
  events : List (Event Q)
  /-- The file system after it. -/
  world : World
  /-- What the program returned. -/
  value : α

/-- The run of a program with the outcomes of its calls; `none` when an outcome is not possible, or
when there are too few or too many. -/
def Prog.run (E : Env) : World → Prog Q R α → List (Outcome R) → Option (Run Q α)
  | w, .ret a, [] => some ⟨[], w, a⟩
  | w, .op o k, out :: outs =>
      (FileSystem.perform E w o out).bind fun (r, w') =>
        ((k r).run E w' outs).map fun x => { x with events := ⟨o, out.failed⟩ :: x.events }
  | _, _, _ => none

variable {E : Env} {w : World}

/-- A program that returns does nothing else. -/
theorem Prog.eq_of_run_ret {a : α} {outs : List (Outcome R)} {x : Run Q α}
    (h : (Prog.ret a : Prog Q R α).run E w outs = some x) : x = ⟨[], w, a⟩ := by
  cases outs with
  | nil => exact (Option.some.inj h).symm
  | cons out outs => exact absurd h (by simp [run])

/-- A call and the run of what follows it. -/
theorem Prog.run_op {o : Op Q} {k : o.Res R → Prog Q R α} {out : Outcome R} {r : o.Res R}
    {w' : World} {outs : List (Outcome R)} {x : Run Q α}
    (hperform : FileSystem.perform E w o out = some (r, w'))
    (hrun : (k r).run E w' outs = some x) :
    (Prog.op o k).run E w (out :: outs) =
      some { x with events := ⟨o, out.failed⟩ :: x.events } := by
  rw [Prog.run, hperform, Option.bind_some]
  show Option.map _ ((k r).run E w' outs) = _
  rw [hrun, Option.map_some]

/-- **The run of a sequence** is a run of the first program and a run of the second one after it. -/
theorem Prog.run_bind_iff {p : Prog Q R α} {f : α → Prog Q R β} {outs : List (Outcome R)}
    {z : Run Q β} :
    (p >>= f).run E w outs = some z ↔ ∃ outs₁ outs₂ x y, outs = outs₁ ++ outs₂ ∧
      p.run E w outs₁ = some x ∧ (f x.value).run E x.world outs₂ = some y ∧
      z = { y with events := x.events ++ y.events } := by
  induction p generalizing w outs z with
  | ret a =>
      constructor
      · exact fun h => ⟨[], outs, _, z, rfl, rfl, h, rfl⟩
      · rintro ⟨outs₁, outs₂, x, y, rfl, hx, hy, rfl⟩
        cases outs₁ with
        | nil =>
            obtain rfl := Option.some.inj hx
            exact hy
        | cons out outs₁ => exact absurd hx (by simp [run])
  | op o k ih =>
      constructor
      · intro h
        cases outs with
        | nil => exact absurd h (by simp [run])
        | cons out outs =>
            obtain ⟨⟨r, w'⟩, hperform, hrest⟩ := Option.bind_eq_some_iff.mp h
            obtain ⟨z', hz', rfl⟩ := Option.map_eq_some_iff.mp hrest
            obtain ⟨outs₁, outs₂, x, y, rfl, hx, hy, rfl⟩ := (ih r).mp hz'
            exact ⟨out :: outs₁, outs₂, _, y, rfl, run_op hperform hx, hy, rfl⟩
      · rintro ⟨outs₁, outs₂, x, y, rfl, hx, hy, rfl⟩
        cases outs₁ with
        | nil => exact absurd hx (by simp [run])
        | cons out outs₁ =>
            obtain ⟨⟨r, w'⟩, hperform, hrest⟩ := Option.bind_eq_some_iff.mp hx
            obtain ⟨x', hx', rfl⟩ := Option.map_eq_some_iff.mp hrest
            have hz := (ih r).mpr ⟨outs₁, outs₂, x', y, rfl, hx', hy, rfl⟩
            exact run_op (k := fun r => k r >>= f) hperform hz

/-- A plain call has an outcome. -/
theorem exists_perform {o : Op Q} (h : o.plain = true) :
    ∃ (out : Outcome R) (x : o.Res R × World), perform E w o out = some x := by
  cases hrefuses : w.refuses E o with
  | some err =>
      refine ⟨.fail err 0, ?_⟩
      simp only [perform, hrefuses, or_true, if_true]
      cases o <;> simp_all [failure, Op.plain]
  | none =>
      refine ⟨.done, ?_⟩
      simp only [perform, hrefuses, if_true]
      cases o with
      | openFile path =>
          -- the location has a file, or the call is refused
          obtain ⟨-, i, hnode⟩ := w.missing_eq_none.mp (Option.or_eq_none_iff.mp hrefuses).2
          exact ⟨_, by rw [success, World.openAt, hnode, Option.map_some]⟩
      | createTemp | call => exact absurd h (by simp [Op.plain])
      | _ => exact ⟨_, rfl⟩

namespace Prog

/-- Every call of the program satisfies `S`, whatever the calls before it return. -/
def All (S : Op Q → Prop) : Prog Q R α → Prop
  | .ret _ => True
  | .op o k => S o ∧ ∀ r, (k r).All S

theorem All.bind {S : Op Q → Prop} {p : Prog Q R α} {f : α → Prog Q R β} (h : p.All S)
    (hf : ∀ a, (f a).All S) : (p >>= f).All S := by
  induction p with
  | ret a => exact hf a
  | op o k ih => exact ⟨h.1, fun r => ih r (h.2 r)⟩

/-- Every call of the program is plain. -/
def Plain (p : Prog Q R α) : Prop := p.All fun o => o.plain = true

/-- **A program of plain calls has a run**, from every file system. -/
theorem Plain.exists_run {p : Prog Q R α} (h : p.Plain) (w : World) :
    ∃ outs x, p.run E w outs = some x := by
  induction p generalizing w with
  | ret a => exact ⟨[], _, rfl⟩
  | op o k ih =>
      obtain ⟨out, ⟨r, w'⟩, hperform⟩ := exists_perform (R := R) (E := E) (w := w) h.1
      obtain ⟨outs, x, hrun⟩ := ih r (h.2 r) w'
      exact ⟨out :: outs, _, run_op hperform hrun⟩

/-- Every run of the program satisfies `post`. -/
def Ensures (E : Env) (w : World) (p : Prog Q R α) (post : Run Q α → Prop) : Prop :=
  ∀ outs x, p.run E w outs = some x → post x

namespace Ensures

variable {post post' : Run Q α → Prop}

/-- The rule for `return`. -/
theorem ret {a : α} (h : post ⟨[], w, a⟩) : Ensures E w (.ret a : Prog Q R α) post := by
  intro outs x hrun
  rw [eq_of_run_ret hrun]
  exact h

/-- The rule for a call. -/
theorem op {o : Op Q} {k : o.Res R → Prog Q R α}
    (h : ∀ (out : Outcome R) r w', FileSystem.perform E w o out = some (r, w') →
      Ensures E w' (k r) fun x => post { x with events := ⟨o, out.failed⟩ :: x.events }) :
    Ensures E w (.op o k) post := by
  intro outs x hrun
  cases outs with
  | nil => exact absurd hrun (by simp [run])
  | cons out outs =>
      obtain ⟨⟨r, w'⟩, hperform, hrest⟩ := Option.bind_eq_some_iff.mp hrun
      obtain ⟨y, hy, rfl⟩ := Option.map_eq_some_iff.mp hrest
      exact h out r w' hperform outs y hy

/-- The rule of consequence. -/
theorem mono {p : Prog Q R α} (h : Ensures E w p post) (himp : ∀ x, post x → post' x) :
    Ensures E w p post' := fun outs x hrun => himp x (h outs x hrun)

/-- The rule for a sequence: what the first program ensures is known when the second starts. -/
theorem bind {p : Prog Q R α} {f : α → Prog Q R β} {post : Run Q β → Prop}
    (h : Ensures E w p fun x => Ensures E x.world (f x.value) fun y =>
      post { y with events := x.events ++ y.events }) :
    Ensures E w (p >>= f) post := by
  intro outs z hrun
  obtain ⟨outs₁, outs₂, x, y, -, hx, hy, rfl⟩ := run_bind_iff.mp hrun
  exact h outs₁ x hx outs₂ y hy

end Ensures

/-- The calls of a run are calls of the program. -/
theorem All.ensures {S : Op Q → Prop} {p : Prog Q R α} (h : p.All S) (w : World) :
    Ensures E w p fun x => ∀ e ∈ x.events, S e.op := by
  induction p generalizing w with
  | ret a => exact .ret fun e he => absurd he List.not_mem_nil
  | op o k ih =>
      refine .op fun out r w' _ => (ih r (h.2 r) w').mono fun x hx e he => ?_
      rcases List.mem_cons.mp he with rfl | he
      · exact h.1
      · exact hx e he

/-- A call of a run that has not failed was not refused. -/
theorem ensures_not_refused (p : Prog Q R α) (w : World) :
    Ensures E w p fun x => ∀ e ∈ x.events, e.failed = false → ∃ w' : World,
      w'.refuses E e.op = none := by
  induction p generalizing w with
  | ret a => exact .ret fun e he => absurd he List.not_mem_nil
  | op o k ih =>
      refine .op fun out r w' hperform => (ih r w').mono fun x hx e he hok => ?_
      rcases List.mem_cons.mp he with rfl | he
      · rcases perform_cases hperform with ⟨hfailed, -⟩ | ⟨-, hrefuses, -⟩
        · exact absurd (hok.symm.trans hfailed) Bool.false_ne_true
        · exact ⟨w, hrefuses⟩
      · exact hx e he hok

end Prog

end DistributedSystems.FileSystem
