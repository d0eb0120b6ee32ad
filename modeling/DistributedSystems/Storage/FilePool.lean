import DistributedSystems.Storage.FileProgram
import DistributedSystems.Transition.System

/-! # Programs that share a file system

Any number of threads run programs over one file system, one call at a time, in any order; a thread
may crash between two calls. The log of a thread records what it has read, published, failed to
remove and sent.

A thread publishes a file by writing it under a temporary name and renaming it. `wpEvents` is the
condition under which a program keeps to that: it says what the thread owns (`Own`), when it may
rename and send, and what it has done when it returns; `wp` leaves out the calls it has made. The
rules are given call by call in `spec`, and `exists_effect` says that a call which meets its rule has
one of the effects of `Effect`. -/

namespace DistributedSystems.FileSystem

variable {Q R J α β : Type}

/-! ## The threads -/

/-- What the log of a thread records. -/
inductive Entry (Q : Type)
  /-- The thread has read a file that was opened at a location. -/
  | read (l : Location) (bytes : GoString)
  /-- The thread has renamed a file to a location. -/
  | published (l : Location) (bytes : GoString)
  /-- The thread has failed to remove a file. -/
  | removeFailed (l : Location)
  /-- The thread has sent a request. -/
  | called (request : Q)

/-- What the log records of a call. -/
def entries (E : Env) (w : World) : (o : Op Q) → o.Res R → List (Entry Q)
  | .readAll f, .ok bytes => [.read (E.locate f.name) bytes]
  | .rename old new, none => [.published (E.locate new) ((w.content (E.locate old)).getD [])]
  | .remove path, some _ => [.removeFailed (E.locate path)]
  | .call request, _ => [.called request]
  | _, _ => []

/-- A thread. -/
structure Thread (Q R J α : Type) where
  /-- What it was started for. -/
  job : J
  /-- What is left of its program. -/
  rest : Prog Q R α
  /-- It has crashed. -/
  crashed : Bool := false
  /-- What it has done. -/
  log : List (Entry Q) := []

/-- The threads with their file system. -/
structure Pool (Q R J α : Type) where
  /-- The file system. -/
  world : World
  /-- The threads that were started. -/
  threads : ℕ → Option (Thread Q R J α) := fun _ => none

/-- A step of the threads. -/
inductive Label (R J : Type)
  /-- A thread is started for a job. -/
  | start (i : ℕ) (job : J)
  /-- A thread makes its next call. -/
  | step (i : ℕ) (out : Outcome R)
  /-- A thread crashes. -/
  | crash (i : ℕ)

/-- The thread that moves. -/
def Label.thread : Label R J → ℕ
  | .start i _ => i
  | .step i _ => i
  | .crash i => i

namespace Pool

/-- Replace a thread. -/
def setThread (s : Pool Q R J α) (i : ℕ) (t : Thread Q R J α) : Pool Q R J α :=
  { s with threads := Function.update s.threads i (some t) }

@[simp] theorem threads_setThread_self (s : Pool Q R J α) (i : ℕ) (t : Thread Q R J α) :
    (s.setThread i t).threads i = some t := Function.update_self _ _ _

@[simp] theorem threads_setThread_ne (s : Pool Q R J α) {i j : ℕ} (h : j ≠ i)
    (t : Thread Q R J α) : (s.setThread i t).threads j = s.threads j := Function.update_of_ne h _ _

/-- One call of a thread. -/
def stepThread (E : Env) (s : Pool Q R J α) (i : ℕ) (t : Thread Q R J α) (out : Outcome R) :
    Option (Pool Q R J α) :=
  match t.rest with
  | .ret _ => none
  | .op o k =>
      (perform E s.world o out).map fun (r, w) =>
        { s with world := w }.setThread i
          { t with rest := k r, log := t.log ++ entries E s.world o r }

/-- One step. -/
def step (E : Env) (prog : J → Prog Q R α) (s : Pool Q R J α) : Label R J → Option (Pool Q R J α)
  | .start i job =>
      match s.threads i with
      | some _ => none
      | none => some (s.setThread i { job := job, rest := prog job })
  | .step i out =>
      match s.threads i with
      | none => none
      | some t => if t.crashed then none else s.stepThread E i t out
  | .crash i => (s.threads i).map fun t => s.setThread i { t with crashed := true }

/-- The steps, one constructor for each kind. -/
inductive Step (E : Env) (prog : J → Prog Q R α) (s : Pool Q R J α) :
    Label R J → Pool Q R J α → Prop
  /-- A thread is started. -/
  | start (i : ℕ) (job : J) (hnone : s.threads i = none) :
      Step E prog s (.start i job) (s.setThread i { job := job, rest := prog job })
  /-- A thread makes a call. -/
  | call (i : ℕ) (out : Outcome R) (t : Thread Q R J α) (o : Op Q) (k : o.Res R → Prog Q R α)
      (r : o.Res R) (w : World) (ht : s.threads i = some t) (hrest : t.rest = .op o k)
      (hperform : perform E s.world o out = some (r, w)) :
      Step E prog s (.step i out) ({ s with world := w }.setThread i
        { t with rest := k r, log := t.log ++ entries E s.world o r })
  /-- A thread crashes. -/
  | crash (i : ℕ) (t : Thread Q R J α) (ht : s.threads i = some t) :
      Step E prog s (.crash i) (s.setThread i { t with crashed := true })

/-- A step is of one of the kinds. -/
theorem step_cases {E : Env} {prog : J → Prog Q R α} {s s' : Pool Q R J α} {a : Label R J}
    (h : step E prog s a = some s') : Step E prog s a s' := by
  unfold step at h
  split at h
  · next i job =>
    split at h
    · exact absurd h (by simp)
    · next hnone =>
      obtain rfl := Option.some.inj h
      exact .start i job hnone
  · next i out =>
    split at h
    · exact absurd h (by simp)
    · next t ht =>
      split at h
      · exact absurd h (by simp)
      · unfold stepThread at h
        split at h
        · exact absurd h (by simp)
        · next o k hrest =>
          obtain ⟨⟨r, w⟩, hperform, rfl⟩ := Option.map_eq_some_iff.mp h
          exact .call i out t o k r w ht hrest hperform
  · next i =>
    obtain ⟨t, ht, rfl⟩ := Option.map_eq_some_iff.mp h
    exact .crash i t ht

/-- A thread makes a call. -/
theorem step_call {E : Env} {prog : J → Prog Q R α} {s : Pool Q R J α} {i : ℕ}
    {t : Thread Q R J α} (ht : s.threads i = some t) (hcrashed : t.crashed = false) {o : Op Q}
    {k : o.Res R → Prog Q R α} (hrest : t.rest = .op o k) {out : Outcome R} {r : o.Res R} {w : World}
    (hperform : perform E s.world o out = some (r, w)) :
    step E prog s (.step i out) = some ({ s with world := w }.setThread i
      { t with rest := k r, log := t.log ++ entries E s.world o r }) := by
  rw [step, ht]
  dsimp only
  rw [if_neg (by simp [hcrashed]), stepThread, hrest]
  dsimp only
  rw [hperform, Option.map_some]

end Pool

/-- The threads as a system, from a file system on which none was started. -/
def pool (E : Env) (prog : J → Prog Q R α) (w : World) : System (Pool Q R J α) (Label R J) where
  init := { world := w }
  step := Pool.step E prog

/-! ## What a thread may do -/

/-- What a thread owns. -/
inductive Own
  /-- Nothing. -/
  | idle
  /-- The temporary file of a name, with what it has written to it. -/
  | holds (name : GoString) (inode : ℕ) (bytes : GoString)
  /-- The name of a temporary file that was renamed. -/
  | spent (name : GoString)
  /-- A file that is open for reading. -/
  | reading (f : OpenFile)

/-- The temporary name that a thread owns. -/
def Own.temp : Own → Option GoString
  | .holds name _ _ => some name
  | .spent name => some name
  | _ => none

/-- What a thread owns after it has closed a file. -/
def Own.closed : Own → Own
  | .reading _ => .idle
  | own => own

/-- What a job may do: where it may publish what, and what it may send after which log. -/
structure Contract (Q : Type) where
  /-- The locations that are only written by a rename. -/
  visible : Location → Prop
  /-- What the job may publish. -/
  publishes : Location → GoString → Prop
  /-- What the job may send. -/
  mayCall : List (Entry Q) → Q → Prop

/-- The rule of a call: what has to hold before it, when `k` has to hold after it. -/
def spec (E : Env) (C : Contract Q) (own : Own) (log : List (Entry Q)) :
    (o : Op Q) → (o.Res R → Own → List (Entry Q) → Prop) → Prop
  | .createTemp dir pattern, k =>
      own = .idle ∧
      (∀ random : GoString, (∀ x ∈ random, 48 ≤ x ∧ x ≤ 57) →
        ¬ C.visible (E.locate (tempName dir pattern random))) ∧
      (∀ err, k (.error err) .idle log) ∧
      ∀ f : OpenFile, f.offset = 0 → k (.ok f) (.holds f.name f.inode []) log
  -- files are only published by a rename
  | .create _, _ => False
  | .openFile path, k =>
      own = .idle ∧ (∀ err, k (.error err) .idle log) ∧
      ∀ f : OpenFile, f.name = path → f.offset = 0 → k (.ok f) (.reading f) log
  | .write f bytes, k =>
      ∃ written, own = .holds f.name f.inode written ∧ f.offset = written.length ∧
        k (bytes.length, none) (.holds f.name f.inode (written ++ bytes)) log ∧
        ∀ err n, n ≤ bytes.length →
          k (n, some err) (.holds f.name f.inode (written ++ bytes.take n)) log
  | .sync _, k => k none own log ∧ ∀ err, k (some err) own log
  | .close _, k => k none own.closed log ∧ ∀ err, k (some err) own.closed log
  | .readAll f, k =>
      own = .reading f ∧ (∀ err, k (.error err) own log) ∧
      ∀ bytes, k (.ok bytes) own (log ++ [.read (E.locate f.name) bytes])
  | .rename old new, k =>
      ∃ inode bytes, own = .holds old inode bytes ∧
        C.visible (E.locate new) ∧ C.publishes (E.locate new) bytes ∧
        k none (.spent old) (log ++ [.published (E.locate new) bytes]) ∧
        ∀ err, k (some err) own log
  | .remove path, k =>
      ((∃ inode bytes, own = .holds path inode bytes) ∧ k none .idle log ∨ own = .spent path) ∧
      ∀ err, k (some err) .idle (log ++ [.removeFailed (E.locate path)])
  | .stat _, k => (∀ err, k (.error err) own log) ∧ ∀ isDir, k (.ok isDir) own log
  | .call request, k => C.mayCall log request ∧ ∀ r, k r own (log ++ [.called request])

/-- The condition under which a program keeps to the rules, and `post` holds when it returns: of what
the thread owns, of its log, of the calls it has made and of what it returns. -/
def wpEvents (E : Env) (C : Contract Q) : Prog Q R α →
    (Own → List (Entry Q) → List (Event Q) → α → Prop) → Own → List (Entry Q) → Prop
  | .ret a, post, own, log => post own log [] a
  | .op o k, post, own, log => spec E C own log o fun r own' log' =>
      wpEvents E C (k r) (fun own log events a => post own log (⟨o, o.failed r⟩ :: events) a)
        own' log'

/-- The same for a condition that does not depend on the calls. -/
def wp (E : Env) (C : Contract Q) (p : Prog Q R α) (post : Own → List (Entry Q) → α → Prop) :
    Own → List (Entry Q) → Prop :=
  wpEvents E C p fun own log _ a => post own log a

variable {E : Env} {C : Contract Q} {own : Own} {log : List (Entry Q)}

/-- A rule may be used for a weaker condition afterwards. -/
theorem spec_mono {o : Op Q} {k k' : o.Res R → Own → List (Entry Q) → Prop}
    (hk : ∀ r own log, k r own log → k' r own log) (h : spec E C own log o k) :
    spec E C own log o k' := by
  cases o <;> simp only [spec] at h ⊢ <;> grind

/-- A program followed by a program keeps to the rules if both do. -/
theorem wpEvents_bind {p : Prog Q R α} {f : α → Prog Q R β}
    {post : Own → List (Entry Q) → List (Event Q) → β → Prop}
    (h : wpEvents E C p (fun own log events a => wpEvents E C (f a)
      (fun own log events' b => post own log (events ++ events') b) own log) own log) :
    wpEvents E C (p >>= f) post own log := by
  induction p generalizing own log post with
  | ret a => exact h
  | op o k ih => exact spec_mono (fun r own log hr => ih r hr) h

/-- A program keeps to the rules for a weaker condition at its end. -/
theorem wpEvents_mono {p : Prog Q R α}
    {post post' : Own → List (Entry Q) → List (Event Q) → α → Prop}
    (hpost : ∀ own log events a, post own log events a → post' own log events a)
    (h : wpEvents E C p post own log) : wpEvents E C p post' own log := by
  induction p generalizing own log post post' with
  | ret a => exact hpost own log [] a h
  | op o k ih => exact spec_mono (fun r own log => ih r fun own log events => hpost own log _) h

theorem wp_bind {p : Prog Q R α} {f : α → Prog Q R β} {post : Own → List (Entry Q) → β → Prop}
    (h : wp E C p (fun own log a => wp E C (f a) post own log) own log) :
    wp E C (p >>= f) post own log := wpEvents_bind h

theorem wp_mono {p : Prog Q R α} {post post' : Own → List (Entry Q) → α → Prop}
    (hpost : ∀ own log a, post own log a → post' own log a) (h : wp E C p post own log) :
    wp E C p post' own log := wpEvents_mono (fun own log _ => hpost own log) h

/-- **A program that keeps to the rules can return**: its calls may fail one after the other until
it does, and what it has done by then it did before. -/
theorem exists_post_of_wp [IsEmpty Q] {p : Prog Q R α} {post : Own → List (Entry Q) → α → Prop}
    (h : wp E C p post own log) : ∃ own' log' a, log <+: log' ∧ post own' log' a := by
  have err : FileError := ⟨.other, []⟩
  induction p generalizing own log with
  | ret a => exact ⟨own, log, a, List.prefix_rfl, h⟩
  | op o k ih =>
      cases o with
      | createTemp dir pattern => exact ih _ (h.2.2.1 err)
      | create path => exact h.elim
      | openFile path => exact ih _ (h.2.1 err)
      | write f bytes =>
          obtain ⟨written, -, -, -, herr⟩ := h
          exact ih _ (herr err 0 (Nat.zero_le _))
      | sync f => exact ih _ (h.2 err)
      | close f => exact ih _ (h.2 err)
      | readAll f => exact ih _ (h.2.1 err)
      | rename old new =>
          obtain ⟨inode, bytes, -, -, -, -, herr⟩ := h
          exact ih _ (herr err)
      | remove path =>
          obtain ⟨own', log', a, hlog, hpost⟩ := ih _ (h.2 err)
          exact ⟨own', log', a, (List.prefix_append _ _).trans hlog, hpost⟩
      | stat path => exact ih _ (h.1 err)
      | call request => exact isEmptyElim request

/-! ## What a call that keeps to the rules does -/

/-- What a thread owns is there as it believes. -/
def Own.Present (E : Env) (w : World) : Own → Prop
  | .idle => True
  | .holds name inode bytes =>
      w.node (E.locate name) = some (.file inode) ∧ w.data inode = bytes ∧ inode < w.next
  | .spent name => w.node (E.locate name) = none
  | .reading f => f.offset = 0

/-- The effects of the calls of a thread on the file system, on what the thread owns and on its
log. -/
inductive Effect (E : Env) (C : Contract Q) (w : World) (log : List (Entry Q)) :
    Own → World → Own → List (Entry Q) → Prop
  /-- Nothing happens. -/
  | quiet (own : Own) : Effect E C w log own w own []
  /-- A request is sent. -/
  | called (own : Own) (request : Q) (hmay : C.mayCall log request) :
      Effect E C w log own w own [.called request]
  /-- A temporary file is made. -/
  | created (name : GoString) (hunused : E.locate name ∉ w.used)
      (hfree : w.node (E.locate name) = none) (hhidden : ¬ C.visible (E.locate name)) :
      Effect E C w log .idle
        { w.addFile (E.locate name) with used := E.locate name :: w.used }
        (.holds name w.next []) []
  /-- The temporary file is written to. -/
  | wrote (name : GoString) (inode : ℕ) (bytes bytes' : GoString) :
      Effect E C w log (.holds name inode bytes)
        { w with data := Function.update w.data inode bytes' } (.holds name inode bytes') []
  /-- The temporary file is published. -/
  | published (name : GoString) (inode : ℕ) (bytes : GoString) (l : Location) (hvisible : C.visible l)
      (hpublishes : C.publishes l bytes) (hblocked : w.blocked l = none)
      (hdir : w.node l ≠ some .dir) :
      Effect E C w log (.holds name inode bytes) (w.move (E.locate name) l) (.spent name)
        [.published l bytes]
  /-- The temporary file is removed. -/
  | removed (name : GoString) (inode : ℕ) (bytes : GoString) :
      Effect E C w log (.holds name inode bytes) (w.unlink (E.locate name)) .idle []
  /-- The temporary file is not removed. -/
  | kept (name : GoString) (inode : ℕ) (bytes : GoString) :
      Effect E C w log (.holds name inode bytes) w .idle [.removeFailed (E.locate name)]
  /-- The name of a temporary file that was renamed is not found. -/
  | gone (name : GoString) :
      Effect E C w log (.spent name) w .idle [.removeFailed (E.locate name)]
  /-- A file is opened for reading. -/
  | opened (f : OpenFile) (hnode : w.node (E.locate f.name) = some (.file f.inode))
      (hoffset : f.offset = 0) : Effect E C w log .idle w (.reading f) []
  /-- The open file is read. -/
  | read (f : OpenFile) :
      Effect E C w log (.reading f) w (.reading f) [.read (E.locate f.name) (w.data f.inode)]
  /-- The open file is closed. -/
  | closed (f : OpenFile) : Effect E C w log (.reading f) w .idle []

variable {w w' : World}

/-- Inodes are never given back. -/
theorem Effect.next_le {own' : Own} {es : List (Entry Q)} (he : Effect E C w log own w' own' es) :
    w.next ≤ w'.next := by
  cases he with
  | created => exact Nat.le_succ _
  | _ => exact le_rfl

/-- A call changes only the contents of an inode that its thread holds. -/
theorem Effect.data_eq {own' : Own} {es : List (Entry Q)} (he : Effect E C w log own w' own' es)
    {n : ℕ} (hlt : n < w.next) (hn : ∀ name bytes, own ≠ .holds name n bytes) :
    w'.data n = w.data n := by
  cases he with
  | created => exact Function.update_of_ne hlt.ne _ _
  | wrote name inode bytes bytes' =>
      refine Function.update_of_ne ?_ _ _
      rintro rfl
      exact hn name bytes rfl
  | _ => rfl

/-- A thread comes to hold only a new inode. -/
theorem Effect.not_holds {own' : Own} {es : List (Entry Q)} (he : Effect E C w log own w' own' es)
    {n : ℕ} (hlt : n < w.next) (hn : ∀ name bytes, own ≠ .holds name n bytes) (name : GoString)
    (bytes : GoString) : own' ≠ .holds name n bytes := by
  intro heq
  cases he with
  | created name' =>
      obtain ⟨-, hinode, -⟩ := Own.holds.inj heq
      exact hlt.ne hinode.symm
  | wrote name' inode bytes' bytes'' =>
      obtain ⟨-, rfl, -⟩ := Own.holds.inj heq
      exact hn name' bytes' rfl
  | quiet => exact hn name bytes heq
  | called => exact hn name bytes heq
  | _ => exact absurd heq (by simp)

/-- Closing a file. -/
theorem Effect.close (own : Own) : Effect E C w log own w own.closed [] := by
  cases own with
  | reading f => exact .closed f
  | idle => exact .quiet _
  | holds name inode bytes => exact .quiet _
  | spent name => exact .quiet _

/-- Writing at the end of the temporary file. -/
theorem Effect.write {f : OpenFile} {written : GoString} (hdata : w.data f.inode = written)
    (hoffset : f.offset = written.length) (bytes : GoString) :
    Effect E C w log (.holds f.name f.inode written) (w.writeData f.inode f.offset bytes)
      (.holds f.name f.inode (written ++ bytes)) [] := by
  rw [hoffset, ← hdata, World.writeData_end]
  exact .wrote _ _ _ _

/-- A failed call. -/
theorem exists_effect_of_failure {o : Op Q} {k : o.Res R → Own → List (Entry Q) → Prop}
    {err : FileError} {n : ℕ} {r : o.Res R} (hspec : spec E C own log o k)
    (hpresent : own.Present E w) (hfail : failure w err n o = some (r, w')) :
    ∃ own', k r own' (log ++ entries E w o r) ∧ Effect E C w log own w' own' (entries E w o r) := by
  cases o with
  | createTemp dir pattern =>
      obtain ⟨rfl, rfl⟩ := Prod.mk.inj (Option.some.inj hfail)
      obtain ⟨rfl, -, herr, -⟩ := hspec
      exact ⟨.idle, by simpa [entries] using herr err, .quiet _⟩
  | create path => exact hspec.elim
  | openFile path =>
      obtain ⟨rfl, rfl⟩ := Prod.mk.inj (Option.some.inj hfail)
      obtain ⟨rfl, herr, -⟩ := hspec
      exact ⟨.idle, by simpa [entries] using herr err, .quiet _⟩
  | write f bytes =>
      simp only [failure] at hfail
      split at hfail
      · next hn =>
        obtain ⟨rfl, rfl⟩ := Prod.mk.inj (Option.some.inj hfail)
        obtain ⟨written, rfl, hoffset, -, herr⟩ := hspec
        exact ⟨_, by simpa [entries] using herr err n hn, .write hpresent.2.1 hoffset _⟩
      · exact absurd hfail (by simp)
  | sync f =>
      obtain ⟨rfl, rfl⟩ := Prod.mk.inj (Option.some.inj hfail)
      exact ⟨own, by simpa [entries] using hspec.2 err, .quiet _⟩
  | close f =>
      obtain ⟨rfl, rfl⟩ := Prod.mk.inj (Option.some.inj hfail)
      exact ⟨own.closed, by simpa [entries] using hspec.2 err, .close _⟩
  | readAll f =>
      obtain ⟨rfl, rfl⟩ := Prod.mk.inj (Option.some.inj hfail)
      obtain ⟨rfl, herr, -⟩ := hspec
      exact ⟨_, by simpa [entries] using herr err, .quiet _⟩
  | rename old new =>
      obtain ⟨rfl, rfl⟩ := Prod.mk.inj (Option.some.inj hfail)
      obtain ⟨inode, bytes, rfl, -, -, -, herr⟩ := hspec
      exact ⟨_, by simpa [entries] using herr err, .quiet _⟩
  | remove path =>
      obtain ⟨rfl, rfl⟩ := Prod.mk.inj (Option.some.inj hfail)
      obtain ⟨⟨⟨inode, bytes, rfl⟩, -⟩ | rfl, herr⟩ := hspec
      · exact ⟨.idle, herr err, .kept _ _ _⟩
      · exact ⟨.idle, herr err, .gone _⟩
  | stat path =>
      obtain ⟨rfl, rfl⟩ := Prod.mk.inj (Option.some.inj hfail)
      exact ⟨own, by simpa [entries] using hspec.1 err, .quiet _⟩
  | call request => exact absurd hfail (by simp [failure])

/-- A call that succeeds. -/
theorem exists_effect_of_success {o : Op Q} {k : o.Res R → Own → List (Entry Q) → Prop}
    {out : Outcome R} {r : o.Res R} (hspec : spec E C own log o k) (hpresent : own.Present E w)
    (hrefuses : w.refuses E o = none) (hsuccess : success E w o out = some (r, w')) :
    ∃ own', k r own' (log ++ entries E w o r) ∧ Effect E C w log own w' own' (entries E w o r) := by
  cases o with
  | createTemp dir pattern =>
      cases out with
      | temp random =>
          simp only [success] at hsuccess
          split at hsuccess
          · next hnew =>
            obtain ⟨rfl, rfl⟩ := Prod.mk.inj (Option.some.inj hsuccess)
            obtain ⟨rfl, hhidden, -, hok⟩ := hspec
            exact ⟨_, by simpa [entries] using hok _ rfl,
              .created _ hnew.2.1 hnew.2.2.1 (hhidden random hnew.1)⟩
          · exact absurd hsuccess (by simp)
      | _ => exact absurd hsuccess (by simp [success])
  | create path => exact hspec.elim
  | openFile path =>
      cases out with
      | done =>
          obtain ⟨f, hf, heq⟩ := Option.map_eq_some_iff.mp hsuccess
          obtain ⟨rfl, rfl⟩ := Prod.mk.inj heq
          obtain ⟨rfl, -, hok⟩ := hspec
          unfold World.openAt at hf
          split at hf
          · next inode hnode =>
            obtain rfl := Option.some.inj hf
            exact ⟨_, by simpa [entries] using hok _ rfl rfl, .opened _ hnode rfl⟩
          · exact absurd hf (by simp)
      | _ => exact absurd hsuccess (by simp [success])
  | write f bytes =>
      cases out with
      | done =>
          obtain ⟨rfl, rfl⟩ := Prod.mk.inj (Option.some.inj hsuccess)
          obtain ⟨written, rfl, hoffset, hok, -⟩ := hspec
          exact ⟨_, by simpa [entries] using hok, .write hpresent.2.1 hoffset _⟩
      | _ => exact absurd hsuccess (by simp [success])
  | sync f =>
      cases out with
      | done =>
          obtain ⟨rfl, rfl⟩ := Prod.mk.inj (Option.some.inj hsuccess)
          exact ⟨own, by simpa [entries] using hspec.1, .quiet _⟩
      | _ => exact absurd hsuccess (by simp [success])
  | close f =>
      cases out with
      | done =>
          obtain ⟨rfl, rfl⟩ := Prod.mk.inj (Option.some.inj hsuccess)
          exact ⟨own.closed, by simpa [entries] using hspec.1, .close _⟩
      | _ => exact absurd hsuccess (by simp [success])
  | readAll f =>
      cases out with
      | done =>
          obtain ⟨rfl, rfl⟩ := Prod.mk.inj (Option.some.inj hsuccess)
          obtain ⟨rfl, -, hok⟩ := hspec
          have hoffset : f.offset = 0 := hpresent
          rw [hoffset, List.drop_zero]
          exact ⟨_, hok _, .read f⟩
      | _ => exact absurd hsuccess (by simp [success])
  | rename old new =>
      cases out with
      | done =>
          obtain ⟨rfl, rfl⟩ := Prod.mk.inj (Option.some.inj hsuccess)
          obtain ⟨inode, bytes, rfl, hvisible, hpublishes, hok, -⟩ := hspec
          obtain ⟨hnode, rfl, -⟩ := hpresent
          simp only [World.refuses, Option.or_eq_none_iff] at hrefuses
          have hdir : w.node (E.locate new) ≠ some .dir :=
            fun hdir => absurd hrefuses.2.2 (by simp [hdir])
          have hcontent : (w.content (E.locate old)).getD [] = w.data inode := by
            rw [w.content_of_node hnode, Option.getD_some]
          simp only [entries, hcontent]
          exact ⟨_, hok, .published _ _ _ _ hvisible hpublishes hrefuses.2.1 hdir⟩
      | _ => exact absurd hsuccess (by simp [success])
  | remove path =>
      cases out with
      | done =>
          obtain ⟨rfl, rfl⟩ := Prod.mk.inj (Option.some.inj hsuccess)
          obtain ⟨⟨⟨inode, bytes, rfl⟩, hok⟩ | rfl, -⟩ := hspec
          · exact ⟨.idle, by simpa [entries] using hok, .removed _ _ _⟩
          · -- there is no file of that name
            have hgone : w.node (E.locate path) = none := hpresent
            simp [World.refuses, World.missing, hgone] at hrefuses
      | _ => exact absurd hsuccess (by simp [success])
  | stat path =>
      cases out with
      | done =>
          obtain ⟨rfl, rfl⟩ := Prod.mk.inj (Option.some.inj hsuccess)
          exact ⟨own, by simpa [entries] using hspec.2 _, .quiet _⟩
      | _ => exact absurd hsuccess (by simp [success])
  | call request =>
      cases out with
      | answer a =>
          obtain ⟨rfl, rfl⟩ := Prod.mk.inj (Option.some.inj hsuccess)
          exact ⟨own, hspec.2 _, .called _ _ hspec.1⟩
      | _ => exact absurd hsuccess (by simp [success])

/-- **A call that keeps to its rule has one of the effects**, and the thread goes on with what its
rule promises. -/
theorem exists_effect {o : Op Q} {k : o.Res R → Own → List (Entry Q) → Prop} {out : Outcome R}
    {r : o.Res R} (hspec : spec E C own log o k) (hpresent : own.Present E w)
    (hperform : perform E w o out = some (r, w')) :
    ∃ own', k r own' (log ++ entries E w o r) ∧ Effect E C w log own w' own' (entries E w o r) := by
  rcases perform_cases hperform with ⟨-, err, n, -, hfail⟩ | ⟨-, hrefuses, hsuccess⟩
  · exact exists_effect_of_failure hspec hpresent hfail
  · exact exists_effect_of_success hspec hpresent hrefuses hsuccess

end DistributedSystems.FileSystem
