import DistributedSystems.Storage.FilePool

/-! # Published files are complete

A `Discipline` gives every job a program that keeps to the rules of its contract. Its theorems hold
in every reachable state of the threads:

* `Discipline.content_published` — a visible file has its initial contents, or what some thread has
  published there as a whole;
* `Discipline.published_stays` — a location at which a file was published has a file ever after;
* `Discipline.content_step` — a step changes the contents of a visible file only by publishing it;
* `Discipline.content_initial_or_published` — a visible file is as it was at the start, or as some
  thread has published it;
* `Discipline.hidden_initial`, `Discipline.hidden_step` — of the files that are not visible, those
  that were there at the start are never changed, and the others only by the thread that made them;
* `Discipline.read_published`, `Discipline.returned` — what a thread reads from visible files and
  returns;
* `Discipline.called_allowed` — a request is sent only after a log that allows it;
* `Discipline.leftover` — when every thread has returned, a temporary file is left only where its
  removal failed. -/

namespace DistributedSystems.FileSystem

variable {Q R J α : Type} {E : Env} {C : Contract Q} {w w' : World} {log es : List (Entry Q)}
  {own : ℕ → Own} {o o' : Own} {i j : ℕ}

/-! ## Who owns what -/

/-- What a thread owns is as it believes, and nobody else can find it. -/
def Own.Valid (E : Env) (w : World) : Own → Prop
  | .idle => True
  | .holds name inode bytes =>
      w.node (E.locate name) = some (.file inode) ∧ w.data inode = bytes ∧
      E.locate name ∈ w.used ∧ ∀ l, w.node l = some (.file inode) → l = E.locate name
  | .spent name => E.locate name ∈ w.used ∧ w.node (E.locate name) = none
  | .reading f => f.inode < w.next ∧ f.offset = 0

/-- The threads own what they believe to own, and no two of them the same. -/
structure Ownership (E : Env) (visible : Location → Prop) (w : World) (own : ℕ → Own) : Prop where
  /-- What a thread owns is as it believes. -/
  valid : ∀ i, (own i).Valid E w
  /-- Temporary names of different threads have different locations. -/
  apart : ∀ {i j name name'}, i ≠ j → (own i).temp = some name → (own j).temp = some name' →
    E.locate name ≠ E.locate name'
  /-- Every inode with a name was allocated. -/
  bound : ∀ {l inode}, w.node l = some (.file inode) → inode < w.next
  /-- Temporary locations are not visible. -/
  hidden : ∀ {l}, l ∈ w.used → ¬ visible l
  /-- Nobody writes to a file that was opened at a visible location. -/
  still : ∀ {i j f name bytes}, own i = .reading f → visible (E.locate f.name) →
    own j ≠ .holds name f.inode bytes

namespace Ownership

/-- What a thread owns is there. -/
theorem present {visible : Location → Prop} (h : Ownership E visible w own) (i : ℕ) :
    (own i).Present E w := by
  have hvalid := h.valid i
  cases hown : own i with
  | idle => trivial
  | holds name inode bytes =>
      rw [hown] at hvalid
      exact ⟨hvalid.1, hvalid.2.1, h.bound hvalid.1⟩
  | spent name =>
      rw [hown] at hvalid
      exact hvalid.2
  | reading f =>
      rw [hown] at hvalid
      exact hvalid.2

/-- The temporary location of a thread was made by `createTemp`. -/
theorem temp_used {visible : Location → Prop} (h : Ownership E visible w own) {name : GoString}
    (htemp : (own i).temp = some name) : E.locate name ∈ w.used := by
  have hvalid := h.valid i
  cases hown : own i with
  | holds name' inode bytes =>
      rw [hown] at htemp hvalid
      obtain rfl := Option.some.inj htemp
      exact hvalid.2.2.1
  | spent name' =>
      rw [hown] at htemp hvalid
      obtain rfl := Option.some.inj htemp
      exact hvalid.1
  | idle => simp [hown, Own.temp] at htemp
  | reading f => simp [hown, Own.temp] at htemp

/-- The temporary location of a thread is not visible. -/
theorem temp_ne (h : Ownership E C.visible w own) {name : GoString} {l : Location}
    (htemp : (own i).temp = some name) (hvisible : C.visible l) : E.locate name ≠ l :=
  fun heq => h.hidden (h.temp_used htemp) (heq ▸ hvisible)

/-- Two threads do not hold the same inode. -/
theorem inode_ne (h : Ownership E C.visible w own) (hne : i ≠ j) {name name' : GoString}
    {inode inode' : ℕ} {bytes bytes' : GoString} (hi : own i = .holds name inode bytes)
    (hj : own j = .holds name' inode' bytes') : inode ≠ inode' := by
  rintro rfl
  have hvalid := h.valid i
  have hvalid' := h.valid j
  rw [hi] at hvalid
  rw [hj] at hvalid'
  exact h.apart hne (congrArg Own.temp hi) (congrArg Own.temp hj) (hvalid'.2.2.2 _ hvalid.1)

/-- A temporary file keeps its name and contents when another thread makes a call. -/
theorem holds_of_ne (h : Ownership E C.visible w own) (hi : own i = o)
    (he : Effect E C w log o w' o' es) (hne : j ≠ i) {name : GoString} {inode : ℕ}
    {bytes : GoString} (hj : own j = .holds name inode bytes) :
    (Own.holds name inode bytes).Valid E w' := by
  have hvalid := h.valid j
  rw [hj] at hvalid
  obtain ⟨hnode, hdata, hused, hunique⟩ := hvalid
  have htemp : (own j).temp = some name := congrArg Own.temp hj
  cases he with
  | created name' hunused hfree hhidden =>
      have hl : E.locate name ≠ E.locate name' := fun heq => hunused (heq ▸ hused)
      have hlt := h.bound hnode
      refine ⟨?_, ?_, List.mem_cons_of_mem _ hused, fun l hl' => ?_⟩
      · exact (Function.update_of_ne hl _ _).trans hnode
      · exact (Function.update_of_ne hlt.ne _ _).trans hdata
      · by_cases heq : l = E.locate name'
        · subst heq
          have hnext := (Function.update_self _ _ _).symm.trans hl'
          simp only [Option.some.injEq, Node.file.injEq] at hnext
          exact absurd hnext hlt.ne'
        · exact hunique l ((Function.update_of_ne heq _ _).symm.trans hl')
  | wrote name' inode' bytes' bytes'' =>
      have hinode := h.inode_ne hne hj hi
      exact ⟨hnode, (Function.update_of_ne hinode _ _).trans hdata, hused, hunique⟩
  | published name' inode' bytes' l hvisible hpublishes =>
      have hl := h.temp_ne htemp hvisible
      have hl' := h.apart hne htemp (congrArg Own.temp hi)
      have hvalid' := h.valid i
      rw [hi] at hvalid'
      refine ⟨?_, hdata, hused, fun l' hl'' => ?_⟩
      · exact (Function.update_of_ne hl _ _).trans ((Function.update_of_ne hl' _ _).trans hnode)
      · by_cases heq : l' = l
        · subst heq
          -- the published inode is not this thread's
          have hmoved := (Function.update_self _ _ _).symm.trans hl''
          rw [hvalid'.1] at hmoved
          simp only [Option.some.injEq, Node.file.injEq] at hmoved
          exact absurd hmoved.symm (h.inode_ne hne hj hi)
        · have hmoved := (Function.update_of_ne heq _ _).symm.trans hl''
          by_cases heq' : l' = E.locate name'
          · subst heq'
            exact absurd ((Function.update_self _ _ _).symm.trans hmoved) (by simp)
          · exact hunique l' ((Function.update_of_ne heq' _ _).symm.trans hmoved)
  | removed name' inode' bytes' =>
      have hl' := h.apart hne htemp (congrArg Own.temp hi)
      refine ⟨(Function.update_of_ne hl' _ _).trans hnode, hdata, hused, fun l' hl'' => ?_⟩
      by_cases heq : l' = E.locate name'
      · subst heq
        exact absurd ((Function.update_self _ _ _).symm.trans hl'') (by simp)
      · exact hunique l' ((Function.update_of_ne heq _ _).symm.trans hl'')
  | _ => exact ⟨hnode, hdata, hused, hunique⟩

/-- A name that was renamed stays free when another thread makes a call. -/
theorem spent_of_ne (h : Ownership E C.visible w own) (hi : own i = o)
    (he : Effect E C w log o w' o' es) (hne : j ≠ i) {name : GoString}
    (hj : own j = .spent name) : (Own.spent name).Valid E w' := by
  have hvalid := h.valid j
  rw [hj] at hvalid
  obtain ⟨hused, hnode⟩ := hvalid
  have htemp : (own j).temp = some name := congrArg Own.temp hj
  cases he with
  | created name' hunused hfree hhidden =>
      have hl : E.locate name ≠ E.locate name' := fun heq => hunused (heq ▸ hused)
      exact ⟨List.mem_cons_of_mem _ hused, (Function.update_of_ne hl _ _).trans hnode⟩
  | published name' inode bytes l hvisible hpublishes =>
      have hl := h.temp_ne htemp hvisible
      have hl' := h.apart hne htemp (congrArg Own.temp hi)
      exact ⟨hused,
        (Function.update_of_ne hl _ _).trans ((Function.update_of_ne hl' _ _).trans hnode)⟩
  | removed name' inode bytes =>
      have hl' := h.apart hne htemp (congrArg Own.temp hi)
      exact ⟨hused, (Function.update_of_ne hl' _ _).trans hnode⟩
  | _ => exact ⟨hused, hnode⟩

/-- A thread keeps what it owns when another one makes a call. -/
theorem valid_of_ne (h : Ownership E C.visible w own) (hi : own i = o)
    (he : Effect E C w log o w' o' es) (hne : j ≠ i) : (own j).Valid E w' := by
  cases hj : own j with
  | idle => trivial
  | holds name inode bytes => exact h.holds_of_ne hi he hne hj
  | spent name => exact h.spent_of_ne hi he hne hj
  | reading f =>
      have hvalid := h.valid j
      rw [hj] at hvalid
      exact ⟨hvalid.1.trans_le he.next_le, hvalid.2⟩

/-- A thread owns what its own call gives it. -/
theorem valid_self (h : Ownership E C.visible w own) (hi : own i = o)
    (he : Effect E C w log o w' o' es) : o'.Valid E w' := by
  have hvalid := h.valid i
  rw [hi] at hvalid
  cases he with
  | created name hunused hfree hhidden =>
      refine ⟨Function.update_self _ _ _, Function.update_self _ _ _, List.mem_cons_self,
        fun l hl => ?_⟩
      by_contra hne
      exact (h.bound ((Function.update_of_ne hne _ _).symm.trans hl)).false
  | wrote name inode bytes bytes' =>
      exact ⟨hvalid.1, Function.update_self _ _ _, hvalid.2.2.1, hvalid.2.2.2⟩
  | published name inode bytes l hvisible hpublishes =>
      have hl : E.locate name ≠ l := h.temp_ne (congrArg Own.temp hi) hvisible
      exact ⟨hvalid.2.2.1, w.node_move_old hl⟩
  | opened f hnode hoffset => exact ⟨h.bound hnode, hoffset⟩
  | quiet => exact hvalid
  | called => exact hvalid
  | read f => exact hvalid
  | removed | kept | gone | closed => trivial

/-- The temporary name of a thread after its call is the one before it, or new. -/
theorem temp_effect (he : Effect E C w log o w' o' es) {name : GoString}
    (htemp : o'.temp = some name) : o.temp = some name ∨ E.locate name ∉ w.used := by
  cases he with
  | created name' hunused hfree hhidden =>
      obtain rfl := Option.some.inj htemp
      exact Or.inr hunused
  | opened f => exact absurd htemp (by simp [Own.temp])
  | removed | kept | gone | closed => exact absurd htemp (by simp [Own.temp])
  | _ => exact Or.inl htemp

/-- The temporary names stay apart. -/
theorem apart_effect (h : Ownership E C.visible w own) (hi : own i = o)
    (he : Effect E C w log o w' o' es) (hne : j ≠ i) {name name' : GoString}
    (htemp : o'.temp = some name) (htemp' : (own j).temp = some name') :
    E.locate name ≠ E.locate name' := by
  rcases temp_effect he htemp with hold | hnew
  · exact h.apart hne.symm (hi ▸ hold) htemp'
  · exact fun heq => hnew (heq ▸ h.temp_used htemp')

/-- Every inode with a name is still allocated. -/
theorem bound_effect (h : Ownership E C.visible w own) (hi : own i = o)
    (he : Effect E C w log o w' o' es) {l : Location} {inode : ℕ}
    (hl : w'.node l = some (.file inode)) : inode < w'.next := by
  cases he with
  | created name hunused hfree hhidden =>
      by_cases heq : l = E.locate name
      · subst heq
        have hnext := (Function.update_self _ _ _).symm.trans hl
        simp only [Option.some.injEq, Node.file.injEq] at hnext
        exact hnext ▸ Nat.lt_succ_self _
      · exact Nat.lt_succ_of_lt (h.bound ((Function.update_of_ne heq _ _).symm.trans hl))
  | published name inode' bytes l' hvisible hpublishes =>
      by_cases heq : l = l'
      · subst heq
        exact h.bound ((w.node_move_self _ _).symm.trans hl)
      · have hmoved := (Function.update_of_ne heq _ _).symm.trans hl
        by_cases heq' : l = E.locate name
        · subst heq'
          exact absurd ((Function.update_self _ _ _).symm.trans hmoved) (by simp)
        · exact h.bound ((Function.update_of_ne heq' _ _).symm.trans hmoved)
  | removed name inode' bytes =>
      by_cases heq : l = E.locate name
      · subst heq
        exact absurd ((Function.update_self _ _ _).symm.trans hl) (by simp)
      · exact h.bound ((Function.update_of_ne heq _ _).symm.trans hl)
  | _ => exact h.bound hl

/-- Temporary locations are still not visible. -/
theorem hidden_effect (h : Ownership E C.visible w own) (he : Effect E C w log o w' o' es)
    {l : Location} (hl : l ∈ w'.used) : ¬ C.visible l := by
  cases he with
  | created name hunused hfree hhidden =>
      rcases List.mem_cons.mp hl with rfl | hl
      · exact hhidden
      · exact h.hidden hl
  | _ => exact h.hidden hl

/-- A file that is opened at a visible location is held by nobody. -/
theorem not_held (h : Ownership E C.visible w own) {l : Location} {inode : ℕ}
    (hnode : w.node l = some (.file inode)) (hvisible : C.visible l) {name bytes : GoString} :
    own j ≠ .holds name inode bytes := by
  intro hj
  have hvalid := h.valid j
  rw [hj] at hvalid
  exact h.temp_ne (congrArg Own.temp hj) hvisible (hvalid.2.2.2 l hnode).symm

/-- A thread that has opened a file at a visible location reads a file that nobody writes to. -/
theorem still_reader (h : Ownership E C.visible w own) (hi : own i = o)
    (he : Effect E C w log o w' o' es) {f : OpenFile} (ho' : o' = .reading f)
    (hvisible : C.visible (E.locate f.name)) {name bytes : GoString} :
    own j ≠ .holds name f.inode bytes := by
  cases he with
  | opened f' hnode hoffset =>
      obtain rfl := Own.reading.inj ho'
      exact h.not_held hnode hvisible
  | read f' =>
      obtain rfl := Own.reading.inj ho'
      exact h.still hi hvisible
  | quiet => exact h.still (hi.trans ho') hvisible
  | called => exact h.still (hi.trans ho') hvisible
  | _ => exact absurd ho' (by simp)

/-- A thread does not start to write to a file that was opened at a visible location. -/
theorem still_writer (h : Ownership E C.visible w own) (hi : own i = o)
    (he : Effect E C w log o w' o' es) {f : OpenFile} (hj : own j = .reading f)
    (hvisible : C.visible (E.locate f.name)) {name bytes : GoString} :
    o' ≠ .holds name f.inode bytes := by
  have hvalid := h.valid j
  rw [hj] at hvalid
  exact he.not_holds hvalid.1 (fun name bytes ho => h.still hj hvisible (hi.trans ho)) name bytes

/-- **Ownership is kept by every call that keeps to the rules.** -/
theorem effect (h : Ownership E C.visible w own) (hi : own i = o)
    (he : Effect E C w log o w' o' es) :
    Ownership E C.visible w' (Function.update own i o') where
  valid j := by
    by_cases hj : j = i
    · subst hj
      rw [Function.update_self]
      exact h.valid_self hi he
    · rw [Function.update_of_ne hj]
      exact h.valid_of_ne hi he hj
  apart {j k name name'} hne hname hname' := by
    by_cases hj : j = i
    · subst hj
      rw [Function.update_self] at hname
      rw [Function.update_of_ne hne.symm] at hname'
      exact h.apart_effect hi he hne.symm hname hname'
    · rw [Function.update_of_ne hj] at hname
      by_cases hk : k = i
      · subst hk
        rw [Function.update_self] at hname'
        exact (h.apart_effect hi he hj hname' hname).symm
      · rw [Function.update_of_ne hk] at hname'
        exact h.apart hne hname hname'
  bound hl := h.bound_effect hi he hl
  hidden hl := h.hidden_effect he hl
  still {j k f name bytes} hj hvisible hk := by
    by_cases hji : j = i
    · subst hji
      rw [Function.update_self] at hj
      by_cases hki : k = j
      · subst hki
        rw [Function.update_self, hj] at hk
        exact absurd hk (by simp)
      · rw [Function.update_of_ne hki] at hk
        exact h.still_reader hi he hj hvisible hk
    · rw [Function.update_of_ne hji] at hj
      by_cases hki : k = i
      · subst hki
        rw [Function.update_self] at hk
        exact h.still_writer hi he hj hvisible hk
      · rw [Function.update_of_ne hki] at hk
        exact h.still hj hvisible hk

/-! ## What a call changes -/

/-- **A call changes the contents of a visible file only by publishing it.** -/
theorem content_effect (h : Ownership E C.visible w own) (hi : own i = o)
    (he : Effect E C w log o w' o' es) {l : Location} (hl : C.visible l) :
    w'.content l = w.content l ∨ ∃ bytes, es = [.published l bytes] ∧ w'.content l = some bytes := by
  have hdata (hnode : w'.node l = w.node l) : w'.content l = w.content l := by
    unfold World.content
    rw [hnode]
    cases hl' : w.node l with
    | none => rfl
    | some node =>
        cases node with
        | dir => rfl
        | file inode =>
            exact congrArg some (he.data_eq (h.bound hl') fun name bytes ho =>
              h.not_held hl' hl (hi.trans ho))
  cases he with
  | created name hunused hfree hhidden =>
      refine Or.inl (hdata (Function.update_of_ne ?_ _ _))
      rintro rfl
      exact hhidden hl
  | published name inode bytes l' hvisible hpublishes =>
      have hvalid := h.valid i
      rw [hi] at hvalid
      by_cases heq : l = l'
      · subst heq
        refine Or.inr ⟨bytes, rfl, ?_⟩
        rw [World.content_of_node _ ((w.node_move_self _ _).trans hvalid.1)]
        exact congrArg some hvalid.2.1
      · have hne := (h.temp_ne (congrArg Own.temp hi) hl).symm
        exact Or.inl (hdata ((Function.update_of_ne heq _ _).trans (Function.update_of_ne hne _ _)))
  | removed name inode bytes =>
      have hne := (h.temp_ne (congrArg Own.temp hi) hl).symm
      exact Or.inl (hdata (Function.update_of_ne hne _ _))
  | _ => exact Or.inl (hdata rfl)

/-- **A call publishes one file, or changes no visible file.** -/
theorem content_cases (h : Ownership E C.visible w own) (hi : own i = o)
    (he : Effect E C w log o w' o' es) :
    (∃ l bytes, es = [.published l bytes] ∧ C.publishes l bytes ∧ w'.content l = some bytes ∧
      ∀ l', C.visible l' → l' ≠ l → w'.content l' = w.content l') ∨
    (∀ l bytes, .published l bytes ∉ es) ∧ ∀ l, C.visible l → w'.content l = w.content l := by
  by_cases hes : ∃ l bytes, .published l bytes ∈ es
  · cases he with
    | published name inode bytes l hvisible hpublishes hblocked hdir =>
        have he' : Effect E C w log (.holds name inode bytes) (w.move (E.locate name) l)
            (.spent name) [.published l bytes] :=
          .published name inode bytes l hvisible hpublishes hblocked hdir
        have hvalid := h.valid i
        rw [hi] at hvalid
        refine Or.inl ⟨l, bytes, rfl, hpublishes, ?_, fun l' hl' hne => ?_⟩
        · rw [World.content_of_node _ ((w.node_move_self _ _).trans hvalid.1)]
          exact congrArg some hvalid.2.1
        · refine (h.content_effect hi he' hl').resolve_right ?_
          rintro ⟨bytes', heq, -⟩
          simp only [List.cons.injEq, Entry.published.injEq, and_true] at heq
          exact hne heq.1.symm
    | _ => simp at hes
  · refine Or.inr ⟨fun l bytes hmem => hes ⟨l, bytes, hmem⟩, fun l hl => ?_⟩
    refine (h.content_effect hi he hl).resolve_right ?_
    rintro ⟨bytes, rfl, -⟩
    exact hes ⟨l, bytes, List.mem_singleton_self _⟩

/-- **A call does not change a file that is open for reading at a visible location.** -/
theorem data_still (h : Ownership E C.visible w own) (hi : own i = o)
    (he : Effect E C w log o w' o' es) {f : OpenFile} (hj : own j = .reading f)
    (hvisible : C.visible (E.locate f.name)) : w'.data f.inode = w.data f.inode := by
  have hvalid := h.valid j
  rw [hj] at hvalid
  exact he.data_eq hvalid.1 fun name bytes ho => h.still hj hvisible (hi.trans ho)

/-- **A call changes a file that is not visible only if it is its thread's temporary file.** -/
theorem content_of_temp_ne (h : Ownership E C.visible w own) (hi : own i = o)
    (he : Effect E C w log o w' o' es) {l : Location} (hl : ¬ C.visible l) {bytes : GoString}
    (hcontent : w.content l = some bytes)
    (htemp : ∀ name, o.temp = some name → E.locate name ≠ l) : w'.content l = some bytes := by
  obtain ⟨inode, hnode, rfl⟩ := World.exists_of_content hcontent
  have hdata : w'.data inode = w.data inode := by
    refine he.data_eq (h.bound hnode) fun name bytes ho => ?_
    -- a thread that holds the inode has its only name
    have hvalid := h.valid i
    rw [hi, ho] at hvalid
    exact htemp name (congrArg Own.temp ho) (hvalid.2.2.2 l hnode).symm
  have hnode' : w'.node l = some (.file inode) := by
    rw [← hnode]
    cases he with
    | created name hunused hfree hhidden =>
        refine Function.update_of_ne ?_ _ _
        rintro rfl
        exact absurd (hfree.symm.trans hnode) (by simp)
    | published name inode' bytes l' hvisible hpublishes =>
        have hl' : l ≠ l' := fun heq => hl (heq ▸ hvisible)
        have hname : l ≠ E.locate name := (htemp name rfl).symm
        exact (Function.update_of_ne hl' _ _).trans (Function.update_of_ne hname _ _)
    | removed name inode' bytes => exact Function.update_of_ne (htemp name rfl).symm _ _
    | _ => rfl
  rw [World.content_of_node _ hnode', hdata]

/-- A temporary location was used before a call, or was free. -/
theorem used_effect (he : Effect E C w log o w' o' es) {l : Location} (hl : l ∈ w'.used) :
    l ∈ w.used ∨ w.node l = none := by
  cases he with
  | created name hunused hfree hhidden =>
      rcases List.mem_cons.mp hl with rfl | hl
      · exact Or.inr hfree
      · exact Or.inl hl
  | _ => exact Or.inl hl

end Ownership

/-! ## Logs -/

/-- What the contract asks of an entry after a log. -/
def EntryOk (C : Contract Q) (log : List (Entry Q)) : Entry Q → Prop
  | .published l bytes => C.visible l ∧ C.publishes l bytes
  | .called request => C.mayCall log request
  | _ => True

/-- A log that keeps to the contract. -/
inductive LogOk (C : Contract Q) : List (Entry Q) → Prop
  /-- The empty log. -/
  | nil : LogOk C []
  /-- A log with one more entry. -/
  | concat {log : List (Entry Q)} {e : Entry Q} (hlog : LogOk C log) (he : EntryOk C log e) :
      LogOk C (log ++ [e])

/-- A call that keeps to the rules extends a log that keeps to the contract. -/
theorem LogOk.effect (hlog : LogOk C log) (he : Effect E C w log o w' o' es) :
    LogOk C (log ++ es) := by
  cases he with
  | called own request hmay => exact hlog.concat hmay
  | published name inode bytes l hvisible hpublishes => exact hlog.concat ⟨hvisible, hpublishes⟩
  | kept | gone | read => exact hlog.concat trivial
  | _ => exact (List.append_nil log).symm ▸ hlog

/-- An entry of a log that keeps to the contract is allowed by the log before it. -/
theorem LogOk.mem (hlog : LogOk C log) {e : Entry Q} (he : e ∈ log) :
    ∃ before, before <+: log ∧ EntryOk C before e := by
  induction hlog with
  | nil => exact absurd he List.not_mem_nil
  | concat hlog hok ih =>
      rcases List.mem_append.mp he with he | he
      · obtain ⟨before, hbefore, hok⟩ := ih he
        exact ⟨before, hbefore.trans (List.prefix_append _ _), hok⟩
      · obtain rfl := List.mem_singleton.mp he
        exact ⟨_, List.prefix_append _ _, hok⟩

namespace Pool

/-- The log of a thread. -/
def logOf (s : Pool Q R J α) (i : ℕ) : List (Entry Q) := (s.threads i).elim [] Thread.log

/-- The file has its initial contents, or what a thread has published there. -/
def Good (w₀ : World) (s : Pool Q R J α) (l : Location) (bytes : GoString) : Prop :=
  w₀.content l = some bytes ∨ ∃ i, .published l bytes ∈ s.logOf i

variable {s : Pool Q R J α} {t : Thread Q R J α}

theorem logOf_of_thread (h : s.threads i = some t) : s.logOf i = t.log := by
  rw [logOf, h, Option.elim_some]

@[simp] theorem logOf_setThread_self : (s.setThread i t).logOf i = t.log := by
  simp [logOf, setThread]

@[simp] theorem logOf_setThread_ne (h : j ≠ i) : (s.setThread i t).logOf j = s.logOf j := by
  simp [logOf, setThread, Function.update_of_ne h]

/-- The entries of the logs after a step of a thread. -/
theorem mem_logOf_setThread (hlog : t.log = s.logOf i ++ es) {e : Entry Q} :
    e ∈ (s.setThread i t).logOf j ↔ e ∈ s.logOf j ∨ j = i ∧ e ∈ es := by
  by_cases hj : j = i
  · subst hj
    simp [hlog]
  · simp [hj]

/-- In a run, a thread has made a temporary file at a location, which no call had used before. -/
def Made (E : Env) (prog : J → Prog Q R α) (w₀ : World) (as : List (Label R J)) (i : ℕ)
    (l : Location) : Prop :=
  ∃ before a after s s', as = before ++ a :: after ∧
    (pool E prog w₀).exec (pool E prog w₀).init before = some s ∧
    (pool E prog w₀).step s a = some s' ∧ a.thread = i ∧ l ∉ s.world.used ∧ l ∈ s'.world.used

/-- What was made in a run was made in a longer one. -/
theorem Made.concat {prog : J → Prog Q R α} {w₀ : World} {as : List (Label R J)} {l : Location}
    (h : Made E prog w₀ as i l) (a : Label R J) : Made E prog w₀ (as ++ [a]) i l := by
  obtain ⟨before, b, after, s, s', rfl, hmade⟩ := h
  exact ⟨before, b, after ++ [a], s, s', by simp, hmade⟩

end Pool

/-! ## Disciplines -/

/-- A **discipline**: for every job a program that keeps to the rules of its contract. -/
structure Discipline (E : Env) (Q R J α : Type) where
  /-- The locations that are only written by a rename. -/
  visible : Location → Prop
  /-- The program of a job. -/
  prog : J → Prog Q R α
  /-- What a job may publish. -/
  publishes : J → Location → GoString → Prop
  /-- What a job may send after a log. -/
  mayCall : J → List (Entry Q) → Q → Prop
  /-- What a job may return after a log. -/
  returns : J → List (Entry Q) → α → Prop
  /-- The programs keep to the rules, and own nothing when they return. -/
  safe : ∀ job, wp E ⟨visible, publishes job, mayCall job⟩ (prog job)
    (fun own log a => own = .idle ∧ returns job log a) .idle []

namespace Discipline

variable (D : Discipline E Q R J α)

/-- The contract of a job. -/
def contract (job : J) : Contract Q := ⟨D.visible, D.publishes job, D.mayCall job⟩

/-- What holds when the program of a job returns. -/
def post (job : J) (own : Own) (log : List (Entry Q)) (a : α) : Prop :=
  own = .idle ∧ D.returns job log a

/-- The invariant of the threads that run under a discipline. -/
structure Inv (w₀ : World) (s : Pool Q R J α) (own : ℕ → Own) : Prop where
  /-- The threads own different things. -/
  ownership : Ownership E D.visible s.world own
  /-- A thread that was not started owns nothing. -/
  unstarted : ∀ {i}, s.threads i = none → own i = .idle
  /-- What is left of a program keeps to the rules. -/
  safe : ∀ {i t}, s.threads i = some t →
    wp E (D.contract t.job) t.rest (D.post t.job) (own i) t.log
  /-- The logs keep to the contracts. -/
  logs : ∀ {i t}, s.threads i = some t → LogOk (D.contract t.job) t.log
  /-- Visible files were published, or there at the start. -/
  contents : ∀ {l bytes}, D.visible l → s.world.content l = some bytes → s.Good w₀ l bytes
  /-- So were the files that are open for reading. -/
  opened : ∀ {i f}, own i = .reading f → D.visible (E.locate f.name) →
    s.Good w₀ (E.locate f.name) (s.world.data f.inode)
  /-- So was what the threads have read. -/
  reads : ∀ {i l bytes}, .read l bytes ∈ s.logOf i → D.visible l → s.Good w₀ l bytes
  /-- Where a file was published there is one. -/
  stays : ∀ {i l bytes}, .published l bytes ∈ s.logOf i →
    D.visible l ∧ (s.world.content l).isSome
  /-- A temporary file belongs to a thread, or its removal failed. -/
  leftovers : ∀ {l}, l ∈ s.world.used → s.world.node l ≠ none →
    (∃ i name inode bytes, own i = .holds name inode bytes ∧ E.locate name = l) ∨
      ∃ i, .removeFailed l ∈ s.logOf i

variable {D} {w₀ : World} {s s' : Pool Q R J α} {t : Thread Q R J α}

/-- What is good stays good. -/
theorem good_setThread (hlog : t.log = s.logOf i ++ es) {l : Location} {bytes : GoString}
    (h : s.Good w₀ l bytes) : ({ s with world := w' }.setThread i t).Good w₀ l bytes := by
  rcases h with h | ⟨j, hj⟩
  · exact Or.inl h
  · exact Or.inr ⟨j, (Pool.mem_logOf_setThread (s := { s with world := w' }) hlog).mpr (Or.inl hj)⟩

variable {job : J}

/-- A published file is still there after a call. -/
theorem isSome_effect (h : Ownership E D.visible s.world own) (hi : own i = o)
    (he : Effect E (D.contract job) s.world log o w' o' es) {l : Location} (hl : D.visible l)
    (hsome : (s.world.content l).isSome) : (w'.content l).isSome := by
  rcases h.content_effect hi he hl with heq | ⟨bytes, -, heq⟩
  · rw [heq]
    exact hsome
  · rw [heq]
    rfl

/-- A temporary file that is still there after a call belongs to a thread, or its removal failed. -/
theorem leftovers_effect (h : D.Inv w₀ s own) (hi : own i = o)
    (he : Effect E (D.contract job) s.world log o w' o' es) {l : Location} (hused : l ∈ w'.used)
    (hnode : w'.node l ≠ none) :
    (∃ j name inode bytes, Function.update own i o' j = .holds name inode bytes ∧
      E.locate name = l) ∨ (∃ j, .removeFailed l ∈ s.logOf j) ∨ .removeFailed l ∈ es := by
  -- what belongs to another thread still does
  have hold (hused : l ∈ s.world.used) (hnode : s.world.node l ≠ none)
      (hself : ∀ name inode bytes, o = .holds name inode bytes → E.locate name = l →
        (∃ bytes, o' = .holds name inode bytes) ∨ .removeFailed l ∈ es) :
      (∃ j name inode bytes, Function.update own i o' j = .holds name inode bytes ∧
        E.locate name = l) ∨ (∃ j, .removeFailed l ∈ s.logOf j) ∨ .removeFailed l ∈ es := by
    rcases h.leftovers hused hnode with ⟨j, name, inode, bytes, hj, hl⟩ | hfailed
    · by_cases hji : j = i
      · subst hji
        rcases hself name inode bytes (hi.symm.trans hj) hl with ⟨bytes', ho'⟩ | hfailed
        · exact Or.inl ⟨j, name, inode, bytes', (Function.update_self _ _ _).trans ho', hl⟩
        · exact Or.inr (Or.inr hfailed)
      · exact Or.inl ⟨j, name, inode, bytes, (Function.update_of_ne hji _ _).trans hj, hl⟩
    · exact Or.inr (Or.inl hfailed)
  cases he with
  | created name hunused hfree hhidden =>
      by_cases hl : l = E.locate name
      · exact Or.inl ⟨i, name, _, _, Function.update_self _ _ _, hl.symm⟩
      · have hused' := (List.mem_cons.mp hused).resolve_left hl
        have hnode' : s.world.node l ≠ none := (Function.update_of_ne hl _ _).symm.trans_ne hnode
        exact hold hused' hnode' fun name' inode bytes ho => absurd ho (by simp)
  | wrote name inode bytes bytes' =>
      refine hold hused hnode fun name' inode' bytes'' ho _ => Or.inl ⟨bytes', ?_⟩
      obtain ⟨rfl, rfl, -⟩ := Own.holds.inj ho
      rfl
  | published name inode bytes l' hvisible hpublishes =>
      have hl' : l ≠ l' := fun heq => h.ownership.hidden hused (heq ▸ hvisible)
      have hmoved := (Function.update_of_ne hl' _ _).symm.trans_ne hnode
      by_cases hl : l = E.locate name
      · subst hl
        exact absurd (Function.update_self _ _ _) hmoved
      · refine hold hused ((Function.update_of_ne hl _ _).symm.trans_ne hmoved) ?_
        intro name' inode' bytes' ho hname
        obtain ⟨rfl, -, -⟩ := Own.holds.inj ho
        exact absurd hname.symm hl
  | removed name inode bytes =>
      by_cases hl : l = E.locate name
      · subst hl
        exact absurd (Function.update_self _ _ _) hnode
      · refine hold hused ((Function.update_of_ne hl _ _).symm.trans_ne hnode) ?_
        intro name' inode' bytes' ho hname
        obtain ⟨rfl, -, -⟩ := Own.holds.inj ho
        exact absurd hname.symm hl
  | kept name inode bytes =>
      refine hold hused hnode fun name' inode' bytes' ho hname => Or.inr ?_
      obtain ⟨rfl, -, -⟩ := Own.holds.inj ho
      exact hname ▸ List.mem_singleton_self _
  | quiet => exact hold hused hnode fun name inode bytes ho _ => Or.inl ⟨bytes, ho⟩
  | called => exact hold hused hnode fun name inode bytes ho _ => Or.inl ⟨bytes, ho⟩
  | gone | opened | read | closed =>
      exact hold hused hnode fun name inode bytes ho => absurd ho (by simp)

/-- A file that is open for reading at a visible location is good after a call. -/
theorem opened_effect (h : D.Inv w₀ s own) (hi : own i = o)
    (he : Effect E (D.contract job) s.world log o w' o' es) {f : OpenFile}
    (hj : Function.update own i o' j = .reading f) (hvisible : D.visible (E.locate f.name)) :
    s.Good w₀ (E.locate f.name) (w'.data f.inode) := by
  by_cases hji : j = i
  · rw [hji, Function.update_self] at hj
    cases he with
    | opened f' hnode hoffset =>
        obtain rfl := Own.reading.inj hj
        exact h.contents hvisible (World.content_of_node _ hnode)
    | read f' =>
        obtain rfl := Own.reading.inj hj
        exact h.opened hi hvisible
    | quiet => exact h.opened (hi.trans hj) hvisible
    | called => exact h.opened (hi.trans hj) hvisible
    | _ => exact absurd hj (by simp)
  · rw [Function.update_of_ne hji] at hj
    have hvalid := h.ownership.valid j
    rw [hj] at hvalid
    have hdata : w'.data f.inode = s.world.data f.inode :=
      he.data_eq hvalid.1 fun name bytes ho =>
        h.ownership.still hj hvisible (hi.trans ho)
    rw [hdata]
    exact h.opened hj hvisible

/-- What a call reads at a visible location is good. -/
theorem read_effect (h : D.Inv w₀ s own) (hi : own i = o)
    (he : Effect E (D.contract job) s.world log o w' o' es) {l : Location} {bytes : GoString}
    (hread : .read l bytes ∈ es) (hvisible : D.visible l) : s.Good w₀ l bytes := by
  cases he with
  | read f =>
      obtain ⟨rfl, rfl⟩ := Entry.read.inj (List.mem_singleton.mp hread)
      exact h.opened hi hvisible
  | _ => exact absurd hread (by simp)

/-- What a call publishes is there after it. -/
theorem published_effect (h : Ownership E D.visible s.world own) (hi : own i = o)
    (he : Effect E (D.contract job) s.world log o w' o' es) {l : Location} {bytes : GoString}
    (hpublished : .published l bytes ∈ es) : D.visible l ∧ (w'.content l).isSome := by
  cases he with
  | published name inode bytes' l' hvisible hpublishes =>
      obtain ⟨rfl, -⟩ := Entry.published.inj (List.mem_singleton.mp hpublished)
      have hvalid := h.valid i
      rw [hi] at hvalid
      refine ⟨hvisible, ?_⟩
      rw [World.content_of_node _ ((s.world.node_move_self _ _).trans hvalid.1)]
      rfl
  | _ => exact absurd hpublished (by simp)

/-- **The invariant is kept by a call that keeps to the rules.** -/
theorem Inv.effect (h : D.Inv w₀ s own) (hlog : LogOk (D.contract t.job) (s.logOf i))
    (ht : t.log = s.logOf i ++ es)
    (he : Effect E (D.contract t.job) s.world (s.logOf i) (own i) w' o' es)
    (hsafe : wp E (D.contract t.job) t.rest (D.post t.job) o' t.log) :
    D.Inv w₀ ({ s with world := w' }.setThread i t) (Function.update own i o') := by
  have hmem {j : ℕ} {e : Entry Q} := Pool.mem_logOf_setThread (s := { s with world := w' })
    (j := j) (e := e) ht
  have hgood {l : Location} {bytes : GoString} (hg : s.Good w₀ l bytes) :
      ({ s with world := w' }.setThread i t).Good w₀ l bytes := good_setThread ht hg
  -- a thread after the step is the thread that moved, or an old one
  have hthread {j : ℕ} {t' : Thread Q R J α}
      (ht' : ({ s with world := w' }.setThread i t).threads j = some t') :
      j = i ∧ t' = t ∨ j ≠ i ∧ s.threads j = some t' := by
    by_cases hj : j = i
    · subst hj
      rw [Pool.threads_setThread_self] at ht'
      exact Or.inl ⟨rfl, (Option.some.inj ht').symm⟩
    · rw [Pool.threads_setThread_ne _ hj] at ht'
      exact Or.inr ⟨hj, ht'⟩
  exact
  { ownership := h.ownership.effect rfl he
    unstarted := by
      intro j hj
      have hji : j ≠ i := by
        rintro rfl
        exact absurd ((Function.update_self _ _ _).symm.trans hj) (by simp)
      rw [Function.update_of_ne hji]
      exact h.unstarted ((Function.update_of_ne hji _ _).symm.trans hj)
    safe := by
      intro j t' ht'
      rcases hthread ht' with ⟨rfl, rfl⟩ | ⟨hji, hold⟩
      · rw [Function.update_self]
        exact hsafe
      · rw [Function.update_of_ne hji]
        exact h.safe hold
    logs := by
      intro j t' ht'
      rcases hthread ht' with ⟨rfl, rfl⟩ | ⟨hji, hold⟩
      · rw [ht]
        exact hlog.effect he
      · exact h.logs hold
    contents := by
      intro l bytes hvisible hcontent
      rcases h.ownership.content_effect rfl he hvisible with heq | ⟨bytes', rfl, heq⟩
      · exact hgood (h.contents hvisible (heq.symm.trans hcontent))
      · obtain rfl := Option.some.inj (heq.symm.trans hcontent)
        exact Or.inr ⟨i, hmem.mpr (Or.inr ⟨rfl, List.mem_singleton_self _⟩)⟩
    opened := fun hj hvisible => hgood (opened_effect h rfl he hj hvisible)
    reads := by
      intro j l bytes hread hvisible
      rcases hmem.mp hread with hold | ⟨-, hnew⟩
      · exact hgood (h.reads hold hvisible)
      · exact hgood (read_effect h rfl he hnew hvisible)
    stays := by
      intro j l bytes hpublished
      rcases hmem.mp hpublished with hold | ⟨-, hnew⟩
      · obtain ⟨hvisible, hsome⟩ := h.stays hold
        exact ⟨hvisible, isSome_effect h.ownership rfl he hvisible hsome⟩
      · exact published_effect h.ownership rfl he hnew
    leftovers := by
      intro l hused hnode
      rcases leftovers_effect h rfl he hused hnode with hheld | ⟨j, hold⟩ | hnew
      · exact Or.inl hheld
      · exact Or.inr ⟨j, hmem.mpr (Or.inl hold)⟩
      · exact Or.inr ⟨i, hmem.mpr (Or.inr ⟨rfl, hnew⟩)⟩ }

/-- The invariant is kept when a thread starts or stops without a call. -/
theorem Inv.quiet (h : D.Inv w₀ s own) (hlog : LogOk (D.contract t.job) (s.logOf i))
    (ht : t.log = s.logOf i)
    (hsafe : wp E (D.contract t.job) t.rest (D.post t.job) (own i) t.log) :
    D.Inv w₀ (s.setThread i t) own := by
  have hinv := h.effect hlog (ht.trans (List.append_nil _).symm) (.quiet (own i)) hsafe
  rwa [Function.update_eq_self] at hinv

/-- **Every step keeps the invariant**, and only the thread that moves can get a new temporary
name. -/
theorem Inv.step (h : D.Inv w₀ s own) {a : Label R J} (ha : Pool.step E D.prog s a = some s') :
    ∃ own', D.Inv w₀ s' own' ∧ ∀ j name, (own' j).temp = some name →
      (own j).temp = some name ∨ a.thread = j ∧ E.locate name ∉ s.world.used := by
  cases Pool.step_cases ha with
  | start i job hnone =>
      have hlog : s.logOf i = [] := by rw [Pool.logOf, hnone, Option.elim_none]
      refine ⟨own, h.quiet ?_ hlog.symm ?_, fun j name htemp => Or.inl htemp⟩
      · rw [hlog]
        exact .nil
      · rw [h.unstarted hnone]
        exact D.safe job
  | call i out t o k r w ht hrest hperform =>
      have hsafe := h.safe ht
      rw [hrest] at hsafe
      obtain ⟨own', hk, he⟩ := exists_effect hsafe (h.ownership.present i) hperform
      rw [← Pool.logOf_of_thread ht] at he
      refine ⟨_, Inv.effect h ?_ ?_ he hk, fun j name htemp => ?_⟩
      · rw [Pool.logOf_of_thread ht]
        exact h.logs ht
      · rw [Pool.logOf_of_thread ht]
      · by_cases hj : j = i
        · subst hj
          rw [Function.update_self] at htemp
          exact (Ownership.temp_effect he htemp).imp_right fun hnew => ⟨rfl, hnew⟩
        · rw [Function.update_of_ne hj] at htemp
          exact Or.inl htemp
  | crash i t ht =>
      have hsafe := h.safe ht
      have hlogs := h.logs ht
      refine ⟨own, h.quiet ?_ (Pool.logOf_of_thread ht).symm hsafe, fun j name => Or.inl⟩
      rw [Pool.logOf_of_thread ht]
      exact hlogs

/-! ## What holds in every reachable state -/

/-- The invariant holds before any thread was started. -/
theorem Inv.init (hfresh : w₀.Fresh) : D.Inv w₀ { world := w₀ } fun _ => .idle where
  ownership :=
    { valid := fun _ => trivial
      apart := fun _ h => absurd h (by simp [Own.temp])
      bound := hfresh.bound
      hidden := fun h => absurd h (by simp [hfresh.used_eq])
      still := fun h => absurd h (by simp) }
  unstarted _ := rfl
  safe h := absurd h (by simp)
  logs h := absurd h (by simp)
  contents _ h := Or.inl h
  opened h := absurd h (by simp)
  reads h := absurd h (by simp [Pool.logOf])
  stays h := absurd h (by simp [Pool.logOf])
  leftovers h := absurd h (by simp [hfresh.used_eq])

/-- The invariant holds after every run, and a thread has made the temporary file that it owns. -/
theorem exists_inv_made (hfresh : w₀.Fresh) {as : List (Label R J)}
    (hs : (pool E D.prog w₀).exec (pool E D.prog w₀).init as = some s) :
    ∃ own, D.Inv w₀ s own ∧
      ∀ i name, (own i).temp = some name → Pool.Made E D.prog w₀ as i (E.locate name) := by
  refine System.exec_induction (S := pool E D.prog w₀)
    (P := fun as s => ∃ own, D.Inv w₀ s own ∧
      ∀ i name, (own i).temp = some name → Pool.Made E D.prog w₀ as i (E.locate name))
    ⟨_, Inv.init hfresh, fun i name htemp => absurd htemp (by simp [Own.temp])⟩ ?_ hs
  rintro as s a s' hrun ⟨own, h, hmade⟩ ha
  obtain ⟨own', h', htemps⟩ := h.step ha
  refine ⟨own', h', fun i name htemp => ?_⟩
  rcases htemps i name htemp with hold | ⟨hi, hunused⟩
  · exact (hmade i name hold).concat a
  · exact ⟨as, a, [], s, s', rfl, hrun, ha, hi, hunused, h'.ownership.temp_used htemp⟩

/-- The invariant holds in every reachable state. -/
theorem exists_inv (hfresh : w₀.Fresh) (hs : (pool E D.prog w₀).Reachable s) :
    ∃ own, D.Inv w₀ s own := by
  obtain ⟨as, has⟩ := hs
  obtain ⟨own, h, -⟩ := exists_inv_made hfresh has
  exact ⟨own, h⟩

/-- A file that is good was published by a thread whose job may publish it, or is initial. -/
theorem Inv.publisher (h : D.Inv w₀ s own) {l : Location} {bytes : GoString}
    (hgood : s.Good w₀ l bytes) :
    w₀.content l = some bytes ∨
      ∃ i t, s.threads i = some t ∧ .published l bytes ∈ t.log ∧ D.publishes t.job l bytes := by
  rcases hgood with hinit | ⟨i, hi⟩
  · exact Or.inl hinit
  · cases ht : s.threads i with
    | none => simp [Pool.logOf, ht] at hi
    | some t =>
        rw [Pool.logOf_of_thread ht] at hi
        obtain ⟨before, -, hok⟩ := (h.logs ht).mem hi
        exact Or.inr ⟨i, t, ht, hi, hok.2⟩

/-- **A visible file has its initial contents, or what some thread has published as a whole.** -/
theorem content_published (hfresh : w₀.Fresh) (hs : (pool E D.prog w₀).Reachable s)
    {l : Location} {bytes : GoString} (hl : D.visible l) (hcontent : s.world.content l = some bytes) :
    w₀.content l = some bytes ∨
      ∃ i t, s.threads i = some t ∧ .published l bytes ∈ t.log ∧ D.publishes t.job l bytes := by
  obtain ⟨own, h⟩ := exists_inv hfresh hs
  exact h.publisher (h.contents hl hcontent)

/-- **What a thread has read at a visible location** was there initially, or published. -/
theorem read_published (hfresh : w₀.Fresh) (hs : (pool E D.prog w₀).Reachable s)
    (ht : s.threads i = some t) {l : Location} {bytes : GoString} (hread : .read l bytes ∈ t.log)
    (hl : D.visible l) :
    w₀.content l = some bytes ∨
      ∃ i t, s.threads i = some t ∧ .published l bytes ∈ t.log ∧ D.publishes t.job l bytes := by
  obtain ⟨own, h⟩ := exists_inv hfresh hs
  rw [← Pool.logOf_of_thread ht] at hread
  exact h.publisher (h.reads hread hl)

/-- **Where a file was published there is one.** -/
theorem published_stays (hfresh : w₀.Fresh) (hs : (pool E D.prog w₀).Reachable s)
    (ht : s.threads i = some t) {l : Location} {bytes : GoString}
    (hpublished : .published l bytes ∈ t.log) :
    D.visible l ∧ ∃ bytes, s.world.content l = some bytes := by
  obtain ⟨own, h⟩ := exists_inv hfresh hs
  rw [← Pool.logOf_of_thread ht] at hpublished
  obtain ⟨hvisible, hsome⟩ := h.stays hpublished
  exact ⟨hvisible, Option.isSome_iff_exists.mp hsome⟩

/-- **What a thread returns.** -/
theorem returned (hfresh : w₀.Fresh) (hs : (pool E D.prog w₀).Reachable s)
    (ht : s.threads i = some t) {a : α} (hrest : t.rest = .ret a) : D.returns t.job t.log a := by
  obtain ⟨own, h⟩ := exists_inv hfresh hs
  have hsafe := h.safe ht
  rw [hrest] at hsafe
  exact hsafe.2

/-- **A request is sent only after a log that allows it.** -/
theorem called_allowed (hfresh : w₀.Fresh) (hs : (pool E D.prog w₀).Reachable s)
    (ht : s.threads i = some t) {request : Q} (hcalled : .called request ∈ t.log) :
    ∃ before, before <+: t.log ∧ D.mayCall t.job before request := by
  obtain ⟨own, h⟩ := exists_inv hfresh hs
  exact (h.logs ht).mem hcalled

/-- **When every thread has returned, a temporary file is left only where its removal failed.** -/
theorem leftover (hfresh : w₀.Fresh) (hs : (pool E D.prog w₀).Reachable s)
    (hreturned : ∀ i t, s.threads i = some t → ∃ a, t.rest = .ret a) {l : Location}
    (hused : l ∈ s.world.used) (hnode : s.world.node l ≠ none) :
    ∃ i t, s.threads i = some t ∧ .removeFailed l ∈ t.log := by
  obtain ⟨own, h⟩ := exists_inv hfresh hs
  -- a thread that has returned owns nothing
  have hidle (i : ℕ) : own i = .idle := by
    cases ht : s.threads i with
    | none => exact h.unstarted ht
    | some t =>
        obtain ⟨a, ha⟩ := hreturned i t ht
        have hsafe := h.safe ht
        rw [ha] at hsafe
        exact hsafe.1
  rcases h.leftovers hused hnode with ⟨i, name, inode, bytes, hi, -⟩ | ⟨i, hi⟩
  · exact absurd (hi.symm.trans (hidle i)) (by simp)
  · cases ht : s.threads i with
    | none => simp [Pool.logOf, ht] at hi
    | some t =>
        rw [Pool.logOf_of_thread ht] at hi
        exact ⟨i, t, ht, hi⟩

/-- The file system after a step is the one before it, or that after a call. -/
theorem Inv.world_step (h : D.Inv w₀ s own) {a : Label R J}
    (ha : Pool.step E D.prog s a = some s') :
    s'.world = s.world ∨
      ∃ (t t' : Thread Q R J α) (o' : Own) (es : List (Entry Q)),
        s'.threads a.thread = some t' ∧ t'.log = t.log ++ es ∧
          Effect E (D.contract t.job) s.world t.log (own a.thread) s'.world o' es := by
  cases Pool.step_cases ha with
  | start i job hnone => exact Or.inl rfl
  | crash i t ht => exact Or.inl rfl
  | call i out t o k r w ht hrest hperform =>
      have hsafe := h.safe ht
      rw [hrest] at hsafe
      obtain ⟨own', -, he⟩ := exists_effect hsafe (h.ownership.present i) hperform
      exact Or.inr ⟨t, _, own', _, Pool.threads_setThread_self _ _ _, rfl, he⟩

/-- **A step changes the contents of a visible file only by publishing it.** -/
theorem content_step (hfresh : w₀.Fresh) (hs : (pool E D.prog w₀).Reachable s) {a : Label R J}
    (ha : Pool.step E D.prog s a = some s') {l : Location} (hl : D.visible l) :
    s'.world.content l = s.world.content l ∨
      ∃ t bytes, s'.threads a.thread = some t ∧ .published l bytes ∈ t.log ∧
        s'.world.content l = some bytes := by
  obtain ⟨own, h⟩ := exists_inv hfresh hs
  rcases h.world_step ha with heq | ⟨t, t', o', es, ht', hlog, he⟩
  · exact Or.inl (by rw [heq])
  · rcases h.ownership.content_effect rfl he hl with heq | ⟨bytes, hes, heq⟩
    · exact Or.inl heq
    · refine Or.inr ⟨t', bytes, ht', ?_, heq⟩
      rw [hlog, hes]
      exact List.mem_append_right _ (List.mem_singleton_self _)

/-- **A visible file is as it was at the start, or some thread has published it as it is.** In
particular it is never removed. -/
theorem content_initial_or_published (hfresh : w₀.Fresh) (hs : (pool E D.prog w₀).Reachable s)
    {l : Location} (hl : D.visible l) :
    s.world.content l = w₀.content l ∨
      ∃ i t bytes, s.threads i = some t ∧ .published l bytes ∈ t.log ∧
        D.publishes t.job l bytes ∧ s.world.content l = some bytes := by
  -- a step that changes the file leaves one there
  have hinv : s.world.content l = w₀.content l ∨ ∃ bytes, s.world.content l = some bytes := by
    refine System.Reachable.invariant (S := pool E D.prog w₀)
      (P := fun s => s.world.content l = w₀.content l ∨ ∃ bytes, s.world.content l = some bytes)
      (Or.inl rfl) ?_ hs
    intro s a s' hs ih ha
    rcases content_step hfresh hs ha hl with heq | ⟨t, bytes, -, -, hbytes⟩
    · rw [heq]
      exact ih
    · exact Or.inr ⟨bytes, hbytes⟩
  rcases hinv with heq | ⟨bytes, hbytes⟩
  · exact Or.inl heq
  · rcases content_published hfresh hs hl hbytes with hold | ⟨i, t, ht, hmem, hpublishes⟩
    · exact Or.inl (hbytes.trans hold.symm)
    · exact Or.inr ⟨i, t, bytes, ht, hmem, hpublishes, hbytes⟩

/-! ## Files that are not visible -/

/-- **A file that is not visible and was there at the start is never changed.** -/
theorem hidden_initial (hfresh : w₀.Fresh) (hs : (pool E D.prog w₀).Reachable s) {l : Location}
    (hl : ¬ D.visible l) {bytes : GoString} (hcontent : w₀.content l = some bytes) :
    s.world.content l = some bytes := by
  -- its location is not one of a temporary file either
  have hinv : s.world.content l = some bytes ∧ l ∉ s.world.used := by
    refine System.Reachable.invariant (S := pool E D.prog w₀)
      (P := fun s => s.world.content l = some bytes ∧ l ∉ s.world.used) ?_ ?_ hs
    · exact ⟨hcontent, by simp [pool, hfresh.used_eq]⟩
    · rintro s a s' hs ⟨hkept, hunused⟩ ha
      obtain ⟨own, h⟩ := exists_inv hfresh hs
      rcases h.world_step ha with heq | ⟨t, t', o', es, -, -, he⟩
      · rw [heq]
        exact ⟨hkept, hunused⟩
      · constructor
        · refine h.ownership.content_of_temp_ne rfl he hl hkept fun name htemp heq => ?_
          exact hunused (heq ▸ h.ownership.temp_used htemp)
        · intro hused
          rcases Ownership.used_effect he hused with hold | hfree
          · exact hunused hold
          · obtain ⟨inode, hnode, -⟩ := World.exists_of_content hkept
            exact absurd (hfree.symm.trans hnode) (by simp)
  exact hinv.1

/-- **A step keeps a file that is not visible, unless its thread has made it.** -/
theorem hidden_step (hfresh : w₀.Fresh) {as : List (Label R J)}
    (hs : (pool E D.prog w₀).exec (pool E D.prog w₀).init as = some s) {a : Label R J}
    (ha : Pool.step E D.prog s a = some s') {l : Location} (hl : ¬ D.visible l) {bytes : GoString}
    (hcontent : s.world.content l = some bytes) (hmade : ¬ Pool.Made E D.prog w₀ as a.thread l) :
    s'.world.content l = some bytes := by
  obtain ⟨own, h, hmakers⟩ := exists_inv_made hfresh hs
  rcases h.world_step ha with heq | ⟨t, t', o', es, -, -, he⟩
  · rw [heq]
    exact hcontent
  · refine h.ownership.content_of_temp_ne rfl he hl hcontent fun name htemp heq => ?_
    exact hmade (heq ▸ hmakers a.thread name htemp)

end Discipline

/-- **A thread keeps its job and its log grows** along every run. -/
theorem Pool.exec_thread {prog : J → Prog Q R α} {w₀ : World} {s s' : Pool Q R J α}
    {as : List (Label R J)} (h : (pool E prog w₀).exec s as = some s') {t : Thread Q R J α}
    (ht : s.threads i = some t) :
    ∃ t', s'.threads i = some t' ∧ t'.job = t.job ∧ t.log <+: t'.log := by
  refine System.exec_induction (S := pool E prog w₀)
    (P := fun _ s' => ∃ t', s'.threads i = some t' ∧ t'.job = t.job ∧ t.log <+: t'.log)
    ⟨t, ht, rfl, List.prefix_rfl⟩ ?_ h
  rintro as s a s' - ⟨t', ht', hjob, hlog⟩ ha
  cases Pool.step_cases ha with
  | start j job hnone =>
      have hij : i ≠ j := by
        rintro rfl
        exact absurd (hnone.symm.trans ht') (by simp)
      exact ⟨t', (threads_setThread_ne _ hij _).trans ht', hjob, hlog⟩
  | crash j t'' ht'' =>
      by_cases hij : i = j
      · subst hij
        obtain rfl := Option.some.inj (ht'.symm.trans ht'')
        exact ⟨_, threads_setThread_self _ _ _, hjob, hlog⟩
      · exact ⟨t', (threads_setThread_ne _ hij _).trans ht', hjob, hlog⟩
  | call j out t'' o k r w ht'' hrest hperform =>
      by_cases hij : i = j
      · subst hij
        obtain rfl := Option.some.inj (ht'.symm.trans ht'')
        exact ⟨_, threads_setThread_self _ _ _, hjob, hlog.trans (List.prefix_append _ _)⟩
      · exact ⟨t', (threads_setThread_ne _ hij _).trans ht', hjob, hlog⟩

end DistributedSystems.FileSystem
