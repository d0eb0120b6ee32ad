import DistributedSystems.Storage.FilePool

/-! # Programs that keep to the rules, run alone

A program that keeps to the rules of publishing files is verified call by call (`wpEvents`), for any
number of threads. Here it runs alone, from any file system:

* `Alone` — what it owns is there, and so is what it has published, with its contents;
* `ensures_of_wpEvents` — every run ends in a condition that the rules promise, with the file system
  as `Alone` says. -/

namespace DistributedSystems.FileSystem

variable {Q R α : Type} {E : Env} {C : Contract Q} {w w' : World} {own own' : Own}
  {log es : List (Entry Q)} {l : Location} {bytes : GoString}

/-- A file that was published is at its location, with contents that may be published there, and it
is not the temporary file. -/
structure Settled (C : Contract Q) (w : World) (own : Own) (l : Location) : Prop where
  /-- The location is visible. -/
  visible : C.visible l
  /-- It is below directories. -/
  above : w.blocked l = none
  /-- The file is there. -/
  file : ∃ i < w.next, w.node l = some (.file i) ∧ C.publishes l (w.data i) ∧
    ∀ name bytes, own ≠ .holds name i bytes

/-- What is known of a program that keeps to the rules, while it runs alone. -/
structure Alone (E : Env) (C : Contract Q) (w : World) (own : Own) (log : List (Entry Q)) :
    Prop where
  /-- What it owns is there. -/
  present : own.Present E w
  /-- Its temporary file is not visible. -/
  hidden : ∀ {name}, own.temp = some name → ¬ C.visible (E.locate name)
  /-- What it has published is there. -/
  published : ∀ {l bytes}, .published l bytes ∈ log → Settled C w own l

/-- Nothing is known at the start. -/
theorem Alone.start : Alone E C w .idle [] where
  present := trivial
  hidden h := absurd h (by simp [Own.temp])
  published h := absurd h List.not_mem_nil

namespace Alone

/-- The temporary file is not at a visible location. -/
theorem temp_ne (h : Alone E C w own log) {name : GoString} (htemp : own.temp = some name)
    (hvisible : C.visible l) : E.locate name ≠ l :=
  fun heq => h.hidden htemp (heq ▸ hvisible)

/-- A call that keeps to the rules removes no directory. -/
theorem dir_effect (h : Alone E C w own log) (he : Effect E C w log own w' own' es)
    (hl : w.node l = some .dir) : w'.node l = some .dir := by
  have hpresent := h.present
  cases he with
  | created name hunused hfree hhidden =>
      refine (Function.update_of_ne ?_ _ _).trans hl
      rintro rfl
      exact absurd (hfree.symm.trans hl) (by simp)
  | published name inode bytes l' hvisible hpublishes hblocked hdir =>
      have hname : l ≠ E.locate name := by
        rintro rfl
        exact absurd (hpresent.1.symm.trans hl) (by simp)
      have hl' : l ≠ l' := fun heq => hdir (heq ▸ hl)
      exact (Function.update_of_ne hl' _ _).trans ((Function.update_of_ne hname _ _).trans hl)
  | removed name inode bytes =>
      refine (Function.update_of_ne ?_ _ _).trans hl
      rintro rfl
      exact absurd (hpresent.1.symm.trans hl) (by simp)
  | _ => exact hl

/-- What the program owns after a call is there. -/
theorem present_effect (h : Alone E C w own log) (he : Effect E C w log own w' own' es) :
    own'.Present E w' := by
  have hpresent := h.present
  cases he with
  | created name hunused hfree hhidden =>
      exact ⟨Function.update_self _ _ _, Function.update_self _ _ _, Nat.lt_succ_self _⟩
  | wrote name inode bytes bytes' =>
      exact ⟨hpresent.1, Function.update_self _ _ _, hpresent.2.2⟩
  | published name inode bytes l hvisible hpublishes =>
      exact w.node_move_old (h.temp_ne rfl hvisible)
  | opened f hnode hoffset => exact hoffset
  | removed | kept | gone | closed => trivial
  | quiet => exact hpresent
  | called => exact hpresent
  | read => exact hpresent

/-- A temporary file is not visible after a call. -/
theorem hidden_effect (h : Alone E C w own log) (he : Effect E C w log own w' own' es)
    {name : GoString} (htemp : own'.temp = some name) : ¬ C.visible (E.locate name) := by
  cases he with
  | created name' hunused hfree hhidden =>
      obtain rfl := Option.some.inj htemp
      exact hhidden
  | removed | kept | gone | closed | opened => exact absurd htemp (by simp [Own.temp])
  | _ => exact h.hidden htemp

/-- What is published by a call is there. -/
theorem settled_of_published (h : Alone E C w own log) (he : Effect E C w log own w' own' es)
    (hmem : .published l bytes ∈ es) : Settled C w' own' l := by
  have habove := World.blocked_mono (fun _ => h.dir_effect he) (l := l)
  have hpresent := h.present
  cases he with
  | published name inode bytes' l' hvisible hpublishes hblocked hdir =>
      obtain ⟨rfl, -⟩ := Entry.published.inj (List.mem_singleton.mp hmem)
      obtain ⟨hnode, rfl, hlt⟩ := hpresent
      refine ⟨hvisible, habove hblocked, inode, hlt, ?_, hpublishes, by simp⟩
      exact (w.node_move_self _ _).trans hnode
  | _ => exact absurd hmem (by simp)

/-- A call changes what is at a visible location only by publishing a file there. -/
theorem node_effect (h : Alone E C w own log) (he : Effect E C w log own w' own' es)
    (hvisible : C.visible l) (hmem : ∀ bytes, .published l bytes ∉ es) :
    w'.node l = w.node l := by
  cases he with
  | created name hunused hfree hhidden =>
      refine Function.update_of_ne ?_ _ _
      rintro rfl
      exact hhidden hvisible
  | published name inode bytes l' =>
      have hl' : l ≠ l' := by
        rintro rfl
        exact hmem bytes (List.mem_singleton_self _)
      have hname := (h.temp_ne rfl hvisible).symm
      exact (Function.update_of_ne hl' _ _).trans (Function.update_of_ne hname _ _)
  | removed name inode bytes => exact Function.update_of_ne (h.temp_ne rfl hvisible).symm _ _
  | _ => rfl

/-- What was published before a call is still there, or was published anew. -/
theorem settled_effect (h : Alone E C w own log) (he : Effect E C w log own w' own' es)
    (hl : Settled C w own l) : Settled C w' own' l := by
  by_cases hmem : ∃ bytes, .published l bytes ∈ es
  · obtain ⟨bytes, hmem⟩ := hmem
    exact h.settled_of_published he hmem
  · obtain ⟨i, hlt, hnode, hpublishes, hi⟩ := hl.file
    refine ⟨hl.visible, World.blocked_mono (fun _ => h.dir_effect he) hl.above, i,
      hlt.trans_le he.next_le, ?_, ?_, he.not_holds hlt hi⟩
    · rw [h.node_effect he hl.visible fun bytes hbytes => hmem ⟨bytes, hbytes⟩, hnode]
    · rwa [he.data_eq hlt hi]

/-- **A call that keeps to the rules keeps what is known.** -/
theorem effect (h : Alone E C w own log) (he : Effect E C w log own w' own' es) :
    Alone E C w' own' (log ++ es) where
  present := h.present_effect he
  hidden := h.hidden_effect he
  published hmem := by
    rcases List.mem_append.mp hmem with hold | hnew
    · exact h.settled_effect he (h.published hold)
    · exact h.settled_of_published he hnew

end Alone

/-- **A program that keeps to the rules, run alone**: every run ends as the rules promise, and what
was published is there. -/
theorem ensures_of_wpEvents {p : Prog Q R α}
    {post : Own → List (Entry Q) → List (Event Q) → α → Prop} (h : wpEvents E C p post own log)
    (halone : Alone E C w own log) :
    Prog.Ensures E w p fun x => ∃ own' log', post own' log' x.events x.value ∧
      Alone E C x.world own' log' := by
  induction p generalizing w own log post with
  | ret a => exact .ret ⟨own, log, h, halone⟩
  | op o k ih =>
      refine .op fun out r w' hperform => ?_
      obtain ⟨own', hk, he⟩ := exists_effect h halone.present hperform
      rw [perform_failed hperform] at hk
      exact ih r hk (halone.effect he)

end DistributedSystems.FileSystem
