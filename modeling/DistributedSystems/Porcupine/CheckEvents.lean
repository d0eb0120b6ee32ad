import DistributedSystems.Linearizability.Renaming
import DistributedSystems.Porcupine.CheckOperations

/-! # Checking events

`checkEvents` of `porcupine/checker.go` checks histories of calls and returns without times. The ids
of the operations are arbitrary integers: `renumber` gives them the numbers that `checkSingle`
needs, and `convertEntries` turns the events into entries, with their positions as times.

* `renumber_eq` — `renumber` numbers the ids in the order in which they occur first;
* `numbered_convertEntries` — the entries are those of a complete history with numbered operations;
* `linearizable_convertEntries` — and they are linearizable when the events are;
* `checkEvents_decides` — what the result says about the events, and that the check ends. -/

namespace DistributedSystems.Porcupine

open Linearizability
open Std (TreeMap)

variable {ι ο σ δ : Type}

/-- `Event`, with the kind and the value together. The id is an integer, and a natural number after
`renumber`. -/
structure EventRecord (ι ο δ : Type) where
  /-- `ClientId`. -/
  clientId : ℤ
  /-- `Kind` and `Value`. -/
  value : Value ι ο
  /-- `Id`. -/
  id : δ

namespace EventRecord

/-- The event with another id. -/
def rename {δ' : Type} (f : δ → δ') (e : EventRecord ι ο δ) : EventRecord ι ο δ' :=
  ⟨e.clientId, e.value, f e.id⟩

/-- The call or the return that an event is. -/
def event (e : EventRecord ι ο δ) : Event δ :=
  match e.value with
  | .call _ => .call e.id
  | .ret _ => .ret e.id

@[simp] theorem event_op (e : EventRecord ι ο δ) : e.event.op = e.id := by
  obtain ⟨clientId, value, id⟩ := e
  cases value <;> rfl

@[simp] theorem event_rename {δ' : Type} (f : δ → δ') (e : EventRecord ι ο δ) :
    (e.rename f).event = e.event.map f := by
  obtain ⟨clientId, value, id⟩ := e
  cases value <;> rfl

end EventRecord

/-- The loop of `renumber`, with the numbers that were given. -/
def renumberFrom (m : TreeMap ℤ ℕ) (id : ℕ) :
    List (EventRecord ι ο ℤ) → List (EventRecord ι ο ℕ)
  | [] => []
  | v :: events =>
      match m[v.id]? with
      | some r => ⟨v.clientId, v.value, r⟩ :: renumberFrom m id events
      | none => ⟨v.clientId, v.value, id⟩ :: renumberFrom (m.insert v.id id) (id + 1) events

/-- `renumber`. -/
def renumber (events : List (EventRecord ι ο ℤ)) : List (EventRecord ι ο ℕ) :=
  renumberFrom ∅ 0 events

/-- `convertEntries`. -/
def convertEntries (events : List (EventRecord ι ο ℕ)) : List (Entry ι ο) :=
  events.zipIdx.map fun elem => ⟨elem.1.value, elem.1.id, elem.2, elem.1.clientId⟩

/-! ## Renumbering -/

/-- The ids in the order in which they occur first, after those that are known. -/
def idsFrom (known : List ℤ) (events : List (EventRecord ι ο ℤ)) : List ℤ :=
  events.foldl (fun ids v => if v.id ∈ ids then ids else ids ++ [v.id]) known

/-- The numbers are the positions of the ids. -/
def Indexes (m : TreeMap ℤ ℕ) (known : List ℤ) : Prop :=
  ∀ k, m[k]? = if k ∈ known then some (known.idxOf k) else none

theorem idsFrom_cons (known : List ℤ) (v : EventRecord ι ο ℤ) (events : List (EventRecord ι ο ℤ)) :
    idsFrom known (v :: events) =
      idsFrom (if v.id ∈ known then known else known ++ [v.id]) events := rfl

/-- The known ids stay where they are. -/
theorem exists_idsFrom_eq (known : List ℤ) (events : List (EventRecord ι ο ℤ)) :
    ∃ more, idsFrom known events = known ++ more := by
  induction events generalizing known with
  | nil => exact ⟨[], (List.append_nil known).symm⟩
  | cons v events ih =>
      rw [idsFrom_cons]
      split
      · exact ih known
      · obtain ⟨more, hmore⟩ := ih (known ++ [v.id])
        exact ⟨v.id :: more, hmore.trans (List.append_assoc known [v.id] more)⟩

theorem idxOf_idsFrom {known : List ℤ} {k : ℤ} (hk : k ∈ known)
    (events : List (EventRecord ι ο ℤ)) :
    (idsFrom known events).idxOf k = known.idxOf k := by
  obtain ⟨more, hmore⟩ := exists_idsFrom_eq known events
  rw [hmore, List.idxOf_append_of_mem hk]

theorem nodup_idsFrom {known : List ℤ} (hknown : known.Nodup) (events : List (EventRecord ι ο ℤ)) :
    (idsFrom known events).Nodup := by
  induction events generalizing known with
  | nil => exact hknown
  | cons v events ih =>
      rw [idsFrom_cons]
      split
      · exact ih hknown
      · next hnew => exact ih (List.nodup_append_comm.mp (List.nodup_cons.mpr ⟨hnew, hknown⟩))

theorem mem_idsFrom {known : List ℤ} {events : List (EventRecord ι ο ℤ)} {k : ℤ} :
    k ∈ idsFrom known events ↔ k ∈ known ∨ ∃ v ∈ events, v.id = k := by
  induction events generalizing known with
  | nil => simp [idsFrom]
  | cons v events ih =>
      rw [idsFrom_cons, ih]
      split
      · next hold =>
        constructor
        · exact Or.imp_right fun ⟨w, hw, hk⟩ => ⟨w, List.mem_cons_of_mem _ hw, hk⟩
        · rintro (hk | ⟨w, hw, rfl⟩)
          · exact Or.inl hk
          · rcases List.mem_cons.mp hw with rfl | hw
            · exact Or.inl hold
            · exact Or.inr ⟨w, hw, rfl⟩
      · simp only [List.mem_append, List.mem_cons, List.not_mem_nil, or_false]
        constructor
        · rintro ((hk | rfl) | ⟨w, hw, hk⟩)
          · exact Or.inl hk
          · exact Or.inr ⟨v, Or.inl rfl, rfl⟩
          · exact Or.inr ⟨w, Or.inr hw, hk⟩
        · rintro (hk | ⟨w, rfl | hw, hk⟩)
          · exact Or.inl (Or.inl hk)
          · exact Or.inl (Or.inr hk.symm)
          · exact Or.inr ⟨w, hw, hk⟩

/-- A new id gets the next number. -/
theorem Indexes.insert {m : TreeMap ℤ ℕ} {known : List ℤ} (h : Indexes m known) {k : ℤ}
    (hk : k ∉ known) : Indexes (m.insert k known.length) (known ++ [k]) := by
  intro k'
  rw [TreeMap.getElem?_insert, h k']
  by_cases heq : k' = k
  · subst heq
    rw [if_pos (compare_eq_iff_eq.mpr rfl), if_pos (by simp), List.idxOf_append_of_notMem hk]
    simp
  · rw [if_neg (fun hcmp => heq (compare_eq_iff_eq.mp hcmp).symm)]
    by_cases hmem : k' ∈ known
    · rw [if_pos hmem, if_pos (List.mem_append_left _ hmem), List.idxOf_append_of_mem hmem]
    · rw [if_neg hmem, if_neg (by simp [hmem, heq])]

/-- The loop numbers the ids by their positions. -/
theorem renumberFrom_eq {m : TreeMap ℤ ℕ} {known : List ℤ} (h : Indexes m known)
    (events : List (EventRecord ι ο ℤ)) :
    renumberFrom m known.length events =
      events.map (EventRecord.rename fun k => (idsFrom known events).idxOf k) := by
  induction events generalizing m known with
  | nil => rfl
  | cons v events ih =>
      rw [renumberFrom, idsFrom_cons, h v.id, List.map_cons]
      by_cases hold : v.id ∈ known
      · simp only [if_pos hold]
        rw [ih h, EventRecord.rename, idxOf_idsFrom hold]
      · simp only [if_neg hold]
        have hlast : v.id ∈ known ++ [v.id] := by simp
        have hnumber : (idsFrom (known ++ [v.id]) events).idxOf v.id = known.length := by
          rw [idxOf_idsFrom hlast, List.idxOf_append_of_notMem hold]
          simp
        have hrest := ih (h.insert hold)
        rw [List.length_append, List.length_singleton] at hrest
        rw [hrest, EventRecord.rename, hnumber]

/-- The number of an id. -/
def numberOf (events : List (EventRecord ι ο ℤ)) (k : ℤ) : ℕ := (idsFrom [] events).idxOf k

/-- **`renumber` numbers the ids in the order in which they occur first.** -/
theorem renumber_eq (events : List (EventRecord ι ο ℤ)) :
    renumber events = events.map (EventRecord.rename (numberOf events)) := by
  have hempty : Indexes ∅ [] := by
    intro k
    simp
  exact renumberFrom_eq hempty events

/-! ## The entries of events -/

variable {events : List (EventRecord ι ο ℤ)}

/-- The ids that are numbered are those of the operations. -/
theorem mem_ids {k : ℤ} : k ∈ idsFrom [] events ↔ k ∈ ops (events.map EventRecord.event) := by
  rw [mem_idsFrom]
  constructor
  · rintro (hk | ⟨v, hv, rfl⟩)
    · exact absurd hk List.not_mem_nil
    · exact ⟨v.event, List.mem_map_of_mem hv, v.event_op⟩
  · rintro ⟨e, he, rfl⟩
    obtain ⟨v, hv, rfl⟩ := List.mem_map.mp he
    exact Or.inr ⟨v, hv, v.event_op.symm⟩

/-- Different ids get different numbers. -/
theorem numberOf_injOn : Set.InjOn (numberOf events) (ops (events.map EventRecord.event)) := by
  intro k hk k' _ heq
  exact (List.idxOf_inj (mem_ids.mpr hk)).mp heq

/-- `convertEntries` keeps the calls and the returns. -/
theorem map_event_convertEntries (records : List (EventRecord ι ο ℕ)) :
    (convertEntries records).map Entry.event = records.map EventRecord.event := by
  have hevent : (Entry.event ∘ fun elem : EventRecord ι ο ℕ × ℕ =>
      (⟨elem.1.value, elem.1.id, elem.2, elem.1.clientId⟩ : Entry ι ο)) =
      EventRecord.event ∘ Prod.fst := by
    funext elem
    obtain ⟨⟨clientId, value, id⟩, i⟩ := elem
    cases value <;> rfl
  rw [convertEntries, List.map_map, hevent, ← List.map_map, List.zipIdx_map_fst]

/-- The calls and the returns of the entries. -/
theorem map_event_entries :
    (convertEntries (renumber events)).map Entry.event =
      (events.map EventRecord.event).map (Event.map (numberOf events)) := by
  rw [map_event_convertEntries, renumber_eq, List.map_map, List.map_map]
  congr 1
  funext e
  exact e.event_rename _

/-- **The entries are those of a complete history**, and the operations are numbered. -/
theorem numbered_convertEntries (hcomplete : Complete (events.map EventRecord.event)) :
    Numbered (convertEntries (renumber events)) := by
  refine ⟨?_, fun e he => ?_⟩
  · rw [map_event_entries]
    exact complete_map numberOf_injOn hcomplete
  · have hlength : (convertEntries (renumber events)).length =
        2 * (idsFrom [] events).length := by
      rw [← List.length_map Entry.event, map_event_entries, List.length_map]
      exact hcomplete.length_eq (nodup_idsFrom List.nodup_nil events) fun k => mem_ids
    have hevent : e.event ∈ (events.map EventRecord.event).map (Event.map (numberOf events)) :=
      map_event_entries ▸ List.mem_map_of_mem he
    obtain ⟨e', he', heq⟩ := List.mem_map.mp hevent
    have hid : e.id = numberOf events e'.op :=
      calc
        e.id = e.event.op := (Value.event_op e.id e.value).symm
        _ = (e'.map (numberOf events)).op := congrArg Event.op heq.symm
        _ = numberOf events e'.op := Event.op_map e'
    rw [hlength, Nat.mul_div_cancel_left _ Nat.two_pos, hid]
    exact List.idxOf_lt_length_of_mem (mem_ids.mpr (op_mem_ops he'))

/-- The value of an operation that a function picks. -/
def lookupEvent {β : Type} (f : Value ι ο → Option β) (events : List (EventRecord ι ο ℤ)) (id : ℤ) :
    Option β :=
  events.findSome? fun e => if e.id = id then f e.value else none

/-- An operation of a history of events as a step of the model. -/
def Model.performEvent (model : Model ι ο σ) (events : List (EventRecord ι ο ℤ)) (s : σ) (id : ℤ) :
    Option σ :=
  (lookupEvent Value.input? events id).bind fun input =>
    (lookupEvent Value.output? events id).bind fun output =>
      if (model.step s input output).1 then some (model.step s input output).2 else none

/-- **The events are linearizable**: the model accepts the operations in an order in which none
comes after one that was called when it had returned. -/
def Model.EventsLinearizable (model : Model ι ο σ) (events : List (EventRecord ι ο ℤ)) : Prop :=
  Linearizability.Linearizable (model.performEvent events) model.init
    (events.map EventRecord.event)

/-- The values of an operation are found under its number. -/
theorem lookup_entries {β : Type} (f : Value ι ο → Option β) {id : ℤ}
    (hid : id ∈ ops (events.map EventRecord.event)) :
    lookup f (convertEntries (renumber events)) (numberOf events id) =
      lookupEvent f events id := by
  have hentry : ((fun e : Entry ι ο => if e.id = numberOf events id then f e.value else none) ∘
      fun elem : EventRecord ι ο ℕ × ℕ =>
        (⟨elem.1.value, elem.1.id, elem.2, elem.1.clientId⟩ : Entry ι ο)) =
      (fun e : EventRecord ι ο ℕ => if e.id = numberOf events id then f e.value else none) ∘
        Prod.fst := rfl
  have hiff (e : EventRecord ι ο ℤ) (he : e ∈ events) :
      numberOf events e.id = numberOf events id ↔ e.id = id :=
    ⟨fun heq => numberOf_injOn (e.event_op ▸ op_mem_ops (List.mem_map_of_mem he)) hid heq,
      fun heq => heq ▸ rfl⟩
  rw [lookup, convertEntries, List.findSome?_map, hentry, ← List.findSome?_map,
    List.zipIdx_map_fst, renumber_eq, List.findSome?_map, lookupEvent, ← List.head?_filterMap,
    ← List.head?_filterMap]
  refine congrArg List.head? (List.filterMap_congr fun e he => ?_)
  exact if_congr (hiff e he) rfl rfl

/-- **The entries are linearizable when the events are.** -/
theorem linearizable_convertEntries (model : Model ι ο σ) :
    Linearizable (model.perform (convertEntries (renumber events))) model.init
        ((convertEntries (renumber events)).map Entry.event) ↔
      model.EventsLinearizable events := by
  rw [map_event_entries]
  refine linearizable_map numberOf_injOn (fun s id hid => ?_) model.init
  rw [Model.perform, Model.performEvent, inputOf, outputOf, lookup_entries _ hid,
    lookup_entries _ hid]

/-! ## The check -/

/-- `Model` with the fields that decide a check of events. -/
structure EventModelFields (ι ο σ : Type) extends ModelFields ι ο σ where
  /-- `PartitionEvent`. -/
  partitionEvent : Option (List (EventRecord ι ο ℤ) → List (List (EventRecord ι ο ℤ)))

/-- `NoPartitionEvent`. -/
def noPartitionEvent (history : List (EventRecord ι ο ℤ)) : List (List (EventRecord ι ο ℤ)) :=
  [history]

/-- `PartitionEvent` after `fillDefault`. -/
def EventModelFields.partitions (model : EventModelFields ι ο σ)
    (history : List (EventRecord ι ο ℤ)) : List (List (EventRecord ι ο ℤ)) :=
  model.partitionEvent.getD noPartitionEvent history

variable [DecidableEq σ]

/-- `checkEvents`, up to the run of `checkParallel`. -/
def checkEvents (model : EventModelFields ι ο σ) (history : List (EventRecord ι ο ℤ))
    (verbose : Bool) (timeout : ℤ) : ParallelCheck ι ο σ where
  model := (fillDefault model.toModelFields).toModel
  history := (model.partitions history).map fun subhistory => convertEntries (renumber subhistory)
  computeInfo := verbose
  timeout := timeout

/-- **`checkEvents` decides linearizability** of histories of events, whatever integers the ids are
and whichever way the goroutines and the caller interleave: every run ends, with the caller returned
unless there is no partition and no timeout; `Illegal` says that some partition is not linearizable,
`Ok` that all of them are, and `Unknown` that there was a timeout. -/
theorem checkEvents_decides {model : EventModelFields ι ο σ} {history : List (EventRecord ι ο ℤ)}
    {verbose : Bool} {timeout : ℤ} (hmodel : (fillDefault model.toModelFields).Respectful)
    (hcomplete : ∀ part ∈ model.partitions history, Complete (part.map EventRecord.event)) :
    ¬ (checkEvents model history verbose timeout).system.Endless (fun _ _ => True)
        (checkEvents model history verbose timeout).system.init ∧
      ∀ s, (checkEvents model history verbose timeout).system.Reachable s →
        ((∀ a, (checkEvents model history verbose timeout).system.step s a = none) →
          (∀ i < (model.partitions history).length, ∃ r, s.workers i = some (.sent r)) ∧
          ((∃ result, s.main = .returned result) ∨
            model.partitions history = [] ∧ timeout ≤ 0)) ∧
        (s.main = .returned .illegal → ∃ part ∈ model.partitions history,
          ¬ (fillDefault model.toModelFields).EventsLinearizable part) ∧
        (s.main = .returned .ok → ∀ part ∈ model.partitions history,
          (fillDefault model.toModelFields).EventsLinearizable part) ∧
        (s.main = .returned .unknown → 0 < timeout) := by
  have hnumbered : ∀ entries ∈ (checkEvents model history verbose timeout).history,
      Numbered entries := by
    intro entries hentries
    obtain ⟨part, hpart, rfl⟩ := List.mem_map.mp hentries
    exact numbered_convertEntries (hcomplete part hpart)
  obtain ⟨hends, hstuck⟩ := ParallelCheck.check_ends hnumbered hmodel
  refine ⟨hends, fun s h => ⟨fun hnone => ?_, fun hmain => ?_, fun hmain part hpart => ?_,
    fun hmain => ?_⟩⟩
  · obtain ⟨hsent, hreturned⟩ := hstuck s h hnone
    refine ⟨fun i hi => hsent i (hi.trans_eq (List.length_map _).symm), ?_⟩
    exact hreturned.imp_right (And.imp_left List.map_eq_nil_iff.mp)
  · obtain ⟨entries, hentries, hillegal⟩ :=
      (ParallelCheck.check_answers hnumbered hmodel h hmain).illegal rfl
    obtain ⟨part, hpart, rfl⟩ := List.mem_map.mp hentries
    exact ⟨part, hpart, fun hlinearizable =>
      hillegal ((linearizable_convertEntries _).mpr hlinearizable)⟩
  · exact (linearizable_convertEntries _).mp
      ((ParallelCheck.check_answers hnumbered hmodel h hmain).ok rfl _ (List.mem_map_of_mem hpart))
  · exact (ParallelCheck.check_answers hnumbered hmodel h hmain).unknown rfl

/-- The register, for events. -/
def registerEvents : EventModelFields (Option ℕ) ℕ ℕ where
  toModelFields := registerFields
  partitionEvent := none

/-- The read of 1 while 1 is written, and the read of 0 afterwards, with other ids. -/
def staleEvents : List (EventRecord (Option ℕ) ℕ ℤ) :=
  [⟨0, .call none, 70⟩, ⟨1, .call (some 1), -5⟩, ⟨0, .ret 1, 70⟩, ⟨1, .ret 0, -5⟩,
    ⟨0, .call none, 12⟩, ⟨0, .ret 0, 12⟩]

/-- The check finds out that the stale read is not linearizable. -/
theorem checkEvents_decides_stale :
    ¬ (fillDefault registerEvents.toModelFields).EventsLinearizable staleEvents := by
  have hcomplete : ∀ part ∈ registerEvents.partitions staleEvents,
      Complete (part.map EventRecord.event) := by
    intro part hpart
    obtain rfl : part = staleEvents := List.mem_singleton.mp hpart
    exact ⟨by decide, by decide⟩
  have hrun : ((checkEvents registerEvents staleEvents true 0).system.exec
      (checkEvents registerEvents staleEvents true 0).system.init staleRun).map
        CheckState.main = some (.returned .illegal) := by
    decide +kernel
  obtain ⟨s, hs, hmain⟩ := Option.map_eq_some_iff.mp hrun
  obtain ⟨part, hpart, hillegal⟩ := ((checkEvents_decides (respectful_fillDefault rfl)
    hcomplete).2 s ⟨staleRun, hs⟩).2.1 hmain
  obtain rfl : part = staleEvents := List.mem_singleton.mp hpart
  exact hillegal

end DistributedSystems.Porcupine
