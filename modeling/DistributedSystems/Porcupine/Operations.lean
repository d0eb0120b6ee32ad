import DistributedSystems.Linearizability.Locality
import DistributedSystems.Porcupine.Correctness
import Mathlib.Data.List.FinRange
import Mathlib.Data.List.Perm.Basic
import Mathlib.Data.List.Sort
import Mathlib.Data.Prod.Lex

/-! # Operations with times

`makeEntries` of `porcupine/checker.go` turns operations with the times of their calls and returns
into entries, sorted by time.

* `Model.Linearizable` — a history of operations is linearizable: the model accepts them in an order
  in which none comes after one that was called later than it returned;
* `numbered_makeEntries` — the entries are those of a complete history;
* `linearizable_makeEntries` — and they are linearizable when the operations are. -/

namespace DistributedSystems.Porcupine

open Linearizability

variable {ι ο σ : Type}

/-- `Operation`. -/
structure Operation (ι ο : Type) where
  /-- `ClientId`. -/
  clientId : ℤ
  /-- `Input`. -/
  input : ι
  /-- `Call`, the time of the invocation. -/
  call : ℤ
  /-- `Output`. -/
  output : ο
  /-- `Return`, the time of the response. -/
  ret : ℤ

/-! ## Linearizable operations -/

/-- An operation as a step of the model. -/
def Model.apply (model : Model ι ο σ) (s : σ) (op : Operation ι ο) : Option σ :=
  if (model.step s op.input op.output).1 then some (model.step s op.input op.output).2 else none

/-- **The operations are linearizable**: the model accepts them in an order in which no operation
comes after one that was called when it had returned. -/
def Model.Linearizable (model : Model ι ο σ) (history : List (Operation ι ο)) : Prop :=
  TimedLinearizable Operation.call Operation.ret model.apply model.init history

/-! ## Entries of operations -/

/-- The entry of the call of an operation. -/
def Operation.callEntry (elem : Operation ι ο) (id : ℕ) : Entry ι ο :=
  ⟨.call elem.input, id, elem.call, elem.clientId⟩

/-- The entry of the return of an operation. -/
def Operation.returnEntry (elem : Operation ι ο) (id : ℕ) : Entry ι ο :=
  ⟨.ret elem.output, id, elem.ret, elem.clientId⟩

/-- `byTime.Less`. -/
def less (a b : Entry ι ο) : Bool :=
  if a.time ≠ b.time then a.time < b.time
  else a.value.input?.isSome && b.value.output?.isSome

/-- The loop of `makeEntries`. -/
def entriesOf (history : List (Operation ι ο)) : List (Entry ι ο) :=
  history.zipIdx.flatMap fun elem => [elem.1.callEntry elem.2, elem.1.returnEntry elem.2]

/-- `makeEntries`, with the function that sorts. -/
def makeEntries (sort : List (Entry ι ο) → List (Entry ι ο)) (history : List (Operation ι ο)) :
    List (Entry ι ο) :=
  sort (entriesOf history)

/-- What is known of `sort.Sort(byTime(entries))`: the result is sorted, but equal entries may come
in any order. -/
def Sorts (sort : List (Entry ι ο) → List (Entry ι ο)) : Prop :=
  ∀ entries, (sort entries).Perm entries ∧
    (sort entries).Pairwise fun a b => less b a = false

/-- The time of an entry, and whether it is a return. -/
def Entry.rank (e : Entry ι ο) : ℤ ×ₗ Bool := toLex (e.time, e.value.output?.isSome)

/-- `Less` compares the times, and at equal times a call comes before a return. -/
theorem less_eq_false_iff {a b : Entry ι ο} : less b a = false ↔ a.rank ≤ b.rank := by
  rw [Entry.rank, Entry.rank, Prod.Lex.toLex_le_toLex, less]
  rcases lt_trichotomy a.time b.time with hlt | heq | hgt
  · rw [if_pos hlt.ne', decide_eq_false (not_lt.mpr hlt.le)]
    exact iff_of_true rfl (Or.inl hlt)
  · rw [if_neg (not_not.mpr heq.symm)]
    cases a.value <;> cases b.value <;> simp [Value.input?, Value.output?, heq]
  · rw [if_pos hgt.ne, decide_eq_true hgt]
    refine iff_of_false (Ne.symm Bool.false_ne_true) ?_
    simp [not_lt.mpr hgt.le, hgt.ne']

/-- The entries in the order of an insertion sort. -/
def sortEntries (entries : List (Entry ι ο)) : List (Entry ι ο) :=
  entries.insertionSort fun a b => less b a = false

/-- `Less` is an order that one can sort by. -/
theorem sorts_sortEntries : Sorts (sortEntries (ι := ι) (ο := ο)) := by
  have htotal : Std.Total fun a b : Entry ι ο => less b a = false :=
    ⟨fun a b => (le_total a.rank b.rank).imp less_eq_false_iff.mpr less_eq_false_iff.mpr⟩
  have htrans : IsTrans (Entry ι ο) fun a b => less b a = false :=
    ⟨fun a b c hab hbc => less_eq_false_iff.mpr
      ((less_eq_false_iff.mp hab).trans (less_eq_false_iff.mp hbc))⟩
  exact fun entries => ⟨List.perm_insertionSort _ entries, List.pairwise_insertionSort _ entries⟩

variable {sort : List (Entry ι ο) → List (Entry ι ο)} {history : List (Operation ι ο)}
  {op op' : Operation ι ο} {a b : ℕ}

theorem mem_entriesOf {e : Entry ι ο} :
    e ∈ entriesOf history ↔
      ∃ (id : ℕ) (op : Operation ι ο), history[id]? = some op ∧
        (e = op.callEntry id ∨ e = op.returnEntry id) := by
  rw [entriesOf, List.mem_flatMap]
  constructor
  · rintro ⟨⟨op, id⟩, hmem, he⟩
    refine ⟨id, op, List.mem_zipIdx_iff_getElem?.mp hmem, ?_⟩
    simpa using he
  · rintro ⟨id, op, hop, he⟩
    refine ⟨(op, id), List.mem_zipIdx_iff_getElem?.mpr hop, ?_⟩
    simpa using he

theorem length_entriesOf (history : List (Operation ι ο)) :
    (entriesOf history).length = 2 * history.length := by
  rw [entriesOf, List.length_flatMap]
  simp [Nat.mul_comm]

/-- No event occurs twice. -/
theorem nodup_entriesOf (history : List (Operation ι ο)) :
    ((entriesOf history).map Entry.event).Nodup := by
  rw [entriesOf, List.map_flatMap, List.nodup_flatMap]
  constructor
  · rintro ⟨op, id⟩ -
    simp [Operation.callEntry, Operation.returnEntry, Entry.event, Value.event]
  · have hnodup : (history.zipIdx.map Prod.snd).Nodup := by
      rw [List.zipIdx_map_snd]
      exact List.nodup_range'
    refine (List.pairwise_map.mp hnodup).imp fun {x y} hne => ?_
    simp [Operation.callEntry, Operation.returnEntry, Entry.event, Value.event, hne.symm,
      Function.onFun]

/-- A call comes before a return at the same time. -/
theorem less_call_return (op op' : Operation ι ο) (a b : ℕ) :
    less (op.callEntry a) (op'.returnEntry b) = decide (op.call ≤ op'.ret) := by
  rw [less]
  split
  · next hne => exact decide_eq_decide.mpr ⟨le_of_lt, fun hle => lt_of_le_of_ne hle hne⟩
  · next heq => exact (decide_eq_true (not_not.mp heq).le).symm

theorem less_return_call (op op' : Operation ι ο) (a b : ℕ) :
    less (op.returnEntry a) (op'.callEntry b) = decide (op.ret < op'.call) := by
  rw [less]
  split
  · rfl
  · next heq => exact (decide_eq_false (not_not.mp heq).not_lt).symm

section Sorted

variable (hsort : Sorts sort)

include hsort

theorem mem_makeEntries {e : Entry ι ο} :
    e ∈ makeEntries sort history ↔
      ∃ (id : ℕ) (op : Operation ι ο), history[id]? = some op ∧
        (e = op.callEntry id ∨ e = op.returnEntry id) := by
  rw [makeEntries, (hsort _).1.mem_iff, mem_entriesOf]

theorem nodup_makeEntries : ((makeEntries sort history).map Entry.event).Nodup :=
  ((hsort _).1.map _).nodup_iff.mpr (nodup_entriesOf history)

/-- Entries come in the order of their times. -/
theorem less_eq_false {e e' : Entry ι ο}
    (h : List.Sublist [e.event, e'.event] ((makeEntries sort history).map Entry.event))
    (he : e ∈ makeEntries sort history) (he' : e' ∈ makeEntries sort history) :
    less e' e = false := by
  obtain ⟨l, hsub, heq⟩ := List.sublist_map_iff.mp h
  obtain ⟨x, l, rfl, hx, heq⟩ := List.map_eq_cons_iff.mp heq.symm
  obtain ⟨y, rfl, hy⟩ := List.map_eq_singleton_iff.mp heq
  have hnodup : ((makeEntries sort history).map Entry.event).Nodup := nodup_makeEntries hsort
  have hinj := List.inj_on_of_nodup_map hnodup
  obtain rfl := hinj (hsub.subset (by simp)) he hx
  obtain rfl := hinj (hsub.subset (by simp)) he' hy
  exact List.pairwise_iff_forall_sublist.mp (hsort _).2 hsub

/-- The call and the return of an operation are among the entries. -/
theorem entries_mem (hop : history[a]? = some op) :
    op.callEntry a ∈ makeEntries sort history ∧ op.returnEntry a ∈ makeEntries sort history :=
  ⟨(mem_makeEntries hsort).mpr ⟨a, op, hop, Or.inl rfl⟩,
    (mem_makeEntries hsort).mpr ⟨a, op, hop, Or.inr rfl⟩⟩

/-- The number of an entry is that of an operation. -/
theorem exists_getElem?_id {e : Entry ι ο} (he : e ∈ makeEntries sort history) :
    ∃ op, history[e.id]? = some op := by
  obtain ⟨id, op, hop, hentry⟩ := (mem_makeEntries hsort).mp he
  have hid : e.id = id := by
    rcases hentry with rfl | rfl <;> rfl
  exact ⟨op, hid ▸ hop⟩

/-- **An operation precedes another when it returns before the other is called.** At equal times the
call comes first. -/
theorem precedes_makeEntries (hop : history[a]? = some op) (hop' : history[b]? = some op') :
    Precedes ((makeEntries sort history).map Entry.event) a b ↔ op.ret < op'.call := by
  obtain ⟨-, hret⟩ := entries_mem hsort hop
  obtain ⟨hcall, -⟩ := entries_mem hsort hop'
  constructor
  · intro hprecedes
    have hless : less (op'.callEntry b) (op.returnEntry a) = false :=
      less_eq_false hsort hprecedes hret hcall
    rw [less_call_return] at hless
    exact not_le.mp (of_decide_eq_false hless)
  · intro hlt
    have hne : (op.returnEntry a).event ≠ (op'.callEntry b).event := by
      simp [Operation.callEntry, Operation.returnEntry, Entry.event, Value.event]
    rcases sublist_or_sublist (List.mem_map_of_mem hret) (List.mem_map_of_mem hcall) hne with h | h
    · exact h
    · have hless := less_eq_false hsort h hcall hret
      rw [less_return_call] at hless
      exact absurd hlt (of_decide_eq_false hless)

/-- **The entries are those of a complete history.** -/
theorem numbered_makeEntries (hvalid : ∀ op ∈ history, op.call ≤ op.ret) :
    Numbered (makeEntries sort history) := by
  refine ⟨⟨nodup_makeEntries hsort, fun e he => ?_⟩, fun e he => ?_⟩
  · obtain ⟨e, hmem, rfl⟩ := List.mem_map.mp he
    obtain ⟨op, hop⟩ := exists_getElem?_id hsort hmem
    obtain ⟨hcall, hret⟩ := entries_mem hsort hop
    have hid : e.event.op = e.id := Value.event_op e.id e.value
    have hne : (op.callEntry e.id).event ≠ (op.returnEntry e.id).event := by
      simp [Operation.callEntry, Operation.returnEntry, Entry.event, Value.event]
    rw [hid]
    rcases sublist_or_sublist (List.mem_map_of_mem hcall) (List.mem_map_of_mem hret) hne with h | h
    · exact h
    · -- the return is not sorted before the call
      have hless := less_eq_false hsort h hret hcall
      rw [less_call_return] at hless
      exact absurd (hvalid op (List.mem_of_getElem? hop)) (of_decide_eq_false hless)
  · obtain ⟨op, hop⟩ := exists_getElem?_id hsort he
    have hlength : (makeEntries sort history).length = 2 * history.length :=
      (hsort _).1.length_eq.trans (length_entriesOf history)
    rw [hlength, Nat.mul_div_cancel_left _ Nat.two_pos]
    exact (List.getElem?_eq_some_iff.mp hop).1

/-- An operation by its number is the operation. -/
theorem perform_makeEntries (model : Model ι ο σ) (hop : history[a]? = some op) (s : σ) :
    model.perform (makeEntries sort history) s a = model.apply s op := by
  obtain ⟨hcall, hret⟩ := entries_mem hsort hop
  have hinput : inputOf (makeEntries sort history) a = some op.input :=
    inputOf_eq (nodup_makeEntries hsort) hcall rfl
  have houtput : outputOf (makeEntries sort history) a = some op.output :=
    outputOf_eq (nodup_makeEntries hsort) hret rfl
  rw [Model.perform, hinput, houtput]
  rfl

/-- A call is in the entries exactly for the numbers of the operations. -/
theorem call_mem_makeEntries :
    Event.call a ∈ (makeEntries sort history).map Entry.event ↔ a < history.length := by
  constructor
  · intro hmem
    obtain ⟨e, he, hevent⟩ := List.mem_map.mp hmem
    obtain ⟨op, hop⟩ := exists_getElem?_id hsort he
    have hid : e.event.op = e.id := Value.event_op e.id e.value
    rw [hevent] at hid
    obtain rfl : a = e.id := hid
    exact (List.getElem?_eq_some_iff.mp hop).1
  · intro hlt
    obtain ⟨hcall, -⟩ := entries_mem hsort (List.getElem?_eq_getElem hlt)
    exact List.mem_map.mpr ⟨_, hcall, rfl⟩

/-- Operations by their numbers are accepted when the operations are. -/
theorem foldlM_perform (model : Model ι ο σ) (ids : List (Fin history.length)) (s : σ) :
    (ids.map Fin.val).foldlM (model.perform (makeEntries sort history)) s =
      (ids.map history.get).foldlM model.apply s := by
  rw [List.foldlM_map, List.foldlM_map]
  congr 1
  funext s a
  exact perform_makeEntries hsort model (List.getElem?_eq_getElem a.2) s

/-- The linearizations of all operations, by their numbers. -/
theorem linearization_iff (ids : List (Fin history.length)) :
    (Linearization ((makeEntries sort history).map Entry.event) (ids.map Fin.val) ∧
        ∀ a, Event.call a ∈ (makeEntries sort history).map Entry.event → a ∈ ids.map Fin.val) ↔
      ids.Perm (List.finRange history.length) ∧
        (ids.map history.get).Pairwise fun op op' => ¬ op'.ret < op.call := by
  have hprecedes (a b : Fin history.length) :
      Precedes ((makeEntries sort history).map Entry.event) a.1 b.1 ↔
        (history.get a).ret < (history.get b).call :=
    precedes_makeEntries hsort (List.getElem?_eq_getElem a.2) (List.getElem?_eq_getElem b.2)
  have hordered : ((ids.map Fin.val).Pairwise fun a b =>
      ¬ Precedes ((makeEntries sort history).map Entry.event) b a) ↔
        (ids.map history.get).Pairwise fun op op' => ¬ op'.ret < op.call := by
    rw [List.pairwise_map, List.pairwise_map]
    exact List.Pairwise.iff fun a b => not_congr (hprecedes b a)
  rw [← hordered]
  constructor
  · rintro ⟨hl, hall⟩
    have hnodup : ids.Nodup := hl.nodup.of_map Fin.val
    refine ⟨(List.perm_ext_iff_of_nodup hnodup (List.nodup_finRange _)).mpr fun a => ?_, hl.ordered⟩
    refine iff_of_true ?_ (List.mem_finRange a)
    obtain ⟨b, hb, heq⟩ := List.mem_map.mp (hall a.1 ((call_mem_makeEntries hsort).mpr a.2))
    exact Fin.ext heq ▸ hb
  · rintro ⟨hperm, hordered⟩
    have hmem (a : ℕ) (ha : a < history.length) : a ∈ ids.map Fin.val :=
      List.mem_map.mpr ⟨⟨a, ha⟩, hperm.mem_iff.mpr (List.mem_finRange _), rfl⟩
    have hall (a : ℕ) (ha : Event.call a ∈ (makeEntries sort history).map Entry.event) :
        a ∈ ids.map Fin.val := hmem a ((call_mem_makeEntries hsort).mp ha)
    refine ⟨⟨?_, fun a ha => ?_, fun a _ b hb => ?_, hordered⟩, hall⟩
    · exact (hperm.nodup_iff.mpr (List.nodup_finRange _)).map Fin.val_injective
    · obtain ⟨a, -, rfl⟩ := List.mem_map.mp ha
      exact (call_mem_makeEntries hsort).mpr a.2
    · -- what returns is an operation as well
      have hret : Event.ret b ∈ (makeEntries sort history).map Entry.event :=
        hb.subset List.mem_cons_self
      obtain ⟨e, he, hevent⟩ := List.mem_map.mp hret
      obtain ⟨op, hop⟩ := exists_getElem?_id hsort he
      have hid : e.event.op = e.id := Value.event_op e.id e.value
      rw [hevent] at hid
      obtain rfl : b = e.id := hid
      exact hmem _ (List.getElem?_eq_some_iff.mp hop).1

/-- **The entries are linearizable when the operations are.** -/
theorem linearizable_makeEntries (model : Model ι ο σ) :
    Linearizable (model.perform (makeEntries sort history)) model.init
        ((makeEntries sort history).map Entry.event) ↔ model.Linearizable history := by
  constructor
  · rintro ⟨o, hl, hall, hsome⟩
    have hlt (a : ℕ) (ha : a ∈ o) : a < history.length :=
      (call_mem_makeEntries hsort).mp (hl.mem a ha)
    obtain ⟨ids, rfl⟩ : ∃ ids : List (Fin history.length), ids.map Fin.val = o :=
      ⟨o.pmap Fin.mk hlt, by rw [List.map_pmap]; exact List.pmap_eq_self.mpr fun _ _ => rfl⟩
    obtain ⟨hperm, hordered⟩ := (linearization_iff hsort ids).mp ⟨hl, hall⟩
    refine ⟨ids.map history.get, ?_, hordered, ?_⟩
    · exact (hperm.map _).trans (List.Perm.of_eq (List.map_get_finRange history))
    · rwa [foldlM_perform hsort] at hsome
  · rintro ⟨order, hperm, hordered, hsome⟩
    rw [← List.map_get_finRange history] at hperm
    -- the order is that of some numbers
    obtain ⟨ids, rfl, hids⟩ : ∃ ids : List (Fin history.length), order = ids.map history.get ∧
        ids.Perm (List.finRange history.length) :=
      (congrFun (congrFun (List.eq_map_comp_perm history.get) order) _).mpr hperm
    obtain ⟨hl, hall⟩ := (linearization_iff hsort ids).mpr ⟨hids, hordered⟩
    exact ⟨ids.map Fin.val, hl, hall, by rwa [foldlM_perform hsort]⟩

end Sorted

end DistributedSystems.Porcupine
