import DistributedSystems.Porcupine.LinkedEntries

/-! # The stack of the search

What the calls that `checkSingle` has made stand for: a path in the graph of linearizations, with
the configurations along it.

* `Model.perform`, `Accepts` — the operations of a history as steps of the model;
* `remaining_concat` — which nodes are left after one more call;
* `Stack.reached` — the list, the bitset and the ids after some calls;
* `Records.close` — the longest sequences when a configuration is closed. -/

namespace DistributedSystems.Porcupine

open Linearizability
open Std (TreeMap)

variable {ι ο σ : Type}

/-! ## What is decided -/

/-- The entries are those of a complete history whose operations are numbered from 0. -/
structure Numbered (history : List (Entry ι ο)) : Prop where
  /-- Every operation is called once and returns once, after its call. -/
  complete : Complete (history.map Entry.event)
  /-- The numbers are smaller than the number of operations. -/
  id_lt : ∀ e ∈ history, e.id < history.length / 2

/-- An operation of the history as a step of the model. -/
def Model.perform (model : Model ι ο σ) (history : List (Entry ι ο)) (s : σ) (id : ℕ) : Option σ :=
  (inputOf history id).bind fun input => (outputOf history id).bind fun output =>
    if (model.step s input output).1 then some (model.step s input output).2 else none

/-- `Equal` relates states only if they allow the same steps, to states that it relates again. -/
def Model.Respectful (model : Model ι ο σ) : Prop :=
  ∀ s t, model.equal s t = true → ∀ input output,
    (model.step s input output).1 = (model.step t input output).1 ∧
      ((model.step s input output).1 = true →
        model.equal (model.step s input output).2 (model.step t input output).2 = true)

/-- An `Equal` that compares for equality is respected. -/
theorem respectful_of_equal {model : Model ι ο σ}
    (h : ∀ s t, model.equal s t = true ↔ s = t) : model.Respectful := by
  intro s t hst input output
  obtain rfl := (h s t).mp hst
  exact ⟨rfl, fun _ => (h _ _).mpr rfl⟩

/-- The ids are a linearization of some operations that the model accepts. -/
def Accepts (model : Model ι ο σ) (history : List (Entry ι ο)) (ids : List ℕ) : Prop :=
  Linearization (history.map Entry.event) ids ∧
    (ids.foldlM (model.perform history) model.init).isSome

/-- States that `Equal` relates accept the same operations. -/
theorem Model.Respectful.equivalent {model : Model ι ο σ} (h : model.Respectful) {s t : σ}
    (hst : model.equal s t = true) (history : List (Entry ι ο)) :
    Equivalent (model.perform history) s t := by
  intro ids
  induction ids generalizing s t with
  | nil => rfl
  | cons id ids ih =>
      rw [List.foldlM_cons, List.foldlM_cons]
      cases hinput : inputOf history id with
      | none => simp [Model.perform, hinput]
      | some input =>
          cases houtput : outputOf history id with
          | none => simp [Model.perform, houtput]
          | some output =>
              obtain ⟨hok, hnext⟩ := h s t hst input output
              simp only [Model.perform, hinput, houtput, Option.bind_some, ← hok]
              split
              · next hstep => exact ih (hnext hstep)
              · rfl

/-! ## The nodes that are left -/

/-- The nodes of the operations that have not been linearized. -/
def remaining (nodes : List (Node ι ο)) (history : List (Entry ι ο)) (done : List ℕ) : List ℕ :=
  (nodesOf history).filter fun p => (eventAt nodes p).op ∉ done

variable {nodes : List (Node ι ο)} {history : List (Entry ι ο)} {done : List ℕ}

theorem mem_remaining {p : ℕ} :
    p ∈ remaining nodes history done ↔ p ∈ nodesOf history ∧ (eventAt nodes p).op ∉ done := by
  rw [remaining, List.mem_filter, decide_eq_true_eq]

/-- The events of the nodes that are left. -/
theorem map_remaining (h : Nodes history nodes) (done : List ℕ) :
    (remaining nodes history done).map (eventAt nodes) =
      without done (history.map Entry.event) := by
  rw [← h.events, without, List.filter_map]
  rfl

/-- A node is found by its event. -/
theorem eq_of_eventAt_eq (h : Nodes history nodes)
    (hcomplete : Complete (history.map Entry.event)) {p q : ℕ} (hp : p ∈ nodesOf history)
    (hq : q ∈ nodesOf history) (heq : eventAt nodes p = eventAt nodes q) : p = q := by
  have hnodup := hcomplete.nodup
  rw [← h.events] at hnodup
  exact List.inj_on_of_nodup_map hnodup hp hq heq

/-- **The return of a call that is left comes after it**, and without the two the nodes of the other
operations are left. -/
theorem remaining_concat (h : Nodes history nodes)
    (hcomplete : Complete (history.map Entry.event)) {p q a : ℕ} {passed rest : List ℕ}
    (hrest : remaining nodes history done = passed ++ p :: rest)
    (hp : eventAt nodes p = .call a) (hq : q ∈ nodesOf history) (hret : eventAt nodes q = .ret a) :
    ∃ mid after, rest = mid ++ q :: after ∧
      remaining nodes history (done ++ [a]) = passed ++ (mid ++ after) := by
  have hmem : p ∈ remaining nodes history done := by simp [hrest]
  have hnodup : (passed ++ p :: rest).Nodup := hrest ▸ (nodup_nodesOf history).filter _
  have hinj {x y : ℕ} (hx : x ∈ passed ++ p :: rest) (hy : y ∈ passed ++ p :: rest)
      (heq : eventAt nodes x = eventAt nodes y) : x = y := by
    rw [← hrest] at hx hy
    exact eq_of_eventAt_eq h hcomplete (mem_remaining.mp hx).1 (mem_remaining.mp hy).1 heq
  -- the return is left, and not before the call
  have hqleft : q ∈ passed ++ p :: rest := by
    rw [← hrest]
    refine mem_remaining.mpr ⟨hq, ?_⟩
    have hop := (mem_remaining.mp hmem).2
    rw [hp] at hop
    rw [hret]
    exact hop
  have hqrest : q ∈ rest := by
    have hpaired := (hcomplete.without done).paired (.call a) (by
      rw [← map_remaining h]
      exact List.mem_map.mpr ⟨p, hmem, hp⟩)
    rw [← map_remaining h, hrest, List.map_append, List.map_cons, hp] at hpaired
    have hnotMem : Event.call a ∉ passed.map (eventAt nodes) := by
      intro hcall
      obtain ⟨x, hx, hevent⟩ := List.mem_map.mp hcall
      obtain rfl := hinj (List.mem_append_left _ hx) (by simp) (hevent.trans hp.symm)
      exact (List.nodup_append'.mp hnodup).2.2 hx List.mem_cons_self
    have hsub := sublist_right_of_notMem hnotMem hpaired
    obtain ⟨x, hx, hevent⟩ := List.mem_map.mp
      (List.singleton_sublist.mp (List.cons_sublist_cons.mp hsub))
    obtain rfl := hinj (by simp [hx]) hqleft (hevent.trans hret.symm)
    exact hx
  obtain ⟨mid, after, rfl⟩ := List.append_of_mem hqrest
  refine ⟨mid, after, rfl, ?_⟩
  have hfilter : remaining nodes history (done ++ [a]) =
      (passed ++ p :: (mid ++ q :: after)).filter fun x => (eventAt nodes x).op ≠ a := by
    rw [← hrest, remaining, remaining, List.filter_filter]
    refine List.filter_congr fun x _ => ?_
    simp only [List.mem_append, List.mem_singleton, not_or, Bool.decide_and, Bool.and_comm, ne_eq]
  -- only the two events are those of the operation
  have hkeep (l : List ℕ) (hsub : l ⊆ passed ++ p :: (mid ++ q :: after)) (hp' : p ∉ l)
      (hq' : q ∉ l) : (l.filter fun x => (eventAt nodes x).op ≠ a) = l := by
    refine List.filter_eq_self.mpr fun x hx => decide_eq_true fun hop => ?_
    cases hevent : eventAt nodes x with
    | call b =>
        obtain rfl : b = a := by simpa [hevent, Event.op] using hop
        obtain rfl := hinj (hsub hx) (by simp) (hevent.trans hp.symm)
        exact hp' hx
    | ret b =>
        obtain rfl : b = a := by simpa [hevent, Event.op] using hop
        obtain rfl := hinj (hsub hx) hqleft (hevent.trans hret.symm)
        exact hq' hx
  simp only [List.nodup_append', List.nodup_cons, List.mem_append, List.mem_cons, not_or,
    List.disjoint_cons_right, List.disjoint_append_right] at hnodup
  have hpop : ¬ (eventAt nodes p).op ≠ a := by simp [hp, Event.op]
  have hqop : ¬ (eventAt nodes q).op ≠ a := by simp [hret, Event.op]
  rw [hfilter, List.filter_append, List.filter_cons_of_neg (by simpa using hpop),
    List.filter_append, List.filter_cons_of_neg (by simpa using hqop), hkeep passed, hkeep mid,
    hkeep after]
  all_goals first | (intro x hx; simp [hx]) | tauto

/-! ## The calls and the stack of the search -/

/-- A configuration of the search: the events that are left, and the state of the model. -/
abbrev Config (σ : Type) : Type := List (Event ℕ) × σ

variable {model : Model ι ο σ} {heap : Heap ι ο} {links₀ : Links} {computePartial : Bool}

/-- The graph that is searched. -/
abbrev Model.graph (model : Model ι ο σ) (history : List (Entry ι ο)) : Graph (Config σ) ℕ :=
  Linearizability.graph (model.perform history)

/-- The configuration after some operations. -/
def configAfter (history : List (Entry ι ο)) (done : List ℕ) (s : σ) : Config σ :=
  (without done (history.map Entry.event), s)

/-- The root of the search. -/
def rootConfig (model : Model ι ο σ) (history : List (Entry ι ο)) : Config σ :=
  (history.map Entry.event, model.init)

/-- The calls, with the links, the state and the bitset that they have led to, and the frames of the
configurations at which they were made. -/
inductive Stack (model : Model ι ο σ) (nodes : List (Node ι ο)) (history : List (Entry ι ο))
    (links₀ : Links) :
    List (CallsEntry σ) → Links → σ → Bitset → List ℕ → List (Frame (Config σ) ℕ) → Prop
  /-- No call has been made. -/
  | nil : Stack model nodes history links₀ [] links₀ model.init
      (Bitset.newBitset (history.length / 2)) [] []
  /-- One more call. -/
  | push {calls : List (CallsEntry σ)} {links links' : Links} {s s' : σ} {bits bits' : Bitset}
      {done : List ℕ} {frames : List (Frame (Config σ) ℕ)} {p a : ℕ} {passed rest : List ℕ}
      (h : Stack model nodes history links₀ calls links s bits done frames)
      (hrest : remaining nodes history done = passed ++ p :: rest)
      (hpassed : ∀ q ∈ passed, (eventAt nodes q).isCall = true)
      (hp : eventAt nodes p = .call a)
      (hperform : model.perform history s a = some s')
      (hlift : lift nodes links p = some links')
      (hunlift : unlift nodes links' p = some links)
      (hset : bits.set a = some bits') (hclear : bits'.clear a = some bits) :
      Stack model nodes history links₀ (calls ++ [⟨p, s⟩]) links' s' bits' (done ++ [a])
        (⟨configAfter history done s, ready (rest.map (eventAt nodes))⟩ :: frames)

/-- What holds of the entries and of their nodes during the whole search. -/
structure Searched (history : List (Entry ι ο)) (heap : Heap ι ο) (links₀ : Links) : Prop where
  /-- The operations are numbered. -/
  numbered : Numbered history
  /-- The nodes carry the entries. -/
  nodes : Nodes history heap.nodes
  /-- The head is another node. -/
  head : heap.headEntry ∉ nodesOf history
  /-- At the start, all entries are in the list. -/
  chain : links₀.Chain heap.headEntry (nodesOf history)

variable {calls : List (CallsEntry σ)} {links : Links} {s : σ} {bits : Bitset}
  {frames : List (Frame (Config σ) ℕ)} {p a : ℕ} {passed rest : List ℕ}

/-- The operation of a node that is left has a number in range. -/
theorem Searched.op_lt (h : Searched history heap links₀) (hp : p ∈ nodesOf history) :
    (eventAt heap.nodes p).op < history.length / 2 := by
  have hmem : eventAt heap.nodes p ∈ history.map Entry.event := by
    rw [← h.nodes.events]
    exact List.mem_map_of_mem hp
  obtain ⟨e, he, hevent⟩ := List.mem_map.mp hmem
  rw [← hevent, Entry.event, Value.event_op]
  exact h.numbered.id_lt e he

/-- **A call can be lifted**, and everything can be undone. -/
theorem Searched.exists_push (h : Searched history heap links₀)
    (hchain : links.Chain heap.headEntry (remaining heap.nodes history done))
    (hbits : bits.Holds (history.length / 2) done)
    (hrest : remaining heap.nodes history done = passed ++ p :: rest)
    (hp : eventAt heap.nodes p = .call a) :
    ∃ links' bits', lift heap.nodes links p = some links' ∧
      unlift heap.nodes links' p = some links ∧ bits.set a = some bits' ∧
      bits'.clear a = some bits ∧
      links'.Chain heap.headEntry (remaining heap.nodes history (done ++ [a])) ∧
      bits'.Holds (history.length / 2) (done ++ [a]) := by
  have hmem : p ∈ remaining heap.nodes history done := by simp [hrest]
  obtain ⟨hpnode, hop⟩ := mem_remaining.mp hmem
  have hlt := h.op_lt hpnode
  rw [hp] at hop hlt
  obtain ⟨node, q, -, -, -, hnode, -, hmatching, hq, hret, -⟩ := h.nodes.call p hpnode a hp
  obtain ⟨mid, after, rfl, hleft⟩ :=
    remaining_concat h.nodes h.numbered.complete hrest hp hq hret
  have hnodup : (heap.headEntry :: (passed ++ p :: (mid ++ q :: after))).Nodup := by
    rw [← hrest]
    refine List.nodup_cons.mpr ⟨fun hmem => h.head (mem_remaining.mp hmem).1, ?_⟩
    exact (nodup_nodesOf history).filter _
  rw [hrest] at hchain
  obtain ⟨links', hlift, hchain', hunlift⟩ := exists_lift hnode hmatching hchain hnodup
  obtain ⟨bits', hset, hbits', hclear⟩ := Bitset.exists_set hbits hlt hop
  exact ⟨links', bits', hlift, hunlift, hset, hclear, hleft ▸ hchain', hbits'⟩

/-- What the calls have led to. -/
structure Stack.Reached (model : Model ι ο σ) (heap : Heap ι ο) (history : List (Entry ι ο))
    (calls : List (CallsEntry σ)) (links : Links) (s : σ) (bits : Bitset) (done : List ℕ) :
    Prop where
  /-- The list holds the entries that are left. -/
  chain : links.Chain heap.headEntry (remaining heap.nodes history done)
  /-- The bitset holds the operations. -/
  bits : bits.Holds (history.length / 2) done
  /-- The operations are a path of the graph. -/
  path : (model.graph history).Path (rootConfig model history) done (configAfter history done s)
  /-- The operations are those of the calls. -/
  ids : Search.ids heap calls = some done

/-- One more call has an id. -/
theorem ids_concat {ids : List ℕ} (h : Search.ids heap calls = some ids) {node : Node ι ο}
    (hnode : heap.nodes[p]? = some node) (s : σ) :
    Search.ids heap (calls ++ [⟨p, s⟩]) = some (ids ++ [node.id]) := by
  rw [Search.ids] at h
  rw [Search.ids, List.mapM_append, h]
  simp [hnode]

theorem Stack.reached (hS : Searched history heap links₀)
    (h : Stack model heap.nodes history links₀ calls links s bits done frames) :
    Reached model heap history calls links s bits done := by
  induction h with
  | nil =>
      refine ⟨?_, Bitset.holds_newBitset _, ?_, rfl⟩
      · have hall : remaining heap.nodes history [] = nodesOf history :=
          List.filter_eq_self.mpr fun p _ => decide_eq_true List.not_mem_nil
        rw [hall]
        exact hS.chain
      · rw [configAfter, without_nil]
        exact .nil _
  | @push calls links links' s s' bits bits' done frames p a passed rest h hrest hpassed hp hperform
      hlift hunlift hset hclear ih =>
      obtain ⟨links'', bits'', hlift', -, hset', -, hchain, hholds⟩ :=
        hS.exists_push ih.chain ih.bits hrest hp
      obtain rfl := Option.some.inj (hlift.symm.trans hlift')
      obtain rfl := Option.some.inj (hset.symm.trans hset')
      have hmem : p ∈ remaining heap.nodes history done := by simp [hrest]
      obtain ⟨node, -, -, -, -, hnode, hid, -⟩ :=
        hS.nodes.call p (mem_remaining.mp hmem).1 a hp
      refine ⟨hchain, hholds, ?_, hid ▸ ids_concat ih.ids hnode s⟩
      -- the operation is ready, and the model accepts it
      refine ih.path.concat ?_ ?_
      · show a ∈ ready (without done (history.map Entry.event))
        rw [← map_remaining hS.nodes, hrest, List.map_append, List.map_cons, hp]
        refine mem_ready_of_calls fun e he => ?_
        obtain ⟨q, hq, rfl⟩ := List.mem_map.mp he
        exact hpassed q hq
      · refine Option.map_eq_some_iff.mpr ⟨s', hperform, ?_⟩
        rw [configAfter, configAfter, without_without]

/-- How the last call was made. -/
theorem Stack.last (h : Stack model nodes history links₀ calls links s bits done frames) :
    (calls = [] ∧ frames = []) ∨
      ∃ (calls' : List (CallsEntry σ)) (links' : Links) (s' : σ) (bits' : Bitset) (done' : List ℕ)
        (frames' : List (Frame (Config σ) ℕ)) (p a : ℕ) (passed rest : List ℕ),
        Stack model nodes history links₀ calls' links' s' bits' done' frames' ∧
        calls = calls' ++ [⟨p, s'⟩] ∧
        frames = ⟨configAfter history done' s', ready (rest.map (eventAt nodes))⟩ :: frames' ∧
        remaining nodes history done' = passed ++ p :: rest ∧
        (∀ q ∈ passed, (eventAt nodes q).isCall = true) ∧ eventAt nodes p = .call a ∧
        unlift nodes links p = some links' ∧ bits.clear a = some bits' := by
  cases h with
  | nil => exact Or.inl ⟨rfl, rfl⟩
  | push h hrest hpassed hp hperform hlift hunlift hset hclear =>
      exact Or.inr ⟨_, _, _, _, _, _, _, _, _, _, h, rfl, rfl, hrest, hpassed, hp, hunlift, hclear⟩

/-! ## The longest sequences -/

/-- The longest sequence of an operation when a sequence with it is recorded. -/
def improve (seq : List ℕ) (best : Option (List ℕ)) : Option (List ℕ) :=
  if best.all fun ids => ids.length < seq.length then some seq else best

/-- What is kept is one of the two, and at least as long as both. -/
theorem improve_spec (seq : List ℕ) (best : Option (List ℕ)) :
    ∃ ids, improve seq best = some ids ∧ (ids = seq ∨ best = some ids) ∧
      seq.length ≤ ids.length ∧ ∀ old ∈ best, old.length ≤ ids.length := by
  rw [improve]
  cases best with
  | none => exact ⟨seq, rfl, Or.inl rfl, le_rfl, fun old hold => absurd hold (by simp)⟩
  | some old =>
      by_cases hlt : old.length < seq.length
      · refine ⟨seq, by simp [hlt], Or.inl rfl, le_rfl, fun old' hold' => ?_⟩
        obtain rfl : old = old' := Option.some.inj hold'
        exact hlt.le
      · refine ⟨old, by simp [hlt], Or.inr rfl, not_lt.mp hlt, fun old' hold' => ?_⟩
        obtain rfl : old = old' := Option.some.inj hold'
        exact le_rfl

/-- Recording a sequence twice changes nothing. -/
theorem improve_improve (seq : List ℕ) (best : Option (List ℕ)) :
    improve seq (improve seq best) = improve seq best := by
  obtain ⟨ids, hids, -, hlength, -⟩ := improve_spec seq best
  rw [hids, improve, if_neg]
  simpa using hlength

/-- What the body of the loop over the calls records. -/
theorem recordFor_spec (seq : List ℕ) {longest : List (Option (List ℕ))} {a : ℕ}
    (ha : a < longest.length) :
    ∃ longest', Search.recordFor seq longest a = some longest' ∧
      longest'.length = longest.length ∧
      ∀ id, longest'[id]? = if id = a then longest[id]?.map (improve seq) else longest[id]? := by
  have hbest := List.getElem?_eq_getElem ha
  rw [Search.recordFor, hbest, Option.map_some]
  refine ⟨_, rfl, by split <;> simp, fun id => ?_⟩
  by_cases heq : id = a
  · subst heq
    rw [if_pos rfl, hbest, Option.map_some, improve]
    split
    · rw [List.getElem?_set_self ha]
    · exact hbest
  · rw [if_neg heq]
    split
    · rw [List.getElem?_set_ne (Ne.symm heq)]
    · rfl

/-- **What the loop over the calls records.** -/
theorem recordLongest_spec {seq : List ℕ} {longest : List (Option (List ℕ))}
    (hseq : ∀ id ∈ seq, id < longest.length) :
    ∃ longest', Search.recordLongest seq longest = some longest' ∧
      longest'.length = longest.length ∧
      ∀ id, longest'[id]? =
        if id ∈ seq then longest[id]?.map (improve seq) else longest[id]? := by
  have hloop (l : List ℕ) : ∀ longest : List (Option (List ℕ)),
      (∀ id ∈ l, id < longest.length) →
      ∃ longest', l.foldlM (Search.recordFor seq) longest = some longest' ∧
        longest'.length = longest.length ∧
        ∀ id, longest'[id]? =
          if id ∈ l then longest[id]?.map (improve seq) else longest[id]? := by
    induction l with
    | nil => exact fun longest _ => ⟨longest, rfl, rfl, fun id => by simp⟩
    | cons a l ih =>
        intro longest hl
        obtain ⟨longest₁, hfirst, hlength₁, hget₁⟩ :=
          recordFor_spec seq (hl a List.mem_cons_self)
        obtain ⟨longest₂, hrest, hlength₂, hget₂⟩ := ih longest₁ fun id hid =>
          hlength₁ ▸ hl id (List.mem_cons_of_mem a hid)
        refine ⟨longest₂, ?_, hlength₂.trans hlength₁, fun id => ?_⟩
        · rw [List.foldlM_cons, hfirst]
          exact hrest
        · rw [hget₂, hget₁]
          by_cases heq : id = a
          · subst heq
            have hcomp : improve seq ∘ improve seq = improve seq := funext (improve_improve seq)
            rw [if_pos rfl, if_pos List.mem_cons_self, Option.map_map, hcomp, ite_self]
          · rw [if_neg heq]
            simp only [List.mem_cons, heq, false_or]
  exact hloop seq longest hseq

/-- What the longest sequences are when some configurations have been closed. -/
structure Records (model : Model ι ο σ) (history : List (Entry ι ο))
    (longest : List (Option (List ℕ))) (closed : List (Config σ)) : Prop where
  /-- The sequence of an operation is a path with the operation. -/
  path : ∀ id seq, longest[id]? = some (some seq) →
    id ∈ seq ∧ ∃ d, (model.graph history).Path (rootConfig model history) seq d
  /-- The sequences are at least as long as the paths to the closed configurations. -/
  longest : ∀ k ∈ closed, ∃ ids, (model.graph history).Path (rootConfig model history) ids k ∧
    ∀ id ∈ ids, ∃ seq, longest[id]? = some (some seq) ∧ ids.length ≤ seq.length

/-- **Recording the calls** when their configuration is closed. -/
theorem Records.close {longest longest' : List (Option (List ℕ))} {closed : List (Config σ)}
    (h : Records model history longest closed) {k : Config σ}
    (hpath : (model.graph history).Path (rootConfig model history) done k)
    (hlt : ∀ id ∈ done, id < longest.length)
    (hlongest' : ∀ id, longest'[id]? =
      if id ∈ done then longest[id]?.map (improve done) else longest[id]?) :
    Records model history longest' (k :: closed) := by
  have hold (id : ℕ) (hid : id ∈ done) :
      ∃ ids, longest'[id]? = some (some ids) ∧ (ids = done ∨ longest[id]? = some (some ids)) ∧
        done.length ≤ ids.length ∧ ∀ old, longest[id]? = some (some old) →
          old.length ≤ ids.length := by
    have hbest := List.getElem?_eq_getElem (hlt id hid)
    obtain ⟨ids, hids, horigin, hlength, hle⟩ := improve_spec done (longest.get ⟨id, hlt id hid⟩)
    refine ⟨ids, ?_, horigin.imp_right fun h => ?_, hlength, fun old h => hle old ?_⟩
    · rw [hlongest', if_pos hid, hbest, Option.map_some]
      exact congrArg some hids
    · rw [hbest]
      exact congrArg some h
    · rw [hbest] at h
      exact Option.some.inj h
  refine ⟨fun id seq hseq => ?_, fun k' hk' => ?_⟩
  · by_cases hid : id ∈ done
    · obtain ⟨ids, hids, horigin, -⟩ := hold id hid
      obtain rfl : ids = seq := Option.some.inj (Option.some.inj (hids.symm.trans hseq))
      rcases horigin with rfl | horigin
      · exact ⟨hid, k, hpath⟩
      · exact h.path id ids horigin
    · rw [hlongest', if_neg hid] at hseq
      exact h.path id seq hseq
  · rcases List.mem_cons.mp hk' with rfl | hk'
    · refine ⟨done, hpath, fun id hid => ?_⟩
      obtain ⟨ids, hids, -, hlength, -⟩ := hold id hid
      exact ⟨ids, hids, hlength⟩
    · obtain ⟨ids, hids, hlongest⟩ := h.longest k' hk'
      refine ⟨ids, hids, fun id hid => ?_⟩
      obtain ⟨seq, hseq, hlength⟩ := hlongest id hid
      by_cases hdone : id ∈ done
      · obtain ⟨seq', hseq', -, -, hle⟩ := hold id hdone
        exact ⟨seq', hseq', hlength.trans (hle seq hseq)⟩
      · exact ⟨seq, by rw [hlongest', if_neg hdone, hseq], hlength⟩

end DistributedSystems.Porcupine
