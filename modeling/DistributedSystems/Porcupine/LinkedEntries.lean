import DistributedSystems.Linearizability.History
import DistributedSystems.Porcupine.Checker

/-! # The list that is searched

What `makeLinkedEntries` builds for the entries of a history, and what `lift` and `unlift` do to it.

* `makeLinkedEntries_builds` — the nodes of the list carry the entries in their order, and every
  call points to its return;
* `exists_lift` — `lift` takes a call and its return out of the list, and `unlift` restores every
  link. -/

namespace DistributedSystems.Porcupine

open Linearizability (Event)
open Std (TreeMap)

variable {ι ο : Type}

/-! ## Events -/

/-- The event of a value and an id. -/
def Value.event (id : ℕ) : Value ι ο → Event ℕ
  | call _ => .call id
  | ret _ => .ret id

/-- The event of an entry. -/
def Entry.event (e : Entry ι ο) : Event ℕ := e.value.event e.id

/-- The event of a node. -/
def Node.event (node : Node ι ο) : Event ℕ := node.value.event node.id

@[simp] theorem Value.event_op (id : ℕ) (v : Value ι ο) : (v.event id).op = id := by
  cases v <;> rfl

/-- The event of the node at an address. -/
def eventAt (nodes : List (Node ι ο)) (p : ℕ) : Event ℕ := nodes[p]?.elim (.ret 0) Node.event

/-- The nodes of the entries, in their order: the first entry is allocated last. -/
def nodesOf : List (Entry ι ο) → List ℕ
  | [] => []
  | _ :: entries => entries.length :: nodesOf entries

variable {entries : List (Entry ι ο)} {nodes : List (Node ι ο)} {l : Linked ι ο} {p q : ℕ}

theorem lt_of_mem_nodesOf (h : p ∈ nodesOf entries) : p < entries.length := by
  induction entries with
  | nil => exact absurd h List.not_mem_nil
  | cons e entries ih =>
      rcases List.mem_cons.mp h with rfl | h
      · exact Nat.lt_succ_self _
      · exact (ih h).trans (Nat.lt_succ_self _)

theorem nodup_nodesOf (entries : List (Entry ι ο)) : (nodesOf entries).Nodup := by
  induction entries with
  | nil => exact List.nodup_nil
  | cons e entries ih =>
      exact List.nodup_cons.mpr ⟨fun h => (lt_of_mem_nodesOf h).false, ih⟩

theorem length_nodesOf (entries : List (Entry ι ο)) : (nodesOf entries).length = entries.length := by
  induction entries with
  | nil => rfl
  | cons e entries ih => rw [nodesOf, List.length_cons, List.length_cons, ih]

/-! ## The links -/

/-- The links of a list whose first node, if any, has no previous node. -/
def Linear (links : Links) (ps : List ℕ) : Prop :=
  ∀ p ps', ps = p :: ps' → links.Chain p ps' ∧ links.prev p = none

/-- **A new node before the first one.** -/
theorem chain_insertBefore {links : Links} {ps : List ℕ} {n : ℕ} (h : Linear links ps)
    (hps : ps.Nodup) (hn : n ∉ ps) (hnext : links.next n = none) (hprev : links.prev n = none) :
    (insertBefore links n ps.head?).Chain n ps ∧ (insertBefore links n ps.head?).prev n = none ∧
      ∀ q ∉ n :: ps, (insertBefore links n ps.head?).next q = links.next q ∧
        (insertBefore links n ps.head?).prev q = links.prev q := by
  cases ps with
  | nil => exact ⟨hnext, hprev, fun q _ => ⟨rfl, rfl⟩⟩
  | cons mark ps =>
      obtain ⟨hchain, hmark⟩ := h mark ps rfl
      obtain ⟨hne, hn⟩ : n ≠ mark ∧ n ∉ ps := by simpa using hn
      rw [List.head?_cons, insertBefore, hmark, Option.elim_none]
      refine ⟨⟨Function.update_self n _ _, Function.update_self mark _ _, ?_⟩, ?_, fun q hq => ?_⟩
      · apply Links.Chain.congr _ _ hchain
        · rintro x hx
          refine Function.update_of_ne ?_ _ _
          rintro rfl
          rcases List.mem_cons.mp hx with heq | hx
          · exact hne heq
          · exact hn hx
        · rintro x hx
          refine Function.update_of_ne ?_ _ _
          rintro rfl
          exact (List.nodup_cons.mp hps).1 hx
      · exact (Function.update_of_ne hne _ _).trans hprev
      · obtain ⟨hqn, hqmark, -⟩ : q ≠ n ∧ q ≠ mark ∧ q ∉ ps := by simpa using hq
        exact ⟨Function.update_of_ne hqn _ _, Function.update_of_ne hqmark _ _⟩

/-- The number of nodes of a list. -/
theorem length_eq {links : Links} {ps : List ℕ} (h : Linear links ps) {fuel : ℕ}
    (hfuel : ps.length ≤ fuel) : length links fuel ps.head? = some ps.length := by
  have hchain {r : ℕ} {ps : List ℕ} (h : links.Chain r ps) {fuel : ℕ} (hfuel : ps.length < fuel) :
      length links fuel (some r) = some (ps.length + 1) := by
    induction ps generalizing r fuel with
    | nil =>
        obtain ⟨fuel, rfl⟩ := Nat.exists_eq_succ_of_ne_zero hfuel.ne'
        have hnext : links.next r = none := h
        rw [length, hnext, length, Option.map_some, List.length_nil]
    | cons p ps ih =>
        obtain ⟨fuel, rfl⟩ := Nat.exists_eq_succ_of_ne_zero (Nat.ne_zero_of_lt hfuel)
        rw [length, h.1, ih h.2.2 (Nat.lt_of_succ_lt_succ hfuel), Option.map_some, List.length_cons]
  cases ps with
  | nil => rw [List.head?_nil, length, List.length_nil]
  | cons p ps => exact hchain (h p ps rfl).1 hfuel

/-! ## Building the list -/

/-- What the links are when some entries, the last ones of the history, have been linked. -/
structure LinksOf (entries : List (Entry ι ο)) (l : Linked ι ο) : Prop where
  /-- There is a node for every entry. -/
  length_nodes : l.nodes.length = entries.length
  /-- The root is the node of the first entry. -/
  root : l.root = (nodesOf entries).head?
  /-- The nodes are linked in the order of the entries. -/
  linear : Linear l.links (nodesOf entries)
  /-- The links of what is not allocated are null. -/
  fresh : ∀ p, entries.length ≤ p → l.links.next p = none ∧ l.links.prev p = none

/-- What the nodes are when some entries have been linked. -/
structure Carries (entries : List (Entry ι ο)) (l : Linked ι ο) : Prop where
  /-- A node has the value and the id of an entry. -/
  node : ∀ p ∈ nodesOf entries, ∃ node e, l.nodes[p]? = some node ∧ e ∈ entries ∧
    node.value = e.value ∧ node.id = e.id
  /-- The nodes have the events of the entries. -/
  events : (nodesOf entries).map (eventAt l.nodes) = entries.map Entry.event
  /-- A return points to nothing. -/
  matching_ret : ∀ p ∈ nodesOf entries, ∀ node, l.nodes[p]? = some node → ∀ id,
    Node.event node = .ret id → node.matching = none
  /-- A call points to the return of the same operation, if it comes later. -/
  matching_call : ∀ p ∈ nodesOf entries, ∀ node, l.nodes[p]? = some node → ∀ id,
    Node.event node = .call id →
    List.Sublist [Event.call id, Event.ret id] (entries.map Entry.event) →
      ∃ q ∈ nodesOf entries, node.matching = some q ∧ eventAt l.nodes q = .ret id
  /-- The map has a return for every operation that returns. -/
  matching : ∀ id, .ret id ∈ entries.map Entry.event →
    ∃ q ∈ nodesOf entries, l.matching[id]? = some q ∧ eventAt l.nodes q = .ret id

/-- The links after one more entry. -/
theorem LinksOf.linkEntry (h : LinksOf entries l) (e : Entry ι ο) :
    LinksOf (e :: entries) (linkEntry e l) := by
  have hnotMem : entries.length ∉ nodesOf entries := fun hmem => (lt_of_mem_nodesOf hmem).false
  obtain ⟨hnext, hprev⟩ := h.fresh entries.length le_rfl
  obtain ⟨hchain, hprev, hframe⟩ :=
    chain_insertBefore h.linear (nodup_nodesOf entries) hnotMem hnext hprev
  have hlinks : (Porcupine.linkEntry e l).links =
      insertBefore l.links entries.length (nodesOf entries).head? := by
    rw [Porcupine.linkEntry, ← h.length_nodes, ← h.root]
    cases e.value <;> rfl
  refine ⟨?_, ?_, ?_, fun p hp => ?_⟩
  · rw [Porcupine.linkEntry, List.length_cons, ← h.length_nodes]
    cases e.value <;> exact List.length_append
  · rw [Porcupine.linkEntry, nodesOf, List.head?_cons, ← h.length_nodes]
    cases e.value <;> rfl
  · intro p ps hps
    obtain ⟨rfl, rfl⟩ := List.cons.inj hps
    rw [hlinks]
    exact ⟨hchain, hprev⟩
  · have hp' : entries.length < p := hp
    have hnot : p ∉ entries.length :: nodesOf entries := by
      intro hmem
      rcases List.mem_cons.mp hmem with rfl | hmem
      · exact hp'.false
      · exact (hp'.trans (lt_of_mem_nodesOf hmem)).false
    rw [hlinks, (hframe p hnot).1, (hframe p hnot).2]
    exact h.fresh p hp'.le

/-- The node for one more entry. -/
def Linked.newNode (l : Linked ι ο) (e : Entry ι ο) : Node ι ο :=
  ⟨e.value, if e.value.input?.isSome then l.matching[e.id]? else none, e.id⟩

theorem linkEntry_nodes (e : Entry ι ο) (l : Linked ι ο) :
    (linkEntry e l).nodes = l.nodes ++ [l.newNode e] := by
  rw [linkEntry, Linked.newNode]
  cases e.value <;> rfl

/-- The nodes after one more entry. -/
theorem Carries.linkEntry (h : Carries entries l) (hlength : l.nodes.length = entries.length)
    (e : Entry ι ο) (hnodup : ((e :: entries).map Entry.event).Nodup) :
    Carries (e :: entries) (linkEntry e l) := by
  obtain ⟨hnotMem, -⟩ := List.nodup_cons.mp hnodup
  have hnodes := linkEntry_nodes e l
  have hnew : (Porcupine.linkEntry e l).nodes[entries.length]? = some (l.newNode e) := by
    rw [hnodes, ← hlength, List.getElem?_concat_length]
  have hevent : eventAt (Porcupine.linkEntry e l).nodes entries.length = e.event := by
    rw [eventAt, hnew]
    rfl
  have hsame {p : ℕ} (hp : p ∈ nodesOf entries) :
      (Porcupine.linkEntry e l).nodes[p]? = l.nodes[p]? := by
    rw [hnodes, List.getElem?_append_left (hlength ▸ lt_of_mem_nodesOf hp)]
  have hold {p : ℕ} (hp : p ∈ nodesOf entries) :
      eventAt (Porcupine.linkEntry e l).nodes p = eventAt l.nodes p := by
    rw [eventAt, hsame hp, eventAt]
  have hlater {id : ℕ} {m : Option ℕ}
      (h : ∃ q ∈ nodesOf entries, m = some q ∧ eventAt l.nodes q = .ret id) :
      ∃ q ∈ nodesOf (e :: entries), m = some q ∧
        eventAt (Porcupine.linkEntry e l).nodes q = .ret id := by
    obtain ⟨q, hq, hm, hret⟩ := h
    exact ⟨q, List.mem_cons_of_mem _ hq, hm, (hold hq).trans hret⟩
  refine ⟨fun p hp => ?_, ?_, fun p hp node hnode id hret => ?_,
    fun p hp node hnode id hcall hsub => ?_, fun id hid => ?_⟩
  · rcases List.mem_cons.mp hp with rfl | hp
    · exact ⟨_, e, hnew, List.mem_cons_self, rfl, rfl⟩
    · obtain ⟨node, e', hnode, he', hvalue, hid⟩ := h.node p hp
      exact ⟨node, e', (hsame hp).trans hnode, List.mem_cons_of_mem e he', hvalue, hid⟩
  · rw [nodesOf, List.map_cons, List.map_cons, hevent, List.map_congr_left fun p hp => hold hp,
      h.events]
  · rcases List.mem_cons.mp hp with rfl | hp
    · obtain rfl : l.newNode e = node := Option.some.inj (hnew.symm.trans hnode)
      rw [Linked.newNode] at hret ⊢
      cases hv : e.value with
      | call input => exact absurd hret (by simp [Node.event, Value.event, hv])
      | ret output => rfl
    · exact h.matching_ret p hp node ((hsame hp).symm.trans hnode) id hret
  · rcases List.mem_cons.mp hp with rfl | hp
    · obtain rfl : l.newNode e = node := Option.some.inj (hnew.symm.trans hnode)
      rw [Linked.newNode] at hcall ⊢
      cases hv : e.value with
      | ret output => exact absurd hcall (by simp [Node.event, Value.event, hv])
      | call input =>
          obtain rfl : e.id = id := by simpa [Node.event, Value.event, hv] using hcall
          refine hlater (h.matching e.id ?_)
          -- the return is not the entry itself
          have hmem : Event.ret e.id ∈ (e :: entries).map Entry.event := hsub.subset (by simp)
          rw [List.map_cons, List.mem_cons] at hmem
          exact hmem.resolve_left (by simp [Entry.event, Value.event, hv])
    · have hnode := (hsame hp).symm.trans hnode
      have hmem : Event.call id ∈ entries.map Entry.event := by
        rw [← h.events]
        refine List.mem_map.mpr ⟨p, hp, ?_⟩
        rw [eventAt, hnode]
        exact hcall
      have hne : Event.call id ∉ [e.event] := by
        rw [List.mem_singleton]
        rintro heq
        exact hnotMem (heq ▸ hmem)
      exact hlater (h.matching_call p hp node hnode id hcall
        (Linearizability.sublist_right_of_notMem hne hsub))
  · rw [List.map_cons, List.mem_cons] at hid
    cases hv : e.value with
    | call input =>
        have hmatching : (Porcupine.linkEntry e l).matching = l.matching := by
          rw [Porcupine.linkEntry, hv]
        rw [hmatching]
        exact hlater (h.matching id (hid.resolve_left (by simp [Entry.event, Value.event, hv])))
    | ret output =>
        have hmatching : (Porcupine.linkEntry e l).matching =
            l.matching.insert e.id l.nodes.length := by
          rw [Porcupine.linkEntry, hv]
        rw [hmatching, TreeMap.getElem?_insert]
        by_cases heq : e.id = id
        · subst heq
          rw [if_pos Std.ReflCmp.compare_self, hlength]
          refine ⟨_, List.mem_cons_self, rfl, hevent.trans ?_⟩
          rw [Entry.event, hv]
          rfl
        · rw [if_neg (by simpa using heq)]
          refine hlater (h.matching id (hid.resolve_left fun hevent => heq ?_))
          simpa [Entry.event, Value.event, hv] using hevent.symm

/-- **What `makeLinkedEntries` builds.** -/
theorem makeLinkedEntries_builds (hnodup : (entries.map Entry.event).Nodup) :
    LinksOf entries (makeLinkedEntries entries) ∧ Carries entries (makeLinkedEntries entries) := by
  induction entries with
  | nil =>
      refine ⟨⟨rfl, rfl, ?_, fun p _ => ⟨rfl, rfl⟩⟩, ?_, rfl, ?_, ?_, ?_⟩
      · intro p ps hps
        exact absurd hps.symm (List.cons_ne_nil p ps)
      · exact fun p hp => absurd hp List.not_mem_nil
      · exact fun p hp => absurd hp List.not_mem_nil
      · exact fun p hp => absurd hp List.not_mem_nil
      · exact fun id hid => absurd hid List.not_mem_nil
  | cons e entries ih =>
      obtain ⟨hlinks, hcarries⟩ := ih (List.nodup_cons.mp hnodup).2
      exact ⟨hlinks.linkEntry e, hcarries.linkEntry hlinks.length_nodes e hnodup⟩

/-! ## The nodes of the list -/

/-- What a function finds in the values of an operation. -/
def lookup {β : Type} (f : Value ι ο → Option β) (history : List (Entry ι ο)) (id : ℕ) : Option β :=
  history.findSome? fun e => if e.id = id then f e.value else none

/-- The input of an operation. -/
def inputOf (history : List (Entry ι ο)) (id : ℕ) : Option ι := lookup Value.input? history id

/-- The output of an operation. -/
def outputOf (history : List (Entry ι ο)) (id : ℕ) : Option ο := lookup Value.output? history id

variable {history : List (Entry ι ο)}

/-- What is found in the values of one kind is found in the only entry of that kind. -/
theorem lookup_eq {β : Type} {f : Value ι ο → Option β}
    (hf : ∀ v v' id, (f v).isSome → (f v').isSome → v.event id = v'.event id)
    (hnodup : (history.map Entry.event).Nodup) {e : Entry ι ο} (he : e ∈ history)
    {x : β} (hx : f e.value = some x) : lookup f history e.id = some x := by
  have hsome : (lookup f history e.id).isSome := by
    rw [lookup, List.findSome?_isSome_iff]
    exact ⟨e, he, by rw [if_pos rfl, hx]; rfl⟩
  obtain ⟨x', hx'⟩ := Option.isSome_iff_exists.mp hsome
  obtain ⟨e', he', hfound⟩ := List.exists_of_findSome?_eq_some hx'
  split at hfound
  · next hid =>
    have hevent : e'.event = e.event := by
      rw [Entry.event, Entry.event, hid]
      exact hf _ _ _ (hfound ▸ rfl) (hx ▸ rfl)
    obtain rfl : e' = e := List.inj_on_of_nodup_map hnodup he' he hevent
    rw [hx', ← hfound, hx]
  · exact absurd hfound.symm (Option.some_ne_none _)

theorem inputOf_eq (hnodup : (history.map Entry.event).Nodup) {e : Entry ι ο} (he : e ∈ history)
    {input : ι} (hinput : e.value.input? = some input) : inputOf history e.id = some input := by
  refine lookup_eq (fun v v' id hv hv' => ?_) hnodup he hinput
  cases v <;> cases v' <;> first | rfl | simp [Value.input?] at hv hv'

theorem outputOf_eq (hnodup : (history.map Entry.event).Nodup) {e : Entry ι ο} (he : e ∈ history)
    {output : ο} (houtput : e.value.output? = some output) :
    outputOf history e.id = some output := by
  refine lookup_eq (fun v v' id hv hv' => ?_) hnodup he houtput
  cases v <;> cases v' <;> first | rfl | simp [Value.output?] at hv hv'

/-- The nodes carry the entries of the history, and every call points to its return. -/
structure Nodes (history : List (Entry ι ο)) (nodes : List (Node ι ο)) : Prop where
  /-- The nodes have the events of the entries. -/
  events : (nodesOf history).map (eventAt nodes) = history.map Entry.event
  /-- A return points to nothing. -/
  ret : ∀ p ∈ nodesOf history, ∀ id, eventAt nodes p = .ret id →
    ∃ node, nodes[p]? = some node ∧ node.matching = none
  /-- A call points to its return, and the two have the input and the output. -/
  call : ∀ p ∈ nodesOf history, ∀ id, eventAt nodes p = .call id →
    ∃ node q node' input output, nodes[p]? = some node ∧ node.id = id ∧ node.matching = some q ∧
      q ∈ nodesOf history ∧ eventAt nodes q = .ret id ∧ nodes[q]? = some node' ∧
      node.value.input? = some input ∧ inputOf history id = some input ∧
      node'.value.output? = some output ∧ outputOf history id = some output

/-- **The nodes that `makeLinkedEntries` allocates** for a complete history. -/
theorem Carries.toNodes {l : Linked ι ο} (h : Carries history l)
    (hcomplete : Linearizability.Complete (history.map Entry.event)) : Nodes history l.nodes := by
  have hevent {p : ℕ} {node : Node ι ο} (hnode : l.nodes[p]? = some node) :
      eventAt l.nodes p = node.value.event node.id := by
    rw [eventAt, hnode]
    rfl
  refine ⟨h.events, fun p hp id hret => ?_, fun p hp id hcall => ?_⟩
  · obtain ⟨node, e, hnode, -⟩ := h.node p hp
    exact ⟨node, hnode, h.matching_ret p hp node hnode id ((hevent hnode).symm.trans hret)⟩
  · obtain ⟨node, e, hnode, he, hvalue, hid⟩ := h.node p hp
    have hcall' := (hevent hnode).symm.trans hcall
    have hmem : Event.call id ∈ history.map Entry.event := by
      rw [← h.events]
      exact List.mem_map.mpr ⟨p, hp, hcall⟩
    obtain ⟨q, hq, hmatching, hret⟩ :=
      h.matching_call p hp node hnode id hcall' (hcomplete.paired _ hmem)
    obtain ⟨node', e', hnode', he', hvalue', hid'⟩ := h.node q hq
    have hret' := (hevent hnode').symm.trans hret
    -- the values are of the kinds that the events tell
    cases hv : node.value with
    | ret output => simp [hv, Value.event] at hcall'
    | call input =>
        cases hv' : node'.value with
        | call input => simp [hv', Value.event] at hret'
        | ret output =>
            obtain rfl : node.id = id := by simpa [hv, Value.event] using hcall'
            obtain hidq : node'.id = node.id := by simpa [hv', Value.event] using hret'
            refine ⟨node, q, node', input, output, hnode, rfl, hmatching, hq, hret, hnode',
              hv ▸ rfl, ?_, hv' ▸ rfl, ?_⟩
            · rw [hid]
              exact inputOf_eq hcomplete.nodup he (by rw [← hvalue, hv]; rfl)
            · rw [← hidq, hid']
              exact outputOf_eq hcomplete.nodup he' (by rw [← hvalue', hv']; rfl)

/-! ## Taking a call out of the list -/

/-- `lift` takes out the call and then its return. -/
theorem lift_eq {links : Links} {node : Node ι ο} (hnode : nodes[p]? = some node)
    (hmatching : node.matching = some q) (hnext : (links.next p).isSome) :
    lift nodes links p = (links.unlink p).bind fun links => links.unlink q := by
  obtain ⟨after, hafter⟩ := Option.isSome_iff_exists.mp hnext
  rw [lift, Links.unlink]
  cases links.prev p with
  | none => rfl
  | some before =>
      have hkept : (links.setNext before (links.next p)).next p = some after := by
        rw [Links.setNext_next, Function.update_apply, hafter, ite_self]
      simp only [Option.bind_eq_bind, Option.bind_some, hkept, hnode, hmatching, Option.elim_some,
        Option.pure_def]
      rfl

/-- `unlift` puts back the return and then the call. -/
theorem unlift_eq {links links' : Links} {node : Node ι ο} (hnode : nodes[p]? = some node)
    (hmatching : node.matching = some q) (hrelink : links.relink q = some links')
    (hnext : (links'.next p).isSome) : unlift nodes links p = links'.relink p := by
  have hfirst : unlift nodes links p = (links.relink q).bind fun links => do
      let before ← links.prev p
      let links := links.setNext before (some p)
      let after ← links.next p
      return links.setPrev after (some p) := by
    rw [unlift, hnode, Links.relink]
    simp only [Option.bind_eq_bind, Option.bind_some, hmatching, Option.bind_assoc]
    rfl
  rw [hfirst, hrelink, Option.bind_some, Links.relink]
  cases links'.prev p with
  | none => rfl
  | some before =>
      obtain ⟨after, hafter⟩ := Option.isSome_iff_exists.mp hnext
      have hsome : ∃ after, (links'.setNext before (some p)).next p = some after := by
        rw [Links.setNext_next, Function.update_apply]
        split
        · exact ⟨p, rfl⟩
        · exact ⟨after, hafter⟩
      obtain ⟨after, hafter⟩ := hsome
      simp only [Option.bind_eq_bind, Option.bind_some, hafter, Option.elim_some]

/-- **`lift` takes a call and its return out of the list, and `unlift` restores every link.** -/
theorem exists_lift {links : Links} {node : Node ι ο} {r : ℕ} {xs ys zs : List ℕ}
    (hnode : nodes[p]? = some node) (hmatching : node.matching = some q)
    (hchain : links.Chain r (xs ++ p :: (ys ++ q :: zs)))
    (hnodup : (r :: (xs ++ p :: (ys ++ q :: zs))).Nodup) :
    ∃ links', lift nodes links p = some links' ∧ links'.Chain r (xs ++ (ys ++ zs)) ∧
      unlift nodes links' p = some links := by
  obtain ⟨links₁, hunlink, hchain₁, hrelink, hnext, -⟩ := hchain.unlink hnodup
  have hsub : List.Sublist (r :: (xs ++ (ys ++ q :: zs))) (r :: (xs ++ p :: (ys ++ q :: zs))) :=
    ((List.sublist_cons_self p _).append_left xs).cons_cons r
  rw [← List.append_assoc] at hchain₁ hsub
  obtain ⟨links₂, hunlink₂, hchain₂, hrelink₂, -⟩ := hchain₁.unlink (hnodup.sublist hsub)
  -- the call has a node after it, since its return is there
  have hafter : (links.next p).isSome := by
    rw [hchain.drop.next_eq]
    cases ys <;> rfl
  have hnotMem : p ∉ r :: xs := by
    rw [← List.cons_append, List.nodup_append'] at hnodup
    exact fun hmem => hnodup.2.2 hmem List.mem_cons_self
  refine ⟨links₂, ?_, ?_, ?_⟩
  · rw [lift_eq hnode hmatching hafter, hunlink, Option.bind_some, hunlink₂]
  · rwa [List.append_assoc] at hchain₂
  · rw [unlift_eq hnode hmatching hrelink₂ (by rwa [hnext p hnotMem]), hrelink]

end DistributedSystems.Porcupine
