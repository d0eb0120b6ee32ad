import DistributedSystems.Porcupine.SearchStack
import Mathlib.Data.List.Perm.Subperm

/-! # The checker decides linearizability

Every iteration of the loop of `checkSingle` is a step of a depth-first search in the graph of
linearizations.

* `Represents` — how the variables of the loop stand for a state of that search: the list holds the
  entries that are left, the calls are the path, and the cache holds what was visited;
* `Represented.step` — every iteration is a step of the search, or returns when the search is over;
* `Result.Correct` — what the loop should return: the answer, and the longest partial
  linearizations;
* `checkSingle_correct` — the loop ends, and its answer tells whether the history is
  linearizable. -/

namespace DistributedSystems.Porcupine

open Linearizability
open Std (TreeMap)

variable {ι ο σ : Type} {model : Model ι ο σ} {heap : Heap ι ο} {history : List (Entry ι ο)}
  {links₀ : Links} {computePartial : Bool} {s s' : Search σ} {t t' : Trail (Config σ) ℕ}
  {done passed rest : List ℕ} {frames : List (Frame (Config σ) ℕ)} {p a : ℕ}

/-! ## How the loop stands for a search -/

/-- The variables of the loop stand for a state of the search. The innermost configuration is the
one after `done`; of the nodes that are left, `passed` were looked at and `rest` were not. -/
structure Represents (model : Model ι ο σ) (heap : Heap ι ο) (history : List (Entry ι ο))
    (links₀ : Links) (computePartial : Bool) (s : Search σ) (t : Trail (Config σ) ℕ)
    (done passed rest : List ℕ) (frames : List (Frame (Config σ) ℕ)) : Prop where
  /-- The calls are the path to the innermost configuration. -/
  stack : Stack model heap.nodes history links₀ s.calls s.links s.state s.linearized done frames
  /-- The nodes that are left. -/
  split : remaining heap.nodes history done = passed ++ rest
  /-- Only calls were passed. -/
  passed : ∀ q ∈ passed, (eventAt heap.nodes q).isCall = true
  /-- The next node to look at. -/
  entry : s.entry = rest.head?
  /-- The frames of the search. -/
  frames : t.frames =
    ⟨configAfter history done s.state, ready (rest.map (eventAt heap.nodes))⟩ :: frames
  /-- The cache holds configurations that were visited. -/
  cache : ∀ hash, ∀ elem ∈ s.cache.getD hash [], ∃ done,
    elem.linearized.Holds (history.length / 2) done ∧
      configAfter history done elem.state ∈ t.visited
  /-- No closed configuration is a linearization of the whole history. -/
  closed : ∀ k ∈ t.closed, k.1 ≠ []
  /-- There is a place for every operation. -/
  length_longest : s.longest.length = history.length / 2
  /-- The longest sequences are recorded. -/
  longest : computePartial = true → Records model history s.longest t.closed

/-- Some search is represented. -/
def Represented (model : Model ι ο σ) (heap : Heap ι ο) (history : List (Entry ι ο))
    (links₀ : Links) (computePartial : Bool) (s : Search σ) (t : Trail (Config σ) ℕ) : Prop :=
  ∃ done passed rest frames,
    Represents model heap history links₀ computePartial s t done passed rest frames

namespace Represents

/-- The loop goes on to the next node when it does not take a call. -/
theorem advance (hS : Searched history heap links₀)
    (h : Represents model heap history links₀ computePartial s t done passed (p :: rest) frames)
    (hp : eventAt heap.nodes p = .call a) :
    Represents model heap history links₀ computePartial { s with entry := s.links.next p }
      { t with frames := ⟨configAfter history done s.state,
          ready (rest.map (eventAt heap.nodes))⟩ :: frames }
      done (passed ++ [p]) rest frames := by
  have hchain := (h.stack.reached hS).chain
  rw [h.split] at hchain
  refine ⟨h.stack, ?_, fun q hq => ?_, hchain.drop.next_eq, rfl, h.cache, h.closed,
    h.length_longest, h.longest⟩
  · rw [h.split, List.append_assoc]
    rfl
  · rcases List.mem_append.mp hq with hq | hq
    · exact h.passed q hq
    · rw [List.mem_singleton.mp hq, hp]
      rfl

/-- The loop takes a call. -/
theorem take (hS : Searched history heap links₀)
    (h : Represents model heap history links₀ computePartial s t done passed (p :: rest) frames)
    (hp : eventAt heap.nodes p = .call a) {st : σ}
    (hperform : model.perform history s.state a = some st) {links : Links} {bits : Bitset}
    (hlift : lift heap.nodes s.links p = some links)
    (hunlift : unlift heap.nodes links p = some s.links) (hset : s.linearized.set a = some bits)
    (hclear : bits.clear a = some s.linearized)
    (hholds : bits.Holds (history.length / 2) (done ++ [a])) :
    Represents model heap history links₀ computePartial
      { s with
        links := links
        entry := links.next heap.headEntry
        state := st
        linearized := bits
        cache := s.cache.insert bits.hash (s.cache.getD bits.hash [] ++ [⟨bits, st⟩])
        calls := s.calls ++ [⟨p, s.state⟩] }
      { frames := ⟨configAfter history (done ++ [a]) st,
          (model.graph history).moves (configAfter history (done ++ [a]) st)⟩ ::
          ⟨configAfter history done s.state, ready (rest.map (eventAt heap.nodes))⟩ :: frames
        visited := configAfter history (done ++ [a]) st :: t.visited
        closed := t.closed }
      (done ++ [a]) [] (remaining heap.nodes history (done ++ [a]))
      (⟨configAfter history done s.state, ready (rest.map (eventAt heap.nodes))⟩ :: frames) := by
  have hstack := h.stack.push h.split h.passed hp hperform hlift hunlift hset hclear
  refine ⟨hstack, rfl, ?_, (hstack.reached hS).chain.next_eq, ?_, fun hash elem helem => ?_,
    h.closed, h.length_longest, h.longest⟩
  · exact fun q hq => absurd hq List.not_mem_nil
  · rw [map_remaining hS.nodes]
    rfl
  · -- the new entry of the cache, or an old one
    have hold : elem ∈ s.cache.getD hash [] ∨ elem = ⟨bits, st⟩ := by
      rw [TreeMap.getD_insert] at helem
      split at helem
      · next heq =>
        rw [Std.LawfulEqCmp.compare_eq_iff_eq] at heq
        rw [heq] at helem
        exact (List.mem_append.mp helem).imp_right List.mem_singleton.mp
      · exact Or.inl helem
    rcases hold with hold | rfl
    · obtain ⟨done', hholds', hvisited⟩ := h.cache hash elem hold
      exact ⟨done', hholds', List.mem_cons_of_mem _ hvisited⟩
    · exact ⟨done ++ [a], hholds, List.mem_cons_self⟩

/-- The moves that are left when the next node is a call. -/
theorem frames_call
    (h : Represents model heap history links₀ computePartial s t done passed (p :: rest) frames)
    (hp : eventAt heap.nodes p = .call a) :
    t = ⟨⟨configAfter history done s.state, a :: ready (rest.map (eventAt heap.nodes))⟩ :: frames,
      t.visited, t.closed⟩ := by
  obtain ⟨tframes, visited, closed⟩ := t
  have hframes := h.frames
  simp only [List.map_cons, hp, ready_cons_call] at hframes
  rw [hframes]

/-- Where a call leads. -/
theorem follow_eq (history : List (Entry ι ο)) (done : List ℕ) (st : σ) (a : ℕ) :
    (model.graph history).follow (configAfter history done st) a =
      (model.perform history st a).map (configAfter history (done ++ [a])) := by
  show (model.perform history st a).map _ = _
  congr 1
  funext st'
  rw [configAfter, configAfter, without_without]

/-- The cache only has configurations that may be taken for the one that is looked up. -/
theorem exists_visited (hS : Searched history heap links₀) (hmodel : model.Respectful)
    (h : Represents model heap history links₀ computePartial s t done passed rest frames)
    {bits : Bitset} {done' : List ℕ} (hbits : bits.Holds (history.length / 2) done') {st : σ}
    (hcontains : cacheContains model s.cache ⟨bits, st⟩ = true) :
    ∃ w ∈ t.visited, Same (model.perform history) (configAfter history done' st) w := by
  obtain ⟨elem, helem, hequal⟩ := List.any_eq_true.mp hcontains
  obtain ⟨hsame, hequal⟩ := (Bool.and_eq_true _ _).mp hequal
  obtain rfl := Bitset.equals_iff.mp hsame
  obtain ⟨done'', hholds, hvisited⟩ := h.cache _ elem helem
  refine ⟨_, hvisited, without_congr fun e he => ?_, hmodel.equivalent hequal history⟩
  obtain ⟨e, hmem, rfl⟩ := List.mem_map.mp he
  rw [Entry.event, Value.event_op]
  exact hbits.mem_iff hholds (hS.numbered.id_lt e hmem)

/-! ## The iterations -/

/-- An iteration at a call. -/
theorem step_call {node : Node ι ο} {q : ℕ} (hnext : s.links.next heap.headEntry ≠ none)
    (hentry : s.entry = some p) (hnode : heap.nodes[p]? = some node)
    (hmatching : node.matching = some q) :
    s.step model heap computePartial false = (s.tryCall model heap p node q).map .inl := by
  rw [Search.step, if_neg hnext, if_neg Bool.false_ne_true, hentry]
  simp [hnode, hmatching]

/-- An iteration at a return when no call has been made. -/
theorem step_fail {node : Node ι ο} (hnext : s.links.next heap.headEntry ≠ none)
    (hentry : s.entry = some p) (hnode : heap.nodes[p]? = some node)
    (hmatching : node.matching = none) (hcalls : s.calls = []) :
    s.step model heap computePartial false = some (.inr ⟨false, s.longest⟩) := by
  rw [Search.step, if_neg hnext, if_neg Bool.false_ne_true, hentry]
  simp [hnode, hmatching, hcalls]

/-- An iteration at a return takes back the last call. -/
theorem step_takeBack {node : Node ι ο} {calls : List (CallsEntry σ)} {callsTop : CallsEntry σ}
    (hnext : s.links.next heap.headEntry ≠ none) (hentry : s.entry = some p)
    (hnode : heap.nodes[p]? = some node) (hmatching : node.matching = none)
    (hcalls : s.calls = calls ++ [callsTop]) :
    s.step model heap computePartial false =
      (s.takeBack heap computePartial callsTop).map .inl := by
  rw [Search.step, if_neg hnext, if_neg Bool.false_ne_true, hentry]
  simp [hnode, hmatching, hcalls]

/-- The search goes on after an iteration. -/
def Continues (model : Model ι ο σ) (heap : Heap ι ο) (history : List (Entry ι ο))
    (links₀ : Links) (computePartial : Bool) (s : Search σ) (t : Trail (Config σ) ℕ) : Prop :=
  ∃ s' t', s.step model heap computePartial false = some (.inl s') ∧
    Trail.Step (model.graph history) (Same (model.perform history)) t t' ∧
    Represented model heap history links₀ computePartial s' t'

/-- **An iteration at a call** takes it, or goes on to the next node. -/
theorem call (hS : Searched history heap links₀) (hmodel : model.Respectful)
    (h : Represents model heap history links₀ computePartial s t done passed (p :: rest) frames)
    (hnext : s.links.next heap.headEntry ≠ none) (hp : eventAt heap.nodes p = .call a) :
    Continues model heap history links₀ computePartial s t := by
  have hmem : p ∈ remaining heap.nodes history done := by simp [h.split]
  obtain ⟨node, q, node', input, output, hnode, rfl, hmatching, -, -, hnode', hinput, hinputOf,
    houtput, houtputOf⟩ := hS.nodes.call p (mem_remaining.mp hmem).1 a hp
  have hreached := h.stack.reached hS
  obtain ⟨links', bits', hlift, hunlift, hset, hclear, -, hholds⟩ :=
    hS.exists_push hreached.chain hreached.bits h.split hp
  have hstep : s.step model heap computePartial false = (s.tryCall model heap p node q).map .inl :=
    step_call hnext h.entry hnode hmatching
  have hperform : model.perform history s.state node.id =
      if (model.step s.state input output).1 then some (model.step s.state input output).2
      else none := by
    rw [Model.perform, hinputOf, houtputOf]
    rfl
  have hfollow : (model.graph history).follow (configAfter history done s.state) node.id =
      (model.perform history s.state node.id).map (configAfter history (done ++ [node.id])) :=
    follow_eq history done s.state node.id
  by_cases hok : (model.step s.state input output).1 = true
  · rw [hperform, if_pos hok, Option.map_some] at hfollow
    by_cases hcached : cacheContains model s.cache
        ⟨bits', (model.step s.state input output).2⟩ = true
    · -- what the call leads to was visited before
      obtain ⟨w, hw, hsame⟩ := h.exists_visited hS hmodel hholds hcached
      refine ⟨{ s with entry := s.links.next p }, _, ?_, ?_, _, _, _, _, h.advance hS hp⟩
      · rw [hstep]
        simp [Search.tryCall, hinput, hnode', houtput, hok, hset, hcached]
      · rw [h.frames_call hp]
        exact .prune hfollow hw hsame
    · have hperform' := hperform.trans (if_pos hok)
      refine ⟨_, _, ?_, ?_, _, _, _, _,
        h.take hS hp hperform' hlift hunlift hset hclear hholds⟩
      · rw [hstep]
        simp [Search.tryCall, hinput, hnode', houtput, hok, hset, hcached, hlift]
      · rw [h.frames_call hp]
        exact .enter hfollow
  · -- the model refuses the call
    rw [hperform, if_neg hok, Option.map_none] at hfollow
    refine ⟨{ s with entry := s.links.next p }, _, ?_, ?_, _, _, _, _, h.advance hS hp⟩
    · rw [hstep]
      simp [Search.tryCall, hinput, hnode', houtput, hok]
    · rw [h.frames_call hp]
      exact .refuse hfollow

/-- The longest sequences when the innermost configuration is left. -/
theorem exists_longest (hS : Searched history heap links₀)
    (h : Represents model heap history links₀ computePartial s t done passed rest frames) :
    ∃ longest, s.longestAfter heap computePartial = some longest ∧
      longest.length = history.length / 2 ∧
      (computePartial = true →
        Records model history longest (configAfter history done s.state :: t.closed)) := by
  have hreached := h.stack.reached hS
  cases computePartial with
  | false => exact ⟨s.longest, rfl, h.length_longest, fun heq => absurd heq Bool.false_ne_true⟩
  | true =>
      have hlt (id : ℕ) (hid : id ∈ done) : id < s.longest.length := by
        have hmem := ((path_iff hS.numbered.complete).mp hreached.path).1.mem id hid
        obtain ⟨e, he, hevent⟩ := List.mem_map.mp hmem
        obtain rfl : e.id = id := by
          have hop := congrArg Event.op hevent
          rwa [Entry.event, Value.event_op] at hop
        rw [h.length_longest]
        exact hS.numbered.id_lt e he
      obtain ⟨longest, hrecord, hlength, hget⟩ := recordLongest_spec hlt
      refine ⟨longest, ?_, hlength.trans h.length_longest, fun _ => ?_⟩
      · rw [Search.longestAfter, if_pos rfl, hreached.ids, Option.bind_some, hrecord]
      · exact (h.longest rfl).close hreached.path hlt hget

/-- **An iteration at a return** takes back the last call. -/
theorem ret (hS : Searched history heap links₀)
    (h : Represents model heap history links₀ computePartial s t done passed (p :: rest) frames)
    (hnext : s.links.next heap.headEntry ≠ none) (hp : eventAt heap.nodes p = .ret a) :
    Continues model heap history links₀ computePartial s t ∨
      s.step model heap computePartial false = some (.inr ⟨false, s.longest⟩) ∧
        ∃ c, t.frames = [⟨c, []⟩] := by
  have hmem : p ∈ remaining heap.nodes history done := by simp [h.split]
  obtain ⟨node, hnode, hmatching⟩ := hS.nodes.ret p (mem_remaining.mp hmem).1 a hp
  have hframes : t.frames = ⟨configAfter history done s.state, []⟩ :: frames := by
    rw [h.frames, List.map_cons, hp, ready_cons_ret]
  rcases h.stack.last with ⟨hcalls, rfl⟩ | ⟨calls, links, st, bits, done', frames', p', a', passed',
    rest', hstack, hcalls, rfl, hrest', hpassed', hp', hunlift, hclear⟩
  · exact Or.inr ⟨step_fail hnext h.entry hnode hmatching hcalls, _, hframes⟩
  · left
    have hreached := hstack.reached hS
    have hmem' : p' ∈ remaining heap.nodes history done' := by simp [hrest']
    obtain ⟨node', -, -, -, -, hnode', rfl, -⟩ :=
      hS.nodes.call p' (mem_remaining.mp hmem').1 a' hp'
    obtain ⟨longest, hlongest, hlength, hrecords⟩ := h.exists_longest hS
    have hback : Represents model heap history links₀ computePartial
        { s with
          links := links
          entry := links.next p'
          state := st
          linearized := bits
          calls := calls
          longest := longest }
        ⟨⟨configAfter history done' st, ready (rest'.map (eventAt heap.nodes))⟩ :: frames',
          t.visited, configAfter history done s.state :: t.closed⟩
        done' (passed' ++ [p']) rest' frames' := by
      have hchain := hreached.chain
      rw [hrest'] at hchain
      refine ⟨hstack, ?_, fun q hq => ?_, hchain.drop.next_eq, rfl, h.cache, fun k hk => ?_, hlength,
        hrecords⟩
      · rw [hrest', List.append_assoc]
        rfl
      · rcases List.mem_append.mp hq with hq | hq
        · exact hpassed' q hq
        · rw [List.mem_singleton.mp hq, hp']
          rfl
      · rcases List.mem_cons.mp hk with rfl | hk
        · -- the node that was looked at is left
          rw [configAfter, ← map_remaining hS.nodes]
          exact fun hnil => absurd (List.map_eq_nil_iff.mp hnil) (List.ne_nil_of_mem hmem)
        · exact h.closed k hk
    refine ⟨_, _, ?_, ?_, _, _, _, _, hback⟩
    · rw [step_takeBack hnext h.entry hnode hmatching hcalls]
      simp [Search.takeBack, hlongest, hnode', hclear, hunlift, hcalls]
    · obtain ⟨tframes, visited, closed⟩ := t
      obtain rfl : tframes = _ := hframes
      exact .retreat

end Represents

/-! ## What is returned -/

/-- What `checkSingle` should return: whether the history is linearizable, and for each operation a
longest accepted sequence with it, if there is any. -/
structure Result.Correct (model : Model ι ο σ) (history : List (Entry ι ο)) (computePartial : Bool)
    (r : Result) : Prop where
  /-- The answer. -/
  ok : r.ok = true ↔ Linearizable (model.perform history) model.init (history.map Entry.event)
  /-- The longest sequences. -/
  longest : computePartial = true → ∀ e ∈ history, ∃ best, r.longest[e.id]? = some best ∧
    (∀ seq ∈ best, Accepts model history seq ∧ e.id ∈ seq) ∧
    ∀ ids, Accepts model history ids → e.id ∈ ids → ∃ seq ∈ best, ids.length ≤ seq.length
  /-- All sequences that are returned are accepted. -/
  accepted : computePartial = true → ∀ seq, some seq ∈ r.longest → Accepts model history seq

/-- The accepted sequences are the paths of the graph. -/
theorem accepts_iff (hcomplete : Complete (history.map Entry.event)) {ids : List ℕ} :
    Accepts model history ids ↔
      ∃ d, (model.graph history).Path (rootConfig model history) ids d := by
  constructor
  · rintro ⟨hl, hs⟩
    obtain ⟨st, hst⟩ := Option.isSome_iff_exists.mp hs
    exact ⟨(without ids _, st), (path_iff hcomplete).mpr ⟨hl, rfl, hst⟩⟩
  · rintro ⟨d, hd⟩
    obtain ⟨hl, -, hst⟩ := (path_iff hcomplete).mp hd
    exact ⟨hl, Option.isSome_iff_exists.mpr ⟨_, hst⟩⟩

/-- The event of the call of an entry. -/
theorem Numbered.call_mem (hnumbered : Numbered history) {e : Entry ι ο} (he : e ∈ history) :
    Event.call e.id ∈ history.map Entry.event := by
  have hpaired := hnumbered.complete.paired e.event (List.mem_map_of_mem he)
  have hop : e.event.op = e.id := Value.event_op e.id e.value
  rw [hop] at hpaired
  exact hpaired.subset List.mem_cons_self

/-- **A search that has found a linearization** returns it. -/
theorem correct_of_path (hnumbered : Numbered history) {seq : List ℕ} {st : σ}
    (hpath : (model.graph history).Path (rootConfig model history) seq ([], st)) :
    Result.Correct model history computePartial
      ⟨true, List.replicate (history.length / 2) (some seq)⟩ := by
  have hcomplete := hnumbered.complete
  have haccepts := (accepts_iff hcomplete).mpr ⟨_, hpath⟩
  have hempty : [] = without seq (history.map Entry.event) := ((path_iff hcomplete).mp hpath).2.1
  have hall (a : ℕ) (ha : Event.call a ∈ history.map Entry.event) : a ∈ seq := by
    by_contra hnotMem
    have hmem : Event.call a ∈ without seq (history.map Entry.event) :=
      mem_without.mpr ⟨ha, hnotMem⟩
    rw [← hempty] at hmem
    exact List.not_mem_nil hmem
  refine ⟨iff_of_true rfl ((linearizable_iff_path hcomplete).mpr ⟨seq, st, hpath⟩),
    fun _ e he => ⟨some seq, List.getElem?_replicate_of_lt (hnumbered.id_lt e he), ?_, ?_⟩, ?_⟩
  · intro seq' hseq'
    obtain rfl : seq = seq' := Option.some.inj hseq'
    exact ⟨haccepts, hall e.id (hnumbered.call_mem he)⟩
  · intro ids hids _
    refine ⟨seq, rfl, ?_⟩
    -- all operations are in the linearization
    exact (List.subperm_of_subset hids.1.nodup fun a ha => hall a (hids.1.mem a ha)).length_le
  · intro _ seq' hmem
    obtain rfl : seq' = seq := Option.some.inj (List.eq_of_mem_replicate hmem)
    exact haccepts

/-- **A search that is exhausted** has seen everything. -/
theorem correct_of_covered (hnumbered : Numbered history) (hne : history ≠ [])
    {longest : List (Option (List ℕ))} {closed : List (Config σ)}
    (hlength : longest.length = history.length / 2) (hclosed : ∀ k ∈ closed, k.1 ≠ [])
    (hlongest : computePartial = true → Records model history longest closed)
    (hcovered : (model.graph history).Covered (Same (model.perform history))
      (rootConfig model history :: closed) (rootConfig model history)) :
    Result.Correct model history computePartial ⟨false, longest⟩ := by
  have hcomplete := hnumbered.complete
  refine ⟨iff_of_false Bool.false_ne_true fun hlinearizable => ?_, fun hpartial e he => ?_,
    fun hpartial seq hmem => ?_⟩
  · obtain ⟨ids, st, hpath⟩ := (linearizable_iff_path hcomplete).mp hlinearizable
    obtain ⟨k, hk, hsame, -⟩ := hcovered ids _ hpath
    rcases List.mem_cons.mp hk with rfl | hk
    · exact hne (List.map_eq_nil_iff.mp hsame.symm)
    · exact hclosed k hk hsame.symm
  · have hrecords := hlongest hpartial
    have hlt : e.id < longest.length := hlength ▸ hnumbered.id_lt e he
    refine ⟨longest.get ⟨e.id, hlt⟩, List.getElem?_eq_getElem hlt, fun seq hseq => ?_,
      fun ids hids hid => ?_⟩
    · have hget : longest[e.id]? = some (some seq) := by
        rw [List.getElem?_eq_getElem hlt]
        exact congrArg some hseq
      obtain ⟨hmem, hpath⟩ := hrecords.path e.id seq hget
      exact ⟨(accepts_iff hcomplete).mpr hpath, hmem⟩
    · obtain ⟨d, hpath⟩ := (accepts_iff hcomplete).mp hids
      obtain ⟨k, hk, hsame, -⟩ := hcovered ids d hpath
      have hd := ((path_iff hcomplete).mp hpath).2.1
      have hleft : Event.call e.id ∉ d.1 := by
        rw [hd]
        exact fun hmem => (mem_without.mp hmem).2 hid
      rcases List.mem_cons.mp hk with rfl | hk
      · rw [hsame] at hleft
        exact absurd (hnumbered.call_mem he) hleft
      · -- a closed configuration after the same operations
        obtain ⟨ids', hpath', hseq⟩ := hrecords.longest k hk
        have hk' := ((path_iff hcomplete).mp hpath').2.1
        have hsub : ids ⊆ ids' := by
          intro a ha
          by_contra hnotMem
          have hmem : Event.call a ∈ without ids' (history.map Entry.event) :=
            mem_without.mpr ⟨hids.1.mem a ha, hnotMem⟩
          rw [← hk', ← hsame, hd] at hmem
          exact (mem_without.mp hmem).2 ha
        obtain ⟨seq, hget, hle⟩ := hseq e.id (hsub hid)
        refine ⟨seq, ?_, (List.subperm_of_subset hids.1.nodup hsub).length_le.trans hle⟩
        rw [List.getElem?_eq_getElem hlt] at hget
        exact Option.some.inj hget
  · obtain ⟨id, hid⟩ := List.mem_iff_getElem?.mp hmem
    exact (accepts_iff hcomplete).mpr ((hlongest hpartial).path id seq hid).2

/-! ## The loop -/

/-- **Every iteration is a step of the search**, or returns the right answer. -/
theorem Represented.step (hS : Searched history heap links₀) (hmodel : model.Respectful)
    (h : Represented model heap history links₀ computePartial s t)
    (hexplored : Explored (model.graph history) (Same (model.perform history))
      (rootConfig model history) t) :
    Represents.Continues model heap history links₀ computePartial s t ∨
      ∃ r, s.step model heap computePartial false = some (.inr r) ∧
        r.Correct model history computePartial := by
  obtain ⟨done, passed, rest, frames, h⟩ := h
  have hreached := h.stack.reached hS
  have hnext := hreached.chain.next_eq
  cases hleft : remaining heap.nodes history done with
  | nil =>
      -- the list is empty, so all operations have been linearized
      right
      have hconfig : configAfter history done s.state = ([], s.state) := by
        rw [configAfter, ← map_remaining hS.nodes, hleft]
        rfl
      refine ⟨⟨true, List.replicate (history.length / 2) (some done)⟩, ?_,
        correct_of_path hS.numbered (hconfig ▸ hreached.path)⟩
      rw [hleft, List.head?_nil] at hnext
      rw [Search.step, if_pos hnext, hreached.ids, h.length_longest]
      rfl
  | cons first left =>
      have hne : s.links.next heap.headEntry ≠ none := by
        rw [hnext, hleft]
        exact Option.some_ne_none first
      cases rest with
      | nil =>
          -- only calls are left, but the return of the first one is left as well
          exfalso
          have hfirst : first ∈ remaining heap.nodes history done := hleft ▸ List.mem_cons_self
          have hpassed (q : ℕ) (hq : q ∈ remaining heap.nodes history done) :
              (eventAt heap.nodes q).isCall = true := by
            rw [h.split, List.append_nil] at hq
            exact h.passed q hq
          obtain ⟨hnode, hop⟩ := mem_remaining.mp hfirst
          have hcall := hpassed first hfirst
          cases hevent : eventAt heap.nodes first with
          | ret a => simp [hevent, Event.isCall] at hcall
          | call a =>
              obtain ⟨-, q, -, -, -, -, -, -, hq, hret, -⟩ := hS.nodes.call first hnode a hevent
              rw [hevent] at hop
              have hreturn := hpassed q (mem_remaining.mpr ⟨hq, hret ▸ hop⟩)
              simp [hret, Event.isCall] at hreturn
      | cons p rest =>
          cases hp : eventAt heap.nodes p with
          | call a => exact Or.inl (h.call hS hmodel hne hp)
          | ret a =>
              refine (h.ret hS hne hp).imp id ?_
              rintro ⟨hstep, c, hframes⟩
              refine ⟨_, hstep, correct_of_covered hS.numbered ?_ h.length_longest h.closed h.longest ?_⟩
              · have hmem : first ∈ remaining heap.nodes history done := hleft ▸ List.mem_cons_self
                rintro rfl
                exact absurd (mem_remaining.mp hmem).1 List.not_mem_nil
              · obtain ⟨tframes, visited, closed⟩ := t
                obtain rfl : tframes = _ := hframes
                exact hexplored.covered (pruning _)

/-- The loop ends with the right answer. -/
theorem runSearch_correct (hS : Searched history heap links₀) (hmodel : model.Respectful)
    (h : Represented model heap history links₀ computePartial s t)
    (hexplored : Explored (model.graph history) (Same (model.perform history))
      (rootConfig model history) t) {fuel : ℕ} (hfuel : t.cost (model.graph history) < fuel) :
    ∃ r, runSearch model heap computePartial fuel s = .ok r ∧
      r.Correct model history computePartial := by
  induction fuel generalizing s t with
  | zero => exact absurd hfuel (Nat.not_lt_zero _)
  | succ fuel ih =>
      rcases h.step hS hmodel hexplored with ⟨s', t', hstep, hmove, h'⟩ | ⟨r, hstep, hr⟩
      · have hlt := hmove.cost_lt
        obtain ⟨r, hrun, hr⟩ := ih h' (hexplored.step (pruning _) hmove) (by omega)
        refine ⟨r, ?_, hr⟩
        rw [runSearch, hstep]
        exact hrun
      · refine ⟨r, ?_, hr⟩
        rw [runSearch, hstep]

/-- **The variables before the loop** stand for the start of the search. -/
theorem exists_startSearch (hnumbered : Numbered history) (model : Model ι ο σ)
    (computePartial : Bool) :
    ∃ heap s links₀, startSearch model history = some (heap, s) ∧ Searched history heap links₀ ∧
      Represented model heap history links₀ computePartial s
        (Trail.start (model.graph history) (rootConfig model history)) := by
  obtain ⟨hlinks, hcarries⟩ := makeLinkedEntries_builds hnumbered.complete.nodup
  have hhead : history.length ∉ nodesOf history := fun hmem => (lt_of_mem_nodesOf hmem).false
  obtain ⟨hnext, hprev⟩ := hlinks.fresh history.length le_rfl
  obtain ⟨hchain, -⟩ :=
    chain_insertBefore hlinks.linear (nodup_nodesOf history) hhead hnext hprev
  have hlength : length (makeLinkedEntries history).links history.length
      (nodesOf history).head? = some history.length := by
    rw [length_eq hlinks.linear (length_nodesOf history).le, length_nodesOf]
  rw [← hlinks.root] at hchain hlength
  refine ⟨⟨(makeLinkedEntries history).nodes, history.length⟩,
    { links := insertBefore (makeLinkedEntries history).links history.length
        (makeLinkedEntries history).root
      entry := (makeLinkedEntries history).root
      state := model.init
      linearized := Bitset.newBitset (history.length / 2)
      cache := ∅
      calls := []
      longest := List.replicate (history.length / 2) none }, _, ?_,
    ⟨hnumbered, hcarries.toNodes hnumbered.complete, hhead, hchain⟩,
    [], [], nodesOf history, [], .nil, ?_, ?_, hlinks.root, ?_, ?_, ?_, ?_, fun _ => ⟨?_, ?_⟩⟩
  · rw [startSearch]
    simp only [hlinks.length_nodes, hlength, Option.map_some]
  · exact List.filter_eq_self.mpr fun p _ => decide_eq_true List.not_mem_nil
  · exact fun q hq => absurd hq List.not_mem_nil
  · rw [configAfter, without_nil, hcarries.events]
    rfl
  · intro hash elem helem
    rw [TreeMap.getD_emptyc] at helem
    exact absurd helem List.not_mem_nil
  · exact fun k hk => absurd hk List.not_mem_nil
  · exact List.length_replicate
  · intro id seq hseq
    have hmem := List.mem_of_getElem? hseq
    exact absurd (List.eq_of_mem_replicate hmem) (Option.some_ne_none seq)
  · exact fun k hk => absurd hk List.not_mem_nil

/-- `checkSingle` returns what it should. -/
theorem checkSingle_returns (hnumbered : Numbered history) (hmodel : model.Respectful)
    (computePartial : Bool) :
    ∃ bound, ∀ fuel ≥ bound, ∃ r, checkSingle model history computePartial fuel = .ok r ∧
      r.Correct model history computePartial := by
  obtain ⟨heap, s, links₀, hstart, hS, h⟩ := exists_startSearch hnumbered model computePartial
  refine ⟨(Trail.start (model.graph history) (rootConfig model history)).cost
    (model.graph history) + 1, fun fuel hfuel => ?_⟩
  rw [checkSingle, hstart]
  exact runSearch_correct hS hmodel h (.start _ _ _) (Nat.lt_of_succ_le hfuel)

/-- **The checker decides linearizability.** For every complete history whose operations are numbered
and every model whose `Equal` is respected by its steps, the loop of `checkSingle` ends without a
panic, and it answers whether the history is linearizable. -/
theorem checkSingle_correct (hnumbered : Numbered history) (hmodel : model.Respectful)
    (computePartial : Bool) :
    ∃ bound, ∀ fuel ≥ bound, ∃ r, checkSingle model history computePartial fuel = .ok r ∧
      (r.ok = true ↔
        Linearizable (model.perform history) model.init (history.map Entry.event)) := by
  obtain ⟨bound, hbound⟩ := checkSingle_returns hnumbered hmodel computePartial
  refine ⟨bound, fun fuel hfuel => ?_⟩
  obtain ⟨r, hr, hcorrect⟩ := hbound fuel hfuel
  exact ⟨r, hr, hcorrect.ok⟩

/-- A register: an operation writes a value, or reads the one that was written last. -/
def register : Model (Option ℕ) ℕ ℕ where
  init := 0
  step s input output := input.elim (output = s, s) fun v => (true, v)
  equal s t := s = t

/-- A read of 1 while 1 is written, and a read of 0 afterwards. -/
def staleRead : List (Entry (Option ℕ) ℕ) :=
  [⟨.call none, 0, 0, 0⟩, ⟨.call (some 1), 1, 1, 1⟩, ⟨.ret 1, 0, 3, 0⟩, ⟨.ret 0, 1, 4, 1⟩,
    ⟨.call none, 2, 5, 0⟩, ⟨.ret 0, 2, 6, 0⟩]

/-- The checker decides whether the stale read is linearizable. -/
theorem checkSingle_correct_staleRead :
    ∃ bound, ∀ fuel ≥ bound, ∃ r, checkSingle register staleRead true fuel = .ok r ∧
      (r.ok = true ↔ Linearizable (register.perform staleRead) register.init
        (staleRead.map Entry.event)) :=
  checkSingle_correct ⟨⟨by decide, by decide⟩, by decide⟩
    (respectful_of_equal fun _ _ => decide_eq_true_iff) true

end DistributedSystems.Porcupine
