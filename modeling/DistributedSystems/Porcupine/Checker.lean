import DistributedSystems.Porcupine.Bitset
import DistributedSystems.Storage.LinkedList
import Mathlib.Data.Int.Notation
import Std.Data.TreeMap.Lemmas

/-! # The linearizability checker

`checkSingle` of `porcupine/checker.go` with the linked list it searches. The nodes of the list are
numbered in the order of their allocation, the null pointer is `none`, and a step that the Go program
panics at gives `none`.

* `makeLinkedEntries` — the list of the entries, in which a call points to its return;
* `lift`, `unlift` — take a call and its return out of the list, and put them back;
* `Search.step` — one iteration of the loop of `checkSingle`;
* `checkSingle` — the loop, for a number of iterations. -/

namespace DistributedSystems.Porcupine

open Std (TreeMap)

variable {ι ο σ : Type}

/-! ## Entries -/

/-- The model of a system, with the functions that the search uses. -/
structure Model (ι ο σ : Type) where
  /-- `Init`. -/
  init : σ
  /-- `Step`: whether the system can take the step, and the new state. -/
  step : σ → ι → ο → Bool × σ
  /-- `Equal`. -/
  equal : σ → σ → Bool

/-- The kind and the value of an entry: a call has an input, a return has an output. -/
inductive Value (ι ο : Type)
  /-- `callEntry`. -/
  | call (input : ι)
  /-- `returnEntry`. -/
  | ret (output : ο)

namespace Value

/-- The value as an input, which the type assertions of a model ask for. -/
def input? : Value ι ο → Option ι
  | call input => some input
  | ret _ => none

/-- The value as an output. -/
def output? : Value ι ο → Option ο
  | call _ => none
  | ret output => some output

end Value

/-- `entry`. -/
structure Entry (ι ο : Type) where
  /-- `kind` and `value`. -/
  value : Value ι ο
  /-- `id`. -/
  id : ℕ
  /-- `time`. -/
  time : ℤ
  /-- `clientId`. -/
  clientId : ℤ

/-! ## The linked list -/

/-- `node`, without its links. -/
structure Node (ι ο : Type) where
  /-- `value`. -/
  value : Value ι ο
  /-- `match`: the return of a call. -/
  matching : Option ℕ
  /-- `id`. -/
  id : ℕ

/-- `insertBefore`. -/
def insertBefore (links : Links) (n : ℕ) : Option ℕ → Links
  | none => links
  | some mark =>
      let inserted := (links.setPrev mark (some n)).setNext n (some mark)
      (links.prev mark).elim inserted fun beforeMark =>
        (inserted.setPrev n (some beforeMark)).setNext beforeMark (some n)

/-- `length`, by at most `fuel` steps. -/
def length (links : Links) : ℕ → Option ℕ → Option ℕ
  | _, none => some 0
  | 0, some _ => none
  | fuel + 1, some n => (length links fuel (links.next n)).map (· + 1)

/-- The variables of `makeLinkedEntries`. -/
structure Linked (ι ο : Type) where
  /-- The nodes that were allocated. -/
  nodes : List (Node ι ο)
  /-- Their links. -/
  links : Links
  /-- `root`. -/
  root : Option ℕ
  /-- `match`. -/
  matching : TreeMap ℕ ℕ

/-- The body of the loop of `makeLinkedEntries`. -/
def linkEntry (elem : Entry ι ο) (l : Linked ι ο) : Linked ι ο :=
  let entry := l.nodes.length
  match elem.value with
  | .ret _ =>
      { nodes := l.nodes ++ [⟨elem.value, none, elem.id⟩]
        links := insertBefore l.links entry l.root
        root := some entry
        matching := l.matching.insert elem.id entry }
  | .call _ =>
      { nodes := l.nodes ++ [⟨elem.value, l.matching[elem.id]?, elem.id⟩]
        links := insertBefore l.links entry l.root
        root := some entry
        matching := l.matching }

/-- `makeLinkedEntries`: the loop goes from the last entry to the first. -/
def makeLinkedEntries (entries : List (Entry ι ο)) : Linked ι ο :=
  entries.foldr linkEntry ⟨[], Links.empty, none, ∅⟩

/-- `lift`. -/
def lift (nodes : List (Node ι ο)) (links : Links) (entry : ℕ) : Option Links := do
  let before ← links.prev entry
  let links := links.setNext before (links.next entry)
  let after ← links.next entry
  let links := links.setPrev after (links.prev entry)
  let node ← nodes[entry]?
  let matching ← node.matching
  let before ← links.prev matching
  let links := links.setNext before (links.next matching)
  return (links.next matching).elim links fun after =>
    links.setPrev after (links.prev matching)

/-- `unlift`. -/
def unlift (nodes : List (Node ι ο)) (links : Links) (entry : ℕ) : Option Links := do
  let node ← nodes[entry]?
  let matching ← node.matching
  let before ← links.prev matching
  let links := links.setNext before (some matching)
  let links := (links.next matching).elim links fun after => links.setPrev after (some matching)
  let before ← links.prev entry
  let links := links.setNext before (some entry)
  let after ← links.next entry
  return links.setPrev after (some entry)

/-! ## The search -/

/-- `cacheEntry`. -/
structure CacheEntry (σ : Type) where
  /-- `linearized`. -/
  linearized : Bitset
  /-- `state`. -/
  state : σ

/-- `cacheContains`. -/
def cacheContains (model : Model ι ο σ) (cache : TreeMap (BitVec 64) (List (CacheEntry σ)))
    (entry : CacheEntry σ) : Bool :=
  (cache.getD entry.linearized.hash []).any fun elem =>
    entry.linearized.equals elem.linearized && model.equal entry.state elem.state

/-- `callsEntry`. -/
structure CallsEntry (σ : Type) where
  /-- `entry`. -/
  entry : ℕ
  /-- `state`. -/
  state : σ

/-- The nodes of the entries, and the node that `headEntry` points to. The value, the match and the
id of that node are never read. -/
structure Heap (ι ο : Type) where
  /-- The nodes of the entries. -/
  nodes : List (Node ι ο)
  /-- `headEntry`. -/
  headEntry : ℕ

/-- The variables of the loop of `checkSingle`. -/
structure Search (σ : Type) where
  /-- The links of the nodes. -/
  links : Links
  /-- `entry`. -/
  entry : Option ℕ
  /-- `state`. -/
  state : σ
  /-- `linearized`. -/
  linearized : Bitset
  /-- `cache`. -/
  cache : TreeMap (BitVec 64) (List (CacheEntry σ))
  /-- `calls`. -/
  calls : List (CallsEntry σ)
  /-- `longest`: for each operation, the ids of the longest sequence with it. -/
  longest : List (Option (List ℕ))

/-- What `checkSingle` returns. -/
structure Result where
  /-- Whether the history is linearizable. -/
  ok : Bool
  /-- `longest`. -/
  longest : List (Option (List ℕ))
  deriving DecidableEq

namespace Search

/-- The ids of the calls, in their order. -/
def ids (heap : Heap ι ο) (calls : List (CallsEntry σ)) : Option (List ℕ) :=
  calls.mapM fun v => (heap.nodes[v.entry]?).map Node.id

/-- The body of the loop of `checkSingle` that keeps the longest sequences. -/
def recordFor (seq : List ℕ) (longest : List (Option (List ℕ))) (id : ℕ) :
    Option (List (Option (List ℕ))) :=
  longest[id]?.map fun best =>
    if best.all fun ids => ids.length < seq.length then longest.set id (some seq) else longest

/-- The loop of `checkSingle` that keeps the longest sequences. -/
def recordLongest (seq : List ℕ) (longest : List (Option (List ℕ))) :
    Option (List (Option (List ℕ))) :=
  seq.foldlM (recordFor seq) longest

/-- `longest` when the calls are about to be taken back. -/
def longestAfter (heap : Heap ι ο) (computePartial : Bool) (s : Search σ) :
    Option (List (Option (List ℕ))) :=
  if computePartial then (ids heap s.calls).bind fun seq => recordLongest seq s.longest
  else some s.longest

/-- The branch of the loop for a call, whose return is the node `matching`. -/
def tryCall (model : Model ι ο σ) (heap : Heap ι ο) (s : Search σ) (entry : ℕ) (node : Node ι ο)
    (matching : ℕ) : Option (Search σ) := do
  let input ← node.value.input?
  let output ← (← heap.nodes[matching]?).value.output?
  let newState := (model.step s.state input output).2
  if (model.step s.state input output).1 then
    let newLinearized ← s.linearized.set node.id
    let newCacheEntry : CacheEntry σ := ⟨newLinearized, newState⟩
    if cacheContains model s.cache newCacheEntry then
      return { s with entry := s.links.next entry }
    else
      let hash := newLinearized.hash
      let links ← lift heap.nodes s.links entry
      return { s with
        links := links
        entry := links.next heap.headEntry
        state := newState
        linearized := newLinearized
        cache := s.cache.insert hash (s.cache.getD hash [] ++ [newCacheEntry])
        calls := s.calls ++ [⟨entry, s.state⟩] }
  else return { s with entry := s.links.next entry }

/-- The branch of the loop that takes back the last call. -/
def takeBack (heap : Heap ι ο) (computePartial : Bool) (s : Search σ) (callsTop : CallsEntry σ) :
    Option (Search σ) := do
  let longest ← s.longestAfter heap computePartial
  let node ← heap.nodes[callsTop.entry]?
  let linearized ← s.linearized.clear node.id
  let links ← unlift heap.nodes s.links callsTop.entry
  return { s with
    links := links
    entry := links.next callsTop.entry
    state := callsTop.state
    linearized := linearized
    calls := s.calls.dropLast
    longest := longest }

/-- One iteration of the loop of `checkSingle`, or what it returns. -/
def step (model : Model ι ο σ) (heap : Heap ι ο) (computePartial kill : Bool) (s : Search σ) :
    Option (Search σ ⊕ Result) :=
  if s.links.next heap.headEntry = none then
    (ids heap s.calls).map fun seq => .inr ⟨true, List.replicate s.longest.length (some seq)⟩
  else if kill then some (.inr ⟨false, s.longest⟩)
  else do
    let entry ← s.entry
    let node ← heap.nodes[entry]?
    match node.matching, s.calls.getLast? with
    | some matching, _ => (tryCall model heap s entry node matching).map .inl
    | none, none => return .inr ⟨false, s.longest⟩
    | none, some callsTop => (takeBack heap computePartial s callsTop).map .inl

end Search

/-- The variables of `checkSingle` before its loop. -/
def startSearch (model : Model ι ο σ) (history : List (Entry ι ο)) :
    Option (Heap ι ο × Search σ) :=
  let linked := makeLinkedEntries history
  let headEntry := linked.nodes.length
  (length linked.links linked.nodes.length linked.root).map fun entries =>
    (⟨linked.nodes, headEntry⟩,
      { links := insertBefore linked.links headEntry linked.root
        entry := linked.root
        state := model.init
        linearized := Bitset.newBitset (entries / 2)
        cache := ∅
        calls := []
        longest := List.replicate (entries / 2) none })

/-- Why a check has no result. -/
inductive Failure
  /-- The program panicked. -/
  | panicked
  /-- The loop has not ended yet. -/
  | running
  deriving DecidableEq

/-- The loop of `checkSingle`, for a number of iterations. -/
def runSearch (model : Model ι ο σ) (heap : Heap ι ο) (computePartial : Bool) :
    ℕ → Search σ → Except Failure Result
  | 0, _ => .error .running
  | fuel + 1, s =>
      match s.step model heap computePartial false with
      | none => .error .panicked
      | some (.inl s') => runSearch model heap computePartial fuel s'
      | some (.inr result) => .ok result

/-- `checkSingle`, which nobody asks to stop, for a number of iterations of its loop. -/
def checkSingle (model : Model ι ο σ) (history : List (Entry ι ο)) (computePartial : Bool)
    (fuel : ℕ) : Except Failure Result :=
  match startSearch model history with
  | none => .error .panicked
  | some (heap, s) => runSearch model heap computePartial fuel s

end DistributedSystems.Porcupine
