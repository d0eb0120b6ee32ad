import DistributedSystems.MapReduce.TaskPrograms

/-! # The files of tasks

Where the files of tasks are, and what their contents decode to.

* `locate_intermediate`, `intermediate_injective` — every map task and bucket has its own file;
* `locate_temp` — a temporary file is none of them;
* `decodeKeyValues_encode` — pairs are read back coerced to valid UTF-8. -/

namespace DistributedSystems.MapReduce.TaskPrograms

open FileSystem Decimal
open GoPath (IsName)

variable {E : Env}

/-! ## File names -/

/-- The name of an intermediate file, byte by byte. -/
theorem intermediate_eq (m : TaskID) (b : ℕ) :
    taskIntermediateFileName m b = 109 :: 114 :: 45 :: (itoa m ++ 45 :: formatUint b) := by
  have hmr : GoString.ofString "mr-" = [109, 114, 45] := by decide
  have hdash : GoString.ofString "-" = [45] := by decide
  simp [taskIntermediateFileName, hmr, hdash]

/-- The name of an output file, byte by byte. -/
theorem output_eq (b : ℕ) :
    reduceOutputFileName b = 109 :: 114 :: 45 :: 111 :: 117 :: 116 :: 45 :: formatUint b := by
  have hout : GoString.ofString "mr-out-" = [109, 114, 45, 111, 117, 116, 45] := by decide
  simp [reduceOutputFileName, hout]

/-- The bytes of the name of an intermediate file. -/
theorem intermediate_bytes (m : TaskID) (b : ℕ) :
    ∀ x ∈ taskIntermediateFileName m b, x = 109 ∨ x = 114 ∨ x = 45 ∨ 48 ≤ x ∧ x ≤ 57 := by
  intro x hx
  rw [intermediate_eq] at hx
  simp only [List.mem_cons, List.mem_append] at hx
  rcases hx with hx | hx | hx | hx | hx | hx
  · exact Or.inl hx
  · exact Or.inr (Or.inl hx)
  · exact Or.inr (Or.inr (Or.inl hx))
  · exact Or.inr (Or.inr (itoa_bytes m x hx))
  · exact Or.inr (Or.inr (Or.inl hx))
  · exact Or.inr (Or.inr (Or.inr (formatUint_digits b x hx)))

/-- A text without separators and dots is a name. -/
theorem isName_of_notMem {name : GoString} (hnil : name ≠ []) (hslash : GoPath.slash ∉ name)
    (hdot : GoPath.dot ∉ name) : IsName name :=
  ⟨hnil, hslash, fun h => hdot (by rw [h]; simp), fun h => hdot (by rw [h]; simp)⟩

theorem isName_intermediate (m : TaskID) (b : ℕ) : IsName (taskIntermediateFileName m b) := by
  refine isName_of_notMem ?_ ?_ ?_
  · rw [intermediate_eq]
    exact List.cons_ne_nil _ _
  · exact fun h => absurd (intermediate_bytes m b _ h) (by decide)
  · exact fun h => absurd (intermediate_bytes m b _ h) (by decide)

/-- The letter `o` tells an output file from an intermediate file. -/
theorem output_ne_intermediate (b b' : ℕ) (m : TaskID) :
    reduceOutputFileName b ≠ taskIntermediateFileName m b' := by
  intro h
  have ho : (111 : Byte) ∈ reduceOutputFileName b := by
    rw [output_eq]
    simp
  exact absurd (intermediate_bytes m b' 111 (h ▸ ho)) (by decide)

/-- The location of an intermediate file. -/
theorem locate_intermediate (m : TaskID) (b : ℕ) :
    E.locate (taskIntermediateFileName m b) = E.wd ++ [taskIntermediateFileName m b] :=
  E.locate_name (isName_intermediate m b)

/-- **Every map task and bucket has its own file.** -/
theorem intermediate_injective {m m' : TaskID} {b b' : ℕ}
    (h : taskIntermediateFileName m b = taskIntermediateFileName m' b') : m = m' ∧ b = b' := by
  have hsplit : itoa m ++ 45 :: formatUint b = itoa m' ++ 45 :: formatUint b' := by
    simpa [intermediate_eq] using h
  -- the last minus sign ends the numeral of the task
  have hlast (s : GoString) (n : ℕ) :
      (s ++ 45 :: formatUint n).reverse.takeWhile (· ≠ 45) = (formatUint n).reverse := by
    have hdigits (x : Byte) (hx : x ∈ (formatUint n).reverse) : decide (x ≠ 45) = true := by
      refine decide_eq_true ?_
      rintro rfl
      exact absurd (formatUint_digits n 45 (List.mem_reverse.mp hx)) (by decide)
    rw [List.reverse_append, List.reverse_cons, List.append_assoc,
      List.takeWhile_append_of_pos hdigits, List.singleton_append,
      List.takeWhile_cons_of_neg (by decide), List.append_nil]
  have hb : formatUint b = formatUint b' := by
    have hrev := congrArg (fun s : GoString => s.reverse.takeWhile (· ≠ 45)) hsplit
    exact List.reverse_injective ((hlast _ _).symm.trans (hrev.trans (hlast _ _)))
  obtain rfl := formatUint_injective hb
  exact ⟨itoa_injective (List.append_cancel_right hsplit), rfl⟩

/-- Different files are at different locations. -/
theorem locate_intermediate_injective {m m' : TaskID} {b b' : ℕ}
    (h : E.locate (taskIntermediateFileName m b) = E.locate (taskIntermediateFileName m' b')) :
    m = m' ∧ b = b' := by
  rw [locate_intermediate, locate_intermediate] at h
  exact intermediate_injective (List.cons.inj (List.append_cancel_left h)).1

/-! ## Temporary files -/

/-- Temporary files are made in the working directory. -/
theorem dir_intermediate (m : TaskID) (b : ℕ) :
    GoPath.dir (taskIntermediateFileName m b) = [GoPath.dot] := by
  have hdrop : (taskIntermediateFileName m b).reverse.dropWhile (· ≠ GoPath.slash) = [] := by
    rw [List.dropWhile_eq_nil_iff]
    intro x hx
    refine decide_eq_true ?_
    rintro rfl
    exact (isName_intermediate m b).not_mem (List.mem_reverse.mp hx)
  rw [GoPath.dir, hdrop]
  rfl

/-- The name of a temporary file. -/
def tempFileName (random : GoString) : GoString := .ofString "mr-bucket-" ++ random

/-- The path that `os.CreateTemp` makes. -/
theorem tempName_eq (random : GoString) :
    tempName [GoPath.dot] (.ofString "mr-bucket-*") random =
      GoPath.dot :: GoPath.slash :: tempFileName random := by
  have hbefore : ((GoString.ofString "mr-bucket-*").reverse.dropWhile (· ≠ 42)).tail.reverse =
      GoString.ofString "mr-bucket-" := by decide
  have hafter : ((GoString.ofString "mr-bucket-*").reverse.takeWhile (· ≠ 42)).reverse = [] := by
    decide
  unfold tempName
  dsimp only
  rw [if_neg (by decide), if_pos (by decide), hbefore, hafter, List.append_nil]
  rfl

/-- The location of a temporary file. -/
theorem locate_temp {random : GoString} (hrandom : ∀ x ∈ random, 48 ≤ x ∧ x ≤ 57) :
    E.locate (tempName [GoPath.dot] (.ofString "mr-bucket-*") random) =
      E.wd ++ [tempFileName random] := by
  have hdigit (y : Byte) (hy : y < 48) : y ∉ random := fun hmem =>
    absurd (hrandom y hmem).1 (not_le.mpr hy)
  have hslash : GoPath.slash ∉ tempFileName random :=
    List.not_mem_append (by decide) (hdigit _ (by decide))
  have hname : IsName (tempFileName random) :=
    isName_of_notMem (fun h => absurd (List.append_eq_nil_iff.mp h).1 (by decide)) hslash
      (List.not_mem_append (by decide) (hdigit _ (by decide)))
  have helements : GoPath.elements (GoPath.dot :: GoPath.slash :: tempFileName random) =
      [[GoPath.dot], tempFileName random] := by
    have hone : GoPath.elements (tempFileName random) = [tempFileName random] :=
      List.splitOn_eq_singleton hslash
    have happend := GoPath.elements_append_slash [GoPath.dot] (tempFileName random)
    rw [List.singleton_append, hone] at happend
    exact happend
  have habs : GoPath.isAbs (GoPath.dot :: GoPath.slash :: tempFileName random) = false := rfl
  rw [tempName_eq, Env.locate, habs, if_neg Bool.false_ne_true, helements, GoPath.evalElements]
  simp [GoPath.push_name hname]

/-- The letter `b` tells a temporary file from an intermediate file. -/
theorem temp_ne_intermediate {random : GoString} (hrandom : ∀ x ∈ random, 48 ≤ x ∧ x ≤ 57)
    (m : TaskID) (b : ℕ) :
    E.locate (tempName [GoPath.dot] (.ofString "mr-bucket-*") random) ≠
      E.locate (taskIntermediateFileName m b) := by
  rw [locate_temp hrandom, locate_intermediate]
  intro h
  have hname : tempFileName random = taskIntermediateFileName m b :=
    (List.cons.inj (List.append_cancel_left h)).1
  have hb : (98 : Byte) ∈ tempFileName random := List.mem_append_left _ (by decide)
  exact absurd (intermediate_bytes m b 98 (hname ▸ hb)) (by decide)

/-! ## Records -/

/-- A pair with its strings coerced to valid UTF-8. -/
def coerce (kv : KeyValue) : KeyValue :=
  { key := Utf8.coerce kv.key, value := Utf8.coerce kv.value }

/-- **Pairs are read back coerced to valid UTF-8.** -/
theorem decodeKeyValues_encode (keyValues : List KeyValue) :
    decodeKeyValues (keyValues.flatMap encodeKeyValue) = some (keyValues.map coerce) := by
  have hobjects : keyValues.flatMap encodeKeyValue = (keyValues.map members).flatMap Json.encode := by
    rw [List.flatMap_map]
    rfl
  rw [decodeKeyValues, hobjects, Json.decodeAll_flatMap, Option.map_some, List.map_map, List.map_map]
  · rfl
  · intro object hobject
    obtain ⟨kv, -, rfl⟩ := List.mem_map.mp hobject
    rfl

/-- A bucket is decoded from bytes that were read. -/
theorem decodeBucket_eq_ok {filename : GoString} {bytes : Except FileError GoString}
    {keyValues : List KeyValue} (h : decodeBucket filename bytes = .ok keyValues) :
    ∃ contents, bytes = .ok contents ∧ decodeKeyValues contents = some keyValues := by
  cases bytes with
  | error err => exact absurd h (by simp [decodeBucket])
  | ok contents =>
      refine ⟨contents, rfl, ?_⟩
      cases hdecode : decodeKeyValues contents with
      | none => exact absurd h (by simp [decodeBucket, hdecode])
      | some keyValues' =>
          rw [decodeBucket, hdecode] at h
          rw [Except.ok.inj h]

/-- A pair of valid strings is its own coercion. -/
theorem coerce_eq_self {kv : KeyValue} :
    coerce kv = kv ↔ Utf8.valid kv.key = true ∧ Utf8.valid kv.value = true := by
  rw [← Utf8.coerce_eq_self, ← Utf8.coerce_eq_self]
  constructor
  · intro h
    exact ⟨congrArg KeyValue.key h, congrArg KeyValue.value h⟩
  · rintro ⟨hkey, hvalue⟩
    rw [coerce, hkey, hvalue]

/-! ## A small directory -/

/-- A working directory. -/
def exampleDirectory : Env := { wd := [.ofString "mr"] }

/-- The empty directory. -/
def emptyDirectory : World where
  node l := if l = [] ∨ l = [.ofString "mr"] then some .dir else none
  data _ := []
  next := 0

/-- A worker that maps every file to one pair. -/
def exampleContext : Context where
  workerAddress := .ofString "127.0.0.1:1234"
  mapf _ _ := [⟨.ofString "a", .ofString "1"⟩]
  reducef _ values := values.flatten

end DistributedSystems.MapReduce.TaskPrograms
