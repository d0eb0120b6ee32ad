import DistributedSystems.MapReduce.Coordinator
import Mathlib.Tactic.Ring

/-! # What each coordinator function does

One specification lemma for each function of `Coordinator`: the lookups after each update, the
meaning of the `all…DoneLocked` and `pick…Locked` scans, the tasks `makeCoordinator` creates, and
`requestTask_cases`, the four ways a `RequestTask` call can end. Later modules use these and never
unfold the functions. -/

namespace DistributedSystems.MapReduce

open Std (TreeMap)

/-- A member of a map is an identifier that has a value. -/
theorem mem_iff_exists {β : Type*} {m : TreeMap TaskID β} {id : TaskID} :
    id ∈ m ↔ ∃ b, m[id]? = some b := by
  rw [TreeMap.mem_iff_isSome_getElem?, Option.isSome_iff_exists]

/-- A scan of a map's entries is a statement about its lookups. -/
theorem toList_all_iff {β : Type*} (m : TreeMap TaskID β) (p : TaskID × β → Bool) :
    m.toList.all p = true ↔ ∀ id b, m[id]? = some b → p (id, b) = true := by
  simp only [List.all_eq_true, Prod.forall, TreeMap.mem_toList_iff_getElem?_eq_some]

/-! ## Construction -/

section Construction

variable {ι β : Type} (new : TaskID → ι → β)

/-- The counter after a loop of `MakeCoordinator`. -/
theorem addTasks_snd (items : List ι) (tasks : TreeMap TaskID β) (g : ℤ) :
    (addTasks new items (tasks, g)).2 = g + items.length := by
  induction items generalizing tasks g with
  | nil => simp [addTasks]
  | cons item items ih =>
      rw [addTasks, ih, getGlobalID, List.length_cons]
      omega

/-- The lookups after a loop of `MakeCoordinator`: the `i`-th item has the task `g + 1 + i`. -/
theorem addTasks_getElem? (items : List ι) (tasks : TreeMap TaskID β) (g : ℤ)
    (hfresh : ∀ id, g < id → tasks[id]? = none) (id : TaskID) (t : β) :
    (addTasks new items (tasks, g)).1[id]? = some t ↔
      tasks[id]? = some t ∨
      ∃ (i : ℕ) (item : ι), items[i]? = some item ∧ id = g + 1 + i ∧ t = new id item := by
  induction items generalizing tasks g with
  | nil => simp [addTasks]
  | cons item items ih =>
      -- the identifiers above the counter stay unused, so the new task overwrites none
      have hfresh' : ∀ id, getGlobalID g < id →
          (tasks.insert (getGlobalID g) (new (getGlobalID g) item))[id]? = none := by
        intro id hid
        rw [getGlobalID] at hid ⊢
        rw [TreeMap.getElem?_insert, if_neg (by simp; omega)]
        exact hfresh id (by omega)
      rw [addTasks, ih _ _ hfresh', getGlobalID, TreeMap.getElem?_insert]
      constructor
      · rintro (h | ⟨i, x, hx, rfl, rfl⟩)
        · by_cases hid : g + 1 = id
          · subst hid
            refine Or.inr ⟨0, item, rfl, by simp, ?_⟩
            simpa [eq_comm] using h
          · exact Or.inl (by simpa [hid] using h)
        · exact Or.inr ⟨i + 1, x, hx, by push_cast; ring, rfl⟩
      · rintro (h | ⟨i, x, hx, rfl, rfl⟩)
        · by_cases hid : g + 1 = id
          · rw [hfresh id (by omega)] at h
            simp at h
          · exact Or.inl (by simpa [hid] using h)
        · cases i with
          | zero =>
              obtain rfl : item = x := Option.some.inj hx
              exact Or.inl (by simp)
          | succ i => exact Or.inr ⟨i, x, hx, by push_cast; ring, rfl⟩

end Construction

/-- **The map tasks of a new coordinator**: the `i`-th file has the task `globalID + 1 + i`. -/
theorem makeCoordinator_mapTasks (g : ℤ) (files : List GoString) (n : ℕ) (id : TaskID) (t : MapTask) :
    (makeCoordinator g files n).1.mapTasks[id]? = some t ↔
      ∃ (i : ℕ) (file : GoString),
        files[i]? = some file ∧ id = g + 1 + i ∧ t = newMapTask n id file := by
  have h := addTasks_getElem? (newMapTask n) files ∅ g (by simp) id t
  simpa [makeCoordinator] using h

/-- **The reduce tasks of a new coordinator**: bucket `b < n` has the task
`globalID + files.length + 1 + b`. -/
theorem makeCoordinator_reduceTasks (g : ℤ) (files : List GoString) (n : ℕ) (id : TaskID)
    (t : ReduceTask) :
    (makeCoordinator g files n).1.reduceTasks[id]? = some t ↔
      ∃ b < n, id = g + files.length + 1 + b ∧ t = newReduceTask id b := by
  have h := addTasks_getElem? newReduceTask (List.range n) ∅ (g + files.length) (by simp) id t
  have hsnd := addTasks_snd (newMapTask n) files ∅ g
  simp only [makeCoordinator, hsnd]
  rw [h]
  simp only [TreeMap.getElem?_emptyc, reduceCtorEq, false_or]
  constructor
  · rintro ⟨i, b, hb, hid, ht⟩
    obtain ⟨hi, rfl⟩ := List.getElem?_eq_some_iff.mp hb
    exact ⟨i, by simpa using hi, hid, by simpa using ht⟩
  · rintro ⟨b, hb, hid, ht⟩
    exact ⟨b, b, by simp [hb], hid, ht⟩

/-! ## Scans -/

namespace Coordinator

variable (c : Coordinator)

/-- `allMapTasksDoneLocked` says that every map task is done. -/
theorem allMapTasksDoneLocked_iff :
    c.allMapTasksDoneLocked = true ↔
      ∀ (id : TaskID) (t : MapTask), c.mapTasks[id]? = some t → t.task.state = .done := by
  rw [allMapTasksDoneLocked, toList_all_iff]
  simp

/-- `allReduceTasksDoneLocked` says that every reduce task is done. -/
theorem allReduceTasksDoneLocked_iff :
    c.allReduceTasksDoneLocked = true ↔
      ∀ (id : TaskID) (t : ReduceTask), c.reduceTasks[id]? = some t → t.task.state = .done := by
  rw [allReduceTasksDoneLocked, toList_all_iff]
  simp

/-- `Done` says that every task is done. -/
theorem done_iff :
    c.done = true ↔ (∀ (id : TaskID) (t : MapTask), c.mapTasks[id]? = some t → t.task.state = .done) ∧
      ∀ (id : TaskID) (t : ReduceTask), c.reduceTasks[id]? = some t → t.task.state = .done := by
  rw [done, Bool.and_eq_true, allMapTasksDoneLocked_iff, allReduceTasksDoneLocked_iff]

/-- A task is assignable when it is unassigned, or running and timed out. -/
theorem shouldAssignTask_iff (now : Time) (task : Task) :
    shouldAssignTask now task = true ↔
      task.state = .unassigned ∨ (task.state = .running ∧ taskTimeout ≤ now - task.assignedAt) := by
  simp [shouldAssignTask, Task.isTimedOut]

section Pick

variable {β : Type} (m : TreeMap TaskID β) (p : β → Bool)

/-- The first entry of a map in an iteration order that passes a test. -/
theorem findSome?_eq_some {order : List TaskID} {id : TaskID} {b : β}
    (h : (order.findSome? fun id => m[id]?.bind fun b => if p b then some (id, b) else none) =
      some (id, b)) : m[id]? = some b ∧ p b = true := by
  obtain ⟨id', -, h⟩ := List.exists_of_findSome?_eq_some h
  obtain ⟨b', hb', h⟩ := Option.bind_eq_some_iff.mp h
  split at h
  · next hp =>
    obtain ⟨rfl, rfl⟩ := Prod.mk.inj (Option.some.inj h)
    exact ⟨hb', hp⟩
  · simp at h

/-- When the scan of a whole map finds nothing, no entry passes the test. -/
theorem findSome?_eq_none {order : List TaskID} (horder : order.Perm m.keys)
    (h : (order.findSome? fun id => m[id]?.bind fun b => if p b then some (id, b) else none) = none)
    {id : TaskID} {b : β} (hb : m[id]? = some b) : p b = false := by
  have hmem : id ∈ order := horder.mem_iff.mpr (TreeMap.mem_keys.mpr (mem_iff_exists.mpr ⟨b, hb⟩))
  have h' := List.findSome?_eq_none_iff.mp h id hmem
  rw [hb, Option.bind_some] at h'
  by_contra hp
  rw [if_pos (by simpa using hp)] at h'
  simp at h'

end Pick

/-! ## Updates -/

section Updates

variable (id id' : TaskID) (now : Time) (mapTask : MapTask) (workerAddress : GoString)

/-- A lookup after the update of one entry. -/
theorem getElem?_modify {β : Type} (m : TreeMap TaskID β) (f : β → β) :
    (m.modify id f)[id']? = if id = id' then m[id']?.map f else m[id']? := by
  rw [TreeMap.getElem?_modify]
  by_cases h : id = id'
  · subst h; simp
  · simp [h]

@[simp] theorem markMapRunning_mapTasks : (c.markMapRunning id now).mapTasks[id']? =
    if id = id' then c.mapTasks[id']?.map fun t => { t with task := t.task.markRunning now }
    else c.mapTasks[id']? := getElem?_modify id id' c.mapTasks _

@[simp] theorem markMapRunning_reduceTasks :
    (c.markMapRunning id now).reduceTasks = c.reduceTasks := rfl

@[simp] theorem markReduceRunning_mapTasks :
    (c.markReduceRunning id now).mapTasks = c.mapTasks := rfl

@[simp] theorem markReduceRunning_reduceTasks : (c.markReduceRunning id now).reduceTasks[id']? =
    if id = id' then c.reduceTasks[id']?.map fun t => { t with task := t.task.markRunning now }
    else c.reduceTasks[id']? := getElem?_modify id id' c.reduceTasks _

@[simp] theorem finishMap_mapTasks : (c.finishMap id mapTask workerAddress).mapTasks[id']? =
    if id = id' then c.mapTasks[id']?.map fun t => { t with task := { t.task with state := .done } }
    else c.mapTasks[id']? := getElem?_modify id id' c.mapTasks _

@[simp] theorem finishMap_reduceTasks : (c.finishMap id mapTask workerAddress).reduceTasks[id']? =
    c.reduceTasks[id']?.map fun t =>
      { t with mapTaskOutputs := t.mapTaskOutputs.insert mapTask.task.id workerAddress } :=
  TreeMap.getElem?_map

@[simp] theorem finishReduce_mapTasks : (c.finishReduce id).mapTasks = c.mapTasks := rfl

@[simp] theorem finishReduce_reduceTasks : (c.finishReduce id).reduceTasks[id']? =
    if id = id' then c.reduceTasks[id']?.map fun t => { t with task := { t.task with state := .done } }
    else c.reduceTasks[id']? := getElem?_modify id id' c.reduceTasks _

@[simp] theorem resetMap_mapTasks : (c.resetMap id mapTask).mapTasks[id']? =
    if id = id' then c.mapTasks[id']?.map fun t =>
      { t with task := { t.task with state := .unassigned, assignedAt := 0 } }
    else c.mapTasks[id']? := getElem?_modify id id' c.mapTasks _

@[simp] theorem resetMap_reduceTasks : (c.resetMap id mapTask).reduceTasks[id']? =
    c.reduceTasks[id']?.map fun t =>
      { t with mapTaskOutputs := t.mapTaskOutputs.erase mapTask.task.id } :=
  TreeMap.getElem?_map

end Updates

/-! ## Requests -/

/-- **The four ends of `RequestTask`.** An assignable map task is marked running and replied, with
its data when its file could be read; or no map task is assignable, some is not done, and the worker
has to wait; or every map task is done and an assignable reduce task is marked running and replied;
or every map task is done, no reduce task is assignable, and the worker has to wait. -/
theorem requestTask_cases (now : Time) {mapOrder reduceOrder : List TaskID}
    (readFile : GoString → Except GoString GoString) (hmap : mapOrder.Perm c.mapTasks.keys)
    (hreduce : reduceOrder.Perm c.reduceTasks.keys) :
    (∃ (id : TaskID) (t : MapTask), c.mapTasks[id]? = some t ∧ shouldAssignTask now t.task = true ∧
      (c.requestTask now mapOrder reduceOrder readFile).coordinator = c.markMapRunning id now ∧
      (c.requestTask now mapOrder reduceOrder readFile).reply.task = .mapTask id ∧
      (c.requestTask now mapOrder reduceOrder readFile).reply.reduceData = none ∧
      ((∃ err, readFile t.file = .error err ∧
          (c.requestTask now mapOrder reduceOrder readFile).reply.mapData = none ∧
          (c.requestTask now mapOrder reduceOrder readFile).err =
            some (.ofString "coordinator: cannot read file " ++ t.file ++ .ofString ": " ++ err)) ∨
        ∃ content, readFile t.file = .ok content ∧
          (c.requestTask now mapOrder reduceOrder readFile).reply.mapData =
            some { key := t.file, content := content, buckets := t.buckets } ∧
          (c.requestTask now mapOrder reduceOrder readFile).err = none)) ∨
    ((∀ (id : TaskID) (t : MapTask), c.mapTasks[id]? = some t → shouldAssignTask now t.task = false) ∧
      c.allMapTasksDoneLocked = false ∧
      c.requestTask now mapOrder reduceOrder readFile =
        { coordinator := c, reply := waitReply now }) ∨
    (c.allMapTasksDoneLocked = true ∧ ∃ (id : TaskID) (t : ReduceTask), c.reduceTasks[id]? = some t ∧
      shouldAssignTask now t.task = true ∧
      c.requestTask now mapOrder reduceOrder readFile =
        { coordinator := c.markReduceRunning id now
          reply := { task := .reduceTask id,
                     reduceData := some { bucket := t.bucket, mapTaskOutputs := id } } }) ∨
    (c.allMapTasksDoneLocked = true ∧
      (∀ (id : TaskID) (t : ReduceTask), c.reduceTasks[id]? = some t →
        shouldAssignTask now t.task = false) ∧
      c.requestTask now mapOrder reduceOrder readFile =
        { coordinator := c, reply := waitReply now }) := by
  cases hpick : c.pickMapTaskLocked now mapOrder with
  | some entry =>
      obtain ⟨id, t⟩ := entry
      obtain ⟨ht, hassign⟩ := findSome?_eq_some c.mapTasks (fun t => shouldAssignTask now t.task) hpick
      -- a map task was picked: the end depends on reading its file
      refine Or.inl ⟨id, t, ht, hassign, ?_⟩
      simp only [requestTask, hpick]
      cases hread : readFile t.file with
      | error err => simp
      | ok content => simp
  | none =>
      have hnone (id : TaskID) (t : MapTask) (ht : c.mapTasks[id]? = some t) :
          shouldAssignTask now t.task = false :=
        findSome?_eq_none c.mapTasks (fun t => shouldAssignTask now t.task) hmap hpick ht
      -- no map task was picked: the code waits unless every map task is done
      refine Or.inr ?_
      cases hall : c.allMapTasksDoneLocked with
      | false => exact Or.inl ⟨hnone, rfl, by simp [requestTask, hpick, hall]⟩
      | true =>
          refine Or.inr ?_
          cases hpick' : c.pickReduceTaskLocked now reduceOrder with
          | some entry =>
              obtain ⟨id, t⟩ := entry
              obtain ⟨ht, hassign⟩ :=
                findSome?_eq_some c.reduceTasks (fun t => shouldAssignTask now t.task) hpick'
              exact Or.inl ⟨rfl, id, t, ht, hassign, by simp [requestTask, hpick, hall, hpick']⟩
          | none =>
              have hnone' (id : TaskID) (t : ReduceTask) (ht : c.reduceTasks[id]? = some t) :
                  shouldAssignTask now t.task = false :=
                findSome?_eq_none c.reduceTasks (fun t => shouldAssignTask now t.task) hreduce hpick' ht
              exact Or.inr ⟨rfl, hnone', by simp [requestTask, hpick, hall, hpick']⟩

/-! ## The effect of a call -/

/-- The task that a call marks running, if it marks one. -/
def marked (c : Coordinator) (r : TimedCall) : Option TaskID :=
  match r.call with
  | .requestTask mapOrder reduceOrder readFile =>
      (c.requestTask r.time mapOrder reduceOrder readFile).reply.assigned
  | _ => none

theorem handle_requestTask (now : Time) (mapOrder reduceOrder : List TaskID)
    (readFile : GoString → Except GoString GoString) :
    c.handle ⟨now, .requestTask mapOrder reduceOrder readFile⟩ =
      (c.requestTask now mapOrder reduceOrder readFile).coordinator := rfl

theorem marked_requestTask (now : Time) (mapOrder reduceOrder : List TaskID)
    (readFile : GoString → Except GoString GoString) :
    c.marked ⟨now, .requestTask mapOrder reduceOrder readFile⟩ =
      (c.requestTask now mapOrder reduceOrder readFile).reply.assigned := rfl

/-- **The effects of a call**, by what it finds: the coordinator after the call. -/
inductive Effect (c : Coordinator) (r : TimedCall) : Coordinator → Prop
  /-- `RequestTask` hands out a map task. -/
  | assignMap {id : TaskID} {t : MapTask} (hmarked : c.marked r = some id)
      (ht : c.mapTasks[id]? = some t) (hassign : shouldAssignTask r.time t.task = true) :
      Effect c r (c.markMapRunning id r.time)
  /-- `RequestTask` hands out a reduce task. -/
  | assignReduce {id : TaskID} {t : ReduceTask} (hmarked : c.marked r = some id)
      (hall : c.allMapTasksDoneLocked = true) (ht : c.reduceTasks[id]? = some t)
      (hassign : shouldAssignTask r.time t.task = true) :
      Effect c r (c.markReduceRunning id r.time)
  /-- `RequestTask` hands out nothing. -/
  | wait {mapOrder reduceOrder : List TaskID} {readFile : GoString → Except GoString GoString}
      (hcall : r.call = .requestTask mapOrder reduceOrder readFile) (hmarked : c.marked r = none) :
      Effect c r c
  /-- The first completion report of a map task since it was reset. -/
  | finishMap {args : ReportTaskCompletionArgs} {t : MapTask}
      (hcall : r.call = .reportTaskCompletion args) (htype : args.task.type = .map)
      (ht : c.mapTasks[args.task.id]? = some t) (hstate : t.task.state ≠ .done) :
      Effect c r (c.finishMap args.task.id t args.workerAddress)
  /-- A further completion report of a map task. -/
  | finishMapAgain {args : ReportTaskCompletionArgs} {t : MapTask}
      (hcall : r.call = .reportTaskCompletion args) (htype : args.task.type = .map)
      (ht : c.mapTasks[args.task.id]? = some t) (hstate : t.task.state = .done) : Effect c r c
  /-- A completion report of a reduce task. -/
  | finishReduce {args : ReportTaskCompletionArgs} {t : ReduceTask}
      (hcall : r.call = .reportTaskCompletion args) (htype : args.task.type = .reduce)
      (ht : c.reduceTasks[args.task.id]? = some t) : Effect c r (c.finishReduce args.task.id)
  /-- A completion report that names no task. -/
  | finishUnknown {args : ReportTaskCompletionArgs} (hcall : r.call = .reportTaskCompletion args)
      (hmap : args.task.type = .map → c.mapTasks[args.task.id]? = none)
      (hreduce : args.task.type = .reduce → c.reduceTasks[args.task.id]? = none) : Effect c r c
  /-- A missing output of a finished map task. -/
  | resetMap {args : ReportMissingMapOutputsArgs} {t : MapTask}
      (hcall : r.call = .reportMissingMapOutputs args) (ht : c.mapTasks[args.mapTaskID]? = some t)
      (hstate : t.task.state = .done) : Effect c r (c.resetMap args.mapTaskID t)
  /-- A missing output of a map task that is not finished, or of no task. -/
  | resetIdle {args : ReportMissingMapOutputsArgs} (hcall : r.call = .reportMissingMapOutputs args)
      (ht : ∀ t, c.mapTasks[args.mapTaskID]? = some t → t.task.state ≠ .done) : Effect c r c

/-- A call has one of the effects. -/
theorem handle_effect {r : TimedCall} (h : r.call.Ordered c) : c.Effect r (c.handle r) := by
  obtain ⟨now, call⟩ := r
  cases call with
  | requestTask mapOrder reduceOrder readFile =>
      rcases c.requestTask_cases now readFile h.1 h.2 with
        ⟨id, t, ht, hassign, hc, hreply, -⟩ | ⟨-, -, heq⟩ | ⟨hall, id, t, ht, hassign, heq⟩ |
        ⟨-, -, heq⟩
      · rw [handle_requestTask, hc]
        exact .assignMap (by rw [marked_requestTask, Reply.assigned, hreply]) ht hassign
      · rw [handle_requestTask, heq]
        exact .wait rfl (by rw [marked_requestTask, heq]; rfl)
      · rw [handle_requestTask, heq]
        exact .assignReduce (by rw [marked_requestTask, heq]; rfl) hall ht hassign
      · rw [handle_requestTask, heq]
        exact .wait rfl (by rw [marked_requestTask, heq]; rfl)
  | reportTaskCompletion args =>
      simp only [handle, reportTaskCompletion]
      cases htype : args.task.type with
      | map =>
          cases ht : c.mapTasks[args.task.id]? with
          | none => exact .finishUnknown rfl (fun _ => ht) (fun h => by rw [htype] at h; cases h)
          | some t =>
              show c.Effect _ (if t.task.state ≠ .done then
                c.finishMap args.task.id t args.workerAddress else c)
              by_cases hstate : t.task.state = .done
              · rw [if_neg (not_not.mpr hstate)]
                exact .finishMapAgain rfl htype ht hstate
              · rw [if_pos hstate]
                exact .finishMap rfl htype ht hstate
      | reduce =>
          cases ht : c.reduceTasks[args.task.id]? with
          | none => exact .finishUnknown rfl (fun h => by rw [htype] at h; cases h) (fun _ => ht)
          | some t => exact .finishReduce rfl htype ht
      | none =>
          exact .finishUnknown rfl (fun h => by rw [htype] at h; cases h)
            (fun h => by rw [htype] at h; cases h)
      | wait =>
          exact .finishUnknown rfl (fun h => by rw [htype] at h; cases h)
            (fun h => by rw [htype] at h; cases h)
  | reportMissingMapOutputs args =>
      simp only [handle, reportMissingMapOutputs]
      cases ht : c.mapTasks[args.mapTaskID]? with
      | none => exact .resetIdle rfl (fun t h => by rw [ht] at h; cases h)
      | some t =>
          show c.Effect _ (if t.task.state = .done then c.resetMap args.mapTaskID t else c)
          by_cases hstate : t.task.state = .done
          · rw [if_pos hstate]
            exact .resetMap rfl ht hstate
          · rw [if_neg hstate]
            refine .resetIdle rfl (fun t' h => ?_)
            obtain rfl : t = t' := Option.some.inj (ht.symm.trans h)
            exact hstate

end Coordinator

end DistributedSystems.MapReduce
