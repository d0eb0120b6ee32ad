import DistributedSystems.MapReduce.CoordinatorLeases

/-! # Bookkeeping of the coordinator

What holds of the coordinator after any sequence of calls: its tasks are those of the files and the
buckets, with distinct identifiers that never change; the `MapTaskOutputs` of every reduce task
lists exactly the finished map tasks, each under the address of the first completion report since
the start or since it was last reset; and a reduce assignment is decided only when every map task is
finished, so that it lists an address for every one of them. -/

namespace DistributedSystems.MapReduce

open Std (TreeMap)

/-! ## Registered addresses -/

/-- The address of the first completion report of a map task in a history of calls, since the start
or since the last report that its outputs are missing. -/
def registeredAddress (rs : List TimedCall) (m : TaskID) : Option GoString :=
  rs.foldl (fun first r => match r.call with
    | .requestTask .. => first
    | .reportTaskCompletion args =>
        if args.task.id = m ∧ args.task.type = .map then first <|> some args.workerAddress else first
    | .reportMissingMapOutputs args => if args.mapTaskID = m then none else first) none

theorem registeredAddress_concat (rs : List TimedCall) (r : TimedCall) (m : TaskID) :
    registeredAddress (rs ++ [r]) m = match r.call with
      | .requestTask .. => registeredAddress rs m
      | .reportTaskCompletion args =>
          if args.task.id = m ∧ args.task.type = .map then
            registeredAddress rs m <|> some args.workerAddress
          else registeredAddress rs m
      | .reportMissingMapOutputs args =>
          if args.mapTaskID = m then none else registeredAddress rs m := by
  rw [registeredAddress, List.foldl_append]
  rfl

namespace Coordinator

variable {c c' c₀ : Coordinator} {r : TimedCall} {m : TaskID}

/-- The registered address is the first completion among the events of the map task. -/
theorem firstFinish_taskEvents {rs : List TimedCall}
    (h : (coordinatorSystem c₀).exec c₀ rs = some c) {t₀ : MapTask}
    (ht₀ : c₀.mapTasks[m]? = some t₀) :
    Lease.firstFinish (taskEvents c₀ rs m) = registeredAddress rs m := by
  refine System.exec_induction
    (P := fun rs _ => Lease.firstFinish (taskEvents c₀ rs m) = registeredAddress rs m) rfl ?_ h
  intro rs c r c' hrun ih hstep
  obtain ⟨t, ht, -⟩ := exists_mapTask hrun ht₀
  have htype := taskType_map ht
  rw [taskEvents, System.observe_concat hrun hstep, registeredAddress_concat, ← ih]
  obtain ⟨now, call⟩ := r
  cases call with
  | requestTask mapOrder reduceOrder readFile =>
      simp only [taskEvent]
      split
      · rw [Option.toList_some, Lease.firstFinish_concat]; rfl
      · rw [Option.toList_none, List.append_nil]; rfl
  | reportTaskCompletion args =>
      simp only [taskEvent, htype, Option.some.injEq, eq_comm (a := TaskType.map)]
      split
      · rw [Option.toList_some, Lease.firstFinish_concat]; rfl
      · rw [Option.toList_none, List.append_nil]; rfl
  | reportMissingMapOutputs args =>
      simp only [taskEvent, htype, and_true]
      split
      · rw [Option.toList_some, Lease.firstFinish_concat]
      · rw [Option.toList_none, List.append_nil]; rfl

/-- **Every reduce task holds the registered address of every map task.** -/
theorem registered_of_map (hfresh : c₀.Fresh) {rs : List TimedCall}
    (h : (coordinatorSystem c₀).exec c₀ rs = some c) {t₀ : MapTask}
    (ht₀ : c₀.mapTasks[m]? = some t₀) : c.Registered m (registeredAddress rs m) := by
  obtain ⟨⟨-, hreg⟩, hg⟩ := map_reflects hfresh h ht₀
  rw [taskLease, Lease.payload_after hg, firstFinish_taskEvents h ht₀] at hreg
  exact hreg

/-- **A map task is done exactly when it has a registered address.** -/
theorem map_done_iff (hfresh : c₀.Fresh) {rs : List TimedCall}
    (h : (coordinatorSystem c₀).exec c₀ rs = some c) {t : MapTask} (ht : c.mapTasks[m]? = some t) :
    t.task.state = .done ↔ ∃ a, registeredAddress rs m = some a := by
  obtain ⟨t₀, ht₀, -⟩ := exists_mapTask_start h ht
  obtain ⟨⟨⟨t', ht', hl⟩, -⟩, hg⟩ := map_reflects hfresh h ht₀
  obtain rfl : t = t' := Option.some.inj (ht.symm.trans ht')
  -- done is finished, finished is a payload, and the payload is the registered address
  rw [hl.done_iff, ← firstFinish_taskEvents h ht₀, ← Lease.payload_after hg, ← taskLease]
  cases taskLease c₀ rs m <;> simp

/-- No call registers an identifier that is no map task. -/
theorem Registered.step_of_not_map (hwf : c.WellFormed) (heff : c.Effect r c')
    (hm : c.mapTasks[m]? = none) (h : c.Registered m none) : c'.Registered m none := by
  -- the map task that a report finds is stored under its own identifier, so it is not `m`
  have hne {id : TaskID} {t : MapTask} (ht : c.mapTasks[id]? = some t) : t.task.id ≠ m := by
    rw [hwf.mapID id t ht]
    rintro rfl
    rw [hm] at ht
    cases ht
  cases heff with
  | @assignReduce id =>
      exact h.of_modify (f := (·.markRunning r.time)) (c.markReduceRunning_reduceTasks id · r.time)
  | @finishMap args t hcall htype ht => exact h.finishMap args.task.id (hne ht) args.workerAddress
  | @finishReduce args =>
      exact h.of_modify (f := ({ · with state := .done })) (c.finishReduce_reduceTasks args.task.id)
  | @resetMap args t hcall ht => exact h.resetMap args.mapTaskID (hne ht)
  | assignMap | wait | finishMapAgain | finishUnknown | resetIdle => exact h

/-- Nothing is ever registered under an identifier that is no map task. -/
theorem registered_of_not_map (hfresh : c₀.Fresh) {rs : List TimedCall}
    (h : (coordinatorSystem c₀).exec c₀ rs = some c) (hm : c₀.mapTasks[m]? = none) :
    c.Registered m none := by
  refine System.exec_induction (P := fun _ c => c.Registered m none) (hfresh.registered m) ?_ h
  intro rs c r c' hrun ih hstep
  obtain ⟨hord, rfl⟩ := coordinatorSystem_step.mp hstep
  exact ih.step_of_not_map (hfresh.toWellFormed.exec hrun) (c.handle_effect hord)
    (mapTask_none hrun hm)

/-- **The keys of `MapTaskOutputs` are the finished map tasks**, in every reduce task. -/
theorem mem_mapTaskOutputs_iff (hfresh : c₀.Fresh) {rs : List TimedCall}
    (h : (coordinatorSystem c₀).exec c₀ rs = some c) {rid : TaskID} {rt : ReduceTask}
    (hrt : c.reduceTasks[rid]? = some rt) (m : TaskID) :
    m ∈ rt.mapTaskOutputs ↔ ∃ t, c.mapTasks[m]? = some t ∧ t.task.state = .done := by
  rw [mem_iff_exists]
  cases hm : c₀.mapTasks[m]? with
  | none =>
      rw [registered_of_not_map hfresh h hm rid rt hrt, mapTask_none h hm]
      simp
  | some t₀ =>
      obtain ⟨t, ht, -⟩ := exists_mapTask h hm
      rw [registered_of_map hfresh h hm rid rt hrt, ← map_done_iff hfresh h ht, ht]
      simp

/-- The keys of `MapTaskOutputs` in a reachable state where every map task is done are all the map
tasks. -/
theorem mem_mapTaskOutputs_of_allDone (hfresh : c₀.Fresh) {rs : List TimedCall}
    (h : (coordinatorSystem c₀).exec c₀ rs = some c) (hall : c.allMapTasksDoneLocked = true)
    {rid : TaskID} {rt : ReduceTask} (hrt : c.reduceTasks[rid]? = some rt) (m : TaskID) :
    m ∈ rt.mapTaskOutputs ↔ m ∈ c.mapTasks := by
  rw [mem_mapTaskOutputs_iff hfresh h hrt, mem_iff_exists]
  rw [allMapTasksDoneLocked_iff] at hall
  exact ⟨fun ⟨t, ht, _⟩ => ⟨t, ht⟩, fun ⟨t, ht⟩ => ⟨t, ht, hall m t ht⟩⟩

/-- **A reduce assignment is complete when it is decided**: every map task is done, and the encoding
of the reply lists the registered address of every map task and nothing else. -/
theorem reduceData_complete (hfresh : c₀.Fresh) {rs : List TimedCall}
    (h : (coordinatorSystem c₀).exec c₀ rs = some c) (now : Time) {mapOrder reduceOrder : List TaskID}
    (readFile : GoString → Except GoString GoString) (hmap : mapOrder.Perm c.mapTasks.keys)
    (hreduce : reduceOrder.Perm c.reduceTasks.keys) {d : ReduceTaskRef}
    (hd : (c.requestTask now mapOrder reduceOrder readFile).reply.reduceData = some d) :
    c.allMapTasksDoneLocked = true ∧
      ∃ data, ((c.requestTask now mapOrder reduceOrder readFile).coordinator.encode
        (c.requestTask now mapOrder reduceOrder readFile).reply).reduceData = some data ∧
        ∀ m, (m ∈ data.mapTaskOutputs ↔ m ∈ c.mapTasks) ∧
          (m ∈ c.mapTasks → data.mapTaskOutputs[m]? = registeredAddress rs m) := by
  rcases c.requestTask_cases now readFile hmap hreduce with
    ⟨id, t, ht, hassign, hc, hreply, hnone, -⟩ | ⟨-, -, heq⟩ | ⟨hall, id, t, ht, hassign, heq⟩ |
    ⟨-, -, heq⟩
  · rw [hnone] at hd; cases hd
  · rw [heq] at hd; cases hd
  · rw [heq]
    -- the encoding reads the map of the reduce task that was picked
    refine ⟨hall, { bucket := t.bucket, mapTaskOutputs := t.mapTaskOutputs }, ?_, fun m => ?_⟩
    · simp only [encode, Option.bind_some, markReduceRunning_reduceTasks, if_true, ht, Option.map_some]
    · refine ⟨mem_mapTaskOutputs_of_allDone hfresh h hall ht m, fun hm => ?_⟩
      obtain ⟨tm, htm⟩ := mem_iff_exists.mp hm
      obtain ⟨t₀, ht₀, -⟩ := exists_mapTask_start h htm
      exact registered_of_map hfresh h ht₀ id t ht
  · rw [heq] at hd; cases hd

end Coordinator

/-! ## The bookkeeping invariant -/

/-- **The bookkeeping of a coordinator** made for `files` and `n` buckets, with identifiers after
`g`, after the calls `rs`. -/
structure Bookkeeping (g : ℤ) (files : List GoString) (n : ℕ) (rs : List TimedCall)
    (c : Coordinator) : Prop where
  /-- There is a map task for every element of `files`. -/
  mapTask_of_file : ∀ (i : ℕ) (file : GoString), files[i]? = some file →
    ∃ t, c.mapTasks[(g + 1 + i : TaskID)]? = some t ∧ t.identity = (g + 1 + i, .map, file, n)
  /-- There is no other map task. -/
  file_of_mapTask : ∀ (id : TaskID) (t : MapTask), c.mapTasks[id]? = some t →
    ∃ i < files.length, id = g + 1 + i
  /-- There is a reduce task for every bucket. -/
  reduceTask_of_bucket : ∀ b < n, ∃ t, c.reduceTasks[(g + files.length + 1 + b : TaskID)]? = some t ∧
    t.identity = (g + files.length + 1 + b, .reduce, b)
  /-- There is no other reduce task. -/
  bucket_of_reduceTask : ∀ (id : TaskID) (t : ReduceTask), c.reduceTasks[id]? = some t →
    ∃ b < n, id = g + files.length + 1 + b
  /-- Map and reduce tasks have different identifiers. -/
  distinct : ∀ id, ¬ (id ∈ c.mapTasks ∧ id ∈ c.reduceTasks)
  /-- Every reduce task lists exactly the finished map tasks. -/
  outputs_done : ∀ (rid : TaskID) (rt : ReduceTask), c.reduceTasks[rid]? = some rt →
    ∀ m, m ∈ rt.mapTaskOutputs ↔ ∃ t, c.mapTasks[m]? = some t ∧ t.task.state = .done
  /-- Every reduce task lists a map task under the address of the first completion report since the
  start or since the last reset. -/
  outputs_address : ∀ (rid : TaskID) (rt : ReduceTask), c.reduceTasks[rid]? = some rt →
    ∀ m ∈ c.mapTasks, rt.mapTaskOutputs[m]? = registeredAddress rs m
  /-- A reduce assignment is decided when every map task is done, and lists one address for every
  map task. -/
  assignment : ∀ (now : Time) (mapOrder reduceOrder : List TaskID)
    (readFile : GoString → Except GoString GoString),
    (Call.requestTask mapOrder reduceOrder readFile).Ordered c →
    ∀ d, (c.requestTask now mapOrder reduceOrder readFile).reply.reduceData = some d →
      c.allMapTasksDoneLocked = true ∧
        ∃ data, ((c.requestTask now mapOrder reduceOrder readFile).coordinator.encode
          (c.requestTask now mapOrder reduceOrder readFile).reply).reduceData = some data ∧
          ∀ m, (m ∈ data.mapTaskOutputs ↔ m ∈ c.mapTasks) ∧
            (m ∈ c.mapTasks → data.mapTaskOutputs[m]? = registeredAddress rs m)

/-- **The bookkeeping invariant.** It holds after every sequence of calls, at any times, from the
coordinator that `MakeCoordinator` makes. -/
theorem coordinator_bookkeeping (g : ℤ) (files : List GoString) (n : ℕ) (rs : List TimedCall)
    (c : Coordinator)
    (h : (coordinatorSystem (makeCoordinator g files n).1).exec (makeCoordinator g files n).1 rs =
      some c) : Bookkeeping g files n rs c := by
  have hfresh := Coordinator.fresh_make g files n
  have hwf := hfresh.toWellFormed.exec h
  refine ⟨?_, ?_, ?_, ?_, ?_, ?_, ?_, ?_⟩
  · intro i file hi
    have ht₀ := (makeCoordinator_mapTasks g files n (g + 1 + i) _).mpr ⟨i, file, hi, rfl, rfl⟩
    obtain ⟨t, ht, hid⟩ := Coordinator.exists_mapTask h ht₀
    exact ⟨t, ht, hid⟩
  · intro id t ht
    obtain ⟨t₀, ht₀, -⟩ := Coordinator.exists_mapTask_start h ht
    obtain ⟨i, file, hi, hid, -⟩ := (makeCoordinator_mapTasks g files n id t₀).mp ht₀
    exact ⟨i, (List.getElem?_eq_some_iff.mp hi).1, hid⟩
  · intro b hb
    have ht₀ := (makeCoordinator_reduceTasks g files n (g + files.length + 1 + b) _).mpr
      ⟨b, hb, rfl, rfl⟩
    obtain ⟨t, ht, hid⟩ := Coordinator.exists_reduceTask h ht₀
    exact ⟨t, ht, hid⟩
  · intro id t ht
    obtain ⟨t₀, ht₀, -⟩ := Coordinator.exists_reduceTask_start h ht
    obtain ⟨b, hb, hid, -⟩ := (makeCoordinator_reduceTasks g files n id t₀).mp ht₀
    exact ⟨b, hb, hid⟩
  · rintro id ⟨hm, hr⟩
    obtain ⟨t, ht⟩ := mem_iff_exists.mp hm
    obtain ⟨t', ht'⟩ := mem_iff_exists.mp hr
    rw [hwf.disjoint id t ht] at ht'
    cases ht'
  · exact fun rid rt hrt m => Coordinator.mem_mapTaskOutputs_iff hfresh h hrt m
  · intro rid rt hrt m hm
    obtain ⟨t, ht⟩ := mem_iff_exists.mp hm
    obtain ⟨t₀, ht₀, -⟩ := Coordinator.exists_mapTask_start h ht
    exact Coordinator.registered_of_map hfresh h ht₀ rid rt hrt
  · exact fun now mapOrder reduceOrder readFile hord d hd =>
      Coordinator.reduceData_complete hfresh h now readFile hord.1 hord.2 hd

/-- Two map tasks are assigned, one is reported twice and reset, and an unknown task is reported. -/
def bookkeepingCalls : List TimedCall :=
  [⟨0, .requestTask [2, 1] [3, 4] fun _ => .ok []⟩,
    ⟨1, .requestTask [2, 1] [3, 4] fun _ => .ok []⟩,
    ⟨2, .reportTaskCompletion ⟨{ id := 1, type := .map }, [7]⟩⟩,
    ⟨3, .reportTaskCompletion ⟨{ id := 1, type := .map }, [8]⟩⟩,
    ⟨4, .reportMissingMapOutputs ⟨1⟩⟩,
    ⟨5, .reportTaskCompletion ⟨{ id := 1, type := .map }, [9]⟩⟩,
    ⟨6, .reportTaskCompletion ⟨{ id := 99, type := .reduce }, [9]⟩⟩]

/-- The invariant at work: after the calls, map task 1 is registered at the third address reported
for it, the first since its reset. -/
theorem coordinator_bookkeeping_calls :
    ∃ c, (coordinatorSystem (makeCoordinator 0 [[1], [2]] 2).1).exec
        (makeCoordinator 0 [[1], [2]] 2).1 bookkeepingCalls = some c ∧
      Bookkeeping 0 [[1], [2]] 2 bookkeepingCalls c ∧
      registeredAddress bookkeepingCalls 1 = some [9] := by
  have hsome : ((coordinatorSystem (makeCoordinator 0 [[1], [2]] 2).1).exec
      (makeCoordinator 0 [[1], [2]] 2).1 bookkeepingCalls).isSome = true := by decide
  obtain ⟨c, hc⟩ := Option.isSome_iff_exists.mp hsome
  exact ⟨c, hc, coordinator_bookkeeping 0 [[1], [2]] 2 bookkeepingCalls c hc, by decide⟩

end DistributedSystems.MapReduce
