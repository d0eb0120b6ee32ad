import DistributedSystems.MapReduce.CoordinatorAssignment
import DistributedSystems.MapReduce.ReplyEncoding

/-! # Reports of missing map outputs

`ReportMissingMapOutputs` carries the identifier of a map task, and nothing of the registration that
the failed fetch used. What a report does therefore depends on when it is handled.

* `missing_report_discards` — a report discards the registration that the map task has when the
  report is handled, whichever registration the failed fetch used, and does nothing when the task
  has none.
* `late_missing_report` — a late report discards the registration of a worker that never failed.
* `done_stable_iff` — a finished job stays finished exactly as long as no such report is handled.
* `done_undone` — a late report restarts a finished job. -/

namespace DistributedSystems.MapReduce

open Std (TreeMap)

/-! ## Registrations along a run -/

/-- The calls that the coordinator handles in a run of the cluster. -/
def Job.calls (J : Job) (as : List Action) : List TimedCall :=
  J.cluster.observe (Cluster.call J) J.cluster.init as

/-- The address was registered for the map task at some point of the run. -/
def Job.WasRegistered (J : Job) (as : List Action) (p : TaskID × GoString) : Prop :=
  p.1 ∈ J.mapIDs ∧ ∃ bs cs, as = bs ++ cs ∧ registeredAddress (J.calls bs) p.1 = some p.2

theorem Job.WasRegistered.append {J : Job} {as : List Action} {p : TaskID × GoString}
    (h : J.WasRegistered as p) (bs : List Action) : J.WasRegistered (as ++ bs) p := by
  obtain ⟨hm, ds, cs, rfl, hreg⟩ := h
  exact ⟨hm, ds, cs ++ bs, List.append_assoc _ _ _, hreg⟩

/-- The producers that an encoded reply lists. -/
def TaskReply.producers (reply : TaskReply) : List (TaskID × GoString) :=
  match reply.reduceData with
  | some data => data.mapTaskOutputs.toList
  | none => []

/-- The producers that a worker is still to fetch from. -/
def Phase.producers : Phase → List (TaskID × GoString)
  | .executing reply => reply.producers
  | .fetching _ _ todo _ _ => todo
  | _ => []

/-- The producers that an answered call lists. -/
def Request.producers : Request → List (TaskID × GoString)
  | .answered (some reply) => reply.producers
  | _ => []

/-- A reduce execution ranges over the producers of its reply. -/
theorem producers_of_runReduceTask {reply : TaskReply} {task : Task} {data : ReduceTaskData}
    (h : executeTask reply = .runReduceTask task data) :
    reply.producers = data.mapTaskOutputs.toList := by
  unfold executeTask at h
  split at h <;> try cases h
  split at h <;> try cases h
  · split at h <;> cases h
  · split at h
    · cases h
    · next hdata =>
        obtain ⟨-, rfl⟩ := Execution.runReduceTask.inj h
        rw [TaskReply.producers, hdata]

namespace Cluster

variable {J : Job} {s s' : Cluster} {a : Action} {as : List Action} {w : ℕ}

/-- **Every producer that is on its way was registered**: in the replies, with the workers, and in
the reports. -/
structure Producers (J : Job) (as : List Action) (s : Cluster) : Prop where
  /-- The answered calls. -/
  requests : ∀ w, ∀ p ∈ (s.requests w).producers, J.WasRegistered as p
  /-- The workers. -/
  phases : ∀ w, ∀ p ∈ (s.phase w).producers, J.WasRegistered as p
  /-- The missing reports, with the address of the failed fetch. -/
  missing : ∀ msg ∈ s.missing, J.WasRegistered as (msg.args.mapTaskID, msg.address)

theorem Producers.append (h : s.Producers J as) (bs : List Action) : s.Producers J (as ++ bs) where
  requests w p hp := (h.requests w p hp).append bs
  phases w p hp := (h.phases w p hp).append bs
  missing msg hmsg := (h.missing msg hmsg).append bs

theorem Producers.setPhase (h : s.Producers J as) {p : Phase}
    (hp : ∀ q ∈ p.producers, J.WasRegistered as q) : (s.setPhase w p).Producers J as where
  requests := h.requests
  phases v := forall_phase_setPhase (P := fun p => ∀ q ∈ p.producers, J.WasRegistered as q) w v
    h.phases hp
  missing := h.missing

theorem Producers.setRequest (h : s.Producers J as) {r : Request}
    (hr : ∀ q ∈ r.producers, J.WasRegistered as q) : (s.setRequest w r).Producers J as where
  requests v := forall_setRequest (P := fun r => ∀ q ∈ r.producers, J.WasRegistered as q) w v
    h.requests hr
  phases := h.phases
  missing := h.missing

/-- The producers of a reduce task are registered. -/
theorem wasRegistered_of_run (h : J.cluster.exec J.cluster.init as = some s) {rid : TaskID}
    {rt : ReduceTask} (hrt : s.coordinator.reduceTasks[rid]? = some rt) {p : TaskID × GoString}
    (hp : p ∈ rt.mapTaskOutputs.toList) : J.WasRegistered as p := by
  have hfresh := Coordinator.fresh_make J.globalID J.files J.nReduceTasks
  have hrun := coordinator_exec h
  have hget : rt.mapTaskOutputs[p.1]? = some p.2 := TreeMap.mem_toList_iff_getElem?_eq_some.mp hp
  have hmem : p.1 ∈ rt.mapTaskOutputs := mem_iff_exists.mpr ⟨_, hget⟩
  -- what a reduce task lists is what the bookkeeping of the calls says is registered
  obtain ⟨t, ht, -⟩ := (Coordinator.mem_mapTaskOutputs_iff hfresh hrun hrt p.1).mp hmem
  obtain ⟨t₀, ht₀, -⟩ := Coordinator.exists_mapTask_start hrun ht
  refine ⟨(Job.mem_mapTasks_iff ⟨_, hrun⟩ p.1).mp ?_, as, [], (List.append_nil as).symm, ?_⟩
  · exact mem_iff_exists.mpr ⟨_, ht⟩
  · rw [← hget]
    exact (Coordinator.registered_of_map hfresh hrun ht₀ rid rt hrt).symm

/-- The encoding of a reply lists registered producers. -/
theorem wasRegistered_of_encode (h : J.cluster.exec J.cluster.init as = some s) (reply : Reply)
    {p : TaskID × GoString} (hp : p ∈ (s.coordinator.encode reply).producers) :
    J.WasRegistered as p := by
  unfold TaskReply.producers at hp
  split at hp
  · next data hdata =>
      obtain ⟨d, -, hd⟩ := Option.bind_eq_some_iff.mp hdata
      obtain ⟨rt, hrt, rfl⟩ := Option.map_eq_some_iff.mp hd
      exact wasRegistered_of_run h hrt hp
  · cases hp

/-- **One step keeps the producers registered.** -/
theorem Producers.step (h : s.Producers J as)
    (hrun : J.cluster.exec J.cluster.init (as ++ [a]) = some s')
    (ht : s.Transition J a s') : s'.Producers J (as ++ [a]) := by
  have none {r : Request} (hr : r.producers = []) :
      ∀ q ∈ r.producers, J.WasRegistered (as ++ [a]) q := fun q hq => by rw [hr] at hq; cases hq
  have idle {p : Phase} (hp : p.producers = []) :
      ∀ q ∈ p.producers, J.WasRegistered (as ++ [a]) q := fun q hq => by rw [hp] at hq; cases hq
  -- what was registered in the run so far was registered in the longer run
  replace h := h.append [a]
  cases ht with
  | @start w address dir hphase =>
      exact ⟨h.requests, fun v => forall_phase_start
        (P := fun p => ∀ q ∈ p.producers, J.WasRegistered (as ++ [_]) q) w v h.phases (idle rfl)
        address dir, h.missing⟩
  | ask => exact (h.setPhase (p := .asking) (idle rfl)).setRequest (none rfl)
  | @requestTask w now mapOrder reduceOrder readErr hrequest hmain hord q hq =>
      have hc : { s with coordinator := q.coordinator }.Producers J _ :=
        ⟨h.requests, h.phases, h.missing⟩
      refine hc.setRequest fun p hp => ?_
      cases herr : q.err with
      | some err =>
          simp [Request.producers, Coordinator.Requested.answer, herr] at hp
      | none =>
          simp only [Request.producers, Coordinator.Requested.answer, herr] at hp
          -- the reply is read from the coordinator after the call, which is the one of `s'`
          exact wasRegistered_of_encode hrun q.reply hp
  | @decideTask w now mapOrder reduceOrder readErr hrequest hmain hord q hq =>
      have hc : { s with coordinator := q.coordinator }.Producers J _ :=
        ⟨h.requests, h.phases, h.missing⟩
      refine hc.setRequest (none ?_)
      cases herr : q.err with
      | some err => simp only [Coordinator.Requested.decided, herr, Request.producers]
      | none => simp only [Coordinator.Requested.decided, herr, Request.producers]
  | @encodeReply w reply hrequest =>
      exact h.setRequest fun p hp => wasRegistered_of_encode hrun reply hp
  | @deliver w reply hphase hrequest =>
      have hreply := h.requests w
      rw [hrequest] at hreply
      exact (h.setPhase (p := .executing reply) hreply).setRequest (none rfl)
  | deliverError => exact (h.setPhase (p := .returned) (idle rfl)).setRequest (none rfl)
  | @startReduce w order reply task data hphase hexec hperm =>
      refine h.setPhase fun p hp => h.phases w p ?_
      rw [hphase, Phase.producers, producers_of_runReduceTask hexec]
      exact hperm.mem_iff.mp hp
  | @fetchBucket w producer task data m address todo read contents keyValues hphase =>
      refine h.setPhase fun p hp => h.phases w p ?_
      rw [hphase]
      exact List.mem_cons_of_mem _ hp
  | @fetchFails w task data m address todo read contents hphase =>
      have hw := h.setPhase (w := w) (p := .reporting) (idle rfl)
      -- the address of the failed fetch is one of the producers that the worker ranged over
      refine ⟨hw.requests, hw.phases, fun msg hmem => ?_⟩
      rcases List.mem_append.mp hmem with hmem | hmem
      · exact h.missing msg hmem
      · rw [List.mem_singleton.mp hmem]
        refine h.phases w (m, address) ?_
        rw [hphase]
        exact List.mem_cons_self
  | @writeBucket w task buckets next =>
      have hw := h.setPhase (w := w) (p := .storing task buckets (next + 1)) (idle rfl)
      exact ⟨hw.requests, hw.phases, hw.missing⟩
  | @createOutput w keyOrder task data read contents reduced =>
      have hw := h.setPhase (w := w) (p := .writing task data read reduced 0) (idle rfl)
      exact ⟨hw.requests, hw.phases, hw.missing⟩
  | @writeLine w task data read kv lines offset =>
      have hw := h.setPhase (w := w)
        (p := .writing task data read lines (offset + (formatLine kv).length)) (idle rfl)
      exact ⟨hw.requests, hw.phases, hw.missing⟩
  | @reportMap w | @reportReduce w =>
      have hw := h.setPhase (w := w) (p := .reporting) (idle rfl)
      exact ⟨hw.requests, hw.phases, hw.missing⟩
  | handleMissing =>
      exact ⟨h.requests, h.phases, fun msg hmem => h.missing msg (List.mem_of_mem_eraseIdx hmem)⟩
  | crash | loseRequest | callMapf | loseLine | giveUp | returnCall => exact h.setPhase (idle rfl)
  | wipe | handleCompletion | pollDone | exit => exact ⟨h.requests, h.phases, h.missing⟩

/-- Nothing is on its way at the start. -/
theorem producers_init : J.cluster.init.Producers J [] where
  requests _ _ hq := by cases hq
  phases _ _ hq := by cases hq
  missing _ hmem := by cases hmem

/-- **Along every run, every producer that is on its way was registered.** -/
theorem producers_exec (h : J.cluster.exec J.cluster.init as = some s) : s.Producers J as := by
  refine System.exec_induction (P := fun as s => s.Producers J as) producers_init ?_ h
  intro as s a s' hrun ih hstep
  exact ih.step (System.exec_concat hrun hstep) (step_transition hstep)

end Cluster

/-! ## What a report does -/

/-- The coordinator `c'` is `c` after the registration of a done map task under an address is
discarded: the task is unassigned, it is removed from every reduce task, and nothing else
changes. -/
structure Coordinator.Discards (c : Coordinator) (m : TaskID) (address : GoString)
    (c' : Coordinator) : Prop where
  /-- The map task is done, and becomes unassigned. -/
  reset : ∃ t, c.mapTasks[m]? = some t ∧ t.task.state = .done ∧
    c'.mapTasks[m]? = some { t with task := { t.task with state := .unassigned, assignedAt := 0 } }
  /-- The other map tasks stay. -/
  others : ∀ id ≠ m, c'.mapTasks[id]? = c.mapTasks[id]?
  /-- Every reduce task lists the map task under the address. -/
  registered : c.Registered m (some address)
  /-- Every reduce task loses that entry and nothing else. -/
  erased : ∀ id : TaskID, c'.reduceTasks[id]? = c.reduceTasks[id]?.map fun t =>
    { t with mapTaskOutputs := t.mapTaskOutputs.erase m }

/-- A report for a done map task discards its registration. -/
theorem Coordinator.discards_of_done {c : Coordinator} {m : TaskID} {t : MapTask}
    (ht : c.mapTasks[m]? = some t) (hid : t.task.id = m) (hdone : t.task.state = .done)
    {address : GoString} (hreg : c.Registered m (some address)) :
    c.Discards m address (c.reportMissingMapOutputs ⟨m⟩) := by
  have heq : c.reportMissingMapOutputs ⟨m⟩ = c.resetMap m t := by
    simp only [reportMissingMapOutputs, ht, if_pos hdone]
  rw [heq]
  refine ⟨⟨t, ht, hdone, ?_⟩, fun id hne => ?_, hreg, fun id => ?_⟩
  · rw [resetMap_mapTasks, if_pos rfl, ht, Option.map_some]
  · rw [resetMap_mapTasks, if_neg (Ne.symm hne)]
  · rw [resetMap_reduceTasks, hid]

/-- A report for a map task that is not done does nothing. -/
theorem Coordinator.reportMissingMapOutputs_of_not_done {c : Coordinator} {m : TaskID} {t : MapTask}
    (ht : c.mapTasks[m]? = some t) (hstate : t.task.state ≠ .done) :
    c.reportMissingMapOutputs ⟨m⟩ = c := by
  simp only [reportMissingMapOutputs, ht, if_neg hstate]

/-- After a missing report of a map task and until its next completion report, nothing is
registered. -/
theorem registeredAddress_eq_none {c : Coordinator} {m : TaskID} (hm : c.taskType m = some .map)
    (rs₁ : List TimedCall) {r : TimedCall} (hr : r.ReportsMissing m) {rs₂ : List TimedCall}
    (hno : ∀ r' ∈ rs₂, ¬ r'.Completes c m) : registeredAddress (rs₁ ++ r :: rs₂) m = none := by
  induction rs₂ using List.reverseRecOn with
  | nil =>
      rw [registeredAddress_concat, hr]
      simp
  | append_singleton rs₂ r' ih =>
      -- the last call is no completion of the task, so it registers nothing
      have hrest := ih fun r'' hr'' => hno r'' (List.mem_append_left _ hr'')
      have hlast := hno r' (List.mem_append_right _ (List.mem_singleton_self r'))
      rw [← List.cons_append, ← List.append_assoc, registeredAddress_concat, hrest]
      split
      · rfl
      · next args hcall =>
          refine if_neg fun hargs => hlast ⟨args, hcall, hargs.1, ?_⟩
          rw [hm, hargs.2]
      · split <;> rfl

open Cluster in
/-- **What a missing report does.** When the coordinator handles a report that the output of a map
task is missing, in any run of the cluster: the address of the failed fetch was registered for the
task at some earlier point; whatever address is registered for the task now, whether or not it is
the one of the failed fetch, is discarded and the task is rescheduled; and nothing changes when none
is registered, in particular when no completion of the task was handled since an earlier report of
the same output. -/
theorem missing_report_discards (J : Job) (as : List Action) (s s' : Cluster) (i : ℕ) (msg : Missing)
    (h : J.cluster.exec J.cluster.init as = some s) (hmsg : s.missing[i]? = some msg)
    (hstep : J.cluster.step s (.handleMissing i) = some s') :
    J.WasRegistered as (msg.args.mapTaskID, msg.address) ∧
    (∀ address, registeredAddress (J.calls as) msg.args.mapTaskID = some address →
      s.coordinator.Discards msg.args.mapTaskID address s'.coordinator) ∧
    (registeredAddress (J.calls as) msg.args.mapTaskID = none → s'.coordinator = s.coordinator) ∧
    (∀ rs₁ r rs₂, J.calls as = rs₁ ++ r :: rs₂ → r.ReportsMissing msg.args.mapTaskID →
      (∀ r' ∈ rs₂, ¬ r'.Completes J.coordinator msg.args.mapTaskID) →
      s'.coordinator = s.coordinator) := by
  have hwas := (producers_exec h).missing msg (List.mem_of_getElem? hmsg)
  have hfresh := Coordinator.fresh_make J.globalID J.files J.nReduceTasks
  have hrun := coordinator_exec h
  obtain ⟨⟨m⟩, a⟩ := msg
  -- the handler sees only the identifier; the address is not in the call
  have hs' : s'.coordinator = s.coordinator.reportMissingMapOutputs ⟨m⟩ := by
    have ht : s.Transition J (.handleMissing i) s' := step_transition hstep
    cases ht with
    | handleMissing hmsg' =>
        obtain rfl := Option.some.inj (hmsg.symm.trans hmsg')
        rfl
  have hmem := (Job.mem_mapTasks_iff ⟨_, hrun⟩ m).mpr hwas.1
  obtain ⟨t, ht⟩ := mem_iff_exists.mp hmem
  obtain ⟨t₀, ht₀, -⟩ := Coordinator.exists_mapTask_start hrun ht
  -- the guard of the handler, done, is the same as registered
  have hdone := Coordinator.map_done_iff hfresh hrun ht
  have hnone (hreg : registeredAddress (J.calls as) m = none) : s'.coordinator = s.coordinator := by
    rw [hs']
    refine Coordinator.reportMissingMapOutputs_of_not_done ht fun hstate => ?_
    obtain ⟨address, haddress⟩ := hdone.mp hstate
    cases hreg.symm.trans haddress
  refine ⟨hwas, fun address hreg => ?_, hnone, fun rs₁ r rs₂ hcalls hr hno => hnone ?_⟩
  · rw [hs']
    refine Coordinator.discards_of_done ht ((hfresh.toWellFormed.exec hrun).mapID m t ht)
      (hdone.mpr ⟨address, hreg⟩) ?_
    rw [← hreg]
    exact Coordinator.registered_of_map hfresh hrun ht₀
  · rw [hcalls]
    exact registeredAddress_eq_none (Coordinator.taskType_map ht₀) rs₁ hr hno

/-- Worker 0 maps and is killed. Workers 1 and 2 both fail to fetch its output and report it
missing; the report of worker 1 is handled, and worker 3 maps again and registers. The report of
worker 2 is still in the network. -/
def twoMissing : List Action :=
  [.start 0 [10] 0, .ask 0, .requestTask 0 0 [1] [2, 3] none, .deliver 0, .callMapf 0 [⟨[7], [1]⟩],
    .writeBucket 0, .writeBucket 0, .report 0, .handleCompletion 0, .crash 0,
    .start 1 [11] 1, .ask 1, .requestTask 1 1 [1] [2, 3] none, .deliver 1,
    .startReduce 1 [(1, [10])], .fetchFails 1,
    .start 2 [12] 2, .ask 2, .requestTask 2 1 [1] [2, 3] none, .deliver 2,
    .startReduce 2 [(1, [10])], .fetchFails 2, .handleMissing 0,
    .start 3 [13] 3, .ask 3, .requestTask 3 2 [1] [2, 3] none, .deliver 3, .callMapf 3 [⟨[7], [1]⟩],
    .writeBucket 3, .writeBucket 3, .report 3, .handleCompletion 0]

/-- The report of worker 2, whose fetch used the address of worker 0, discards the registration of
worker 3. -/
theorem missing_report_discards_twoMissing :
    ∃ s s' msg, twoBuckets.cluster.exec twoBuckets.cluster.init twoMissing = some s ∧
      s.missing[0]? = some msg ∧ msg.address = [10] ∧
      twoBuckets.cluster.step s (.handleMissing 0) = some s' ∧
      s.coordinator.Discards msg.args.mapTaskID [13] s'.coordinator := by
  have hrun : ((twoBuckets.cluster.exec twoBuckets.cluster.init twoMissing).bind fun s =>
      (twoBuckets.cluster.step s (.handleMissing 0)).bind fun _ =>
        s.missing[0]?.map fun msg => (msg.args.mapTaskID, msg.address)) = some (1, [10]) := by
    decide +kernel
  obtain ⟨s, hs, hrun⟩ := Option.bind_eq_some_iff.mp hrun
  obtain ⟨s', hs', hrun⟩ := Option.bind_eq_some_iff.mp hrun
  obtain ⟨msg, hmsg, hpair⟩ := Option.map_eq_some_iff.mp hrun
  obtain ⟨hm, haddress⟩ := Prod.mk.inj hpair
  refine ⟨s, s', msg, hs, hmsg, haddress, hs',
    (missing_report_discards twoBuckets twoMissing s s' 0 msg hs hmsg hs').2.1 [13] ?_⟩
  rw [hm]
  decide +kernel

/-- What the coordinator knows of a map task: its state, and where a reduce task finds its
output. -/
def Coordinator.mapTaskView (c : Coordinator) (m rid : TaskID) : Option TaskState × Option GoString :=
  (c.mapTasks[m]?.map (·.task.state), c.reduceTasks[rid]?.bind (·.mapTaskOutputs[m]?))

/-- **A late report discards a good output.** The fetch that failed used the address of worker 0;
the output is registered with worker 3, which is running and has the file; and the report resets the
map task all the same. -/
theorem late_missing_report :
    ∃ s s' msg, twoBuckets.cluster.exec twoBuckets.cluster.init twoMissing = some s ∧
      twoBuckets.cluster.step s (.handleMissing 0) = some s' ∧ s.missing[0]? = some msg ∧
      msg.args.mapTaskID = 1 ∧ msg.address = [10] ∧
      s.coordinator.mapTaskView 1 2 = (some .done, some [13]) ∧ (s.workers 3).address = [13] ∧
      (s.phase 3).alive = true ∧ s.files (s.workers 3).dir (1, 0) = some [⟨[7], [1]⟩] ∧
      s'.coordinator.mapTaskView 1 2 = (some .unassigned, none) := by
  have hrun : ((twoBuckets.cluster.exec twoBuckets.cluster.init twoMissing).bind fun s =>
      (twoBuckets.cluster.step s (.handleMissing 0)).bind fun s' => s.missing[0]?.map fun msg =>
        decide (msg.args.mapTaskID = 1 ∧ msg.address = [10] ∧
          s.coordinator.mapTaskView 1 2 = (some .done, some [13]) ∧ (s.workers 3).address = [13] ∧
          (s.phase 3).alive = true ∧ s.files (s.workers 3).dir (1, 0) = some [⟨[7], [1]⟩] ∧
          s'.coordinator.mapTaskView 1 2 = (some .unassigned, none))) = some true := by
    decide +kernel
  obtain ⟨s, hs, hrun⟩ := Option.bind_eq_some_iff.mp hrun
  obtain ⟨s', hs', hrun⟩ := Option.bind_eq_some_iff.mp hrun
  obtain ⟨msg, hmsg, hview⟩ := Option.map_eq_some_iff.mp hrun
  exact ⟨s, s', msg, hs, hs', hmsg, of_decide_eq_true hview⟩

/-! ## A finished job -/

namespace Coordinator

variable {c c' c₀ d : Coordinator} {r : TimedCall}

/-- A finished coordinator hands out nothing. -/
theorem marked_of_done (hord : r.call.Ordered c) (hdone : c.done = true) : c.marked r = none := by
  obtain ⟨hmaps, hreduces⟩ := (done_iff c).mp hdone
  rw [Option.eq_none_iff_forall_ne_some]
  intro id hmarked
  rcases (c.handle_effect hord).assignable_of_marked hmarked with ⟨t, ht, hassign⟩ | ⟨t, ht, hassign⟩
  · rw [shouldAssignTask_iff, hmaps id t ht] at hassign
    simp at hassign
  · rw [shouldAssignTask_iff, hreduces id t ht] at hassign
    simp at hassign

/-- **One call leaves a finished coordinator finished exactly when it is no missing report of a map
task.** -/
theorem Effect.done_iff (heff : c.Effect r c') (hmarked : c.marked r = none) (hdone : c.done = true) :
    c'.done = true ↔ ∀ m ∈ c.mapTasks, ¬ r.ReportsMissing m := by
  obtain ⟨hmaps, hreduces⟩ := (Coordinator.done_iff c).mp hdone
  -- a call of another kind is no missing report, so both sides are true
  have stays (hcall : ∀ args, r.call ≠ .reportMissingMapOutputs args) (hc' : c'.done = true) :
      c'.done = true ↔ ∀ m ∈ c.mapTasks, ¬ r.ReportsMissing m :=
    ⟨fun _ m _ hr => hcall ⟨m⟩ hr, fun _ => hc'⟩
  cases heff with
  | assignMap hmarked' | assignReduce hmarked' => rw [hmarked'] at hmarked; cases hmarked
  | wait hcall => exact stays (by simp [hcall]) hdone
  -- no map task is left to finish
  | finishMap hcall htype ht hstate => exact absurd (hmaps _ _ ht) hstate
  | finishMapAgain hcall | finishUnknown hcall => exact stays (by simp [hcall]) hdone
  | @finishReduce args t hcall =>
      refine stays (by simp [hcall]) ((Coordinator.done_iff _).mpr ⟨hmaps, fun id t ht => ?_⟩)
      rw [finishReduce_reduceTasks] at ht
      split at ht
      · obtain ⟨t', -, rfl⟩ := Option.map_eq_some_iff.mp ht
        rfl
      · exact hreduces id t ht
  | @resetMap args t hcall ht =>
      -- both sides are false: the map task is unassigned now, and it is one of the job's
      refine iff_of_false (fun hdone' => ?_) fun hno => hno args.mapTaskID ?_ hcall
      · have hreset := ((Coordinator.done_iff _).mp hdone').1 args.mapTaskID _
          (by rw [resetMap_mapTasks, if_pos rfl, ht, Option.map_some])
        cases hreset
      · exact mem_iff_exists.mpr ⟨_, ht⟩
  | @resetIdle args hcall ht =>
      -- every map task of the job is done, so the report names none of them
      refine iff_of_true hdone fun m hm hr => ?_
      obtain rfl : args = ⟨m⟩ := Call.reportMissingMapOutputs.inj (hcall.symm.trans hr)
      obtain ⟨t, htm⟩ := mem_iff_exists.mp hm
      exact ht t htm (hmaps m t htm)

/-- `Done` is true before and after every one of the calls, and none of them hands out a task. -/
def StaysDone (c₀ c : Coordinator) (later : List TimedCall) : Prop :=
  ∀ bs cs d, later = bs ++ cs → (coordinatorSystem c₀).exec c bs = some d →
    d.done = true ∧ ∀ r ds, cs = r :: ds → d.marked r = none

/-- Calls without a missing report of a map task leave a finished coordinator finished. -/
theorem done_exec {rs later : List TimedCall} (h : (coordinatorSystem c₀).exec c₀ rs = some c)
    (hdone : c.done = true) (hlater : (coordinatorSystem c₀).exec c later = some c')
    (hno : ∀ r ∈ later, ∀ m ∈ c₀.mapTasks, ¬ r.ReportsMissing m) : c'.done = true := by
  refine System.exec_induction (P := fun bs d => (∀ r ∈ bs, ∀ m ∈ c₀.mapTasks, ¬ r.ReportsMissing m) →
    d.done = true) (fun _ => hdone) ?_ hlater hno
  intro bs d r d' hrun ih hstep hno
  have hd := ih fun r' hr' => hno r' (List.mem_append_left _ hr')
  have hfrom : (coordinatorSystem c₀).exec c₀ (rs ++ bs) = some d := by
    rw [System.exec_append, h, Option.bind_some, hrun]
  obtain ⟨hord, rfl⟩ := coordinatorSystem_step.mp hstep
  refine ((d.handle_effect hord).done_iff (marked_of_done hord hd) hd).mpr fun m hm => ?_
  exact hno r (List.mem_append_right _ (List.mem_singleton_self r)) m
    ((mem_mapTasks_exec hfrom m).mp hm)

end Coordinator

/-- **When completion is stable.** A coordinator that is finished after some calls stays finished
and hands out nothing during any further calls, including late completion reports of any task, if
and only if none of them is a missing report of a map task of the job. -/
theorem done_stable_iff (g : ℤ) (files : List GoString) (n : ℕ) (rs later : List TimedCall)
    (c c' : Coordinator)
    (h : (coordinatorSystem (makeCoordinator g files n).1).exec (makeCoordinator g files n).1 rs =
      some c) (hdone : c.done = true)
    (hlater : (coordinatorSystem (makeCoordinator g files n).1).exec c later = some c') :
    Coordinator.StaysDone (makeCoordinator g files n).1 c later ↔
      ∀ r ∈ later, ∀ m ∈ (makeCoordinator g files n).1.mapTasks, ¬ r.ReportsMissing m := by
  constructor
  -- the report would be handled in a finished state and leave an unfinished one
  · intro hstays r hr m hm hmissing
    obtain ⟨bs, cs, rfl⟩ := List.append_of_mem hr
    obtain ⟨d, d', hd, hstep, -⟩ := System.exec_split hlater
    obtain ⟨hddone, hmarked⟩ := hstays bs (r :: cs) d rfl hd
    have hd'done := (hstays (bs ++ [r]) cs d' (by simp) (System.exec_concat hd hstep)).1
    obtain ⟨hord, rfl⟩ := coordinatorSystem_step.mp hstep
    have hfrom : (coordinatorSystem (makeCoordinator g files n).1).exec (makeCoordinator g files n).1
        (rs ++ bs) = some d := by
      rw [System.exec_append, h, Option.bind_some, hd]
    exact ((d.handle_effect hord).done_iff (hmarked r cs rfl) hddone).mp hd'done m
      ((Coordinator.mem_mapTasks_exec hfrom m).mpr hm) hmissing
  · rintro hno bs cs d rfl hd
    have hddone := Coordinator.done_exec h hdone hd fun r hr => hno r (List.mem_append_left _ hr)
    refine ⟨hddone, ?_⟩
    rintro r ds rfl
    obtain ⟨e, e', he, hstep, -⟩ := System.exec_split hlater
    obtain rfl : d = e := Option.some.inj (hd.symm.trans he)
    exact Coordinator.marked_of_done (coordinatorSystem_step.mp hstep).1 hddone

/-- Calls that reach the finished coordinator of a one-file, one-bucket job: late completion reports
of both tasks, a request after the timeout, and a missing report of no task. -/
def lateCalls : List TimedCall :=
  [⟨4, .reportTaskCompletion ⟨{ id := 2, type := .reduce }, [8]⟩⟩,
    ⟨5, .reportTaskCompletion ⟨{ id := 1, type := .map }, [8]⟩⟩,
    ⟨taskTimeout + 5, .requestTask [1] [2] fun _ => .ok []⟩,
    ⟨taskTimeout + 6, .reportMissingMapOutputs ⟨2⟩⟩]

/-- The late calls leave the finished coordinator finished. -/
theorem done_stable_iff_lateCalls :
    ∃ c c', (coordinatorSystem (makeCoordinator 0 [[1]] 1).1).exec (makeCoordinator 0 [[1]] 1).1
        promptCalls = some c ∧ c.done = true ∧
      (coordinatorSystem (makeCoordinator 0 [[1]] 1).1).exec c lateCalls = some c' ∧
      Coordinator.StaysDone (makeCoordinator 0 [[1]] 1).1 c lateCalls := by
  refine ⟨_, _, rfl, by decide, rfl, (done_stable_iff 0 [[1]] 1 promptCalls lateCalls _ _ rfl
    (by decide) rfl).mpr ?_⟩
  intro r hr m hm hmissing
  simp only [lateCalls, List.mem_cons, List.not_mem_nil, or_false] at hr
  rcases hr with rfl | rfl | rfl | rfl
  · cases hmissing
  · cases hmissing
  · cases hmissing
  · obtain rfl : (2 : TaskID) = m := congrArg ReportMissingMapOutputsArgs.mapTaskID
      (Call.reportMissingMapOutputs.inj hmissing)
    revert hm
    decide

/-- Worker 0 maps. Worker 1 gets the reduce task and is slow; after the timeout worker 2 gets the
task as well and completes it, and the job is done. -/
def finishedBySecond : List Action :=
  [.start 0 [10] 0, .ask 0, .requestTask 0 0 [1] [2] none, .deliver 0, .callMapf 0 [⟨[7], [1]⟩],
    .writeBucket 0, .report 0, .handleCompletion 0,
    .start 1 [11] 1, .ask 1, .requestTask 1 1 [1] [2] none, .deliver 1, .startReduce 1 [(1, [10])],
    .start 2 [12] 2, .ask 2, .requestTask 2 (1 + taskTimeout) [1] [2] none, .deliver 2,
    .startReduce 2 [(1, [10])], .fetchBucket 2 0, .createOutput 2 [[7]], .writeLine 2, .report 2,
    .handleCompletion 0]

/-- Worker 0 is killed, worker 1 fails to fetch its output, and its report is handled. -/
def lateReport : List Action := [.crash 0, .fetchFails 1, .handleMissing 0]

/-- Worker 2 asks for another task. -/
def askAgain : List Action := [.returnCall 2, .ask 2, .requestTask 2 (2 + taskTimeout) [1] [2] none]

/-- **A finished job is restarted.** `Done` is true; the report of the slow worker makes it false;
and the map task is handed out again. -/
theorem done_undone :
    ∃ s s' s'', oneBucket.cluster.exec oneBucket.cluster.init finishedBySecond = some s ∧
      oneBucket.cluster.exec s lateReport = some s' ∧
      oneBucket.cluster.exec s' askAgain = some s'' ∧
      s.coordinator.done = true ∧ s'.coordinator.done = false ∧
      s'.coordinator.mapTaskView 1 2 = (some .unassigned, none) ∧
      s''.coordinator.mapTaskView 1 2 = (some .running, none) := by
  have hrun : ((oneBucket.cluster.exec oneBucket.cluster.init finishedBySecond).bind fun s =>
      (oneBucket.cluster.exec s lateReport).bind fun s' =>
        (oneBucket.cluster.exec s' askAgain).map fun s'' =>
          decide (s.coordinator.done = true ∧ s'.coordinator.done = false ∧
            s'.coordinator.mapTaskView 1 2 = (some .unassigned, none) ∧
            s''.coordinator.mapTaskView 1 2 = (some .running, none))) = some true := by
    decide +kernel
  obtain ⟨s, hs, hrun⟩ := Option.bind_eq_some_iff.mp hrun
  obtain ⟨s', hs', hrun⟩ := Option.bind_eq_some_iff.mp hrun
  obtain ⟨s'', hs'', hstate⟩ := Option.map_eq_some_iff.mp hrun
  exact ⟨s, s', s'', hs, hs', hs'', of_decide_eq_true hstate⟩

end DistributedSystems.MapReduce
