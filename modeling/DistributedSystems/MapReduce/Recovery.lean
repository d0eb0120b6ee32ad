import DistributedSystems.MapReduce.ClusterSteps
import DistributedSystems.MapReduce.CoordinatorAssignment
import DistributedSystems.MapReduce.ReplyEncoding
import DistributedSystems.Transition.Possibility
import Mathlib.Algebra.Order.BigOperators.Group.List
import Mathlib.Data.Finset.Order

/-! # A job can always be completed

No reachable state of a cluster is a dead end: whatever workers have crashed, stalled or lost their
files, and whatever reports are lost or still to come, one new worker process can complete the job
alone, without a fault on its way.

* `Working w` — the steps of worker `w` and of the coordinator for it, without a fault; a fetch
  fails only where no process serves the file.
* `exists_answered`, `exists_mapped`, `exists_fetched`, `exists_reduced` — the parts of one turn of
  the worker loop, as runs.
* `distance` — what is left to do: a finished map task whose output nobody serves is two turns
  away (it has to be found missing and be mapped again), an unfinished one is one turn away, and so
  is an unfinished reduce task. `exists_closer` makes it smaller by one turn of the loop. -/

namespace DistributedSystems.MapReduce

open Std (TreeMap)

namespace Cluster

/-! ## Steps without faults -/

/-- Some process serves the file of map task `m` and bucket `b` registered under an address to
worker `w`. -/
def Fetchable (s : Cluster) (w : ℕ) (m : TaskID) (address : GoString) (b : ℕ) : Prop :=
  ∃ producer, s.Serves w address producer ∧ (s.files (s.workers producer).dir (m, b)).isSome = true

/-- A step of worker `w`, or of the coordinator for a worker, without a fault. -/
def Working (w : ℕ) (s : Cluster) : Action → Prop
  | .ask v => v = w
  | .requestTask v _ _ _ readErr => v = w ∧ readErr = none
  | .deliver v => v = w
  | .callMapf v _ => v = w
  | .writeBucket v => v = w
  | .startReduce v _ => v = w
  | .fetchBucket v _ => v = w
  -- a fetch fails only where nobody serves the file
  | .fetchFails v => v = w ∧ ∀ task data m address todo read contents,
      s.phase w = .fetching task data ((m, address) :: todo) read contents →
      ¬ s.Fetchable w m address data.bucket
  | .createOutput v _ => v = w
  | .writeLine v => v = w
  | .report v => v = w
  | .returnCall v => v = w
  | .handleCompletion _ => True
  | .handleMissing _ => True
  | _ => False

/-- A step of worker `w` from its start on, or of the coordinator process, without a fault. -/
def Faultless (w : ℕ) (s : Cluster) (a : Action) : Prop :=
  s.Working w a ∨ (∃ address dir, a = .start w address dir) ∨ a = .pollDone ∨ a = .exit

/-- What the work of worker `w` leaves as it is: the other processes, its own address and directory
and the coordinator process; and no file is removed. -/
structure Carried (w : ℕ) (s s' : Cluster) : Prop where
  /-- The other processes are where they were. -/
  others : ∀ v, v ≠ w → s'.workers v = s.workers v
  /-- The worker keeps its address. -/
  address : (s'.workers w).address = (s.workers w).address
  /-- The worker keeps its directory. -/
  dir : (s'.workers w).dir = (s.workers w).dir
  /-- The coordinator process is where it was. -/
  main : s'.main = s.main
  /-- A file that is there stays there. -/
  files : ∀ dir name, (s.files dir name).isSome = true → (s'.files dir name).isSome = true

variable {J : Job} {w : ℕ} {s s' : Cluster} {a : Action}

theorem Carried.refl (s : Cluster) : s.Carried w s := ⟨fun _ _ => rfl, rfl, rfl, rfl, fun _ _ => id⟩

theorem Carried.trans (s t u : Cluster) (h : s.Carried w t) (h' : t.Carried w u) :
    s.Carried w u where
  others v hv := (h'.others v hv).trans (h.others v hv)
  address := h'.address.trans h.address
  dir := h'.dir.trans h.dir
  main := h'.main.trans h.main
  files dir name hsome := h'.files dir name (h.files dir name hsome)

theorem setPhase_self (s : Cluster) (w : ℕ) (p : Phase) :
    (s.setPhase w p).workers w = { s.workers w with phase := p } := Function.update_self ..

/-- A step that only moves worker `w` and removes no file. -/
theorem carried_setPhase {p : Phase} (hworkers : s'.workers = (s.setPhase w p).workers)
    (hmain : s'.main = s.main)
    (hfiles : ∀ dir name, (s.files dir name).isSome = true → (s'.files dir name).isSome = true) :
    s.Carried w s' where
  others v hv := by
    rw [hworkers]
    exact Function.update_of_ne hv ..
  address := by rw [hworkers, setPhase_self]
  dir := by rw [hworkers, setPhase_self]
  main := hmain
  files := hfiles

/-- A step that moves no worker and leaves the files alone. -/
theorem carried_of_eq (hworkers : s'.workers = s.workers) (hmain : s'.main = s.main)
    (hfiles : s'.files = s.files) : s.Carried w s' where
  others v _ := by rw [hworkers]
  address := by rw [hworkers]
  dir := by rw [hworkers]
  main := hmain
  files dir name hsome := by rw [hfiles]; exact hsome

/-- Every step of the work carries the rest of the cluster along. -/
theorem Transition.carried (h : s.Transition J a s') (ha : s.Working w a) : s.Carried w s' := by
  cases h with
  | ask | deliver | deliverError | callMapf | startReduce | fetchBucket | createOutput | writeLine
  | reportMap | reportReduce | returnCall =>
      obtain rfl : _ = w := ha
      exact carried_setPhase rfl rfl fun _ _ => id
  | fetchFails =>
      obtain rfl : _ = w := ha.1
      exact carried_setPhase rfl rfl fun _ _ => id
  | writeBucket hphase hnext =>
      obtain rfl : _ = w := ha
      refine carried_setPhase (s := s) rfl rfl fun dir name hsome => ?_
      show ((s.storeBucket _ _ _).files dir name).isSome = true
      rw [storeBucket_files]
      split
      · rfl
      · exact hsome
  | requestTask | handleCompletion | handleMissing => exact carried_of_eq rfl rfl rfl
  | _ => exact False.elim ha

/-- The work of a worker, as a run. -/
theorem Carried.of_leads (h : J.cluster.Leads (Working w) s s') : s.Carried w s' :=
  h.related Carried.refl Carried.trans fun _ _ _ ha hstep => (step_transition hstep).carried ha

/-- What could be fetched can still be fetched. -/
theorem Carried.fetchable (h : s.Carried w s') {m : TaskID} {address : GoString} {b : ℕ}
    (hfetch : s.Fetchable w m address b) : s'.Fetchable w m address b := by
  obtain ⟨producer, hserves, hfile⟩ := hfetch
  refine ⟨producer, ?_⟩
  rw [Serves] at hserves ⊢
  rw [h.address]
  split at hserves
  · next hown =>
      subst hserves
      rw [if_pos hown, h.dir]
      exact ⟨rfl, h.files _ _ hfile⟩
  · next hother =>
      -- the producer has another address, so it is another process
      have hne : producer ≠ w := by
        rintro rfl
        exact hother hserves.1.symm
      rw [if_neg hother, phase, h.others producer hne]
      exact ⟨hserves, h.files _ _ hfile⟩

/-! ## One turn of the worker loop -/

/-- A transition of the work is a run. -/
theorem Transition.leads (h : s.Transition J a s') (ha : s.Working w a) :
    J.cluster.Leads (Working w) s s' := .step ha h.step

/-- A completion report is sent, the call returns, and the coordinator handles the report. -/
theorem exists_reported (hmain : s.main ≠ .exited) {msg : Completion}
    (hreport : s.Transition J (.report w)
      { s.setPhase w .reporting with completions := s.completions ++ [msg] }) :
    ∃ s', J.cluster.Leads (Working w) s s' ∧ s'.phase w = .idle ∧
      s'.coordinator = s.coordinator.reportTaskCompletion msg.args := by
  set s₁ : Cluster := { s.setPhase w .reporting with completions := s.completions ++ [msg] }
  have hphase : s₁.phase w = .reporting := by
    show (s.setPhase w .reporting).phase w = _
    rw [setPhase_phase, if_pos rfl]
  have hmsg : (s₁.setPhase w .idle).completions[s.completions.length]? = some msg :=
    List.getElem?_concat_length
  refine ⟨_, (hreport.leads rfl).trans ((Transition.returnCall hphase).leads rfl |>.trans
    ((Transition.handleCompletion hmsg hmain).leads trivial)), ?_, rfl⟩
  show (s₁.setPhase w .idle).phase w = .idle
  rw [setPhase_phase, if_pos rfl]

/-- A map output that nobody serves is reported, and the coordinator handles the report. -/
theorem exists_missing (hmain : s.main ≠ .exited) {task : Task} {data : ReduceTaskData} {m : TaskID}
    {address : GoString} {todo : List (TaskID × GoString)} {read : List TaskID}
    {contents : List KeyValue}
    (hphase : s.phase w = .fetching task data ((m, address) :: todo) read contents)
    (hnot : ¬ s.Fetchable w m address data.bucket) :
    ∃ s', J.cluster.Leads (Working w) s s' ∧ s'.phase w = .idle ∧
      s'.coordinator = s.coordinator.reportMissingMapOutputs ⟨m⟩ := by
  have hfails : s.Transition J (.fetchFails w)
      { s.setPhase w .reporting with missing := s.missing ++ [⟨⟨m⟩, address⟩] } := .fetchFails hphase
  have hworking : s.Working w (.fetchFails w) := by
    refine ⟨rfl, fun task' data' m' address' todo' read' contents' hphase' => ?_⟩
    rw [hphase] at hphase'
    cases hphase'
    exact hnot
  set s₁ : Cluster := { s.setPhase w .reporting with missing := s.missing ++ [⟨⟨m⟩, address⟩] }
  have hreporting : s₁.phase w = .reporting := by
    show (s.setPhase w .reporting).phase w = _
    rw [setPhase_phase, if_pos rfl]
  have hmsg : (s₁.setPhase w .idle).missing[s.missing.length]? = some ⟨⟨m⟩, address⟩ :=
    List.getElem?_concat_length
  refine ⟨_, (hfails.leads hworking).trans ((Transition.returnCall hreporting).leads rfl |>.trans
    ((Transition.handleMissing hmsg hmain).leads trivial)), ?_, rfl⟩
  show (s₁.setPhase w .idle).phase w = .idle
  rw [setPhase_phase, if_pos rfl]

/-- The loop of `writeBucketsToFiles` ends, with every bucket in its file. -/
theorem exists_stored {task : Task} {buckets : List (List KeyValue)} {next : ℕ}
    (hphase : s.phase w = .storing task buckets next) (hnext : next ≤ buckets.length)
    (hfiles : ∀ b < next, (s.files (s.workers w).dir (task.id, b)).isSome = true) :
    ∃ s', J.cluster.Leads (Working w) s s' ∧ s'.phase w = .storing task buckets buckets.length ∧
      s'.coordinator = s.coordinator ∧
      ∀ b < buckets.length, (s'.files (s.workers w).dir (task.id, b)).isSome = true := by
  induction hk : buckets.length - next generalizing s next with
  | zero =>
      obtain rfl : next = buckets.length := by omega
      exact ⟨s, .refl, hphase, rfl, hfiles⟩
  | succ k ih =>
      have hlt : next < buckets.length := by omega
      have hwrite := Transition.writeBucket (J := J) hphase (List.getElem?_eq_getElem hlt)
      set s₁ := (s.storeBucket w (task.id, next) buckets[next]).setPhase w
        (.storing task buckets (next + 1))
      have hdir : (s₁.workers w).dir = (s.workers w).dir := by
        rw [setPhase_self]
        rfl
      have hphase₁ : s₁.phase w = .storing task buckets (next + 1) := by
        rw [setPhase_phase, if_pos rfl]
      have hfiles₁ (b : ℕ) (hb : b < next + 1) :
          (s₁.files (s₁.workers w).dir (task.id, b)).isSome = true := by
        show ((s.storeBucket w (task.id, next) _).files (s₁.workers w).dir (task.id, b)).isSome = _
        rw [hdir, storeBucket_files]
        -- the bucket is the one just written, or it was written before
        by_cases hb' : b = next
        · rw [if_pos ⟨rfl, by rw [hb']⟩]
          rfl
        · rw [if_neg (fun h => hb' (Prod.mk.inj h.2).2)]
          exact hfiles b (by omega)
      obtain ⟨s', hleads, hphase', hc, hfiles'⟩ := ih hphase₁ hlt hfiles₁ (by omega)
      exact ⟨s', (hwrite.leads rfl).trans hleads, hphase', hc, hdir ▸ hfiles'⟩

/-- A map task that was handed out is run and reported, and all its buckets are stored. -/
theorem exists_mapped (hmain : s.main ≠ .exited) {reply : TaskReply} {task : Task}
    {data : MapTaskData} (hphase : s.phase w = .executing reply)
    (hexec : executeTask reply = .runMapTask task data) (hbuckets : 1 ≤ data.buckets) :
    ∃ s', J.cluster.Leads (Working w) s s' ∧ s'.phase w = .idle ∧
      s'.coordinator = s.coordinator.reportTaskCompletion ⟨task, (s.workers w).address⟩ ∧
      ∀ b < data.buckets, (s'.files (s.workers w).dir (task.id, b)).isSome = true := by
  have hcall := (Transition.callMapf (J := J) hphase hexec (List.Perm.refl _) (by omega)).leads
    (w := w) rfl
  set s₁ := s.setPhase w (.storing task
    (bucketContents J.hash (J.mapf data.key data.content) data.buckets) 0)
  have hc₁ := Carried.of_leads hcall
  obtain ⟨s₂, hstored, hphase₂, hcoord₂, hfiles₂⟩ := exists_stored (J := J) (s := s₁)
    (by rw [setPhase_phase, if_pos rfl]) (Nat.zero_le _) (by simp)
  have hc₂ := Carried.of_leads hstored
  obtain ⟨s₃, hreported, hphase₃, hcoord₃⟩ := exists_reported (J := J) (s := s₂)
    (by rw [hc₂.main]; exact hmain) (.reportMap hphase₂)
  refine ⟨s₃, hcall.trans (hstored.trans hreported), hphase₃, ?_, fun b hb => ?_⟩
  · rw [hcoord₃, hcoord₂, hc₂.address, hc₁.address]
    rfl
  · refine (Carried.of_leads hreported).files _ _ ?_
    rw [← hc₁.dir]
    exact hfiles₂ b (by rwa [length_bucketContents])

/-- The loop over the producers reads every map output, or finds one that nobody serves and reports
it. -/
theorem exists_fetched (hmain : s.main ≠ .exited) {task : Task} {data : ReduceTaskData}
    {todo : List (TaskID × GoString)} {read : List TaskID} {contents : List KeyValue}
    (hphase : s.phase w = .fetching task data todo read contents) :
    ∃ s', J.cluster.Leads (Working w) s s' ∧
      ((∃ read' contents', s'.phase w = .fetching task data [] read' contents' ∧
          s'.coordinator = s.coordinator) ∨
        ∃ m address, (m, address) ∈ todo ∧ ¬ s.Fetchable w m address data.bucket ∧
          s'.phase w = .idle ∧ s'.coordinator = s.coordinator.reportMissingMapOutputs ⟨m⟩) := by
  induction todo generalizing s read contents with
  | nil => exact ⟨s, .refl, Or.inl ⟨read, contents, hphase, rfl⟩⟩
  | cons entry todo ih =>
      obtain ⟨m, address⟩ := entry
      by_cases hfetch : s.Fetchable w m address data.bucket
      · obtain ⟨producer, hserves, hfile⟩ := hfetch
        obtain ⟨keyValues, hfile⟩ := Option.isSome_iff_exists.mp hfile
        have hstep := (Transition.fetchBucket (J := J) hphase hserves hfile).leads (w := w) rfl
        obtain ⟨s', hleads, hend⟩ := ih (s := s.setPhase w _) hmain
          (by rw [setPhase_phase, if_pos rfl])
        refine ⟨s', hstep.trans hleads, hend.imp_right ?_⟩
        rintro ⟨m', address', hmem, hnot, hend⟩
        exact ⟨m', address', List.mem_cons_of_mem _ hmem,
          fun h => hnot ((Carried.of_leads hstep).fetchable h), hend⟩
      · obtain ⟨s', hleads, hidle, hc⟩ := exists_missing (J := J) hmain hphase hfetch
        exact ⟨s', hleads, Or.inr ⟨m, address, List.mem_cons_self, hfetch, hidle, hc⟩⟩

/-- The lines of an output file are written, and the task is reported. -/
theorem exists_written (hmain : s.main ≠ .exited) {task : Task} {data : ReduceTaskData}
    {read : List TaskID} {lines : List KeyValue} {offset : ℕ}
    (hphase : s.phase w = .writing task data read lines offset) :
    ∃ s', J.cluster.Leads (Working w) s s' ∧ s'.phase w = .idle ∧
      s'.coordinator = s.coordinator.reportTaskCompletion ⟨task, (s.workers w).address⟩ := by
  induction lines generalizing s offset with
  | nil => exact exists_reported hmain (.reportReduce hphase)
  | cons kv lines ih =>
      have hstep := (Transition.writeLine (J := J) hphase).leads (w := w) rfl
      obtain ⟨s', hleads, hidle, hc⟩ :=
        ih (s := (s.setOutput _ _).setPhase w _) hmain (by rw [setPhase_phase, if_pos rfl])
      refine ⟨s', hstep.trans hleads, hidle, ?_⟩
      rw [hc, (Carried.of_leads hstep).address]
      rfl

/-- A reduce task that was handed out is run and reported, or a map output that nobody serves is
reported. -/
theorem exists_reduced (hmain : s.main ≠ .exited) {reply : TaskReply} {task : Task}
    {data : ReduceTaskData} (hphase : s.phase w = .executing reply)
    (hexec : executeTask reply = .runReduceTask task data) :
    ∃ s', J.cluster.Leads (Working w) s s' ∧ s'.phase w = .idle ∧
      (s'.coordinator = s.coordinator.reportTaskCompletion ⟨task, (s.workers w).address⟩ ∨
        ∃ m address, data.mapTaskOutputs[m]? = some address ∧
          ¬ s.Fetchable w m address data.bucket ∧
          s'.coordinator = s.coordinator.reportMissingMapOutputs ⟨m⟩) := by
  have hstart := (Transition.startReduce (J := J) hphase hexec (List.Perm.refl _)).leads (w := w) rfl
  have hc₁ := Carried.of_leads hstart
  obtain ⟨s₂, hleads, ⟨read, contents, hphase₂, hcoord₂⟩ | ⟨m, address, hmem, hnot, hidle, hcoord₂⟩⟩ :=
    exists_fetched (J := J) (w := w) (s := s.setPhase w _) hmain (by rw [setPhase_phase, if_pos rfl])
  · have hc₂ := Carried.of_leads hleads
    have hcreate := (Transition.createOutput (J := J) hphase₂ (List.Perm.refl _) rfl).leads (w := w) rfl
    have hc₃ := Carried.of_leads hcreate
    obtain ⟨s₄, hwritten, hidle, hcoord₄⟩ := exists_written (J := J) (w := w)
      (s := { (s₂.setOutput data.bucket []).setPhase w _ with writes := _ })
      (by rw [hc₃.main, hc₂.main]; exact hmain)
      (by
        show ((s₂.setOutput _ _).setPhase w _).phase w = _
        rw [setPhase_phase, if_pos rfl])
    refine ⟨s₄, hstart.trans (hleads.trans (hcreate.trans hwritten)), hidle, Or.inl ?_⟩
    rw [hcoord₄, hc₃.address, hc₂.address, hc₁.address]
    show s₂.coordinator.reportTaskCompletion _ = _
    rw [hcoord₂]
    rfl
  · refine ⟨s₂, hstart.trans hleads, hidle, Or.inr ⟨m, address, ?_, ?_, hcoord₂⟩⟩
    · exact TreeMap.mem_toList_iff_getElem?_eq_some.mp hmem
    · exact fun h => hnot (hc₁.fetchable h)

/-- A `RequestTask` call without an error is made and answered. -/
theorem exists_answered (hphase : s.phase w = .idle) (hmain : s.main ≠ .exited) (now : Time)
    {q : Coordinator.Requested}
    (hq : s.coordinator.requestTask now s.coordinator.mapTasks.keys s.coordinator.reduceTasks.keys
      (J.readFile none) = q) (herr : q.err = none) :
    ∃ s', J.cluster.Leads (Working w) s s' ∧ s'.coordinator = q.coordinator ∧
      s'.phase w = .executing (q.coordinator.encode q.reply) := by
  have hask := (Transition.ask (J := J) hphase).leads (w := w) rfl
  set s₁ := (s.setPhase w .asking).setRequest w .sent
  have hrequest := (Transition.requestTask (J := J) (s := s₁) (w := w)
    (by rw [setRequest_requests, if_pos rfl]) hmain ⟨List.Perm.refl _, List.Perm.refl _⟩ hq).leads
    (w := w) ⟨rfl, rfl⟩
  set s₂ := { s₁ with coordinator := q.coordinator }.setRequest w (.answered q.answer)
  have hanswer : q.answer = some (q.coordinator.encode q.reply) := by
    rw [Coordinator.Requested.answer, herr]
  have hdeliver := (Transition.deliver (J := J) (s := s₂) (w := w)
    (by
      show (s.setPhase w .asking).phase w = .asking
      rw [setPhase_phase, if_pos rfl])
    (by rw [setRequest_requests, if_pos rfl, hanswer])).leads (w := w) rfl
  refine ⟨_, hask.trans (hrequest.trans hdeliver), rfl, ?_⟩
  show (s₂.setPhase w _).phase w = _
  rw [setPhase_phase, if_pos rfl]

end Cluster

/-! ## The coordinator has work to give -/

namespace Coordinator

variable {J : Job} {c c' : Coordinator} {id m : TaskID} {now : Time}

/-- A map task is done. -/
def MapDone (c : Coordinator) (m : TaskID) : Prop :=
  ∃ t, c.mapTasks[m]? = some t ∧ t.task.state = .done

/-- A reduce task is done. -/
def ReduceDone (c : Coordinator) (id : TaskID) : Prop :=
  ∃ t, c.reduceTasks[id]? = some t ∧ t.task.state = .done

/-- As long as the job is not done, there is a time at which `RequestTask` does not tell the worker
to wait: when every task that was handed out has timed out. -/
theorem exists_not_isWait (hreach : (coordinatorSystem J.coordinator).Reachable c)
    (hdone : c.done = false) (readFile : GoString → Except GoString GoString) :
    ∃ now, ¬ (c.requestTask now c.mapTasks.keys c.reduceTasks.keys readFile).reply.IsWait := by
  obtain ⟨rs, hrs⟩ := hreach
  obtain ⟨last, hlast⟩ := (rs.map TimedCall.time).toFinset.exists_le
  refine ⟨last + taskTimeout, fun hwait => ?_⟩
  have hnot (id : TaskID) : ¬ RecentlyAssigned J.coordinator rs id (last + taskTimeout) :=
    not_recentlyAssigned hrs
      (fun r hr => hlast r.time (List.mem_toFinset.mpr (List.mem_map_of_mem hr))) le_rfl
  rw [requestTask_isWait_iff (fresh_make J.globalID J.files J.nReduceTasks) hrs _ readFile
    (List.Perm.refl _) (List.Perm.refl _)] at hwait
  -- what is busy was handed out a short time ago, so nothing is left to do
  rcases hwait with ⟨hall, hbusy⟩ | ⟨hall, hbusy⟩
  · have : c.allMapTasksDoneLocked = true := (allMapTasksDoneLocked_iff c).mpr fun id t ht => by
      by_contra hne
      exact hnot id (hbusy id t ht hne).2
    rw [hall] at this
    cases this
  · have : c.done = true := (done_iff c).mpr ⟨(allMapTasksDoneLocked_iff c).mp hall, fun id t ht => by
      by_contra hne
      exact hnot id (hbusy id t ht hne).2⟩
    rw [hdone] at this
    cases this

/-- An assignable task is not done. -/
theorem ne_done_of_assignable {task : Task} (h : shouldAssignTask now task = true) :
    task.state ≠ .done := by
  rw [shouldAssignTask_iff] at h
  rintro hstate
  rw [hstate] at h
  rcases h with h | ⟨h, -⟩ <;> cases h

/-! ## The effect of one turn on the tasks -/

/-- A running map task is not a done one. -/
theorem mapDone_markMapRunning {t : MapTask} (ht : c.mapTasks[id]? = some t)
    (hne : t.task.state ≠ .done) :
    (c.markMapRunning id now).MapDone m ↔ c.MapDone m := by
  by_cases hid : id = m
  · subst hid
    simp [MapDone, ht, hne, Task.markRunning]
  · simp [MapDone, hid]

/-- The first completion of a map task makes it done and no other one. -/
theorem mapDone_finishMap {t t' : MapTask} (ht : c.mapTasks[id]? = some t) (address : GoString) :
    (c.finishMap id t' address).MapDone m ↔ m = id ∨ c.MapDone m := by
  by_cases hid : id = m
  · subst hid
    simp [MapDone, ht]
  · simp [MapDone, hid, Ne.symm hid]

/-- The reset of a map task makes it not done, and no other one. -/
theorem mapDone_resetMap {t t' : MapTask} (ht : c.mapTasks[id]? = some t) :
    (c.resetMap id t').MapDone m ↔ m ≠ id ∧ c.MapDone m := by
  by_cases hid : id = m
  · subst hid
    simp [MapDone, ht]
  · simp [MapDone, hid, Ne.symm hid]

/-- A running reduce task is not a done one. -/
theorem ReduceDone.markReduceRunning {t : ReduceTask} (ht : c.reduceTasks[id]? = some t)
    (hne : t.task.state ≠ .done) {rid : TaskID} (h : c.ReduceDone rid) :
    (c.markReduceRunning id now).ReduceDone rid := by
  have hid : id ≠ rid := by
    rintro rfl
    obtain ⟨t', ht', hstate⟩ := h
    obtain rfl : t = t' := Option.some.inj (ht.symm.trans ht')
    exact hne hstate
  simpa [ReduceDone, hid] using h

/-- A completion of a map task leaves the reduce tasks as they are. -/
theorem ReduceDone.finishMap {rid : TaskID} (h : c.ReduceDone rid) (t : MapTask)
    (address : GoString) : (c.finishMap id t address).ReduceDone rid := by
  obtain ⟨t', ht', hstate⟩ := h
  refine ⟨{ t' with mapTaskOutputs := t'.mapTaskOutputs.insert t.task.id address }, ?_, hstate⟩
  rw [finishMap_reduceTasks, ht', Option.map_some]

/-- The reset of a map task leaves the reduce tasks done. -/
theorem ReduceDone.resetMap {rid : TaskID} (h : c.ReduceDone rid) (t : MapTask) :
    (c.resetMap id t).ReduceDone rid := by
  obtain ⟨t', ht', hstate⟩ := h
  refine ⟨{ t' with mapTaskOutputs := t'.mapTaskOutputs.erase t.task.id }, ?_, hstate⟩
  rw [resetMap_reduceTasks, ht', Option.map_some]

/-- A completion of a reduce task makes it done. -/
theorem reduceDone_finishReduce {t : ReduceTask} (ht : c.reduceTasks[id]? = some t) {rid : TaskID}
    (h : rid = id ∨ c.ReduceDone rid) : (c.finishReduce id).ReduceDone rid := by
  by_cases hid : id = rid
  · subst hid
    simp [ReduceDone, ht]
  · simpa [ReduceDone, hid, Ne.symm hid] using h

/-- The completion report of a map task that was just handed out. -/
theorem report_marked_map {t : MapTask} (ht : c.mapTasks[id]? = some t) (hid : t.task.id = id)
    (htype : t.task.type = .map) (address : GoString) :
    (c.markMapRunning id now).reportTaskCompletion ⟨t.task.markRunning now, address⟩ =
      (c.markMapRunning id now).finishMap id { t with task := t.task.markRunning now } address := by
  simp [reportTaskCompletion, Task.markRunning, htype, hid, ht]

/-- The completion report of a reduce task that was just handed out. -/
theorem report_marked_reduce {t : ReduceTask} (ht : c.reduceTasks[id]? = some t)
    (hid : t.task.id = id) (htype : t.task.type = .reduce) (address : GoString) :
    (c.markReduceRunning id now).reportTaskCompletion ⟨t.task.markRunning now, address⟩ =
      (c.markReduceRunning id now).finishReduce id := by
  simp [reportTaskCompletion, Task.markRunning, htype, hid, ht]

end Coordinator

/-! ## The distance to the end -/

section Distance

open Coordinator

variable {n : ℕ} {c c' : Coordinator} {F F' : TaskID → GoString → ℕ → Prop} {m : TaskID}

/-- The output of a map task is registered under an address from which every bucket of it can be
fetched; `F` says what can be fetched. -/
def Served (n : ℕ) (c : Coordinator) (F : TaskID → GoString → ℕ → Prop) (m : TaskID) : Prop :=
  ∃ address, c.Registered m (some address) ∧ ∀ b < n, F m address b

open Classical in
/-- The turns that a map task still needs. -/
noncomputable def mapDistance (n : ℕ) (c : Coordinator) (F : TaskID → GoString → ℕ → Prop)
    (m : TaskID) : ℕ :=
  if c.MapDone m then if Served n c F m then 0 else 2 else 1

open Classical in
/-- The turns that a reduce task still needs. -/
noncomputable def reduceDistance (c : Coordinator) (id : TaskID) : ℕ :=
  if c.ReduceDone id then 0 else 1

/-- The turns that a job still needs. -/
noncomputable def Job.distance (J : Job) (c : Coordinator) (F : TaskID → GoString → ℕ → Prop) : ℕ :=
  (J.mapIDs.map (mapDistance J.nReduceTasks c F)).sum +
    ((List.range J.nReduceTasks).map fun b => reduceDistance c (J.reduceID b)).sum

theorem mapDistance_le (hdone : c'.MapDone m ↔ c.MapDone m)
    (hreg : ∀ address, c.Registered m address → c'.Registered m address)
    (hF : ∀ address b, F m address b → F' m address b) :
    mapDistance n c' F' m ≤ mapDistance n c F m := by
  rw [mapDistance, mapDistance]
  by_cases hd : c.MapDone m
  · rw [if_pos hd, if_pos (hdone.mpr hd)]
    by_cases hserved : Served n c F m
    · obtain ⟨address, haddress, hserved'⟩ := hserved
      rw [if_pos ⟨address, hreg _ haddress, fun b hb => hF address b (hserved' b hb)⟩]
      exact Nat.zero_le _
    · rw [if_neg hserved]
      split <;> omega
  · rw [if_neg hd, if_neg fun h => hd (hdone.mp h)]

theorem mapDistance_of_not_done (h : ¬ c.MapDone m) : mapDistance n c F m = 1 := by
  rw [mapDistance, if_neg h]

theorem mapDistance_of_served (h : c.MapDone m) (hserved : Served n c F m) :
    mapDistance n c F m = 0 := by
  rw [mapDistance, if_pos h, if_pos hserved]

theorem mapDistance_of_not_served (h : c.MapDone m) (hserved : ¬ Served n c F m) :
    mapDistance n c F m = 2 := by
  rw [mapDistance, if_pos h, if_neg hserved]

theorem reduceDistance_le {id : TaskID} (h : c.ReduceDone id → c'.ReduceDone id) :
    reduceDistance c' id ≤ reduceDistance c id := by
  simp only [reduceDistance]
  split
  · exact Nat.zero_le _
  · next hnot => rw [if_neg fun hdone => hnot (h hdone)]

variable {J : Job}

/-- A turn that brings one map task closer and takes no task back. -/
theorem distance_lt_of_map (hm : m ∈ J.mapIDs)
    (hlt : mapDistance J.nReduceTasks c' F' m < mapDistance J.nReduceTasks c F m)
    (hle : ∀ m', m' ≠ m →
      mapDistance J.nReduceTasks c' F' m' ≤ mapDistance J.nReduceTasks c F m')
    (hreduce : ∀ id, c.ReduceDone id → c'.ReduceDone id) : J.distance c' F' < J.distance c F := by
  refine Nat.add_lt_add_of_lt_of_le (List.sum_lt_sum _ _ (fun m' _ => ?_) ⟨m, hm, hlt⟩)
    (List.sum_le_sum fun b _ => reduceDistance_le (hreduce _))
  by_cases heq : m' = m
  · exact heq ▸ hlt.le
  · exact hle m' heq

/-- A turn that finishes a reduce task and takes no task back. -/
theorem distance_lt_of_reduce {b : ℕ} (hb : b < J.nReduceTasks) (hnot : ¬ c.ReduceDone (J.reduceID b))
    (hdone : c'.ReduceDone (J.reduceID b)) (hreduce : ∀ id, c.ReduceDone id → c'.ReduceDone id)
    (hle : ∀ m, mapDistance J.nReduceTasks c' F' m ≤ mapDistance J.nReduceTasks c F m) :
    J.distance c' F' < J.distance c F := by
  refine Nat.add_lt_add_of_le_of_lt (List.sum_le_sum fun m _ => hle m)
    (List.sum_lt_sum _ _ (fun b' _ => reduceDistance_le (hreduce _))
      ⟨b, List.mem_range.mpr hb, ?_⟩)
  rw [reduceDistance, reduceDistance, if_pos hdone, if_neg hnot]
  exact Nat.one_pos

end Distance

namespace Cluster

variable {J : Job} {w : ℕ} {s s' : Cluster}

/-- The turns that the job still needs when worker `w` takes them. -/
noncomputable def distance (J : Job) (w : ℕ) (s : Cluster) : ℕ :=
  J.distance s.coordinator (s.Fetchable w)

/-- **One turn with a map task**: the task is finished, and its output can be fetched. -/
theorem exists_closer_of_map (hn : 1 ≤ J.nReduceTasks) (hreach : J.cluster.Reachable s)
    (hmain : s.main ≠ .exited) {s₁ : Cluster} (hleads : J.cluster.Leads (Working w) s s₁) {now : Time}
    {id : TaskID} {t : MapTask} (ht : s.coordinator.mapTasks[id]? = some t)
    (hne : t.task.state ≠ .done) (hc : s₁.coordinator = s.coordinator.markMapRunning id now)
    (hphase : s₁.phase w = .executing { task := some (t.task.markRunning now)
                                        mapData := some ⟨t.file, J.content t.file, t.buckets⟩
                                        reduceData := none }) :
    ∃ s', J.cluster.Leads (Working w) s s' ∧ s'.phase w = .idle ∧
      distance J w s' < distance J w s := by
  obtain ⟨i, hi, hid, htid, htype, hbuckets⟩ := Job.mapTask_spec (coordinator_reachable hreach) ht
  have hcarried := Carried.of_leads hleads
  have hexec : executeTask { task := some (t.task.markRunning now)
                             mapData := some ⟨t.file, J.content t.file, t.buckets⟩
                             reduceData := none } =
      .runMapTask (t.task.markRunning now) ⟨t.file, J.content t.file, t.buckets⟩ := by
    simp [executeTask, Task.markRunning, htype]
  obtain ⟨s₂, hmapped, hidle, hc₂, hfiles⟩ := exists_mapped (J := J) (s := s₁) (w := w)
    (hcarried.main ▸ hmain) hphase hexec (by rw [hbuckets]; exact hn)
  have hcarried₂ := hcarried.trans _ _ _ (Carried.of_leads hmapped)
  rw [hc, Coordinator.report_marked_map ht htid htype] at hc₂
  refine ⟨s₂, hleads.trans hmapped, hidle, ?_⟩
  have hmarked : (s.coordinator.markMapRunning id now).mapTasks[id]? =
      some { t with task := t.task.markRunning now } := by simp [ht]
  have hdone (m : TaskID) : ((s.coordinator.markMapRunning id now).finishMap id
      { t with task := t.task.markRunning now } (s₁.workers w).address).MapDone m ↔
      m = id ∨ s.coordinator.MapDone m := by
    rw [Coordinator.mapDone_finishMap hmarked, Coordinator.mapDone_markMapRunning ht hne]
  rw [distance, distance, hc₂]
  refine distance_lt_of_map (m := id) ?_ ?_ (fun m hm => mapDistance_le ?_ ?_ ?_)
    fun rid hrid => Coordinator.ReduceDone.finishMap (c := s.coordinator.markMapRunning id now) hrid _ _
  · exact (Job.mem_mapTasks_iff (coordinator_reachable hreach) id).mp (mem_iff_exists.mpr ⟨t, ht⟩)
  · rw [mapDistance_of_served ((hdone id).mpr (Or.inl rfl)), mapDistance_of_not_done]
    · exact Nat.one_pos
    · rintro ⟨t', ht', hstate⟩
      obtain rfl : t = t' := Option.some.inj (ht.symm.trans ht')
      exact hne hstate
    · -- the worker has all buckets of the task in its own files
      refine ⟨(s₁.workers w).address, ?_, fun b hb => ⟨w, ?_, ?_⟩⟩
      · have := (s.coordinator.markMapRunning id now).registered_finishMap id
          { t with task := t.task.markRunning now } (s₁.workers w).address
        rwa [show (t.task.markRunning now).id = id from htid] at this
      · rw [Serves, (Carried.of_leads hmapped).address, if_pos rfl]
      · have := hfiles b (by rwa [hbuckets])
        rwa [← (Carried.of_leads hmapped).dir, show (t.task.markRunning now).id = id from htid] at this
  · rw [hdone]
    simp [hm]
  · intro address haddress
    have hreg : (s.coordinator.markMapRunning id now).Registered m address := haddress
    refine hreg.finishMap id ?_ _
    show t.task.id ≠ m
    rw [htid]
    exact Ne.symm hm
  · exact fun address b => hcarried₂.fetchable

/-- **One turn with a reduce task**: the task is finished, or a map output that nobody serves is
given up. -/
theorem exists_closer_of_reduce (hreach : J.cluster.Reachable s) (hmain : s.main ≠ .exited)
    {s₁ : Cluster} (hleads : J.cluster.Leads (Working w) s s₁) {now : Time} {id : TaskID}
    {t : ReduceTask} (ht : s.coordinator.reduceTasks[id]? = some t) (hne : t.task.state ≠ .done)
    (hc : s₁.coordinator = s.coordinator.markReduceRunning id now)
    (hphase : s₁.phase w = .executing { task := some (t.task.markRunning now)
                                        mapData := none
                                        reduceData := some ⟨t.bucket, t.mapTaskOutputs⟩ }) :
    ∃ s', J.cluster.Leads (Working w) s s' ∧ s'.phase w = .idle ∧
      distance J w s' < distance J w s := by
  obtain ⟨hb, hid, htid, htype⟩ := Job.reduceTask_spec (coordinator_reachable hreach) ht
  have hcarried := Carried.of_leads hleads
  have hexec : executeTask { task := some (t.task.markRunning now)
                             mapData := none
                             reduceData := some ⟨t.bucket, t.mapTaskOutputs⟩ } =
      .runReduceTask (t.task.markRunning now) ⟨t.bucket, t.mapTaskOutputs⟩ := by
    simp [executeTask, Task.markRunning, htype]
  obtain ⟨s₂, hreduced, hidle, hend⟩ := exists_reduced (J := J) (s := s₁) (w := w)
    (hcarried.main ▸ hmain) hphase hexec
  have hcarried₂ := hcarried.trans _ _ _ (Carried.of_leads hreduced)
  have hmarked : (s.coordinator.markReduceRunning id now).reduceTasks[id]? =
      some { t with task := t.task.markRunning now } := by simp [ht]
  have hreg {m : TaskID} {address : Option GoString} (h : s.coordinator.Registered m address) :
      (s.coordinator.markReduceRunning id now).Registered m address :=
    h.of_modify (f := (·.markRunning now)) (s.coordinator.markReduceRunning_reduceTasks id · now)
  refine ⟨s₂, hleads.trans hreduced, hidle, ?_⟩
  rw [distance, distance]
  rcases hend with hc₂ | ⟨m, address, houtput, hnot, hc₂⟩
  · rw [hc, Coordinator.report_marked_reduce ht htid htype] at hc₂
    rw [hc₂]
    subst hid
    refine distance_lt_of_reduce hb ?_ (Coordinator.reduceDone_finishReduce hmarked (Or.inl rfl))
      (fun rid hrid => Coordinator.reduceDone_finishReduce hmarked
        (Or.inr (hrid.markReduceRunning ht hne)))
      fun m => mapDistance_le Iff.rfl (fun address haddress => ?_) fun address b =>
        hcarried₂.fetchable
    · rintro ⟨t', ht', hstate⟩
      obtain rfl : t = t' := Option.some.inj (ht.symm.trans ht')
      exact hne hstate
    · exact (hreg haddress).of_modify (f := ({ · with state := .done }))
        (Coordinator.finishReduce_reduceTasks _ _)
  · -- the output was registered, so its map task was done
    have hreach' := coordinator_reachable hreach
    obtain ⟨rs, hrs⟩ := hreach'
    obtain ⟨tm, htm, hdone⟩ := (Coordinator.mem_mapTaskOutputs_iff
      (Coordinator.fresh_make J.globalID J.files J.nReduceTasks) hrs ht m).mp
        (mem_iff_exists.mpr ⟨address, houtput⟩)
    obtain ⟨-, -, -, htmid, -⟩ := Job.mapTask_spec ⟨rs, hrs⟩ htm
    have hreset : (s.coordinator.markReduceRunning id now).reportMissingMapOutputs ⟨m⟩ =
        (s.coordinator.markReduceRunning id now).resetMap m tm := by
      simp [Coordinator.reportMissingMapOutputs, htm, hdone]
    rw [hc₂, hc, hreset]
    have hdone' (m' : TaskID) : ((s.coordinator.markReduceRunning id now).resetMap m tm).MapDone m' ↔
        m' ≠ m ∧ s.coordinator.MapDone m' := Coordinator.mapDone_resetMap (t := tm) htm
    refine distance_lt_of_map (m := m) ?_ ?_ (fun m' hm' => mapDistance_le ?_ ?_ ?_)
      fun rid hrid => (hrid.markReduceRunning ht hne).resetMap tm
    · exact (Job.mem_mapTasks_iff ⟨rs, hrs⟩ m).mp (mem_iff_exists.mpr ⟨tm, htm⟩)
    · rw [mapDistance_of_not_done (by simp [hdone']), mapDistance_of_not_served ⟨tm, htm, hdone⟩]
      · exact Nat.one_lt_two
      · rintro ⟨address', haddress', hserved⟩
        obtain rfl : address = address' :=
          Option.some.inj (houtput.symm.trans (haddress' id t ht))
        exact hnot (hcarried.fetchable (hserved t.bucket hb))
    · rw [hdone']
      simp [hm']
    · exact fun address' haddress' => (hreg haddress').resetMap m (by rw [htmid]; exact Ne.symm hm')
    · exact fun address' b => hcarried₂.fetchable

/-- **One turn of the worker loop** brings a job that is not done closer to its end. -/
theorem exists_closer (hn : 1 ≤ J.nReduceTasks) (hreach : J.cluster.Reachable s)
    (hphase : s.phase w = .idle) (hmain : s.main ≠ .exited) (hdone : s.coordinator.done = false) :
    ∃ s', J.cluster.Leads (Working w) s s' ∧ s'.phase w = .idle ∧
      distance J w s' < distance J w s := by
  obtain ⟨now, hwait⟩ := Coordinator.exists_not_isWait (coordinator_reachable hreach) hdone
    (J.readFile none)
  have hanswered := fun herr => exists_answered (J := J) hphase hmain now rfl herr
  rcases s.coordinator.requestTask_cases now (J.readFile none)
      (List.Perm.refl s.coordinator.mapTasks.keys) (List.Perm.refl s.coordinator.reduceTasks.keys) with
    ⟨id, t, ht, hassign, hc, htask, hreduce, hread⟩ | ⟨-, -, heq⟩ | ⟨-, id, t, ht, hassign, heq⟩ |
    ⟨-, -, heq⟩
  · obtain ⟨err, hread, -⟩ | ⟨content, hread, hdata, herr⟩ := hread
    · cases hread
    · cases hread
      obtain ⟨s₁, hleads, hc₁, hphase₁⟩ := hanswered herr
      refine exists_closer_of_map hn hreach hmain hleads ht
        (Coordinator.ne_done_of_assignable hassign) (hc₁.trans hc) ?_
      rw [hphase₁, Coordinator.encode, htask, hdata, hreduce, hc]
      simp [Coordinator.deref, ht]
  · exact absurd (heq ▸ Coordinator.waitReply_isWait now) hwait
  · obtain ⟨s₁, hleads, hc₁, hphase₁⟩ := hanswered (by rw [heq])
    rw [heq] at hc₁ hphase₁
    refine exists_closer_of_reduce hreach hmain hleads ht (Coordinator.ne_done_of_assignable hassign)
      hc₁ ?_
    rw [hphase₁, Coordinator.encode]
    simp [Coordinator.deref, ht]
  · exact absurd (heq ▸ Coordinator.waitReply_isWait now) hwait

/-- A running worker can complete the job. -/
theorem exists_done (hn : 1 ≤ J.nReduceTasks) (hreach : J.cluster.Reachable s)
    (hphase : s.phase w = .idle) (hmain : s.main ≠ .exited) :
    ∃ s', J.cluster.Leads (Working w) s s' ∧ s'.main ≠ .exited ∧ s'.coordinator.done = true := by
  have hprogress (s : Cluster) (hs : J.cluster.Reachable s ∧ s.phase w = .idle ∧ s.main ≠ .exited)
      (hnot : ¬ s.coordinator.done = true) : ∃ s', J.cluster.Leads (Working w) s s' ∧
        (J.cluster.Reachable s' ∧ s'.phase w = .idle ∧ s'.main ≠ .exited) ∧
        distance J w s' < distance J w s := by
    obtain ⟨hreach, hphase, hmain⟩ := hs
    obtain ⟨s', hleads, hidle, hlt⟩ :=
      exists_closer hn hreach hphase hmain (Bool.eq_false_iff.mpr hnot)
    exact ⟨s', hleads, ⟨hreach.leads hleads, hidle, by rwa [(Carried.of_leads hleads).main]⟩, hlt⟩
  obtain ⟨s', hleads, ⟨-, -, hmain'⟩, hdone⟩ := System.exists_leads_of_measure
    (Q := fun s : Cluster => s.coordinator.done = true) (distance J w) hprogress
    ⟨hreach, hphase, hmain⟩
  exact ⟨s', hleads, hmain', hdone⟩

/-- The coordinator process of a job that is done exits. -/
theorem exists_exited (hmain : s.main ≠ .exited) (hdone : s.coordinator.done = true) :
    ∃ s', J.cluster.Leads (Faultless w) s s' ∧ s'.coordinator.done = true ∧ s'.main = .exited := by
  have hexit (s : Cluster) (hmain : s.main = .leaving) :
      J.cluster.Leads (Faultless w) s { s with main := .exited } :=
    .step (Or.inr (Or.inr (Or.inr rfl))) (Transition.exit hmain).step
  cases hphase : s.main with
  | polling =>
      have hpoll : J.cluster.Leads (Faultless w) s { s with main := .leaving } :=
        .step (Or.inr (Or.inr (Or.inl rfl))) (Transition.pollDone hphase hdone).step
      exact ⟨_, hpoll.trans (hexit _ rfl), hdone, rfl⟩
  | leaving => exact ⟨_, hexit s hphase, hdone, rfl⟩
  | exited => exact absurd hphase hmain

end Cluster

/-- **No state of a cluster is a dead end.** In every reachable state of a job with at least one
reduce task whose coordinator process has not exited, whatever workers have crashed or stalled and
whatever files and reports are lost or late, a new worker process with any address and directory can
complete the job alone and without a fault, and the coordinator process exits. -/
theorem job_recoverable (J : Job) (hn : 1 ≤ J.nReduceTasks) (s : Cluster) (h : J.cluster.Reachable s)
    (hmain : s.main ≠ .exited) (w : ℕ) (habsent : s.phase w = .absent) (address : GoString)
    (dir : ℕ) :
    ∃ as s', J.cluster.exec s (.start w address dir :: as) = some s' ∧
      J.cluster.Along (Cluster.Faultless w) s (.start w address dir :: as) ∧
      s'.coordinator.done = true ∧ s'.main = .exited := by
  have hstart : J.cluster.step s (.start w address dir) = some _ :=
    (Cluster.Transition.start habsent).step
  obtain ⟨s₁, hwork, hmain₁, hdone⟩ :=
    Cluster.exists_done hn (h.step hstart) (w := w) (by rw [Cluster.start_phase, if_pos rfl]) hmain
  obtain ⟨s₂, hexit, hdone', hmain₂⟩ := Cluster.exists_exited (J := J) (w := w) hmain₁ hdone
  obtain ⟨as, has, hfaultless⟩ := (hwork.mono fun _ _ => Or.inl).trans hexit
  refine ⟨as, s₂, by rw [System.exec_cons, hstart, Option.bind_some, has], ⟨?_, fun s' hs' => ?_⟩,
    hdone', hmain₂⟩
  · exact Or.inr (Or.inl ⟨address, dir, rfl⟩)
  · obtain rfl := Option.some.inj (hstart.symm.trans hs')
    exact hfaultless

/-- The process was not started. -/
def Phase.isAbsent : Phase → Bool
  | .absent => true
  | _ => false

theorem Phase.eq_absent {p : Phase} (h : p.isAbsent = true) : p = .absent := by
  cases p with
  | absent => rfl
  | _ => cases h

/-- Worker 0 finishes the only map task and is killed, and its files are lost. -/
def lostRun : List Action :=
  [.start 0 [10] 0, .ask 0, .requestTask 0 0 [1] [2, 3] none, .deliver 0, .callMapf 0 [⟨[7], [1]⟩],
    .writeBucket 0, .writeBucket 0, .report 0, .handleCompletion 0, .crash 0, .wipe 0]

/-- Worker 1 can complete the job after the output of its only map task is lost. -/
theorem job_recoverable_lostRun :
    ∃ s, twoBuckets.cluster.exec twoBuckets.cluster.init lostRun = some s ∧
      ∃ as s', twoBuckets.cluster.exec s (.start 1 [11] 1 :: as) = some s' ∧
        twoBuckets.cluster.Along (Cluster.Faultless 1) s (.start 1 [11] 1 :: as) ∧
        s'.coordinator.done = true ∧ s'.main = .exited := by
  have hrun : ((twoBuckets.cluster.exec twoBuckets.cluster.init lostRun).map fun s =>
      (s.main, (s.phase 1).isAbsent)) = some (.polling, true) := by
    decide +kernel
  obtain ⟨s, hs, hstate⟩ := Option.map_eq_some_iff.mp hrun
  obtain ⟨hmain, habsent⟩ := Prod.mk.inj hstate
  exact ⟨s, hs, job_recoverable twoBuckets (by decide) s ⟨_, hs⟩ (by rw [hmain]; decide) 1
    (Phase.eq_absent habsent) [11] 1⟩

end DistributedSystems.MapReduce
