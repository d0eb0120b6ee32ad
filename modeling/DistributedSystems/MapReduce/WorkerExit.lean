import DistributedSystems.MapReduce.ReplyEncoding

/-! # When a worker leaves

`Worker` returns when `CallCoordinator` is false, which it takes for the end of the job.
`CallCoordinator` is false when the coordinator's process is gone, and also when the handler of the
call returns an error; `RequestTask` returns one when it cannot read the input file of the map task
it picked.

* `returned_after_done` — a worker returns only after `Done` was true, in every run in which no
  `RequestTask` call before that fails to read a file.
* `worker_leaves_early` — a worker that is told of a read error leaves an unfinished job. -/

namespace DistributedSystems.MapReduce

/-- `Done` was true at some point of the run. -/
def Job.WasDone (J : Job) (as : List Action) : Prop :=
  ∃ bs cs s, as = bs ++ cs ∧ J.cluster.exec J.cluster.init bs = some s ∧ s.coordinator.done = true

theorem Job.WasDone.append {J : Job} {as : List Action} (h : J.WasDone as) (bs : List Action) :
    J.WasDone (as ++ bs) := by
  obtain ⟨ds, cs, s, rfl, hs, hdone⟩ := h
  exact ⟨ds, cs ++ bs, s, List.append_assoc _ _ _, hs, hdone⟩

/-- The step loses a `RequestTask` call although the coordinator's process lives. -/
def Cluster.losesCall (s : Cluster) : Action → Bool
  | .loseRequest _ => s.main ≠ .exited
  | _ => false

/-- The step handles a `RequestTask` call that picks a map task, and its file cannot be read. -/
def Cluster.failsRequest (s : Cluster) : Action → Bool
  | .requestTask _ now mapOrder _ readErr | .decideTask _ now mapOrder _ readErr =>
      readErr.isSome && (s.coordinator.pickMapTaskLocked now mapOrder).isSome
  | _ => false

/-- The handler returns an error only when it cannot read the file of the map task it picked. -/
theorem Job.err_requestTask (J : Job) {c : Coordinator} {now : Time}
    {mapOrder reduceOrder : List TaskID} {readErr : Option GoString}
    (h : (readErr.isSome && (c.pickMapTaskLocked now mapOrder).isSome) = false) :
    (c.requestTask now mapOrder reduceOrder (J.readFile readErr)).err = none := by
  unfold Coordinator.requestTask
  cases hpick : c.pickMapTaskLocked now mapOrder with
  | none =>
      dsimp only
      split
      · rfl
      · split <;> rfl
  | some entry =>
      obtain rfl : readErr = none := by simpa [hpick] using h
      rfl

/-- Every `RequestTask` call that is handled before `Done` was true reads the file it needs. -/
def Job.ReadsUntilDone (J : Job) (as : List Action) : Prop :=
  ∀ bs a cs s, as = bs ++ a :: cs → J.cluster.exec J.cluster.init bs = some s →
    s.failsRequest a = true → J.WasDone bs

namespace Cluster

variable {J : Job} {s s' : Cluster} {a : Action} {w : ℕ}

/-- Nobody has a reason to leave: the coordinator polls, no call was answered with an error, and no
worker has returned. -/
structure Staying (s : Cluster) : Prop where
  /-- The coordinator's process polls `Done`. -/
  polling : s.main = .polling
  /-- No call was answered with an error. -/
  answered : ∀ w, s.requests w ≠ .answered none
  /-- No worker has returned. -/
  working : ∀ w, s.phase w ≠ .returned

theorem Staying.setPhase (h : s.Staying) {p : Phase} (hp : p ≠ .returned) :
    (s.setPhase w p).Staying where
  polling := h.polling
  answered := h.answered
  working v := forall_phase_setPhase (P := fun p => p ≠ .returned) w v h.working hp

theorem Staying.setRequest (h : s.Staying) {r : Request} (hr : r ≠ .answered none) :
    (s.setRequest w r).Staying where
  polling := h.polling
  answered v := forall_setRequest (P := fun r => r ≠ .answered none) w v h.answered hr
  working := h.working

/-- **One step before the end gives nobody a reason to leave.** -/
theorem Staying.step (h : s.Staying) (ht : s.Transition J a s') (hdone : s.coordinator.done ≠ true)
    (hlose : s.losesCall a = false) (hfail : s.failsRequest a = false) : s'.Staying := by
  cases ht with
  | @start w address dir hphase =>
      exact ⟨h.polling, h.answered, fun v => forall_phase_start (P := fun p => p ≠ .returned) w v
        h.working (by simp) address dir⟩
  | ask => exact (h.setPhase (p := .asking) (by simp)).setRequest (by simp)
  | @requestTask w now mapOrder reduceOrder readErr hrequest hmain hord q hq =>
      have hc : { s with coordinator := q.coordinator }.Staying := ⟨h.polling, h.answered, h.working⟩
      have herr : q.err = none := by
        rw [← hq]
        exact J.err_requestTask hfail
      exact hc.setRequest (by simp [Coordinator.Requested.answer, herr])
  | @decideTask w now mapOrder reduceOrder readErr hrequest hmain hord q hq =>
      have hc : { s with coordinator := q.coordinator }.Staying := ⟨h.polling, h.answered, h.working⟩
      have herr : q.err = none := by
        rw [← hq]
        exact J.err_requestTask hfail
      exact hc.setRequest (by simp [Coordinator.Requested.decided, herr])
  | encodeReply => exact h.setRequest (by simp)
  | @deliver w reply => exact (h.setPhase (p := .executing reply) (by simp)).setRequest (by simp)
  -- a worker leaves here only with an error, and none was answered
  | deliverError hphase hrequest => exact absurd hrequest (h.answered _)
  -- the process lives, so no call to it is lost
  | loseRequest => simp [losesCall, h.polling] at hlose
  | @writeBucket w task buckets next keyValues hphase =>
      have hw := h.setPhase (w := w) (p := .storing task buckets (next + 1)) (by simp)
      exact ⟨hw.polling, hw.answered, hw.working⟩
  | @createOutput w keyOrder task data read contents reduced =>
      have hw := h.setPhase (w := w) (p := .writing task data read reduced 0) (by simp)
      exact ⟨hw.polling, hw.answered, hw.working⟩
  | @writeLine w task data read kv lines offset =>
      have hw := h.setPhase (w := w)
        (p := .writing task data read lines (offset + (formatLine kv).length)) (by simp)
      exact ⟨hw.polling, hw.answered, hw.working⟩
  | @fetchFails w | @reportMap w | @reportReduce w =>
      have hw := h.setPhase (w := w) (p := .reporting) (by simp)
      exact ⟨hw.polling, hw.answered, hw.working⟩
  | crash | callMapf | startReduce | fetchBucket | loseLine | giveUp | returnCall =>
      exact h.setPhase (by simp)
  | wipe | handleCompletion | handleMissing => exact ⟨h.polling, h.answered, h.working⟩
  -- the process does not go beyond polling before `Done` is true
  | pollDone hmain hpoll => exact absurd hpoll hdone
  | exit hmain => rw [h.polling] at hmain; cases hmain

/-- Nobody has a reason to leave at the start. -/
theorem staying_init : J.cluster.init.Staying where
  polling := rfl
  answered _ h := by cases h
  working _ h := by cases h

/-- **Until `Done` is true, nobody has a reason to leave**, if no call before that is lost or
fails. -/
theorem wasDone_or_staying {as : List Action} (h : J.cluster.exec J.cluster.init as = some s)
    (hlive : J.cluster.Along (fun t a => t.losesCall a = false) J.cluster.init as)
    (hread : J.ReadsUntilDone as) : J.WasDone as ∨ s.Staying := by
  refine System.exec_induction (P := fun as s =>
    J.cluster.Along (fun t a => t.losesCall a = false) J.cluster.init as →
    J.ReadsUntilDone as → J.WasDone as ∨ s.Staying)
    (fun _ _ => Or.inr staying_init) ?_ h hlive hread
  intro as s a s' hrun ih hstep hlive hread
  have hold := ih hlive.left fun bs b cs t has => hread bs b (cs ++ [a]) t (by simp [has])
  -- once `Done` was true, it was true in every longer run
  rcases hold with hwas | hstay
  · exact Or.inl (hwas.append [a])
  · by_cases hdone : s.coordinator.done = true
    · exact Or.inl ⟨as, [a], s, rfl, hrun, hdone⟩
    · cases hfail : s.failsRequest a with
      -- a call may fail to read only after `Done` was true
      | true => exact Or.inl ((hread as a [] s rfl hrun hfail).append [a])
      | false =>
          have hlose : s.losesCall a = false := hlive.at hrun
          exact Or.inr (hstay.step (step_transition hstep) hdone hlose hfail)

end Cluster

/-- **No worker leaves early.** In every run in which no call to the live coordinator is lost, and
in which every `RequestTask` call that is handled before `Done` was true reads the file it needs,
and any other operation may fail: when a worker has returned, `Done` was true before. -/
theorem returned_after_done (J : Job) (as : List Action) (s : Cluster)
    (h : J.cluster.exec J.cluster.init as = some s)
    (hlive : J.cluster.Along (fun t a => t.losesCall a = false) J.cluster.init as)
    (hread : J.ReadsUntilDone as) (w : ℕ) (hreturned : s.phase w = .returned) :
    J.WasDone as :=
  (Cluster.wasDone_or_staying h hlive hread).resolve_right fun hstay => hstay.working w hreturned

/-- Worker 0 maps and reduces; the coordinator's process sees that the job is done and exits, and
the next call of the worker finds nobody. -/
def leavesLast : List Action :=
  [.start 0 [10] 0, .ask 0, .requestTask 0 0 [1] [2] none, .deliver 0, .callMapf 0 [⟨[7], [1]⟩],
    .writeBucket 0, .report 0, .handleCompletion 0, .returnCall 0,
    .ask 0, .requestTask 0 1 [1] [2] none, .deliver 0, .startReduce 0 [(1, [10])], .fetchBucket 0 0,
    .createOutput 0 [[7]], .writeLine 0, .report 0, .handleCompletion 0, .returnCall 0,
    .pollDone, .exit, .ask 0, .loseRequest 0]

/-- When the worker has returned, `Done` was true. -/
theorem returned_after_done_leavesLast : oneBucket.WasDone leavesLast := by
  have hreads : oneBucket.cluster.Along (fun s a => s.failsRequest a = false)
      oneBucket.cluster.init leavesLast := by decide +kernel
  refine returned_after_done oneBucket leavesLast _ rfl (by decide +kernel) ?_ 0 rfl
  rintro bs a cs s has hs hfail
  rw [has] at hreads
  rw [hreads.at hs] at hfail
  cases hfail

/-- Worker 0 asks for a task, and the coordinator cannot read the input file. -/
def readError : List Action :=
  [.start 0 [10] 0, .ask 0, .requestTask 0 0 [1] [2] (some [9]), .deliver 0]

/-- **A worker leaves an unfinished job.** Every call is delivered and answered, the input file
cannot be read, and worker 0 returns although `Done` was never true. -/
theorem worker_leaves_early :
    (∃ s, oneBucket.cluster.exec oneBucket.cluster.init readError = some s ∧
      s.phase 0 = .returned ∧ s.main = .polling) ∧
    oneBucket.cluster.Along (fun s a => s.losesCall a = false) oneBucket.cluster.init readError ∧
    ¬ oneBucket.WasDone readError := by
  refine ⟨⟨_, rfl, rfl, rfl⟩, by decide +kernel, ?_⟩
  rintro ⟨bs, cs, s, has, hs, hdone⟩
  -- the run is short: `Done` is false in each of its states
  have hnever : ∀ bs ∈ readError.inits,
      (oneBucket.cluster.exec oneBucket.cluster.init bs).all (·.coordinator.done = false) := by
    decide +kernel
  have hnot := hnever bs ((List.mem_inits bs readError).mpr ⟨cs, has.symm⟩)
  rw [hs] at hnot
  simp [hdone] at hnot

end DistributedSystems.MapReduce
