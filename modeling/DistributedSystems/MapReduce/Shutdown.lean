import DistributedSystems.MapReduce.ReplyEncoding
import DistributedSystems.Transition.Termination

/-! # After the coordinator has exited, every worker stops

A worker leaves its loop when a call of the coordinator fails. Once the coordinator process has
exited, every call fails, and each process runs only to the end of the task it is in:

* `Phase.remaining` — the stage of a process and what it has left to do in it; every step makes it
  smaller (`Transition.remaining_lt`), so that there is no endless run;
* `Settled` — what holds of the replies and executions of every run, so that a process that has not
  stopped can take a step (`exists_step_of_alive`);
* `workers_stop` — every run ends, and it ends with all processes stopped. -/

namespace DistributedSystems.MapReduce

/-- A step of the cluster itself: no process is started and no directory emptied. -/
def Action.internal : Action → Bool
  | .start .. => false
  | .wipe _ => false
  | _ => true

/-! ## What a process has left to do -/

/-- How far a process is from its end once the coordinator is gone: its stage, and what it has left
to do in it. -/
def Phase.remaining (request : Request) : Phase → ℕ × ℕ
  | .absent => (0, 0)
  | .returned => (0, 0)
  | .dead => (0, 0)
  -- an answer from before the exit may still arrive
  | .asking => match request with
      | .answered (some _) => (8, 0)
      | _ => (1, 0)
  | .idle => (2, 0)
  | .reporting => (3, 0)
  | .writing _ _ _ lines _ => (4, lines.length)
  | .fetching _ _ todo _ _ => (5, todo.length)
  | .storing _ buckets next => (6, buckets.length - next)
  | .executing _ => (7, 0)

/-- A later stage, or less to do in the same stage. -/
def Closer : ℕ × ℕ → ℕ × ℕ → Prop := Prod.Lex (· < ·) (· < ·)

theorem wellFounded_closer : WellFounded Closer := WellFounded.prod_lex Nat.lt_wfRel.wf Nat.lt_wfRel.wf

theorem closer_of_stage {i j k l : ℕ} (h : i < j) : Closer (i, k) (j, l) := Prod.Lex.left _ _ h

theorem closer_of_rest {i k l : ℕ} (h : k < l) : Closer (i, k) (i, l) := Prod.Lex.right _ h

namespace Cluster

variable {J : Job} {s s' : Cluster} {a : Action} {w : ℕ}

/-- What each process has left to do. -/
def remaining (s : Cluster) (v : ℕ) : ℕ × ℕ := (s.phase v).remaining (s.requests v)

/-- A step of worker `w` changes what `w` has left to do. -/
theorem remaining_setPhase (p : Phase) :
    (s.setPhase w p).remaining = Function.update s.remaining w (p.remaining (s.requests w)) := by
  funext v
  rw [remaining, setPhase_phase, Function.update_apply]
  split
  · next hv =>
      subst hv
      rfl
  · rfl

/-- A step of worker `w` and of its call changes what `w` has left to do. -/
theorem remaining_setRequest (p : Phase) (r : Request) :
    ((s.setPhase w p).setRequest w r).remaining = Function.update s.remaining w (p.remaining r) := by
  funext v
  have hphase : ((s.setPhase w p).setRequest w r).phase v = (s.setPhase w p).phase v := rfl
  rw [remaining, hphase, setPhase_phase, setRequest_requests, Function.update_apply]
  split
  · rfl
  · rfl

/-- A running process has something left to do. -/
theorem closer_of_alive {p : Phase} (h : p.alive = true) (r : Request) :
    Closer (0, 0) (p.remaining r) := by
  cases p with
  | absent | returned | dead => cases h
  | asking =>
      simp only [Phase.remaining]
      split
      · exact closer_of_stage (by omega)
      · exact closer_of_stage (by omega)
  | _ => exact closer_of_stage (by omega)

/-- An execution that returns without a report is followed by the head of the loop. -/
theorem closer_of_mayGiveUp {p : Phase} (h : p.mayGiveUp = true) (r : Request) :
    Closer (Phase.remaining r .idle) (p.remaining r) := by
  cases p with
  | executing | storing | fetching => exact closer_of_stage (by omega)
  | _ => cases h

/-- **Every step after the exit of the coordinator** is one of a process that comes closer to its
end. -/
theorem Transition.remaining_lt (h : s.Transition J a s') (hmain : s.main = .exited)
    (ha : a.internal = true) :
    s'.main = .exited ∧ ∃ w x, s.phase w ≠ .absent ∧
      s'.remaining = Function.update s.remaining w x ∧ Closer x (s.remaining w) := by
  have move {w : ℕ} {p : Phase} (q : Phase) (hphase : s.phase w = p) (hp : p ≠ .absent)
      (hs' : s'.remaining = (s.setPhase w q).remaining)
      (hcloser : Closer (q.remaining (s.requests w)) (p.remaining (s.requests w))) :
      ∃ w x, s.phase w ≠ .absent ∧
        s'.remaining = Function.update s.remaining w x ∧ Closer x (s.remaining w) := by
    refine ⟨w, q.remaining (s.requests w), hphase ▸ hp, hs'.trans (remaining_setPhase q), ?_⟩
    rw [remaining, hphase]
    exact hcloser
  cases h with
  | start | wipe => cases ha
  | requestTask _ hexit | decideTask _ hexit | encodeReply _ hexit | handleCompletion _ hexit
  | handleMissing _ hexit => exact absurd hmain hexit
  | pollDone hexit | exit hexit =>
      rw [hmain] at hexit
      cases hexit
  | @crash w halive =>
      refine ⟨hmain, w, _, fun habsent => ?_, remaining_setPhase .dead, closer_of_alive halive _⟩
      rw [habsent] at halive
      cases halive
  | @ask w hphase =>
      refine ⟨hmain, w, _, by rw [hphase]; simp, remaining_setRequest .asking .sent, ?_⟩
      rw [remaining, hphase]
      exact closer_of_stage (by omega)
  | @deliver w reply hphase hrequest =>
      refine ⟨hmain, w, _, by rw [hphase]; simp, remaining_setRequest (.executing reply) .none, ?_⟩
      rw [remaining, hphase, hrequest]
      exact closer_of_stage (by omega)
  | @deliverError w hphase hrequest =>
      refine ⟨hmain, w, _, by rw [hphase]; simp, remaining_setRequest .returned .none, ?_⟩
      rw [remaining, hphase, hrequest]
      exact closer_of_stage (by omega)
  | loseRequest hphase =>
      exact ⟨hmain, move .returned hphase (by simp) rfl (closer_of_alive rfl _)⟩
  | callMapf hphase =>
      exact ⟨hmain, move (.storing _ _ 0) hphase (by simp) rfl (closer_of_stage (by omega))⟩
  | startReduce hphase =>
      exact ⟨hmain, move (.fetching _ _ _ [] []) hphase (by simp) rfl (closer_of_stage (by omega))⟩
  | createOutput hphase =>
      exact ⟨hmain, move (.writing _ _ _ _ 0) hphase (by simp) rfl (closer_of_stage (by omega))⟩
  | reportMap hphase | reportReduce hphase | fetchFails hphase =>
      exact ⟨hmain, move .reporting hphase (by simp) rfl (closer_of_stage (by omega))⟩
  | returnCall hphase =>
      exact ⟨hmain, move .idle hphase (by simp) rfl (closer_of_stage (by omega))⟩
  | writeBucket hphase hnext =>
      have hlt := (List.getElem?_eq_some_iff.mp hnext).1
      exact ⟨hmain, move (.storing _ _ _) hphase (by simp) rfl (closer_of_rest (by omega))⟩
  | fetchBucket hphase =>
      exact ⟨hmain, move (.fetching _ _ _ _ _) hphase (by simp) rfl
        (closer_of_rest (Nat.lt_succ_self _))⟩
  | writeLine hphase | loseLine hphase =>
      exact ⟨hmain, move (.writing _ _ _ _ _) hphase (by simp) rfl
        (closer_of_rest (Nat.lt_succ_self _))⟩
  | @giveUp w hphase =>
      refine ⟨hmain, move .idle (w := w) rfl (fun habsent => ?_) rfl ?_⟩
      · rw [habsent] at hphase
        cases hphase
      · exact closer_of_mayGiveUp hphase _

/-! ## The processes that were started -/

/-- A process that was not started is started, or stays so. -/
theorem Transition.phase_absent (h : s.Transition J a s') (ha : a.internal = true) {v : ℕ}
    (hv : s.phase v = .absent) : s'.phase v = .absent := by
  have other {w : ℕ} (q : Phase) (hw : s.phase w ≠ .absent)
      (hs' : s'.phase v = (s.setPhase w q).phase v) : s'.phase v = .absent := by
    rw [hs', setPhase_phase, if_neg, hv]
    rintro rfl
    exact hw hv
  cases h with
  | start => cases ha
  | crash halive =>
      refine other .dead (fun habsent => ?_) rfl
      rw [habsent] at halive
      cases halive
  | giveUp hphase =>
      refine other .idle (fun habsent => ?_) rfl
      rw [habsent] at hphase
      cases hphase
  | wipe | requestTask | decideTask | encodeReply | handleCompletion | handleMissing | pollDone
  | exit => exact hv
  | ask hphase | deliver hphase | deliverError hphase | loseRequest hphase | callMapf hphase
  | writeBucket hphase | startReduce hphase | fetchBucket hphase | fetchFails hphase
  | createOutput hphase | writeLine hphase | loseLine hphase | reportMap hphase | reportReduce hphase
  | returnCall hphase => exact other _ (by rw [hphase]; simp) rfl

/-- Finitely many processes have been started. -/
theorem exists_bound (h : J.cluster.Reachable s) : ∃ n, ∀ v, n ≤ v → s.phase v = .absent := by
  refine System.Reachable.invariant (P := fun s : Cluster => ∃ n, ∀ v, n ≤ v → s.phase v = .absent)
    ⟨0, fun _ _ => rfl⟩ ?_ h
  rintro s a t - ⟨n, hn⟩ hstep
  have ht := step_transition hstep
  cases ha : a.internal with
  | true => exact ⟨n, fun v hv => ht.phase_absent ha (hn v hv)⟩
  | false =>
      cases ht with
      | @start w address dir hphase =>
          refine ⟨max n (w + 1), fun v hv => ?_⟩
          rw [start_phase, if_neg (by omega)]
          exact hn v (by omega)
      | wipe => exact ⟨n, hn⟩
      | _ => cases ha

end Cluster

/-! ## A running process can go on -/

namespace Job

variable (J : Job)

/-- A reply that tells a worker what to run, with the buckets of the job. -/
def Executable (reply : TaskReply) : Prop :=
  match executeTask reply with
  | .runMapTask _ data => data.buckets = J.nReduceTasks
  | .error _ => False
  | _ => True

/-- A call carries a reply of the job. -/
def RequestSettled : Request → Prop
  | .decided reply => J.PendingOk reply
  | .answered (some reply) => J.Executable reply
  | _ => True

/-- A process has a task that it can run. -/
def PhaseSettled : Phase → Prop
  | .executing reply => J.Executable reply
  | .storing _ buckets next => next ≤ buckets.length
  | _ => True

variable {J}

/-- Every reply of the coordinator tells a worker what to run, whenever it is encoded. -/
theorem executable_encode {c : Coordinator} (h : (coordinatorSystem J.coordinator).Reachable c)
    {reply : Reply} (hreply : J.PendingOk reply) : J.Executable (c.encode reply) := by
  cases hreply with
  | @map i file hfile =>
      have hmem : J.mapID i ∈ c.mapTasks := (mem_mapTasks_iff h _).mpr <|
        List.mem_map_of_mem (List.mem_range.mpr (List.getElem?_eq_some_iff.mp hfile).1)
      obtain ⟨t, ht⟩ := mem_iff_exists.mp hmem
      obtain ⟨-, -, -, -, htype, -⟩ := mapTask_spec h ht
      simp [Executable, executeTask, Coordinator.encode, Coordinator.deref, ht, htype]
  | @reduce b hb =>
      obtain ⟨t, ht, -⟩ := exists_reduceTask h hb
      obtain ⟨-, -, -, htype⟩ := reduceTask_spec h ht
      simp [Executable, executeTask, Coordinator.encode, Coordinator.deref, ht, htype]
  | wait => trivial

end Job

namespace Cluster

variable {J : Job} {s s' : Cluster} {a : Action} {w : ℕ}

/-- The calls and the processes have replies and tasks of the job. -/
structure Settled (J : Job) (s : Cluster) : Prop where
  /-- The calls. -/
  requests : ∀ w, J.RequestSettled (s.requests w)
  /-- The processes. -/
  phases : ∀ w, J.PhaseSettled (s.phase w)

theorem Settled.setPhase (h : s.Settled J) {p : Phase} (hp : J.PhaseSettled p) :
    (s.setPhase w p).Settled J where
  requests := h.requests
  phases v := forall_phase_setPhase w v h.phases hp

theorem Settled.setRequest (h : s.Settled J) {r : Request} (hr : J.RequestSettled r) :
    (s.setRequest w r).Settled J where
  requests v := forall_setRequest w v h.requests hr
  phases := h.phases

/-- What the calls and processes have does not depend on the rest of the cluster. -/
theorem Settled.of_eq (h : s.Settled J) (hworkers : s'.workers = s.workers)
    (hrequests : s'.requests = s.requests) : s'.Settled J where
  requests v := by rw [hrequests]; exact h.requests v
  phases v := by rw [phase, hworkers]; exact h.phases v

theorem Settled.withCoordinator (h : s.Settled J) (c : Coordinator) :
    { s with coordinator := c }.Settled J := h.of_eq rfl rfl

/-- **One step keeps the replies and the tasks.** -/
theorem Settled.step (hreach : J.cluster.Reachable s) (h : s.Settled J) (ht : s.Transition J a s') :
    s'.Settled J := by
  have hc := coordinator_reachable hreach
  cases ht with
  | @start w address dir hphase =>
      exact ⟨h.requests, fun v => forall_phase_start w v h.phases trivial address dir⟩
  | ask => exact (h.setPhase (p := .asking) trivial).setRequest trivial
  | @requestTask w now mapOrder reduceOrder readErr hrequest hmain hord q hq =>
      refine (h.withCoordinator q.coordinator).setRequest ?_
      cases herr : q.err with
      | some err => simp only [Coordinator.Requested.answer, herr, Job.RequestSettled]
      | none =>
          have hc' : (coordinatorSystem J.coordinator).Reachable q.coordinator :=
            hc.step (a := ⟨now, .requestTask mapOrder reduceOrder (J.readFile readErr)⟩)
              (coordinatorSystem_step.mpr ⟨hord, by rw [Coordinator.handle_requestTask, hq]⟩)
          simp only [Coordinator.Requested.answer, herr, Job.RequestSettled]
          exact Job.executable_encode hc' (Job.pendingOk_of_requestTask hc hord hq herr).1
  | @decideTask w now mapOrder reduceOrder readErr hrequest hmain hord q hq =>
      refine (h.withCoordinator q.coordinator).setRequest ?_
      cases herr : q.err with
      | some err => simp only [Coordinator.Requested.decided, herr, Job.RequestSettled]
      | none =>
          simp only [Coordinator.Requested.decided, herr, Job.RequestSettled]
          exact (Job.pendingOk_of_requestTask hc hord hq herr).1
  | @encodeReply w reply hrequest =>
      have hreply := h.requests w
      rw [hrequest] at hreply
      exact h.setRequest (Job.executable_encode hc hreply)
  | @deliver w reply hphase hrequest =>
      have hreply := h.requests w
      rw [hrequest] at hreply
      exact (h.setPhase (p := .executing reply) hreply).setRequest trivial
  | deliverError => exact (h.setPhase (p := .returned) trivial).setRequest trivial
  | callMapf => exact h.setPhase (Nat.zero_le _)
  | @writeBucket w task buckets next keyValues hphase hnext =>
      have hlt := (List.getElem?_eq_some_iff.mp hnext).1
      have hstore : (s.storeBucket w (task.id, next) keyValues).Settled J := h.of_eq rfl rfl
      exact hstore.setPhase hlt
  | @createOutput w keyOrder task data read contents reduced =>
      exact (h.setPhase (w := w) (p := .writing task data read reduced 0) trivial).of_eq rfl rfl
  | @writeLine w task data read kv lines offset =>
      exact (h.setPhase (w := w)
        (p := .writing task data read lines (offset + (formatLine kv).length)) trivial).of_eq rfl rfl
  | @fetchFails w | @reportMap w | @reportReduce w =>
      exact (h.setPhase (w := w) (p := .reporting) trivial).of_eq rfl rfl
  | crash | loseRequest | startReduce | fetchBucket | loseLine | giveUp | returnCall =>
      exact h.setPhase trivial
  | wipe | handleCompletion | handleMissing | pollDone | exit => exact h.of_eq rfl rfl

/-- The replies and tasks of every run. -/
theorem settled_of_reachable (h : J.cluster.Reachable s) : s.Settled J :=
  h.invariant (P := fun s => s.Settled J) ⟨fun _ => trivial, fun _ => trivial⟩
    fun _ _ _ hreach hs hstep => hs.step hreach (step_transition hstep)

/-- **A process that runs can take a step**, of the job or out of its loop. -/
theorem exists_step_of_alive (hn : 1 ≤ J.nReduceTasks) (h : s.Settled J)
    (halive : (s.phase w).alive = true) :
    ∃ a s', s.Transition J a s' ∧ a.internal = true ∧ ∀ v, a ≠ .crash v := by
  have hsettled := h.phases w
  cases hphase : s.phase w with
  | absent | returned | dead =>
      rw [hphase] at halive
      cases halive
  | idle => exact ⟨_, _, .ask hphase, rfl, by simp⟩
  -- the coordinator does not answer
  | asking => exact ⟨_, _, .loseRequest hphase, rfl, by simp⟩
  | reporting => exact ⟨_, _, .returnCall hphase, rfl, by simp⟩
  | executing reply =>
      rw [hphase] at hsettled
      cases hexec : executeTask reply with
      | runMapTask task data =>
          simp only [Job.PhaseSettled, Job.Executable, hexec] at hsettled
          exact ⟨_, _, .callMapf hphase hexec (List.Perm.refl _) (by omega), rfl, by simp⟩
      | runReduceTask task data =>
          exact ⟨_, _, .startReduce hphase hexec (List.Perm.refl _), rfl, by simp⟩
      | sleep =>
          refine ⟨_, _, .giveUp (w := w) ?_, rfl, by simp⟩
          rw [hphase, Phase.mayGiveUp, hexec]
      | error err =>
          simp only [Job.PhaseSettled, Job.Executable, hexec] at hsettled
  | storing task buckets next =>
      rw [hphase] at hsettled
      rcases Nat.lt_or_eq_of_le hsettled with hlt | rfl
      · exact ⟨_, _, .writeBucket hphase (List.getElem?_eq_getElem hlt), rfl, by simp⟩
      · exact ⟨_, _, .reportMap hphase, rfl, by simp⟩
  | fetching task data todo read contents =>
      cases todo with
      | nil => exact ⟨_, _, .createOutput hphase (List.Perm.refl _) rfl, rfl, by simp⟩
      | cons entry todo => exact ⟨_, _, .fetchFails hphase, rfl, by simp⟩
  | writing task data read lines offset =>
      cases lines with
      | nil => exact ⟨_, _, .reportReduce hphase, rfl, by simp⟩
      | cons kv lines => exact ⟨_, _, .writeLine hphase, rfl, by simp⟩

end Cluster

/-- **After the coordinator has exited, every worker stops.** In every reachable state whose
coordinator process has exited, however many workers are in the middle of whatever they do: without
new processes there is no endless run, and a run that cannot go on ends with all processes
stopped. -/
theorem workers_stop (J : Job) (hn : 1 ≤ J.nReduceTasks) (s : Cluster) (h : J.cluster.Reachable s)
    (hmain : s.main = .exited) :
    ¬ J.cluster.Endless (fun _ a => a.internal = true) s ∧
      ∀ as s', J.cluster.exec s as = some s' → (∀ a ∈ as, a.internal = true) →
        (∀ a, a.internal = true → (∀ w, a ≠ .crash w) → J.cluster.step s' a = none) →
        ∀ w, (s'.phase w).alive = false := by
  constructor
  · obtain ⟨n, hbound⟩ := Cluster.exists_bound h
    refine System.not_endless wellFounded_closer.cutExpand
      (fun s : Cluster => (Multiset.range n).map s.remaining)
      (P := fun s => s.main = .exited ∧ ∀ v, n ≤ v → s.phase v = .absent) ?_ ⟨hmain, hbound⟩
    rintro s a t ⟨hmain, hbound⟩ ha hstep
    have ht := Cluster.step_transition hstep
    obtain ⟨hmain', w, x, hstarted, hremaining, hcloser⟩ := ht.remaining_lt hmain ha
    refine ⟨⟨hmain', fun v hv => ht.phase_absent ha (hbound v hv)⟩, ?_⟩
    have hw : w < n := by
      by_contra hge
      exact hstarted (hbound w (Nat.le_of_not_lt hge))
    simp only [hremaining]
    exact System.cutExpand_update hw hcloser
  · intro as s' has hinternal hstuck w
    by_contra halive
    obtain ⟨a, t, ht, ha, hcrash⟩ := Cluster.exists_step_of_alive (w := w) hn
      (Cluster.settled_of_reachable (h.exec has)) (by simpa using halive)
    have hnone := hstuck a ha hcrash
    rw [ht.step] at hnone
    cases hnone

/-- Worker 0 completes the job while worker 1 waits for an answer, and the coordinator exits. -/
def abandonedRun : List Action :=
  [.start 1 [11] 1, .ask 1, .start 0 [10] 0, .ask 0, .requestTask 0 0 [1] [2] none, .deliver 0,
    .callMapf 0 [⟨[7], [1]⟩], .writeBucket 0, .report 0, .handleCompletion 0, .returnCall 0, .ask 0,
    .requestTask 0 1 [1] [2] none, .deliver 0, .startReduce 0 [(1, [10])], .fetchBucket 0 0,
    .createOutput 0 [[7]], .writeLine 0, .report 0, .handleCompletion 0, .pollDone, .exit]

/-- Both workers stop. -/
theorem workers_stop_abandonedRun :
    ∃ s, oneBucket.cluster.exec oneBucket.cluster.init abandonedRun = some s ∧
      (s.phase 0).alive = true ∧ (s.phase 1).alive = true ∧
      ¬ oneBucket.cluster.Endless (fun _ a => a.internal = true) s := by
  have hrun : (oneBucket.cluster.exec oneBucket.cluster.init abandonedRun).map
      (fun s => (s.main, (s.phase 0).alive, (s.phase 1).alive)) = some (.exited, true, true) := by
    decide +kernel
  obtain ⟨s, hs, hstate⟩ := Option.map_eq_some_iff.mp hrun
  obtain ⟨hmain, halive⟩ := Prod.mk.inj hstate
  obtain ⟨halive₀, halive₁⟩ := Prod.mk.inj halive
  exact ⟨s, hs, halive₀, halive₁,
    (workers_stop oneBucket (by decide) s ⟨_, hs⟩ hmain).1⟩

end DistributedSystems.MapReduce
