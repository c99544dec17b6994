import Vllm.Sched.LoraLimit

/-! First come, first served: requests that a step puts aside keep their places. They are prepended
one by one to a queue of their own, which is then prepended to the skipped requests in reverse. -/
namespace Vllm
open Raises

namespace ScheduleStep
variable {κ ε : Type} {env : SchedulerEnv κ ε} {answers : StepAnswers} {st st' : ScheduleStep κ ε}
  {before running moved : List RequestId}

/-- The waiting requests in the order in which they are served, once those put aside are back. -/
def waitingOrder (st : ScheduleStep κ ε) : List RequestId :=
  st.stepSkippedWaiting.reverse ++ (st.sched.skippedWaiting ++ st.sched.waiting)

/-- The requests in `moved` have left the order for the running list, and the others have kept
their places. -/
structure Served (before running : List RequestId) (st : ScheduleStep κ ε)
    (moved : List RequestId) : Prop where
  running : st.sched.running = running ++ moved
  sublist : st.waitingOrder.Sublist before
  perm : before.Perm (moved ++ st.waitingOrder)

section
variable (hpolicy : env.config.policy = .fcfs)
include hpolicy

theorem waitingOrder_head {q : WaitingQueue} {requestId : RequestId}
    (hq : st.sched.selectWaitingQueue env.config.policy = some q)
    (hpops : Pops env q requestId st st') :
    st.sched.skippedWaiting ++ st.sched.waiting =
      requestId :: (st'.sched.skippedWaiting ++ st'.sched.waiting) := by
  obtain ⟨lt, rest, hpop, hwaiting, hskipped⟩ := hpops
  rw [hpolicy] at hq hpop
  have hhead : st.sched.queue q = requestId :: rest := by
    obtain ⟨x, hx, hpair⟩ := Option.map_eq_some_iff.mp hpop
    cases hpair
    exact (List.cons_head?_tail hx).symm
  rw [hwaiting, hskipped]
  unfold Scheduler.selectWaitingQueue at hq
  cases q with
  | waiting =>
    have hnone : st.sched.skippedWaiting = [] := by
      split at hq <;> simp_all
    rw [show st.sched.waiting = requestId :: rest from hhead]
    simp [Scheduler.setQueue, hnone]
  | skippedWaiting =>
    rw [show st.sched.skippedWaiting = requestId :: rest from hhead]
    rfl

theorem Served.turn {go : Bool} (h : Served before running st moved)
    (hturn : waitingTurn env answers st = .ok (go, st')) :
    ∃ moved', Served before running st' moved' := by
  obtain ⟨q, x, hq, -, heffect⟩ := waitingTurn_effect hturn
  cases heffect with
  | stay hwaiting hskipped hrunning haside =>
    have hsame : st'.waitingOrder = st.waitingOrder := by
      rw [waitingOrder, waitingOrder, hwaiting, hskipped, haside]
    exact ⟨moved, hrunning.trans h.running, hsame ▸ h.sublist, hsame ▸ h.perm⟩
  | aside lt hpops hrunning haside =>
    have hhead := waitingOrder_head hpolicy hq hpops
    have hsame : st'.waitingOrder = st.waitingOrder := by
      rw [waitingOrder, waitingOrder, hhead, haside, hpolicy]
      simp [RequestQueue.prependRequest]
    exact ⟨moved, hrunning.trans h.running, hsame ▸ h.sublist, hsame ▸ h.perm⟩
  | start hpops hrunning haside =>
    have hhead := waitingOrder_head hpolicy hq hpops
    have horder : st.waitingOrder = st.stepSkippedWaiting.reverse ++
        x :: (st'.sched.skippedWaiting ++ st'.sched.waiting) := by
      rw [waitingOrder, hhead]
    have horder' : st'.waitingOrder = st.stepSkippedWaiting.reverse ++
        (st'.sched.skippedWaiting ++ st'.sched.waiting) := by
      rw [waitingOrder, haside]
    refine ⟨moved ++ [x], ?_, ?_, ?_⟩
    · rw [hrunning, h.running, List.append_assoc]
    · refine List.Sublist.trans ?_ h.sublist
      rw [horder, horder']
      exact (List.Sublist.refl _).append (List.sublist_cons_self x _)
    · refine h.perm.trans ?_
      rw [horder, horder', List.append_assoc]
      exact List.perm_middle.append_left moved

theorem Served.waitingLoop {fuel : ℕ} (h : Served before running st moved)
    (hloop : waitingLoop env answers fuel st = .ok st') :
    ∃ moved', Served before running st' moved' := by
  induction fuel generalizing st moved with
  | zero =>
    cases hloop
    exact ⟨moved, h⟩
  | succ fuel ih =>
    unfold ScheduleStep.waitingLoop at hloop
    split at hloop
    · obtain ⟨⟨go, st₁⟩, hturn, hloop⟩ := of_bind hloop
      obtain ⟨moved₁, h₁⟩ := h.turn hpolicy hturn
      dsimp only at hloop
      split at hloop
      · exact ih h₁ hloop
      · cases hloop
        exact ⟨moved₁, h₁⟩
    · cases hloop
      exact ⟨moved, h⟩

theorem waitingOrder_requeueSkipped :
    (st.requeueSkipped env).sched.skippedWaiting ++ (st.requeueSkipped env).sched.waiting =
      st.waitingOrder := by
  simp [requeueSkipped, hpolicy, RequestQueue.prependRequests, waitingOrder]

end

/-- The first loop leaves the queues and the running list alone unless it preempts a request. -/
theorem Moves.undisturbed (h : Moves env answers .running st st') (hnone : st'.preemptedReqs = []) :
    st'.sched.running = st.sched.running ∧ st'.sched.waiting = st.sched.waiting ∧
      st'.sched.skippedWaiting = st.sched.skippedWaiting := by
  refine Moves.induction (P := fun st' => st'.preemptedReqs = [] →
    st'.sched.running = st.sched.running ∧ st'.sched.waiting = st.sched.waiting ∧
      st'.sched.skippedWaiting = st.sched.skippedWaiting) ?_ h (fun _ => ⟨rfl, rfl, rfl⟩) hnone
  intro st₁ st₂ hmove hst₁ hnone
  cases hmove with
  | pass | plan | noSlots => exact hst₁ hnone
  | preempt hpreempt =>
    unfold preemptOne at hpreempt
    obtain ⟨⟨victim, st₃⟩, -, hpreempt⟩ := of_bind hpreempt
    obtain ⟨sched, -, hpreempt⟩ := of_bind hpreempt
    cases hpreempt
    simp at hnone
  | record _ _ _ _ _ _ hencoder =>
    obtain ⟨encoder, budget, -, rfl⟩ := allocateEncoderInputs_eq_ok hencoder
    exact hst₁ hnone
  | loras hloras =>
    obtain ⟨loras, rfl⟩ := recordLoras_eq_ok hloras
    exact hst₁ hnone

end ScheduleStep

namespace Scheduler
variable {κ ε : Type} {env : SchedulerEnv κ ε} {answers : StepAnswers} {s s' : Scheduler κ ε}
  {st : ScheduleStep κ ε} {output : SchedulerOutput}

theorem assembleStep_served (hpolicy : env.config.policy = .fcfs)
    (h : s.assembleStep env answers = .ok st) (hnone : st.preemptedReqs = []) :
    ∃ moved, st.sched.running = s.running ++ moved ∧
      (st.sched.skippedWaiting ++ st.sched.waiting).Sublist (s.skippedWaiting ++ s.waiting) ∧
      (s.skippedWaiting ++ s.waiting).Perm
        (moved ++ (st.sched.skippedWaiting ++ st.sched.waiting)) := by
  unfold assembleStep at h
  obtain ⟨st₁, hrunning, h⟩ := of_bind h
  obtain ⟨st₂, hloras, h⟩ := of_bind h
  have hmoves : ScheduleStep.Moves env answers .running (s.startStep env) st₂ :=
    (ScheduleStep.runningLoop_moves hrunning).tail (.loras hloras)
  have hstart : st₂.preemptedReqs = [] → st₂.stepSkippedWaiting = [] ∧
      st₂.sched.running = s.running ∧ st₂.sched.waiting = s.waiting ∧
      st₂.sched.skippedWaiting = s.skippedWaiting :=
    fun hnone => ⟨hmoves.stepSkipped, hmoves.undisturbed hnone⟩
  unfold ScheduleStep.scheduleWaiting at h
  split at h
  · next hgo =>
    obtain ⟨st₃, hloop, h⟩ := of_bind h
    cases h
    obtain ⟨haside, hrun, hwaiting, hskipped⟩ := hstart hgo.1
    have hserved : ScheduleStep.Served (s.skippedWaiting ++ s.waiting) s.running st₂ [] := by
      have horder : st₂.waitingOrder = s.skippedWaiting ++ s.waiting := by
        rw [ScheduleStep.waitingOrder, haside, hwaiting, hskipped]
        rfl
      exact ⟨by rw [hrun, List.append_nil], horder ▸ .refl _, horder ▸ .refl _⟩
    obtain ⟨moved, hmoved⟩ := hserved.waitingLoop hpolicy hloop
    refine ⟨moved, hmoved.running, ?_, ?_⟩
    · rw [ScheduleStep.waitingOrder_requeueSkipped hpolicy]
      exact hmoved.sublist
    · rw [ScheduleStep.waitingOrder_requeueSkipped hpolicy]
      exact hmoved.perm
  · cases h
    obtain ⟨-, hrun, hwaiting, hskipped⟩ := hstart hnone
    rw [hrun, hwaiting, hskipped]
    exact ⟨[], (List.append_nil _).symm, .refl _, .refl _⟩

/-- A step without preemption serves the waiting requests in their order: those that it moves to
the running list leave, and the others keep their places. -/
theorem schedule_keepsOrder (hpolicy : env.config.policy = .fcfs)
    (h : s.schedule env answers = .ok (output, s')) (hnone : output.preemptedReqIds = []) :
    ∃ moved, s'.running = s.running ++ moved ∧
      (s'.skippedWaiting ++ s'.waiting).Sublist (s.skippedWaiting ++ s.waiting) ∧
      (s.skippedWaiting ++ s.waiting).Perm (moved ++ (s'.skippedWaiting ++ s'.waiting)) ∧
      (s'.skippedWaiting ++ s'.waiting).filter (· ∉ moved) =
        (s.skippedWaiting ++ s.waiting).filter (· ∉ moved) := by
  unfold Scheduler.schedule at h
  obtain ⟨st, hassemble, h⟩ := of_bind h
  obtain ⟨-, -, h⟩ := of_bind h
  obtain ⟨s₁, hafter, h⟩ := of_bind h
  cases h
  obtain ⟨moved, hrunning, hsublist, hperm⟩ := assembleStep_served hpolicy hassemble hnone
  obtain ⟨objects, inflightPrefills, rfl, -⟩ := updateAfterSchedule_eq_ok hafter
  refine ⟨moved, hrunning, hsublist, hperm, ?_⟩
  refine (hsublist.filter _).eq_of_length_le (Nat.le_of_eq ?_)
  have hmoved : moved.filter (· ∉ moved) = [] := by
    rw [List.filter_eq_nil_iff]
    intro x hx
    simpa using hx
  rw [(hperm.filter (· ∉ moved)).length_eq, List.filter_append moved, hmoved, List.nil_append]

end Scheduler

/-- Four requests wait, and only one LoRA may run. -/
def twoLorasWaiting : Raises (EngineState KVCacheManager EncoderCacheManager ×
    SchedulerOutput × Scheduler KVCacheManager EncoderCacheManager) := do
  let e ← smallRun oneLora 8 (fun _ _ => true) [
    .addRequest (withLora 1 (promptRequest 1 [7] 4)) fun _ => false,
    .addRequest (withLora 2 (promptRequest 2 [7] 4)) fun _ => false,
    .addRequest (withLora 1 (promptRequest 3 [7] 4)) fun _ => false,
    .addRequest (withLora 2 (promptRequest 4 [7] 4)) fun _ => false]
  let (output, sched) ← e.sched.schedule (managerEnv oneLora false) {}
  pure (e, output, sched)

theorem schedule_keepsOrder_twoLoras : ∃ (s s' : Scheduler KVCacheManager EncoderCacheManager)
    (output : SchedulerOutput), s.schedule (managerEnv oneLora false) {} = .ok (output, s') ∧
    s.skippedWaiting ++ s.waiting = [1, 2, 3, 4] ∧ s'.skippedWaiting = [2, 4] ∧
    s'.running = [1, 3] ∧ ∃ moved, s'.running = s.running ++ moved ∧
      (s'.skippedWaiting ++ s'.waiting).filter (· ∉ moved) =
        (s.skippedWaiting ++ s.waiting).filter (· ∉ moved) := by
  obtain ⟨⟨e, output, s'⟩, hrun, hfacts⟩ := exists_ok
    (show twoLorasWaiting.toOption.map (fun (e, output, s') =>
      (e.sched.skippedWaiting ++ e.sched.waiting, s'.skippedWaiting, s'.running,
        output.preemptedReqIds)) = some ([1, 2, 3, 4], [2, 4], [1, 3], []) by decide +kernel)
  obtain ⟨e', -, hrun⟩ := of_bind hrun
  obtain ⟨⟨output', s''⟩, hschedule, hrun⟩ := of_bind hrun
  obtain ⟨rfl, hpair⟩ := Prod.mk.inj (pure_eq_ok.mp hrun)
  obtain ⟨rfl, rfl⟩ := Prod.mk.inj hpair
  simp only [Prod.mk.injEq] at hfacts
  obtain ⟨hbefore, hskipped, hrunning, hnone⟩ := hfacts
  obtain ⟨moved, hmoved, -, -, horder⟩ := Scheduler.schedule_keepsOrder rfl hschedule hnone
  exact ⟨e'.sched, s'', output', hschedule, hbefore, hskipped, hrunning, moved, hmoved, horder⟩

end Vllm
