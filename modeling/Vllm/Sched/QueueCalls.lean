import Vllm.Sched.QueuePartition
import Vllm.Sched.Runs
import Vllm.Sched.UpdateSpec

/-! The calls of the scheduler that keep the partition of the queues as it is, whatever the state:
`schedule`, `finish_requests`, `add_request`, `reset_prefix_cache` and the draft tokens. -/
namespace Vllm
open Partitioned Raises List

theorem ScheduleStep.Moves.stepSkipped {κ ε : Type} {env : SchedulerEnv κ ε}
    {answers : StepAnswers} {st st' : ScheduleStep κ ε} (h : Moves env answers .running st st') :
    st'.stepSkippedWaiting = st.stepSkippedWaiting := by
  apply Moves.induction (P := fun st' => st'.stepSkippedWaiting = st.stepSkippedWaiting) ?_ h rfl
  intro st₁ st₂ hmove heq
  rw [← heq]
  cases hmove with
  | pass | plan | noSlots => rfl
  | preempt h => exact (preemptOne_lists h).1
  | record _ _ _ _ _ _ h =>
    obtain ⟨encoder, budget, -, rfl⟩ := allocateEncoderInputs_eq_ok h
    rfl
  | loras h =>
    obtain ⟨loras, rfl⟩ := recordLoras_eq_ok h
    rfl

namespace Scheduler
variable {κ ε : Type} {env : SchedulerEnv κ ε} {s s' : Scheduler κ ε} {requestId : RequestId}
  {r r' : SchedRequest}

/-- The queues between two calls. -/
def QueuesPartitioned (s : Scheduler κ ε) : Prop :=
  Partitioned s.objects s.requests s.numWaitingForStreamingInput s.running
    (s.waiting ++ s.skippedWaiting)

section
variable (hs : s.QueuesPartitioned)
include hs

variable {item : RequestId × ℤ} {output : SchedulerOutput}

theorem QueuesPartitioned.advanceComputed (h : s.advanceComputed item = .ok s') :
    s'.QueuesPartitioned := by
  unfold Scheduler.advanceComputed at h
  split at h
  · simp at h
  · next r hr =>
    cases h
    have hput := setSame hs (registered_eq_some.mp hr).2
      (u := { r with
        numComputedTokens := r.numComputedTokens + item.2
        isPrefillChunk := decide (r.numComputedTokens + item.2 <
          r.numTokens + r.numOutputPlaceholders) }) rfl
    split
    · exact hput
    · exact hput

theorem QueuesPartitioned.addPlaceholders {specTokens : Dict RequestId (List TokenId)}
    (h : s.addPlaceholders env specTokens item = .ok s') :
    s'.QueuesPartitioned := by
  unfold Scheduler.addPlaceholders at h
  split at h
  · simp at h
  · next r hr =>
    split at h
    · cases h
      exact hs
    · cases h
      exact setSame hs (registered_eq_some.mp hr).2 rfl

theorem QueuesPartitioned.updateAfterSchedule (h : s.updateAfterSchedule env output = .ok s') :
    s'.QueuesPartitioned := by
  unfold Scheduler.updateAfterSchedule at h
  obtain ⟨s₁, hadvance, h⟩ := of_bind h
  have hs₁ : s₁.QueuesPartitioned :=
    foldlM_invariant (P := QueuesPartitioned)
      (fun _ _ _ _ hs hstep => QueuesPartitioned.advanceComputed hs hstep) hs hadvance
  split at h
  · exact foldlM_invariant (P := QueuesPartitioned)
      (fun _ _ _ _ hs hstep => QueuesPartitioned.addPlaceholders hs hstep)
      (show QueuesPartitioned { s₁ with finishedReqIds := [] } from hs₁) h
  · cases h
    exact hs₁

/-- A whole step keeps the partition. -/
theorem QueuesPartitioned.schedule {answers : StepAnswers}
    (h : s.schedule env answers = .ok (output, s')) :
    s'.QueuesPartitioned := by
  unfold Scheduler.schedule at h
  obtain ⟨st, hassemble, h⟩ := of_bind h
  obtain ⟨-, -, h⟩ := of_bind h
  obtain ⟨s₁, hafter, h⟩ := of_bind h
  cases h
  refine QueuesPartitioned.updateAfterSchedule ?_ hafter
  obtain ⟨st₁, hrunning, hrest⟩ := assembleStep_moves hassemble
  have hstart : (s.startStep env).QueuesPartitioned := by
    unfold ScheduleStep.QueuesPartitioned
    rw [show (s.startStep env).stepSkippedWaiting = [] from rfl, append_nil]
    exact hs
  have hst₁ := hrunning.induction (fun _ _ => ScheduleStep.QueuesPartitioned.move) hstart
  obtain rfl | ⟨-, st₂, hwaiting, rfl⟩ := hrest
  · have hnone := hrunning.stepSkipped
    unfold ScheduleStep.QueuesPartitioned at hst₁
    rw [hnone, show (s.startStep env).stepSkippedWaiting = [] from rfl, append_nil] at hst₁
    exact hst₁
  · have hst₂ := hwaiting.induction (fun _ _ => ScheduleStep.QueuesPartitioned.move) hst₁
    have hperm := RequestQueue.prependRequests_perm env.config.policy st₂.sched.lt
      st₂.sched.skippedWaiting st₂.stepSkippedWaiting
    apply perm hst₂ (.refl _)
    rw [append_assoc]
    exact (hperm.trans perm_append_comm).append_left st₂.sched.waiting

end

section Finish
variable {delays : RequestId → Bool} {status : RequestStatus} {run rest : List RequestId}
  {streaming : ℤ}

theorem filter_not_mem_cons (l ids : List RequestId) (x : RequestId) :
    (l.filter (· ≠ x)).filter (· ∉ ids) = l.filter (· ∉ x :: ids) := by
  rw [filter_filter]
  apply filter_congr
  intro y _
  simp [Bool.and_comm]

theorem length_filter_hasStatus_cons (s : Scheduler κ ε) (status : RequestStatus)
    {x : RequestId} (ids : List RequestId) (hr : s.objects.get? x = some r) :
    (((x :: ids).filter (s.hasStatus status)).length : ℤ) =
      (ids.filter (s.hasStatus status)).length + if r.status = status then 1 else 0 := by
  have hstatus : s.hasStatus status x = decide (r.status = status) := by
    rw [hasStatus, hr, Option.any_some]
    rfl
  rw [filter_cons, hstatus]
  split
  · next h => simp [of_decide_eq_true h]
  · next h => simp [of_decide_eq_false (Bool.not_eq_true _ ▸ h)]

variable {ids : List RequestId}

theorem foldlM_finishRequest (hids : ids.Nodup)
    (hlive : ∀ x ∈ ids, ∃ r, s.objects.get? x = some r ∧ r.isFinished = false)
    (hs : Partitioned s.objects s.requests streaming run rest)
    (h : ids.foldlM (finishRequest env delays status) s = .ok s') :
    Partitioned s'.objects s'.requests
        (streaming - (ids.filter (s.hasStatus .waitingForStreamingReq)).length)
        (run.filter (· ∉ ids)) (rest.filter (· ∉ ids)) ∧
      s'.running = s.running ∧ s'.waiting = s.waiting ∧ s'.skippedWaiting = s.skippedWaiting ∧
      s'.numWaitingForStreamingInput = s.numWaitingForStreamingInput := by
  induction ids generalizing s streaming run rest with
  | nil =>
    cases h
    simpa using hs
  | cons x ids ih =>
    rw [foldlM_cons] at h
    obtain ⟨s₁, hs₁, h⟩ := of_bind h
    obtain ⟨r, kv, encoder, requests, recving, failed, hr, hfinished, -, hrequests, rfl⟩ :=
      finishRequest_eq_ok hs₁
    have hf : r.isFinished = false := by
      obtain ⟨r', hr', hf⟩ := hlive x mem_cons_self
      rwa [Option.some.inj (hr.symm.trans hr')]
    have hpart : Partitioned (s.objects.set x (r.setStatus status)) requests
        (streaming - isStreaming r) (run.filter (· ≠ x)) (rest.filter (· ≠ x)) := by
      have hdone := hs.finish (u := r.setStatus status) hr hf hfinished
      obtain rfl | rfl := hrequests
      · exact hdone
      · exact hdone.discard (r := r.setStatus status) (by rw [Dict.get?_set, if_pos rfl]) hfinished
    rw [nodup_cons] at hids
    have hothers : ∀ y ∈ ids, (s.objects.set x (r.setStatus status)).get? y = s.objects.get? y := by
      intro y hy
      rw [Dict.get?_set, if_neg]
      rintro rfl
      exact hids.1 hy
    obtain ⟨hrest, hqueues⟩ := ih hids.2 (fun y hy => by
      rw [hothers y hy]
      exact hlive y (mem_cons_of_mem x hy)) hpart h
    refine ⟨?_, hqueues⟩
    rw [filter_not_mem_cons, filter_not_mem_cons] at hrest
    have hsame : ∀ y ∈ ids, Scheduler.hasStatus { s with
        objects := s.objects.set x (r.setStatus status)
        requests
        kv
        encoder
        inflightPrefills := setDiscard s.inflightPrefills x
        finishedReqIds := setAdd s.finishedReqIds x
        finishedRecvingKvReqIds := recving
        failedRecvingKvReqIds := failed } .waitingForStreamingReq y =
          s.hasStatus .waitingForStreamingReq y := by
      intro y hy
      unfold hasStatus
      rw [hothers y hy]
    rw [filter_congr hsame] at hrest
    rw [length_filter_hasStatus_cons s .waitingForStreamingReq ids hr]
    unfold isStreaming at hrest
    convert hrest using 1
    ring

/-- `remove_all` on a list without duplicates. -/
theorem removeAll_eq_filter {l : List RequestId} (hl : l.Nodup) :
    removeAll l ids = l.filter (· ∉ ids) := by
  unfold removeAll
  split
  · simp
  · next x =>
    rw [hl.erase_eq_filter]
    apply filter_congr
    intro y _
    simp [bne, Bool.beq_eq_decide_eq]
  · rfl

variable (env) in
theorem QueuesPartitioned.dequeueRequests (hs : s.QueuesPartitioned)
    (hlive : ∀ x ∈ ids, ∃ r, s.objects.get? x = some r ∧ r.isFinished = false) :
    (s.dequeueRequests env ids).running.Perm (s.running.filter (· ∉ ids)) ∧
    ((s.dequeueRequests env ids).waiting ++ (s.dequeueRequests env ids).skippedWaiting).Perm
      ((s.waiting ++ s.skippedWaiting).filter (· ∉ ids)) := by
  have hrun : ∀ x ∈ ids, (s.hasStatus .running x = true ↔ x ∈ s.running) := by
    intro x hx
    obtain ⟨r, hr, hf⟩ := hlive x hx
    rw [hs.running x r hr hf]
    simp [hasStatus, hr]
  have hnot : ∀ x ∈ s.waiting ++ s.skippedWaiting, x ∉ s.running := by
    intro x hx hmem
    exact disjoint_of_nodup_append hs.nodup_queues hmem hx
  have hwaiting : ∀ l : List RequestId, l ⊆ s.waiting ++ s.skippedWaiting →
      l.filter (· ∉ ids.filter fun x => !s.hasStatus .running x) = l.filter (· ∉ ids) := by
    intro l hl
    apply filter_congr
    intro x hx
    rw [decide_eq_decide]
    simp only [mem_filter, Bool.not_eq_true', not_and, Bool.not_eq_false]
    constructor
    · intro h hmem
      exact hnot x (hl hx) ((hrun x hmem).mp (h hmem))
    · intro h hmem
      exact absurd hmem h
  constructor
  · have hnodup : s.running.Nodup := (nodup_append.mp hs.nodup_queues).1
    have heq : s.running.filter (· ∉ ids.filter (s.hasStatus .running)) =
        s.running.filter (· ∉ ids) := by
      apply filter_congr
      intro x hx
      rw [decide_eq_decide, mem_filter]
      constructor
      · intro h hmem
        exact h ⟨hmem, (hrun x hmem).mpr hx⟩
      · intro h hmem
        exact h hmem.1
    unfold Scheduler.dequeueRequests
    simp only
    rw [removeAll_eq_filter hnodup, heq]
  · rw [filter_append]
    unfold Scheduler.dequeueRequests
    simp only
    split
    · next hnone =>
      have hskip := hwaiting s.skippedWaiting (subset_append_right _ _)
      have hwait := hwaiting s.waiting (subset_append_left _ _)
      rw [hnone] at hskip hwait
      rw [← hskip, ← hwait]
      simp
    · refine (RequestQueue.removeRequests_perm _ _ _ _).append
        (RequestQueue.removeRequests_perm _ _ _ _) |>.trans ?_
      rw [hwaiting _ (subset_append_left _ _), hwaiting _ (subset_append_right _ _)]

/-- Finishing requests keeps the partition. -/
theorem QueuesPartitioned.finishRequests (hids : ids.Nodup) (hs : s.QueuesPartitioned)
    (h : s.finishRequests env delays ids status = .ok s') :
    s'.QueuesPartitioned := by
  unfold Scheduler.finishRequests at h
  obtain ⟨-, -, h⟩ := of_bind h
  have hlive : ∀ x ∈ s.requestsToFinish ids, ∃ r, s.objects.get? x = some r ∧
      r.isFinished = false := by
    intro x hx
    unfold requestsToFinish at hx
    have hx := (mem_filter.mp hx).2
    split at hx
    · simp at hx
    · next r hr => exact ⟨r, (registered_eq_some.mp hr).2, by simpa using hx⟩
  obtain ⟨hpart, hrunning, hwaiting, hskipped, hcounter⟩ :=
    foldlM_finishRequest (s := s.dequeueRequests env (s.requestsToFinish ids)) (hids.filter _)
      hlive hs h
  obtain ⟨hrun, hrest⟩ := hs.dequeueRequests env hlive
  unfold QueuesPartitioned
  rw [hrunning, hwaiting, hskipped, hcounter]
  exact hpart.perm hrun hrest

end Finish

section Calls
variable {delays : RequestId → Bool}

theorem QueuesPartitioned.freeBlocks (hs : s.QueuesPartitioned)
    (h : s.freeBlocks env requestId = .ok s') : s'.QueuesPartitioned := by
  obtain ⟨r, kv, hr, hfinished, rfl⟩ := freeBlocks_eq_ok h
  exact discard hs hr hfinished

theorem QueuesPartitioned.updateDraftTokenIds (draftTokenIds : List (RequestId × List TokenId))
    (hs : s.QueuesPartitioned) : (s.updateDraftTokenIds draftTokenIds).QueuesPartitioned :=
  updateDraftTokenIds_rule (P := QueuesPartitioned) (fun _ _ _ _ hr hs => setSame hs hr rfl)
    draftTokenIds hs

section
variable (hs : s.QueuesPartitioned)
include hs

theorem QueuesPartitioned.updateSession {session : SchedRequest} {update : SessionUpdate}
    (hr : s.objects.get? requestId = some session)
    (hstatus : session.status = .waitingForStreamingReq)
    (h : s.updateSession env requestId session update = .ok s') : s'.QueuesPartitioned := by
  obtain ⟨core, hcore, -, -, rfl⟩ := updateSession_eq_ok h
  have hf : session.isFinished = false := by
    simp [SchedRequest.isFinished, hstatus, RequestStatus.isFinished]
  have hstatus' : ({ session with
      core
      samplingParams := update.samplingParams } : SchedRequest).status = .waiting := hcore
  have hmove := move hs (u := { session with
    core
    samplingParams := update.samplingParams }) hr hf
    (by simp [SchedRequest.isFinished, hstatus', RequestStatus.isFinished]) (.refl _)
    (fun _ _ => Iff.rfl)
    (by
      rw [hs.running requestId session hr hf, hstatus, hstatus']
      simp)
  simp only [isStreaming, hstatus, hstatus', reduceCtorEq, ↓reduceIte, add_zero] at hmove
  unfold QueuesPartitioned
  rw [if_pos hstatus]
  exact hmove

theorem QueuesPartitioned.addRequest {request : SchedRequest} (hnew : request.IsNew)
    (hfresh : request.requestId ∉ s.requests → s.objects.get? request.requestId = none)
    (h : s.addRequest env delays request = .ok s') : s'.QueuesPartitioned := by
  unfold Scheduler.addRequest at h
  split at h
  · next existing hr =>
    have hobject := (registered_eq_some.mp hr).2
    split at h
    · split at h
      · simp at h
      · cases h
        exact setSame hs hobject rfl
    · next hstatus =>
      split at h
      · exact hs.updateSession hobject (not_not.mp hstatus) h
      · exact hs.finishRequests (nodup_singleton _) h
  · next hnone =>
    have habsent : request.requestId ∉ s.requests := by
      intro hmem
      obtain ⟨r, hr⟩ := hs.object _ hmem
      rw [registered_eq_some.mpr ⟨hmem, hr⟩] at hnone
      simp at hnone
    obtain ⟨request', hrequest', hid, hstatus⟩ : ∃ request' : SchedRequest,
        (if request.resumable then { request with streamingQueue := some [] } else request) =
          request' ∧ request'.requestId = request.requestId ∧ request'.status = request.status := by
      refine ⟨_, rfl, ?_, ?_⟩ <;> split <;> rfl
    simp only [hrequest', hid] at h
    obtain ⟨waiting, skippedWaiting, heq, hperm⟩ := enqueueWaitingRequest_eq env
      (s.put request.requestId request') request.requestId request'.status
    rw [heq] at h
    cases h
    refine perm ?_ (.refl _) hperm
    refine add hs (hfresh habsent) ?_ ?_ ?_
    · rw [SchedRequest.isFinished, hstatus]
      obtain hw | hw := hnew.status <;> rw [hw] <;> rfl
    · rw [hstatus]
      obtain hw | hw := hnew.status <;> rw [hw] <;> exact RequestStatus.noConfusion
    · rw [hstatus]
      obtain hw | hw := hnew.status <;> rw [hw] <;> exact RequestStatus.noConfusion

/-- The loop that preempts every running request. -/
theorem QueuesPartitioned.preemptRunning {ids : List RequestId} (hids : s.running = ids.reverse)
    (h : s.preemptRunning env ids = .ok s') :
    s'.QueuesPartitioned := by
  induction ids generalizing s with
  | nil =>
    cases h
    exact hs
  | cons x rest ih =>
    unfold Scheduler.preemptRunning at h
    obtain ⟨s₁, hpreempt, h⟩ := of_bind h
    obtain ⟨r, hr, h⟩ := of_bind h
    obtain ⟨r₀, kv, encoder, hr₀, hstatus, -, -, rfl⟩ := preemptRequest_eq_ok hpreempt
    have hrunning : s.running = rest.reverse ++ [x] := by
      rw [hids, reverse_cons]
    have hlast : s.running.dropLast = rest.reverse := by
      rw [hrunning, dropLast_concat]
    refine ih ?_ hlast h
    refine setSame ?_ (object_eq_ok.mp hr) rfl
    have hperm : s.running.Perm (x :: rest.reverse) := by
      rw [hrunning]
      exact perm_append_singleton x _
    have hpreempted := (perm hs hperm.symm (.refl _)).preempt (u := preempted r₀) hr₀ hstatus rfl
    refine hpreempted.perm ?_ ?_
    · exact .of_eq hlast
    · exact (RequestQueue.prependRequest_perm _ _ _ _).append_right _

theorem QueuesPartitioned.resetPrefixCache {resetRunningRequests successful : Bool}
    (h : s.resetPrefixCache env resetRunningRequests = .ok (successful, s')) :
    s'.QueuesPartitioned := by
  unfold Scheduler.resetPrefixCache at h
  obtain ⟨s₁, hs₁, h⟩ := of_bind h
  obtain ⟨⟨success, kv⟩, -, h⟩ := of_bind h
  have hpart : s₁.QueuesPartitioned := by
    split at hs₁
    · exact hs.preemptRunning (reverse_reverse _).symm hs₁
    · cases hs₁
      exact hs
  simp only at h
  split at h
  · simp at h
  · cases h
    exact hpart

end

end Calls

end Scheduler

end Vllm
