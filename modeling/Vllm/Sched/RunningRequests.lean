import Vllm.Sched.QueueRuns

/-! Between two steps the running list only shrinks, and a request never changes its LoRA. -/
namespace Vllm
open Raises

/-- Every request is still there, with the same LoRA. -/
def KeepsLoras (objects objects' : Dict RequestId SchedRequest) : Prop :=
  ∀ x r, objects.get? x = some r →
    ∃ r', objects'.get? x = some r' ∧ r'.core.loraRequest = r.core.loraRequest

namespace KeepsLoras
variable {objects objects' objects'' : Dict RequestId SchedRequest} {x : RequestId}
  {r u : SchedRequest}

theorem refl (objects : Dict RequestId SchedRequest) : KeepsLoras objects objects :=
  fun _ r hr => ⟨r, hr, rfl⟩

theorem trans (h : KeepsLoras objects objects') (h' : KeepsLoras objects' objects'') :
    KeepsLoras objects objects'' := by
  intro x r hr
  obtain ⟨r₁, hr₁, hlora₁⟩ := h x r hr
  obtain ⟨r₂, hr₂, hlora₂⟩ := h' x r₁ hr₁
  exact ⟨r₂, hr₂, hlora₂.trans hlora₁⟩

theorem set (hr : objects.get? x = some r) (hlora : u.core.loraRequest = r.core.loraRequest) :
    KeepsLoras objects (objects.set x u) := by
  intro y ry hry
  rw [Dict.get?_set]
  split
  · next hyx =>
    subst hyx
    obtain rfl := Option.some.inj (hr.symm.trans hry)
    exact ⟨u, rfl, hlora⟩
  · exact ⟨ry, hry, rfl⟩

theorem set_new (hnone : objects.get? x = none) : KeepsLoras objects (objects.set x u) := by
  intro y ry hry
  rw [Dict.get?_set, if_neg]
  · exact ⟨ry, hry, rfl⟩
  · rintro rfl
    simp [hnone] at hry

end KeepsLoras

namespace Scheduler
variable {κ ε : Type} {env : SchedulerEnv κ ε} {s s' s'' : Scheduler κ ε} {requestId : RequestId}
  {r : SchedRequest} {frame : SchedulerOutput} {out : ModelRunnerOutput}

/-- The running list loses requests at most. -/
structure Shrinks (s s' : Scheduler κ ε) : Prop where
  running : s'.running.Sublist s.running
  loras : KeepsLoras s.objects s'.objects

theorem Shrinks.refl (s : Scheduler κ ε) : s.Shrinks s := ⟨.refl _, .refl _⟩

theorem Shrinks.trans (h : s.Shrinks s') (h' : s'.Shrinks s'') : s.Shrinks s'' :=
  ⟨h'.running.trans h.running, h.loras.trans h'.loras⟩

theorem removeAll_sublist (l ids : List RequestId) : (removeAll l ids).Sublist l := by
  unfold removeAll
  split
  · exact .refl l
  · exact List.erase_sublist
  · exact List.filter_sublist

variable {delays : RequestId → Bool} {ids : List RequestId} {output : SchedulerOutput}

theorem finishRequests_shrinks {status : RequestStatus}
    (h : s.finishRequests env delays ids status = .ok s') :
    s.Shrinks s' := by
  unfold Scheduler.finishRequests at h
  obtain ⟨-, -, h⟩ := of_bind h
  have hdequeue : s.Shrinks (s.dequeueRequests env (s.requestsToFinish ids)) :=
    ⟨removeAll_sublist _ _, .refl _⟩
  refine foldlM_invariant (P := fun s' => s.Shrinks s') ?_ hdequeue h
  intro x _ s₁ s₂ hs₁ hstep
  obtain ⟨r, kv, encoder, requests, recving, failed, hr, -, -, -, rfl⟩ := finishRequest_eq_ok hstep
  exact hs₁.trans ⟨.refl _, .set (u := r.setStatus status) hr rfl⟩

theorem freeBlocks_shrinks (h : s.freeBlocks env requestId = .ok s') : s.Shrinks s' := by
  obtain ⟨r, kv, -, -, rfl⟩ := freeBlocks_eq_ok h
  exact ⟨.refl _, .refl _⟩

theorem updateDraftTokenIds_shrinks (s : Scheduler κ ε)
    (draftTokenIds : List (RequestId × List TokenId)) :
    s.Shrinks (s.updateDraftTokenIds draftTokenIds) :=
  updateDraftTokenIds_rule (P := s.Shrinks)
    (fun _ _ _ _ hr h => h.trans ⟨.refl _, .set hr rfl⟩) draftTokenIds (.refl s)

theorem addRequest_shrinks {request : SchedRequest}
    (hfresh : request.requestId ∉ s.requests → s.objects.get? request.requestId = none)
    (h : s.addRequest env delays request = .ok s') : s.Shrinks s' := by
  unfold Scheduler.addRequest at h
  split at h
  · next existing hexisting =>
    have hget := (registered_eq_some.mp hexisting).2
    split at h
    · split at h
      · simp at h
      · cases h
        exact ⟨.refl _, .set hget rfl⟩
    split at h
    · obtain ⟨core, -, hlora, -, rfl⟩ := updateSession_eq_ok h
      exact ⟨.refl _, .set hget hlora⟩
    · exact finishRequests_shrinks h
  · next hnone =>
    cases h
    have hfree : s.objects.get? request.requestId = none := by
      by_cases hmem : request.requestId ∈ s.requests
      · rwa [registered, if_pos hmem] at hnone
      · exact hfresh hmem
    have hid : (if request.resumable then { request with streamingQueue := some [] }
        else request).requestId = request.requestId := by
      split <;> rfl
    obtain ⟨waiting, skipped, heq, -⟩ := enqueueWaitingRequest_eq env
      (s.put request.requestId (if request.resumable
        then { request with streamingQueue := some [] } else request)) request.requestId
      (if request.resumable then { request with streamingQueue := some [] } else request).status
    simp only [hid]
    rw [heq]
    exact ⟨.refl _, .set_new hfree⟩

theorem preemptRunning_shrinks (h : preemptRunning env ids s = .ok s') : s.Shrinks s' := by
  induction ids generalizing s with
  | nil =>
    obtain rfl := pure_eq_ok.mp h
    exact .refl s
  | cons x ids ih =>
    unfold preemptRunning at h
    obtain ⟨s₁, hpreempt, h⟩ := of_bind h
    obtain ⟨r, hr, h⟩ := of_bind h
    rw [object_eq_ok] at hr
    refine .trans ?_ (ih h)
    obtain ⟨r₀, kv, encoder, hr₀, -, -, -, rfl⟩ := preemptRequest_eq_ok hpreempt
    exact ⟨List.dropLast_sublist _, (KeepsLoras.set (u := preempted r₀) hr₀ rfl).trans (.set hr rfl)⟩

theorem resetPrefixCache_shrinks {reset successful : Bool}
    (h : s.resetPrefixCache env reset = .ok (successful, s')) : s.Shrinks s' := by
  unfold Scheduler.resetPrefixCache at h
  obtain ⟨s₁, hpreempt, h⟩ := of_bind h
  obtain ⟨⟨success, kv⟩, -, h⟩ := of_bind h
  simp only at h
  split at h
  · simp at h
  cases h
  split at hpreempt
  · exact (preemptRunning_shrinks hpreempt).trans ⟨.refl _, .refl _⟩
  · cases hpreempt
    exact ⟨.refl _, .refl _⟩

theorem Recounted.shrinks (h : s.Recounted s') : s.Shrinks s' := by
  obtain ⟨-, hrunning, -, -, hobjects⟩ := h
  refine ⟨hrunning ▸ .refl _, ?_⟩
  intro x r hr
  obtain ⟨c, p, hx⟩ := hobjects x
  exact ⟨r.recount c p, by rw [hx, hr, Option.map_some], rfl⟩

theorem processRequest_shrinks {pass pass' : OutputPass κ ε}
    (hr : pass.sched.objects.get? requestId = some r)
    (h : OutputPass.processRequest env frame out pass requestId r = .ok pass') :
    pass.sched.Shrinks pass'.sched := by
  obtain ⟨r₁, encoder, kv, -, hlora, -, ⟨-, -, outputs, rfl⟩ |
    ⟨-, hfinished, -, s₂, outputs, hsettle, rfl⟩⟩ := OutputPass.processRequest_cases h
  · exact ⟨.refl _, .set hr hlora⟩
  · obtain ⟨r₃, hobjects, hlora', hrunning, -⟩ :=
      settleStopped_cases (by rw [Dict.get?_set, if_pos rfl]) hfinished hsettle
    refine ⟨hrunning ▸ .refl _, ?_⟩
    rw [hobjects, Dict.set_set]
    exact .set hr (hlora'.trans hlora)

theorem updateFromOutput_shrinks {outputs : List EngineCoreOutput}
    (h : s.updateFromOutput env frame out = .ok (outputs, s')) : s.Shrinks s' := by
  refine updateFromOutput_rule (P := s.Shrinks) ?_
    (fun _ _ _ _ hs hfinish => hs.trans (finishRequests_shrinks hfinish))
    (fun _ _ hs => hs.trans ⟨.refl _, .refl _⟩)
    (fun _ _ _ hs hfree => hs.trans (freeBlocks_shrinks hfree)) h
  intro failed s₁ pass hfailed hloop
  have hpass : s₁.Shrinks pass.sched := by
    refine foldlM_invariant (P := fun pass : OutputPass κ ε => s₁.Shrinks pass.sched) ?_
      (.refl s₁) hloop
    intro item _ pass₁ pass₂ hpass hstep
    obtain rfl | ⟨r, -, hr, -, hstep⟩ := OutputPass.processOutput_cases hstep
    · exact hpass
    · exact hpass.trans (processRequest_shrinks (registered_eq_some.mp hr).2 hstep)
  exact ((failedKvLoads_spec hfailed).1.shrinks.trans hpass).trans
    ⟨removeAll_sublist _ _, .refl _⟩

theorem updateAfterSchedule_shrinks (h : s.updateAfterSchedule env output = .ok s') :
    s.Shrinks s' := by
  unfold Scheduler.updateAfterSchedule at h
  obtain ⟨s₁, hadvance, h⟩ := of_bind h
  have hs₁ : s.Shrinks s₁ := by
    refine foldlM_invariant (P := fun s' => s.Shrinks s') ?_ (.refl s) hadvance
    intro item _ b b' hb hstep
    unfold Scheduler.advanceComputed at hstep
    split at hstep
    · simp at hstep
    next r hr =>
    cases hstep
    have hput := (registered_eq_some.mp hr).2
    split
    · exact hb.trans ⟨.refl _, .set hput rfl⟩
    · exact hb.trans ⟨.refl _, .set hput rfl⟩
  split at h
  · refine foldlM_invariant (P := fun s' => s.Shrinks s') ?_
      (hs₁.trans (show s₁.Shrinks { s₁ with finishedReqIds := [] } from ⟨.refl _, .refl _⟩)) h
    intro item _ b b' hb hstep
    unfold Scheduler.addPlaceholders at hstep
    split at hstep
    · simp at hstep
    next r hr =>
    split at hstep
    · cases hstep
      exact hb
    · cases hstep
      exact hb.trans ⟨.refl _, .set (registered_eq_some.mp hr).2 rfl⟩
  · cases h
    exact hs₁.trans ⟨.refl _, .refl _⟩

theorem schedule_eq_ok {answers : StepAnswers} (h : s.schedule env answers = .ok (output, s')) :
    ∃ st,
      s.assembleStep env answers = .ok st ∧ st.checkConstraints env = .ok () ∧
      st.sched.Shrinks s' := by
  unfold Scheduler.schedule at h
  obtain ⟨st, hassemble, h⟩ := of_bind h
  obtain ⟨_, hcheck, h⟩ := of_bind h
  obtain ⟨s₁, hafter, h⟩ := of_bind h
  cases h
  refine ⟨st, hassemble, hcheck, ?_⟩
  have hsame : st.sched.Shrinks { st.sched with
      encoder := (env.encoder.getFreedMmHashes st.sched.encoder).2 } := ⟨.refl _, .refl _⟩
  exact hsame.trans (updateAfterSchedule_shrinks hafter)

end Scheduler

/-- What an event other than a step does to the running list. -/
theorem EngineState.apply_shrinks {κ ε : Type} {env : SchedulerEnv κ ε} {e e' : EngineState κ ε}
    {event : EngineEvent} (hadmissible : event.Admissible e)
    (hevent : ∀ answers, event ≠ .schedule answers) (h : e.apply env event = .ok e') :
    e.sched.Shrinks e'.sched := by
  refine EngineState.apply_rule h ?_ (fun answers _ _ hcall => absurd hcall (hevent answers))
    (fun _ _ _ _ _ _ => Scheduler.updateFromOutput_shrinks)
    (Scheduler.updateDraftTokenIds_shrinks _)
    (fun _ _ _ _ _ => Scheduler.finishRequests_shrinks)
    (fun _ _ _ => Scheduler.resetPrefixCache_shrinks) fun _ => ⟨.refl _, .refl _⟩
  rintro request delays s' rfl hadd
  exact Scheduler.addRequest_shrinks hadmissible.2 hadd

/-- The running list is never longer than its bound: a step checks it, and between two steps the
list only shrinks. -/
theorem EngineReachable.running_length_le {κ ε : Type} {env : SchedulerEnv κ ε}
    {ok : EngineState κ ε → EngineEvent → Prop} {e : EngineState κ ε}
    (he : EngineReachable env ok e) :
    e.sched.running.length ≤ env.config.maxNumRunningReqs := by
  induction he with
  | start kv encoder => exact Nat.zero_le _
  | @step e e' event _ hadmissible hok h ih =>
    by_cases hevent : ∃ answers, event = .schedule answers
    · obtain ⟨answers, rfl⟩ := hevent
      obtain ⟨⟨output, sched⟩, hschedule, h⟩ := of_bind h
      cases h
      obtain ⟨st, -, hcheck, hshrinks⟩ := Scheduler.schedule_eq_ok hschedule
      unfold ScheduleStep.checkConstraints at hcheck
      simp only [bind_eq_ok, require_eq_ok, exists_const] at hcheck
      exact hshrinks.running.length_le.trans hcheck.2.2.1
    · have hshrinks := EngineState.apply_shrinks hadmissible
        (fun answers heq => hevent ⟨answers, heq⟩) h
      exact hshrinks.running.length_le.trans ih

end Vllm
