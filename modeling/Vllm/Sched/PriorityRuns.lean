import Vllm.Sched.PriorityHeap
import Vllm.Sched.RunningRequests

/-! The priority order over whole runs. An update gives a session a new arrival time while it may be
in a heap: the queues stay heaps as long as no update moves a session past another member. -/
namespace Vllm
open Raises RequestQueue List

namespace Scheduler
variable {κ ε : Type} (env : SchedulerEnv κ ε)

/-- With the new arrival time, the request compares to the other members of its queue as before. -/
def KeepsPlace (s : Scheduler κ ε) (q : List RequestId) (x : RequestId) (arrivalTime : ℚ) : Prop :=
  x ∈ q → ∀ r, s.objects.get? x = some r → ∀ y ∈ q, y ≠ x → ∀ other,
    s.objects.get? y = some other →
    Request.lt { r.core with arrivalTime } other.core = r.core.lt other.core ∧
      other.core.lt { r.core with arrivalTime } = other.core.lt r.core

/-- A session that stops and goes on with a queued update keeps its arrival time, or it is in no
queue that stays as it is: only the waiting queue is built anew, and only if the session does not
run. -/
def UpdatesOutside (frame : SchedulerOutput) (out : ModelRunnerOutput) (s : Scheduler κ ε) :
    Prop :=
  ∀ x ∈ frame.numScheduledTokens.keys, ∀ r, s.registered x = some r → r.isFinished = false →
    (∀ failed s', s.failedKvLoads env frame out = .ok (failed, s') → x ∉ failed) →
    stops env out x r = true → staysResumable out x r = true → ∀ update,
    (r.streamingQueue.getD []).head? = some (some update) →
    update.update.arrivalTime = r.core.arrivalTime ∨
      (x ∉ s.skippedWaiting ∧ (r.status = .running → x ∉ s.waiting))

/-- A peek at a waiting queue shows a minimum of its members, and a pop takes one. -/
def QueuesMin (s : Scheduler κ ε) : Prop :=
  ∀ q x, (RequestQueue.peekRequest (s.queue q) = some x ∨
      ∃ rest, RequestQueue.popRequest .priority s.lt (s.queue q) = some (x, rest)) →
    ∀ y ∈ s.queue q, s.lt y x = false

variable {env} {s s' : Scheduler κ ε} {q ids : List RequestId} {x requestId : RequestId}
  {r : SchedRequest} {delays : RequestId → Bool} {status : RequestStatus}
  {frame : SchedulerOutput} {out : ModelRunnerOutput}

theorem HeapQueues.peeks_min (h : s.HeapQueues) : s.QueuesMin := by
  intro q x hx y hy
  obtain hpeek | ⟨rest, hpop⟩ := hx
  · exact (h.queue q).peek_le hpeek hy
  · exact (h.queue q).peek_le (popRequest_perm hpop).1 hy

theorem SameQueues.put {u : SchedRequest} (h : s.objects.get? x = some r)
    (hkey : u.core.sortKey = r.core.sortKey) : s.SameQueues (s.put x u) :=
  ⟨rfl, rfl, sortKey_set h rfl hkey⟩

theorem HeapQueue.rekey {u : SchedRequest} {arrivalTime : ℚ} (h : s.HeapQueue q)
    (hr : s.objects.get? x = some r) (hobjects : s'.objects = s.objects.set x u)
    (hkey : u.core.sortKey = (r.core.priority, arrivalTime, r.core.requestId))
    (hplace : s.KeepsPlace q x arrivalTime) : s'.HeapQueue q := by
  have hget : ∀ y, s'.objects.get? y = if y = x then some u else s.objects.get? y := by
    intro y
    rw [hobjects, Dict.get?_set]
  by_cases hx : x ∈ q
  · have hu : ∀ other : Request, u.core.lt other = Request.lt { r.core with arrivalTime } other ∧
        other.lt u.core = other.lt { r.core with arrivalTime } :=
      fun other => ⟨Request.lt_congr hkey rfl, Request.lt_congr rfl hkey⟩
    refine ⟨?_, h.isHeap.congr ?_⟩
    · intro y hy
      rw [sortKey, hget]
      split
      · rfl
      · exact h.known y hy
    · intro a ha b hb
      obtain ⟨ra, hra⟩ := Option.isSome_iff_exists.mp
        (show (s.objects.get? a).isSome = true by simpa [sortKey] using h.known a ha)
      obtain ⟨rb, hrb⟩ := Option.isSome_iff_exists.mp
        (show (s.objects.get? b).isSome = true by simpa [sortKey] using h.known b hb)
      unfold lt
      rw [hget, hget, hra, hrb]
      by_cases hax : a = x
      · rw [if_pos hax]
        subst hax
        obtain rfl := Option.some.inj (hr.symm.trans hra)
        by_cases hbx : b = a
        · rw [if_pos hbx]
          subst hbx
          obtain rfl := Option.some.inj (hr.symm.trans hrb)
          simp [Request.lt]
        · rw [if_neg hbx]
          exact (hu rb.core).1.trans (hplace hx r hr b hb hbx rb hrb).1
      · rw [if_neg hax]
        by_cases hbx : b = x
        · rw [if_pos hbx]
          subst hbx
          obtain rfl := Option.some.inj (hr.symm.trans hrb)
          exact (hu ra.core).2.trans (hplace hx r hr a ha hax ra hra).2
        · rw [if_neg hbx]
  · refine h.congr ?_
    intro y hy
    rw [sortKey, hget, if_neg (by rintro rfl; exact hx hy)]
    rfl

section Finish

theorem foldlM_finishRequest_same
    (h : ids.foldlM (finishRequest env delays status) s = .ok s') : s.SameQueues s' := by
  refine foldlM_invariant (P := fun s' => s.SameQueues s') ?_ (.refl s) h
  intro x _ s₁ s₂ hs₁ hstep
  obtain ⟨r, kv, encoder, requests, recving, failed, hr, -, -, -, rfl⟩ := finishRequest_eq_ok hstep
  exact hs₁.trans ⟨rfl, rfl, sortKey_set hr rfl rfl⟩

theorem HeapQueues.finishRequests (hpolicy : env.config.policy = .priority) (hs : s.HeapQueues)
    (h : s.finishRequests env delays ids status = .ok s') : s'.HeapQueues := by
  unfold Scheduler.finishRequests at h
  obtain ⟨-, -, h⟩ := of_bind h
  refine HeapQueues.same ?_ (foldlM_finishRequest_same h)
  unfold dequeueRequests
  rw [hpolicy]
  dsimp only
  split
  · exact ⟨hs.waiting.congr fun _ _ => rfl, hs.skippedWaiting.congr fun _ _ => rfl⟩
  · exact ⟨(HeapQueue.removeRequests hs.waiting.known).congr fun _ _ => rfl,
      (HeapQueue.removeRequests hs.skippedWaiting.known).congr fun _ _ => rfl⟩

end Finish

section Calls

theorem freeBlocks_same (h : s.freeBlocks env requestId = .ok s') : s.SameQueues s' := by
  obtain ⟨r, kv, -, -, rfl⟩ := freeBlocks_eq_ok h
  exact ⟨rfl, rfl, fun _ => rfl⟩

theorem updateDraftTokenIds_same (draftTokenIds : List (RequestId × List TokenId))
    (s : Scheduler κ ε) : s.SameQueues (s.updateDraftTokenIds draftTokenIds) :=
  updateDraftTokenIds_rule (P := s.SameQueues) (fun _ _ _ _ hr h => h.trans (.put hr rfl))
    draftTokenIds (.refl s)

section
variable (hpolicy : env.config.policy = .priority) (hs : s.HeapQueues)
include hpolicy hs

theorem HeapQueues.enqueueWaitingRequest (hx : (s.sortKey x).isSome = true)
    (status : RequestStatus) : (s.enqueueWaitingRequest env x status).HeapQueues := by
  unfold Scheduler.enqueueWaitingRequest
  rw [hpolicy]
  split
  · exact ⟨hs.waiting.congr fun _ _ => rfl, (hs.skippedWaiting.addRequest hx).congr fun _ _ => rfl⟩
  · exact ⟨(hs.waiting.addRequest hx).congr fun _ _ => rfl, hs.skippedWaiting.congr fun _ _ => rfl⟩

theorem HeapQueues.addRequest {request : SchedRequest}
    (hnew : request.requestId ∉ s.requests → s.objects.get? request.requestId = none)
    (hplace : ∀ existing, s.registered request.requestId = some existing →
      existing.status = .waitingForStreamingReq → request.resumable = true →
      ∀ q, s.KeepsPlace (s.queue q) request.requestId request.core.arrivalTime)
    (h : s.addRequest env delays request = .ok s') : s'.HeapQueues := by
  unfold Scheduler.addRequest at h
  split at h
  · next existing hexisting =>
    have hget := (registered_eq_some.mp hexisting).2
    split at h
    · split at h
      · simp at h
      · cases h
        exact hs.same (.put hget rfl)
    · next hstatus =>
      rw [ne_eq, not_not] at hstatus
      split at h
      · next update hupdate =>
        obtain ⟨hresumable, harrival⟩ : request.resumable = true ∧
            update.update.arrivalTime = request.core.arrivalTime := by
          unfold SchedRequest.toUpdate at hupdate
          split at hupdate
          · simp at hupdate
          · next hresumable =>
            cases hupdate
            exact ⟨by simpa using hresumable, rfl⟩
        obtain ⟨core, -, -, hkey, rfl⟩ := updateSession_eq_ok h
        rw [harrival] at hkey
        have hplace := hplace existing hexisting hstatus hresumable
        exact ⟨hs.waiting.rekey hget rfl hkey (hplace .waiting),
          hs.skippedWaiting.rekey hget rfl hkey (hplace .skippedWaiting)⟩
      · exact hs.finishRequests hpolicy h
  · next hnone =>
    have hfresh : s.objects.get? request.requestId = none := by
      by_cases hmem : request.requestId ∈ s.requests
      · rwa [registered, if_pos hmem] at hnone
      · exact hnew hmem
    cases h
    generalize hrequest : (if request.resumable = true then
      { request with streamingQueue := some [] } else request) = request'
    have hid : request'.requestId = request.requestId := by
      rw [← hrequest]
      split <;> rfl
    have hput : (s.put request'.requestId request').HeapQueues := by
      have hkeys : ∀ q : List RequestId, s.HeapQueue q → ∀ y ∈ q,
          (s.put request'.requestId request').sortKey y = s.sortKey y := by
        intro q hq y hy
        unfold sortKey Scheduler.put
        rw [Dict.get?_set, if_neg]
        rintro rfl
        have hknown := hq.known _ hy
        rw [sortKey, hid, hfresh] at hknown
        simp at hknown
      exact ⟨hs.waiting.congr (hkeys _ hs.waiting),
        hs.skippedWaiting.congr (hkeys _ hs.skippedWaiting)⟩
    refine (hput.enqueueWaitingRequest hpolicy ?_ request'.status).same ⟨rfl, rfl, fun _ => rfl⟩
    rw [sortKey, Scheduler.put, Dict.get?_set, if_pos rfl]
    rfl

theorem HeapQueues.preemptRunning (h : preemptRunning env ids s = .ok s') : s'.HeapQueues := by
  induction ids generalizing s with
  | nil =>
    cases h
    exact hs
  | cons x ids ih =>
    unfold Scheduler.preemptRunning at h
    obtain ⟨s₁, hpreempt, h⟩ := of_bind h
    obtain ⟨r, hr, h⟩ := of_bind h
    rw [object_eq_ok] at hr
    refine ih ?_ h
    refine HeapQueues.same ?_ (.put hr rfl)
    obtain ⟨r₀, kv, encoder, hr₀, -, -, -, rfl⟩ := preemptRequest_eq_ok hpreempt
    have hput : (s.put x (preempted r₀)).HeapQueues := hs.same (.put hr₀ rfl)
    rw [hpolicy]
    refine ⟨(hput.waiting.addRequest ?_).congr fun _ _ => rfl,
      hput.skippedWaiting.congr fun _ _ => rfl⟩
    rw [sortKey, Scheduler.put, Dict.get?_set, if_pos rfl]
    rfl

theorem HeapQueues.resetPrefixCache {resetRunningRequests successful : Bool}
    (h : s.resetPrefixCache env resetRunningRequests = .ok (successful, s')) : s'.HeapQueues := by
  unfold Scheduler.resetPrefixCache at h
  obtain ⟨s₁, hrunning, h⟩ := of_bind h
  obtain ⟨⟨success, kv⟩, -, h⟩ := of_bind h
  have hs₁ : s₁.HeapQueues := by
    split at hrunning
    · exact hs.preemptRunning hpolicy hrunning
    · cases hrunning
      exact hs
  dsimp only at h
  split at h
  · simp at h
  · cases h
    exact hs₁.same ⟨rfl, rfl, fun _ => rfl⟩

end

end Calls

section Step
variable {answers : StepAnswers} {st : ScheduleStep κ ε}

theorem updateAfterSchedule_same {output : SchedulerOutput}
    (h : s.updateAfterSchedule env output = .ok s') : s.SameQueues s' := by
  obtain ⟨objects, inflightPrefills, rfl, hcore⟩ := updateAfterSchedule_eq_ok h
  refine ⟨rfl, rfl, ?_⟩
  intro x
  have hkeys := congrArg (Option.map Request.sortKey) (hcore x)
  rw [Option.map_map, Option.map_map] at hkeys
  exact hkeys

theorem HeapQueues.startStep (hs : s.HeapQueues) : (s.startStep env).HeapStep where
  queues := hs.same ⟨rfl, rfl, fun _ => rfl⟩
  skipped _ hx := absurd hx not_mem_nil

theorem HeapQueues.schedule {output : SchedulerOutput} (hpolicy : env.config.policy = .priority)
    (hs : s.HeapQueues) (h : s.schedule env answers = .ok (output, s')) : s'.HeapQueues := by
  unfold Scheduler.schedule at h
  obtain ⟨st, hassemble, h⟩ := of_bind h
  obtain ⟨-, -, h⟩ := of_bind h
  obtain ⟨s₁, hafter, h⟩ := of_bind h
  cases h
  obtain ⟨st₁, hrunning, hrest⟩ := assembleStep_moves hassemble
  have hst₁ := hs.startStep.moves hpolicy hrunning
  have hst : st.HeapStep := by
    obtain rfl | ⟨-, st₂, hwaiting, rfl⟩ := hrest
    · exact hst₁
    · exact (hst₁.moves hpolicy hwaiting).requeueSkipped hpolicy
  refine HeapQueues.same ?_ (updateAfterSchedule_same hafter)
  exact hst.queues.same ⟨rfl, rfl, fun _ => rfl⟩

variable (env answers s) in
/-- The states in which the loop over the waiting requests looks at a queue. -/
inductive Looks : ScheduleStep κ ε → Prop
  | first {st₁ st₂ : ScheduleStep κ ε}
      (hrunning : ScheduleStep.runningLoop env answers s.running.length (s.startStep env) = .ok st₁)
      (hloras : ScheduleStep.recordLoras env st₁ = .ok st₂) : Looks st₂
  | next {st st' : ScheduleStep κ ε} (h : Looks st)
      (hroom : st.sched.running.length ≠ env.config.maxNumRunningReqs)
      (hturn : ScheduleStep.waitingTurn env answers st = .ok (true, st')) : Looks st'

theorem HeapQueues.looks (hpolicy : env.config.policy = .priority) (hs : s.HeapQueues)
    (h : s.Looks env answers st) : st.HeapStep := by
  induction h with
  | first hrunning hloras =>
    have hmoves := ScheduleStep.runningLoop_moves hrunning
    exact (hs.startStep.moves hpolicy hmoves).move hpolicy
      (show ScheduleStep.Move env answers .running _ _ from .loras hloras)
  | next _ hroom hturn ih => exact ih.moves hpolicy (ScheduleStep.waitingTurn_moves hroom hturn)

end Step

theorem Recounted.sameQueues (h : s.Recounted s') : s.SameQueues s' := by
  obtain ⟨-, -, hwaiting, hskipped, hobjects⟩ := h
  refine ⟨hwaiting, hskipped, fun x => ?_⟩
  obtain ⟨c, p, hx⟩ := hobjects x
  rw [sortKey, sortKey, hx, Option.map_map]
  rfl

end Scheduler

namespace OutputPass
variable {κ ε : Type} {env : SchedulerEnv κ ε} {s : Scheduler κ ε} {pass pass' : OutputPass κ ε}
  {frame : SchedulerOutput} {out : ModelRunnerOutput} {failed todo : List RequestId}
  {requestId : RequestId} {r : SchedRequest}

/-- In the middle of the loop the waiting queue may be out of order if it is to be built anew. -/
structure HeapPass (s : Scheduler κ ε) (todo : List RequestId) (pass : OutputPass κ ε) : Prop where
  known : ∀ x ∈ pass.sched.waiting, (pass.sched.sortKey x).isSome = true
  waiting : pass.stoppedPreemptedReqs = [] → pass.sched.HeapQueue pass.sched.waiting
  skippedWaiting : pass.sched.HeapQueue pass.sched.skippedWaiting
  requests : pass.sched.requests ⊆ s.requests
  todo : ∀ x ∈ todo, (x ∈ pass.sched.waiting → x ∈ s.waiting) ∧
    (x ∈ pass.sched.skippedWaiting → x ∈ s.skippedWaiting) ∧
    pass.sched.objects.get? x = s.objects.get? x

theorem HeapPass.start (hs : s.HeapQueues) : HeapPass s todo { sched := s } where
  known := hs.waiting.known
  waiting _ := hs.waiting
  skippedWaiting := hs.skippedWaiting
  requests := List.Subset.refl _
  todo _ _ := ⟨id, id, rfl⟩

theorem HeapPass.skip (h : HeapPass s (requestId :: todo) pass) : HeapPass s todo pass :=
  { h with todo := fun x hx => h.todo x (mem_cons_of_mem _ hx) }

theorem HeapPass.turn {u : SchedRequest} (h : HeapPass s (requestId :: todo) pass)
    (hnodup : requestId ∉ todo) (hobjects : pass'.sched.objects = pass.sched.objects.set requestId u)
    (hrequests : pass'.sched.requests ⊆ pass.sched.requests)
    (hwaits : pass'.sched.waiting ⊆ requestId :: pass.sched.waiting)
    (hskips : pass'.sched.skippedWaiting ⊆ requestId :: pass.sched.skippedWaiting)
    (hwaiting : pass'.stoppedPreemptedReqs = [] → pass'.sched.HeapQueue pass'.sched.waiting)
    (hskipped : pass'.sched.HeapQueue pass'.sched.skippedWaiting) : HeapPass s todo pass' := by
  refine ⟨?_, hwaiting, hskipped, fun x hx => h.requests (hrequests hx), ?_⟩
  · intro x hx
    rw [Scheduler.sortKey, hobjects, Dict.get?_set]
    split
    · rfl
    · next hne => exact h.known x ((mem_cons.mp (hwaits hx)).resolve_left hne)
  · intro x hx
    have hne : x ≠ requestId := by
      rintro rfl
      exact hnodup hx
    obtain ⟨hwait, hskip, hget⟩ := h.todo x (mem_cons_of_mem _ hx)
    refine ⟨fun hmem => hwait ?_, fun hmem => hskip ?_, ?_⟩
    · exact (mem_cons.mp (hwaits hmem)).resolve_left hne
    · exact (mem_cons.mp (hskips hmem)).resolve_left hne
    · rw [hobjects, Dict.get?_set, if_neg hne]
      exact hget

section
variable (hpolicy : env.config.policy = .priority)
include hpolicy

theorem HeapPass.processRequest (h : HeapPass s (requestId :: todo) pass)
    (hnodup : requestId ∉ todo)
    (hr : pass.sched.objects.get? requestId = some r)
    (houtside : Scheduler.stops env out requestId r = true →
      Scheduler.staysResumable out requestId r = true → ∀ update,
      (r.streamingQueue.getD []).head? = some (some update) →
      update.update.arrivalTime = r.core.arrivalTime ∨
        (requestId ∉ s.skippedWaiting ∧ (r.status = .running → requestId ∉ s.waiting)))
    (hstep : processRequest env frame out pass requestId r = .ok pass') : HeapPass s todo pass' := by
  obtain ⟨r₁, encoder, kv, hqueue, -, hkey₁, ⟨-, -, outputs, rfl⟩ |
    ⟨hstops, hfinished, hresumable, s₂, outputs, hsettle, rfl⟩⟩ := processRequest_cases hstep
  · have hkeys : ∀ x, Scheduler.sortKey { pass.sched with
        objects := pass.sched.objects.set requestId r₁
        encoder
        kv } x = pass.sched.sortKey x := Scheduler.sortKey_set hr rfl hkey₁
    exact h.turn hnodup rfl (List.Subset.refl _) (subset_cons_self _ _)
      (subset_cons_self _ _) (fun hnone => (h.waiting hnone).congr fun x _ => hkeys x)
      (h.skippedWaiting.congr fun x _ => hkeys x)
  obtain ⟨u, hobjects, -, -, hplace⟩ :=
    Scheduler.settleStopped_cases (by rw [Dict.get?_set, if_pos rfl]) hfinished hsettle
  rw [Dict.set_set] at hobjects
  have hrequests : s₂.requests ⊆ pass.sched.requests := by
    obtain ⟨-, -, hreq | hreq, -⟩ | ⟨-, -, -, hreq, -⟩ | ⟨-, -, hreq, -⟩ := hplace
    · exact fun x hx => hreq ▸ hx
    · exact hreq ▸ fun x hx => mem_of_mem_filter hx
    · exact fun x hx => hreq ▸ hx
    · exact fun x hx => hreq ▸ hx
  have hnone : (if r.status = .running then pass.stoppedPreemptedReqs
      else setAdd pass.stoppedPreemptedReqs requestId) = [] →
      r.status = .running ∧ pass.stoppedPreemptedReqs = [] := by
    intro hnone
    split at hnone
    · next hrun => exact ⟨hrun, hnone⟩
    · exact absurd hnone (EncoderCacheManager.setAdd_ne_nil _ _)
  have hknown : (s₂.sortKey requestId).isSome = true := by
    rw [Scheduler.sortKey, hobjects, Dict.get?_set, if_pos rfl]
    rfl
  obtain ⟨-, hkey, -, hw, hsk, -⟩ | ⟨-, hres, ⟨update, hhead, hkey⟩, -, hw, hsk, -⟩ |
    ⟨-, hkey, -, hw, hsk, -⟩ := hplace
  · have hkeys := Scheduler.sortKey_set hr hobjects (hkey.trans hkey₁)
    refine h.turn hnodup hobjects hrequests ?_ ?_ ?_ ?_
    all_goals dsimp only
    · rw [hw]
      exact subset_cons_self _ _
    · rw [hsk]
      exact subset_cons_self _ _
    · intro hstopped
      rw [hw]
      exact (h.waiting (hnone hstopped).2).congr fun x _ => hkeys x
    · rw [hsk]
      exact h.skippedWaiting.congr fun x _ => hkeys x
  · obtain ⟨hwait, hskip, -⟩ := h.todo requestId mem_cons_self
    have hothers : ∀ x, x ≠ requestId → s₂.sortKey x = pass.sched.sortKey x := by
      intro x hne
      rw [Scheduler.sortKey, Scheduler.sortKey, hobjects, Dict.get?_set, if_neg hne]
    have hplaces : (∀ x, s₂.sortKey x = pass.sched.sortKey x) ∨
        (requestId ∉ pass.sched.skippedWaiting ∧
          (r.status = .running → requestId ∉ pass.sched.waiting)) := by
      rw [hqueue] at hhead
      obtain harrival | ⟨hskipped, hwaiting⟩ :=
        houtside hstops (hresumable.symm.trans hres) update hhead
      · refine .inl (Scheduler.sortKey_set hr hobjects ?_)
        simp only [Request.sortKey, Prod.mk.injEq] at hkey₁
        rw [hkey, harrival, hkey₁.1, hkey₁.2.2]
        rfl
      · exact .inr ⟨fun hmem => hskipped (hskip hmem), fun hrun hmem => hwaiting hrun (hwait hmem)⟩
    refine h.turn hnodup hobjects hrequests ?_ ?_ ?_ ?_
    all_goals dsimp only
    · rw [hw]
      exact (addRequest_perm _ _ _ _).subset
    · rw [hsk]
      exact subset_cons_self _ _
    · intro hstopped
      obtain ⟨hrun, hempty⟩ := hnone hstopped
      rw [hw, hpolicy]
      refine ((h.waiting hempty).congr ?_).addRequest hknown
      intro x hx
      obtain hkeys | ⟨-, hwaiting⟩ := hplaces
      · exact hkeys x
      · exact hothers x (by rintro rfl; exact hwaiting hrun hx)
    · rw [hsk]
      refine h.skippedWaiting.congr ?_
      intro x hx
      obtain hkeys | ⟨hskipped, -⟩ := hplaces
      · exact hkeys x
      · exact hothers x (by rintro rfl; exact hskipped hx)
  · have hkeys := Scheduler.sortKey_set hr hobjects (hkey.trans hkey₁)
    refine h.turn hnodup hobjects hrequests ?_ ?_ ?_ ?_
    all_goals dsimp only
    · rw [hw]
      exact subset_cons_self _ _
    · rw [hsk]
      exact (addRequest_perm _ _ _ _).subset
    · intro hstopped
      rw [hw]
      exact (h.waiting (hnone hstopped).2).congr fun x _ => hkeys x
    · rw [hsk, hpolicy]
      exact (h.skippedWaiting.congr fun x _ => hkeys x).addRequest hknown

theorem HeapPass.removeStopped (h : HeapPass s [] pass) : (pass.removeStopped env).HeapQueues := by
  unfold OutputPass.removeStopped
  rw [hpolicy]
  split
  · next hnone =>
    exact ⟨(h.waiting hnone).congr fun _ _ => rfl, h.skippedWaiting.congr fun _ _ => rfl⟩
  · exact ⟨(Scheduler.HeapQueue.removeRequests h.known).congr fun _ _ => rfl,
      h.skippedWaiting.congr fun _ _ => rfl⟩

end

end OutputPass

theorem Scheduler.HeapQueues.updateFromOutput {κ ε : Type} {env : SchedulerEnv κ ε}
    {s s' : Scheduler κ ε} {frame : SchedulerOutput} {out : ModelRunnerOutput}
    {outputs : List EngineCoreOutput} (hpolicy : env.config.policy = .priority) (hs : s.HeapQueues)
    (houtside : s.UpdatesOutside env frame out)
    (h : s.updateFromOutput env frame out = .ok (outputs, s')) : s'.HeapQueues := by
  refine updateFromOutput_rule (P := HeapQueues) ?_
    (fun _ _ _ _ hs hfinish => hs.finishRequests hpolicy hfinish)
    (fun _ _ hs => hs.same ⟨rfl, rfl, fun _ => rfl⟩)
    (fun _ _ _ hs hfree => hs.same (freeBlocks_same hfree)) h
  intro failed s₁ pass hfailed hloop
  have hsame := (failedKvLoads_spec hfailed).1.sameQueues
  have hpass : OutputPass.HeapPass s₁ [] pass := by
    refine OutputPass.foldlM_processOutput_rule
      (fun hpass => ⟨hpass.requests, fun x hx => (hpass.todo x hx).2.2⟩) .skip ?_
      frame.numScheduledTokens.nodupKeys (.start (hs.same hsame)) hloop
    intro item hitem hnot r hr hf todo pass pass' hpass hnodup hget hstep
    refine hpass.processRequest hpolicy hnodup hget ?_ hstep
    intro hstops hstays update hupdate
    obtain ⟨r₀, c, p, hr₀, rfl, hnot⟩ := failedKvLoads_registered hfailed hnot hr
    rw [stops_recount] at hstops
    rw [hsame.skippedWaiting, hsame.waiting]
    exact houtside item.1 (mem_map_of_mem hitem) r₀ hr₀ hf hnot hstops hstays update hupdate
  exact hpass.removeStopped hpolicy

/-- No update moves a session past another member of a queue it is in. -/
def EngineEvent.KeepsOrder {κ ε : Type} (env : SchedulerEnv κ ε) (e : EngineState κ ε) :
    EngineEvent → Prop
  | .addRequest request _ => ∀ existing, e.sched.registered request.requestId = some existing →
      existing.status = .waitingForStreamingReq → request.resumable = true →
      ∀ q, e.sched.KeepsPlace (e.sched.queue q) request.requestId request.core.arrivalTime
  | .updateFromOutput out => ∀ frame ∈ e.inflight.head?, e.sched.UpdatesOutside env frame out
  | _ => True

theorem EngineReachable.heapQueues {κ ε : Type} {env : SchedulerEnv κ ε} {e : EngineState κ ε}
    (hpolicy : env.config.policy = .priority)
    (he : EngineReachable env (fun e event => event.KeepsOrder env e) e) : e.sched.HeapQueues := by
  induction he with
  | start kv encoder =>
    have hnil : (EngineState.init kv encoder).sched.HeapQueue [] := by
      refine ⟨fun x hx => absurd hx not_mem_nil, ?_⟩
      intro j _ _ a b ha
      simp at ha
    exact ⟨hnil, hnil⟩
  | @step e e' event _ hadmissible hok h ih =>
    refine EngineState.apply_rule h ?_ (fun _ _ _ _ => ih.schedule hpolicy) ?_
      (fun drafts => ih.same (Scheduler.updateDraftTokenIds_same drafts _))
      (fun _ _ _ _ _ => ih.finishRequests hpolicy) (fun _ _ _ => ih.resetPrefixCache hpolicy)
      fun _ => ih.same ⟨rfl, rfl, fun _ => rfl⟩
    · rintro request delays s' rfl hadd
      exact ih.addRequest hpolicy hadmissible.2 hok hadd
    · rintro out frame hframe outputs s' rfl hupdate
      exact ih.updateFromOutput hpolicy (hok frame hframe) hupdate

/-- In every run whose updates keep the order, peeks and pops of the waiting queues give minima,
between the calls and in the middle of a step. -/
theorem EngineReachable.queuesMin {κ ε : Type} {env : SchedulerEnv κ ε} {e : EngineState κ ε}
    (hpolicy : env.config.policy = .priority)
    (he : EngineReachable env (fun e event => event.KeepsOrder env e) e) :
    e.sched.QueuesMin ∧
      ∀ answers st, e.sched.Looks env answers st → st.sched.QueuesMin := by
  have hheaps := he.heapQueues hpolicy
  refine ⟨hheaps.peeks_min, ?_⟩
  intro answers st hlooks
  exact (hheaps.looks hpolicy hlooks).queues.peeks_min

def fourByPriority : SchedulerConfig := { fourRunning with policy := .priority }

def sessionAt (requestId : RequestId) (arrivalTime : ℚ) : SchedRequest :=
  let r := promptRequest requestId [7] 1 true
  { r with core := { r.core with arrivalTime } }

def requestOf (requestId : RequestId) (priority : ℤ) : SchedRequest :=
  let r := promptRequest requestId [7] 1
  { r with core := { r.core with priority } }

/-- A session is updated only while nobody else waits, and no session goes on with a queued
update. -/
def updatesAlone {κ ε : Type} (e : EngineState κ ε) : EngineEvent → Bool
  | .addRequest request _ => (e.sched.registered request.requestId).isNone ||
      (e.sched.waiting ++ e.sched.skippedWaiting).all (· == request.requestId)
  | .updateFromOutput _ => e.inflight.head?.all fun frame => frame.numScheduledTokens.keys.all
      fun x => (e.sched.objects.get? x).all fun r => (r.streamingQueue.getD []).isEmpty
  | _ => true

theorem keepsOrder_of_updatesAlone {κ ε : Type} {env : SchedulerEnv κ ε} {e : EngineState κ ε}
    {event : EngineEvent} (h : updatesAlone e event = true) : event.KeepsOrder env e := by
  cases event with
  | addRequest request delays =>
    intro existing hexisting _ _ q _ r _ y hy hne
    simp only [updatesAlone, hexisting, Option.isNone_some, Bool.false_or, all_eq_true,
      beq_iff_eq] at h
    refine absurd (h y ?_) hne
    cases q with
    | waiting => exact mem_append_left _ hy
    | skippedWaiting => exact mem_append_right _ hy
  | updateFromOutput out =>
    intro frame hframe x hx r hr _ _ _ _ update hupdate
    simp only [updatesAlone, Option.mem_def.mp hframe, Option.all_some, all_eq_true] at h
    have hempty := h x hx
    rw [(Scheduler.registered_eq_some.mp hr).2, Option.all_some, List.isEmpty_iff] at hempty
    rw [hempty] at hupdate
    simp at hupdate
  | schedule answers | updateDraftTokenIds draftTokenIds
  | finishRequests requestIds status delays | resetPrefixCache resetRunningRequests
  | setPauseState pauseState => trivial

theorem queuesMin_sessionAlone : ∃ e : EngineState KVCacheManager EncoderCacheManager,
    EngineReachable (managerEnv fourByPriority false)
      (fun e event => event.KeepsOrder (managerEnv fourByPriority false) e) e ∧
    e.sched.QueuesMin ∧ e.sched.waiting = [3, 2] ∧ e.sched.skippedWaiting = [1] := by
  obtain ⟨e, he, hqueues⟩ := exists_ok (show (smallRun fourByPriority 8 updatesAlone [
    .addRequest (sessionAt 1 1) fun _ => false,
    .schedule {},
    .updateFromOutput oneToken,
    .addRequest (sessionAt 1 10) fun _ => false,
    .addRequest (requestOf 2 1) fun _ => false,
    .addRequest (requestOf 3 0) fun _ => false]).toOption.map
      (fun e => (e.sched.waiting, e.sched.skippedWaiting)) = some ([3, 2], [1]) by decide +kernel)
  have hreach : EngineReachable (managerEnv fourByPriority false)
      (fun e event => event.KeepsOrder (managerEnv fourByPriority false) e) e :=
    smallRun_reachable (fun _ _ => keepsOrder_of_updatesAlone) he
  obtain ⟨hwaiting, hskipped⟩ := Prod.mk.inj hqueues
  exact ⟨e, hreach, (hreach.queuesMin rfl).1, hwaiting, hskipped⟩

/-- Two sessions wait for their next input. The one at the root gets it and is later than the other
one now, but stays at the root. -/
theorem updatedSession_not_min : ∃ e : EngineState KVCacheManager EncoderCacheManager,
    EngineReachable (managerEnv fourByPriority false) (fun _ _ => True) e ∧
    ¬ e.sched.QueuesMin := by
  obtain ⟨e, he, hfacts⟩ := exists_ok (show (smallRun fourByPriority 8 (fun _ _ => true) [
    .addRequest (sessionAt 1 1) fun _ => false,
    .addRequest (sessionAt 2 2) fun _ => false,
    .schedule {},
    .updateFromOutput oneToken,
    .addRequest (sessionAt 1 10) fun _ => false]).toOption.map
      (fun e => (e.sched.skippedWaiting, e.sched.lt 2 1)) = some ([1, 2], true) by decide +kernel)
  obtain ⟨hskipped, hlt⟩ := Prod.mk.inj hfacts
  refine ⟨e, smallRun_reachable (fun _ _ _ => trivial) he, ?_⟩
  intro hmin
  have hroot := hmin .skippedWaiting 1 (.inl (by simp [Scheduler.queue, hskipped,
    peekRequest])) 2 (by simp [Scheduler.queue, hskipped])
  simp [hlt] at hroot

end Vllm
