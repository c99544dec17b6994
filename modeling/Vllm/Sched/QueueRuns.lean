import Vllm.Sched.QueueStops

/-! The queues over whole runs. An output that stops a request which no longer runs keeps the
partition only if the request is in the waiting queue and does not go on at once. -/
namespace Vllm
open Raises Partitioned List

namespace Scheduler
variable {κ ε : Type} (env : SchedulerEnv κ ε)

/-- The requests that the loop over the outputs leaves out, and the scheduler it starts from. -/
def failedKvLoads (frame : SchedulerOutput) (out : ModelRunnerOutput) (s : Scheduler κ ε) :
    Raises (List RequestId × Scheduler κ ε) :=
  if out.invalidBlockIds = [] then pure ([], s)
  else handleInvalidBlocks env out.invalidBlockIds frame.numScheduledTokens s

/-- Every request that the output stops runs, or it is in the waiting queue and does not go on
with an input that is queued already. -/
def StopsInPlace (frame : SchedulerOutput) (out : ModelRunnerOutput) (s : Scheduler κ ε) : Prop :=
  ∀ requestId ∈ frame.numScheduledTokens.keys, ∀ r, s.registered requestId = some r →
    r.isFinished = false →
    (∀ failed s', s.failedKvLoads env frame out = .ok (failed, s') → requestId ∉ failed) →
    stops env out requestId r = true →
    r.status = .running ∨
      ((r.status = .waiting ∨ r.status = .preempted) ∧ requestId ∈ s.waiting ∧
        goesOn out requestId r = false)

variable {env} {s s' : Scheduler κ ε} {frame : SchedulerOutput} {out : ModelRunnerOutput}

variable (env) in
theorem rollBackRejected_eq (specTokenIds generatedTokenIds : List TokenId) (r : SchedRequest) :
    ∃ c p, rollBackRejected env specTokenIds generatedTokenIds r = r.recount c p := by
  unfold rollBackRejected
  split
  · exact ⟨_, _, rfl⟩
  · exact ⟨r.numComputedTokens, r.numOutputPlaceholders, rfl⟩

/-- The objects are the same but for their counters. -/
def Recounted (s s' : Scheduler κ ε) : Prop :=
  s'.requests = s.requests ∧ s'.running = s.running ∧ s'.waiting = s.waiting ∧
  s'.skippedWaiting = s.skippedWaiting ∧
  ∀ x, ∃ c p, s'.objects.get? x = (s.objects.get? x).map fun r => r.recount c p

theorem Recounted.refl (s : Scheduler κ ε) : s.Recounted s := by
  refine ⟨rfl, rfl, rfl, rfl, ?_⟩
  intro x
  cases hr : s.objects.get? x with
  | none => exact ⟨0, 0, rfl⟩
  | some r => exact ⟨r.numComputedTokens, r.numOutputPlaceholders, rfl⟩

variable {x : RequestId} {ids : List RequestId} {invalid : List BlockId} {scan : InvalidBlockScan}
  {tokens : Dict RequestId ℤ}

theorem Recounted.put {r : SchedRequest} {c p : ℤ} (h : s.Recounted s')
    (hr : s'.objects.get? x = some r) : s.Recounted (s'.put x (r.recount c p)) := by
  obtain ⟨hrequests, hrunning, hwaiting, hskipped, hobjects⟩ := h
  refine ⟨hrequests, hrunning, hwaiting, hskipped, ?_⟩
  intro y
  obtain ⟨c₀, p₀, hy⟩ := hobjects y
  rw [Scheduler.put, Dict.get?_set]
  split
  · next hyx =>
    subst hyx
    obtain ⟨r₀, hr₀, rfl⟩ := Option.map_eq_some_iff.mp (hy.symm.trans hr)
    exact ⟨c, p, by rw [hr₀, Option.map_some]; rfl⟩
  · exact ⟨c₀, p₀, hy⟩

theorem nodup_setAdd {l : List RequestId} (hl : l.Nodup) : (setAdd l x).Nodup := by
  unfold setAdd
  split
  · exact hl
  · next hx =>
    rw [nodup_append]
    refine ⟨hl, nodup_singleton x, ?_⟩
    intro a ha b hb
    rw [mem_singleton.mp hb]
    rintro rfl
    exact hx ha

theorem nodup_foldl_setAdd {l : List RequestId} (hl : l.Nodup) : (ids.foldl setAdd l).Nodup := by
  induction ids generalizing l with
  | nil => exact hl
  | cons x ids ih => exact ih (nodup_setAdd hl)

theorem updateRequestWithInvalidBlocks_eq_ok {evict : Bool} {scan' : InvalidBlockScan}
    (h : updateRequestWithInvalidBlocks env invalid tokens evict (scan, s) x = .ok (scan', s')) :
    ∃ r c, s.objects.get? x = some r ∧ s' = s.put x (r.recount c r.numOutputPlaceholders) ∧
      (scan'.affectedReqIds = scan.affectedReqIds ∨
        scan'.affectedReqIds = setAdd scan.affectedReqIds x) := by
  unfold updateRequestWithInvalidBlocks at h
  obtain ⟨r, hr, h⟩ := of_bind h
  rw [object_eq_ok] at hr
  split at h
  · simp only at h
    split at h
    · cases h
      exact ⟨r, _, hr, rfl, .inr rfl⟩
    · cases h
      refine ⟨r, r.numComputedTokens, hr, ?_, .inl rfl⟩
      rw [put, show r.recount r.numComputedTokens r.numOutputPlaceholders = r from rfl,
        Dict.set_of_get? hr]
  · simp at h

theorem updateRequestsWithInvalidBlocks_spec {evict : Bool}
    (h : updateRequestsWithInvalidBlocks env invalid tokens evict ids s = .ok (scan, s')) :
    s.Recounted s' ∧ scan.affectedReqIds.Nodup ∧ (s.QueuesPartitioned → s'.QueuesPartitioned) := by
  unfold updateRequestsWithInvalidBlocks at h
  refine foldlM_invariant (P := fun acc : InvalidBlockScan × Scheduler κ ε =>
    s.Recounted acc.2 ∧ acc.1.affectedReqIds.Nodup ∧
      (s.QueuesPartitioned → acc.2.QueuesPartitioned)) ?_ ⟨.refl s, nodup_nil, id⟩ h
  rintro x - ⟨scan₁, s₁⟩ ⟨scan₂, s₂⟩ ⟨hsame, hnodup, hpart⟩ hstep
  obtain ⟨r, c, hr, rfl, haffected⟩ := updateRequestWithInvalidBlocks_eq_ok hstep
  refine ⟨hsame.put hr, ?_, fun hs => setSame (hpart hs) hr rfl⟩
  obtain hsame | hadd := haffected
  · rw [hsame]
    exact hnodup
  · rw [hadd]
    exact nodup_setAdd hnodup

theorem Recounted.trans {s'' : Scheduler κ ε} (h : s.Recounted s') (h' : s'.Recounted s'') :
    s.Recounted s'' := by
  obtain ⟨hrequests, hrunning, hwaiting, hskipped, hobjects⟩ := h
  obtain ⟨hrequests', hrunning', hwaiting', hskipped', hobjects'⟩ := h'
  refine ⟨hrequests'.trans hrequests, hrunning'.trans hrunning, hwaiting'.trans hwaiting,
    hskipped'.trans hskipped, ?_⟩
  intro x
  obtain ⟨c, p, hx⟩ := hobjects x
  obtain ⟨c', p', hx'⟩ := hobjects' x
  refine ⟨c', p', ?_⟩
  rw [hx', hx, Option.map_map]
  rfl

theorem failedKvLoads_spec {failed : List RequestId}
    (h : s.failedKvLoads env frame out = .ok (failed, s')) :
    s.Recounted s' ∧ failed.Nodup ∧ (s.QueuesPartitioned → s'.QueuesPartitioned) := by
  unfold failedKvLoads at h
  split at h
  · cases h
    exact ⟨.refl s, nodup_nil, id⟩
  unfold handleInvalidBlocks at h
  obtain ⟨⟨scan₁, s₁⟩, hasync, h⟩ := of_bind h
  obtain ⟨⟨scan₂, s₂⟩, hsync, h⟩ := of_bind h
  obtain ⟨hsame₁, hnodup₁, hs₁⟩ := updateRequestsWithInvalidBlocks_spec hasync
  obtain ⟨hsame₂, hnodup₂, hs₂⟩ := updateRequestsWithInvalidBlocks_spec hsync
  have hsame := hsame₁.trans hsame₂
  simp only at h
  split at h
  · cases h
    exact ⟨hsame, nodup_nil, fun hs => hs₂ (hs₁ hs)⟩
  split at h
  · cases h
    exact ⟨hsame, hnodup₂, fun hs => hs₂ (hs₁ hs)⟩
  · obtain ⟨kv, -, h⟩ := of_bind h
    cases h
    exact ⟨hsame, nodup_foldl_setAdd hnodup₁, fun hs => hs₂ (hs₁ hs)⟩

/-- A request that the loop over the outputs meets is a request of the call. -/
theorem failedKvLoads_registered {failed : List RequestId} {r : SchedRequest}
    (h : s.failedKvLoads env frame out = .ok (failed, s')) (hx : x ∉ failed)
    (hr : s'.registered x = some r) : ∃ r₀ c p, s.registered x = some r₀ ∧ r = r₀.recount c p ∧
      ∀ failed' s₁, s.failedKvLoads env frame out = .ok (failed', s₁) → x ∉ failed' := by
  obtain ⟨hrequests, -, -, -, hobjects⟩ := (failedKvLoads_spec h).1
  obtain ⟨hmem, hget⟩ := registered_eq_some.mp hr
  obtain ⟨c, p, hrecount⟩ := hobjects x
  obtain ⟨r₀, hr₀, rfl⟩ := Option.map_eq_some_iff.mp (hrecount.symm.trans hget)
  refine ⟨r₀, c, p, registered_eq_some.mpr ⟨hrequests ▸ hmem, hr₀⟩, rfl, ?_⟩
  intro failed' s₁ h'
  obtain ⟨rfl, -⟩ := Prod.mk.inj (Except.ok.inj (h.symm.trans h'))
  exact hx

/-- What the loop over the outputs establishes and the calls behind it keep. -/
theorem updateFromOutput_rule {P : Scheduler κ ε → Prop} {outputs : List EngineCoreOutput}
    (hloop : ∀ failed s₁ pass, s.failedKvLoads env frame out = .ok (failed, s₁) →
      frame.numScheduledTokens.entries.foldlM (OutputPass.processOutput env frame out failed)
        { sched := s₁ } = .ok pass → P (pass.removeStopped env))
    (hfinish : ∀ s s' ids, ids.Nodup → P s →
      s.finishRequests env out.connectorDelaysFree ids .finishedError = .ok s' → P s')
    (hrecved : ∀ s finishedRecvingKvReqIds, P s → P { s with finishedRecvingKvReqIds })
    (hfree : ∀ s s' requestId, P s → s.freeBlocks env requestId = .ok s' → P s')
    (h : s.updateFromOutput env frame out = .ok (outputs, s')) : P s' := by
  unfold Scheduler.updateFromOutput at h
  obtain ⟨⟨failed, s₁⟩, hfailed, h⟩ := of_bind h
  obtain ⟨pass, hpass, h⟩ := of_bind h
  obtain ⟨s₂, hfinished, h⟩ := of_bind h
  obtain ⟨s₃, hxfer, h⟩ := of_bind h
  cases h
  have hremoved := hloop failed s₁ pass hfailed hpass
  refine updateFromKvXferFinished_rule hrecved hfree ?_ hxfer
  split at hfinished
  · exact hfinish _ _ failed (failedKvLoads_spec hfailed).2.1 hremoved hfinished
  · cases hfinished
    exact hremoved

end Scheduler

namespace OutputPass
variable {κ ε : Type} {env : SchedulerEnv κ ε} {s : Scheduler κ ε} {pass pass' : OutputPass κ ε}
  {frame : SchedulerOutput} {out : ModelRunnerOutput} {failed todo : List RequestId}
  {requestId : RequestId} {r : SchedRequest}

theorem processOutput_cases {item : RequestId × ℤ}
    (h : processOutput env frame out failed pass item = .ok pass') :
    pass' = pass ∨ ∃ r, item.1 ∉ failed ∧ pass.sched.registered item.1 = some r ∧
      r.isFinished = false ∧ processRequest env frame out pass item.1 r = .ok pass' := by
  unfold processOutput at h
  obtain ⟨-, -, h⟩ := of_bind h
  split at h
  · exact .inl (pure_eq_ok.mp h).symm
  next hfailed =>
  split at h
  · exact .inl (pure_eq_ok.mp h).symm
  next r hr =>
  split at h
  · exact .inl (pure_eq_ok.mp h).symm
  next hf =>
  exact .inr ⟨r, hfailed, hr, by simpa using hf, h⟩

/-- The loop over the outputs, by an invariant of the requests to come, which are as they were in
the scheduler `s` before the loop. -/
theorem foldlM_processOutput_rule {Inv : List RequestId → OutputPass κ ε → Prop}
    {items : List (RequestId × ℤ)}
    (hsame : ∀ {todo pass}, Inv todo pass → pass.sched.requests ⊆ s.requests ∧
      ∀ x ∈ todo, pass.sched.objects.get? x = s.objects.get? x)
    (hskip : ∀ {x todo pass}, Inv (x :: todo) pass → Inv todo pass)
    (hturn : ∀ item ∈ items, item.1 ∉ failed → ∀ r, s.registered item.1 = some r →
      r.isFinished = false → ∀ todo pass pass', Inv (item.1 :: todo) pass → item.1 ∉ todo →
      pass.sched.objects.get? item.1 = some r →
      processRequest env frame out pass item.1 r = .ok pass' → Inv todo pass')
    (hnodup : (items.map Prod.fst).Nodup) (h : Inv (items.map Prod.fst) pass)
    (hloop : items.foldlM (processOutput env frame out failed) pass = .ok pass') :
    Inv [] pass' := by
  induction items generalizing pass with
  | nil =>
    cases hloop
    exact h
  | cons item items ih =>
    rw [foldlM_cons] at hloop
    obtain ⟨pass₁, hstep, hloop⟩ := of_bind hloop
    rw [map_cons, nodup_cons] at hnodup
    refine ih (fun i hi => hturn i (mem_cons_of_mem _ hi)) hnodup.2 ?_ hloop
    obtain rfl | ⟨r, hfailed, hr, hf, hstep⟩ := processOutput_cases hstep
    · exact hskip h
    obtain ⟨hmem, hget⟩ := Scheduler.registered_eq_some.mp hr
    obtain ⟨hrequests, hobjects⟩ := hsame h
    have hold : s.registered item.1 = some r :=
      Scheduler.registered_eq_some.mpr ⟨hrequests hmem, hobjects _ mem_cons_self ▸ hget⟩
    exact hturn item mem_cons_self hfailed r hold hf _ _ _ h hnodup.1 hget hstep

theorem processRequest_cases (h : processRequest env frame out pass requestId r = .ok pass') :
    ∃ r₁ encoder kv, r₁.streamingQueue = r.streamingQueue ∧
      r₁.core.loraRequest = r.core.loraRequest ∧ r₁.core.sortKey = r.core.sortKey ∧
      ((Scheduler.stops env out requestId r = false ∧ r₁.status = r.status ∧ ∃ outputs,
          pass' = { pass with
            sched := { pass.sched with
              objects := pass.sched.objects.set requestId r₁
              encoder
              kv }
            outputs }) ∨
        (Scheduler.stops env out requestId r = true ∧ r₁.isFinished = true ∧
          r₁.resumable = Scheduler.staysResumable out requestId r ∧ ∃ s₂ outputs,
          Scheduler.settleStopped env out { pass.sched with
            objects := pass.sched.objects.set requestId r₁
            encoder
            kv } requestId = .ok s₂ ∧
          pass' = {
            sched := s₂
            stoppedRunningReqs := if r.status = .running
              then setAdd pass.stoppedRunningReqs requestId else pass.stoppedRunningReqs
            stoppedPreemptedReqs := if r.status = .running
              then pass.stoppedPreemptedReqs else setAdd pass.stoppedPreemptedReqs requestId
            outputs })) := by
  obtain ⟨c, p, hroll⟩ := Scheduler.rollBackRejected_eq env
    (frame.scheduledSpecDecodeTokens.getD requestId []) (out.sampledTokenIds requestId) r
  unfold OutputPass.processRequest at h
  rw [hroll] at h
  obtain ⟨encoder, -, h⟩ := of_bind h
  obtain ⟨⟨newTokenIds, stopped, s₁⟩, htake, h⟩ := of_bind h
  obtain ⟨hstopped, r₁, kv, rfl, hqueue, hlora, hkey, hgo, hstop⟩ := Scheduler.takeTokens_cases
    (by simp [Scheduler.put]) htake
  rw [Scheduler.stops_recount] at hstopped
  refine ⟨r₁, encoder, kv, hqueue, hlora, hkey, ?_⟩
  cases stopped with
  | false =>
    refine .inl ⟨hstopped.symm, hgo rfl, ?_⟩
    simp only [Scheduler.put, Dict.set_set, Bool.false_eq_true, ↓reduceIte] at h
    split at h
    · cases h
      exact ⟨_, rfl⟩
    · cases h
      exact ⟨pass.outputs, rfl⟩
  | true =>
    obtain ⟨hfinished, hresumable⟩ := hstop rfl
    simp only [↓reduceIte] at h
    obtain ⟨r₂, -, h⟩ := of_bind h
    obtain ⟨s₂, hsettle, h⟩ := of_bind h
    cases h
    simp only [Scheduler.put, Dict.set_set] at hsettle
    exact .inr ⟨hstopped.symm, hfinished, hresumable, s₂, _, hsettle, rfl⟩

/-- In the middle of the loop the stopped requests are still in their queues, and the requests to
come are as they were. -/
structure Invariant (s : Scheduler κ ε) (todo : List RequestId) (pass : OutputPass κ ε) : Prop where
  queues : Partitioned pass.sched.objects pass.sched.requests
    pass.sched.numWaitingForStreamingInput
    (pass.sched.running.filter (· ∉ pass.stoppedRunningReqs))
    (pass.sched.waiting.filter (· ∉ pass.stoppedPreemptedReqs) ++ pass.sched.skippedWaiting)
  running : pass.sched.running = s.running
  requests : pass.sched.requests ⊆ s.requests
  todo : ∀ x ∈ todo, x ∉ pass.stoppedRunningReqs ∧ x ∉ pass.stoppedPreemptedReqs ∧
    (x ∈ s.waiting → x ∈ pass.sched.waiting) ∧ pass.sched.objects.get? x = s.objects.get? x

theorem Invariant.start (hs : s.QueuesPartitioned) : Invariant s todo { sched := s } where
  queues := by
    simp only [not_mem_nil, not_false_eq_true, decide_true, filter_true]
    exact hs
  running := rfl
  requests := List.Subset.refl _
  todo := fun x _ => ⟨not_mem_nil, not_mem_nil, id, rfl⟩

theorem Invariant.skip (h : Invariant s (requestId :: todo) pass) : Invariant s todo pass :=
  { h with todo := fun x hx => h.todo x (mem_cons_of_mem _ hx) }

/-- A turn changes only its own request, which leaves the loop. -/
theorem Invariant.turn {u : SchedRequest} (h : Invariant s (requestId :: todo) pass)
    (hnodup : requestId ∉ todo)
    (hqueues : Partitioned pass'.sched.objects pass'.sched.requests
      pass'.sched.numWaitingForStreamingInput
      (pass'.sched.running.filter (· ∉ pass'.stoppedRunningReqs))
      (pass'.sched.waiting.filter (· ∉ pass'.stoppedPreemptedReqs) ++ pass'.sched.skippedWaiting))
    (hobjects : pass'.sched.objects = pass.sched.objects.set requestId u)
    (hrunning : pass'.sched.running = pass.sched.running)
    (hrequests : pass'.sched.requests ⊆ pass.sched.requests)
    (hwaiting : pass.sched.waiting ⊆ pass'.sched.waiting)
    (hstopped : ∀ x, x ≠ requestId →
      (x ∈ pass'.stoppedRunningReqs → x ∈ pass.stoppedRunningReqs) ∧
      (x ∈ pass'.stoppedPreemptedReqs → x ∈ pass.stoppedPreemptedReqs)) :
    Invariant s todo pass' := by
  refine ⟨hqueues, hrunning.trans h.running, fun x hx => h.requests (hrequests hx), ?_⟩
  intro x hx
  have hne : x ≠ requestId := by
    rintro rfl
    exact hnodup hx
  obtain ⟨hPx, hQx, hwx, hget⟩ := h.todo x (mem_cons_of_mem _ hx)
  obtain ⟨hP, hQ⟩ := hstopped x hne
  refine ⟨mt hP hPx, mt hQ hQx, fun hmem => hwaiting (hwx hmem), ?_⟩
  rw [hobjects, Dict.get?_set, if_neg hne]
  exact hget

theorem Invariant.processRequest (h : Invariant s (requestId :: todo) pass)
    (hnodup : requestId ∉ todo) (hr : pass.sched.objects.get? requestId = some r)
    (hf : r.isFinished = false)
    (hstops : Scheduler.stops env out requestId r = true → r.status = .running ∨
      ((r.status = .waiting ∨ r.status = .preempted) ∧ requestId ∈ s.waiting ∧
        Scheduler.goesOn out requestId r = false))
    (hstep : processRequest env frame out pass requestId r = .ok pass') :
    Invariant s todo pass' := by
  obtain ⟨r₁, encoder, kv, hqueue, -, -, ⟨-, hgo, outputs, rfl⟩ |
    ⟨hstopped, hfinished, hresumable, s₂, outputs, hsettle, rfl⟩⟩ := processRequest_cases hstep
  · exact h.turn hnodup (h.queues.setSame hr hgo) rfl rfl (List.Subset.refl _)
      (List.Subset.refl _) fun x _ => ⟨id, id⟩
  · obtain ⟨r₃, hobjects, -, hrunning, hplace⟩ :=
      Scheduler.settleStopped_cases (by rw [Dict.get?_set, if_pos rfl]) hfinished hsettle
    rw [Dict.set_set] at hobjects
    obtain ⟨hP, hQ, hwaiting, -⟩ := h.todo requestId mem_cons_self
    have hplaces := hstops hstopped
    have hleave : (r.status = .running ∧
          (if r.status = .running then setAdd pass.stoppedRunningReqs requestId
            else pass.stoppedRunningReqs) = setAdd pass.stoppedRunningReqs requestId ∧
          (if r.status = .running then pass.stoppedPreemptedReqs
            else setAdd pass.stoppedPreemptedReqs requestId) = pass.stoppedPreemptedReqs) ∨
        (r.status ≠ .running ∧ requestId ∈ pass.sched.waiting ∧
          (if r.status = .running then setAdd pass.stoppedRunningReqs requestId
            else pass.stoppedRunningReqs) = pass.stoppedRunningReqs ∧
          (if r.status = .running then pass.stoppedPreemptedReqs
            else setAdd pass.stoppedPreemptedReqs requestId) =
              setAdd pass.stoppedPreemptedReqs requestId) := by
      obtain hrun | ⟨hstatus, hmem, -⟩ := hplaces
      · exact .inl ⟨hrun, if_pos hrun, if_pos hrun⟩
      · have hne : r.status ≠ .running := by
          obtain hs | hs := hstatus <;> rw [hs] <;> exact RequestStatus.noConfusion
        exact .inr ⟨hne, hwaiting hmem, if_neg hne, if_neg hne⟩
    have hstreaming : isStreaming r = 0 := by
      obtain hrun | ⟨hs | hs, -⟩ := hplaces <;> simp [isStreaming, *]
    have henter : (r₃.isFinished = true ∧ s₂.waiting = pass.sched.waiting ∧
          s₂.skippedWaiting = pass.sched.skippedWaiting) ∨
        (r₃.status = .waiting ∧ r.status = .running ∧
          s₂.waiting.Perm (requestId :: pass.sched.waiting) ∧
          s₂.skippedWaiting = pass.sched.skippedWaiting) ∨
        (r₃.status = .waitingForStreamingReq ∧ s₂.waiting = pass.sched.waiting ∧
          s₂.skippedWaiting.Perm (requestId :: pass.sched.skippedWaiting)) := by
      obtain ⟨hfin, -, -, hw, hsk, -⟩ | ⟨hstatus, hres, ⟨update, hhead, -⟩, -, hw, hsk, -⟩ |
        ⟨hstatus, -, -, hw, hsk, -⟩ := hplace
      · exact .inl ⟨hfin, hw, hsk⟩
      · refine .inr (.inl ⟨hstatus, ?_, hw ▸ RequestQueue.addRequest_perm _ _ _ _, hsk⟩)
        obtain hrun | ⟨-, -, hgoes⟩ := hplaces
        · exact hrun
        · rw [hqueue] at hhead
          have hstays : Scheduler.staysResumable out requestId r = true := hresumable.symm.trans hres
          rw [Scheduler.goesOn, hstays, hhead] at hgoes
          simp at hgoes
      · exact .inr (.inr ⟨hstatus, hw, hsk ▸ RequestQueue.addRequest_perm _ _ _ _⟩)
    have hsettled := h.queues.settle hr hf hP hQ hleave henter
    have hcounter : s₂.numWaitingForStreamingInput = pass.sched.numWaitingForStreamingInput +
        isStreaming r₃ - isStreaming r := by
      rw [hstreaming, sub_zero]
      obtain ⟨hfin, -, -, -, -, hn⟩ | ⟨hstatus, -, -, -, -, -, hn⟩ |
        ⟨hstatus, -, -, -, -, hn⟩ := hplace
      · rw [hn, isStreaming_of_finished hfin, add_zero]
      · simp [hn, isStreaming, hstatus]
      · simp [hn, isStreaming, hstatus]
    have hrequests : s₂.requests = pass.sched.requests ∨ (r₃.isFinished = true ∧
        s₂.requests = setDiscard pass.sched.requests requestId) := by
      obtain ⟨hfin, -, hreq | hreq, -⟩ | ⟨-, -, -, hreq, -⟩ | ⟨-, -, hreq, -⟩ := hplace
      · exact .inl hreq
      · exact .inr ⟨hfin, hreq⟩
      · exact .inl hreq
      · exact .inl hreq
    refine h.turn hnodup ?_ hobjects hrunning ?_ ?_ ?_
    · rw [hobjects, hrunning, hcounter]
      obtain hreq | ⟨hfin, hreq⟩ := hrequests
      · rw [hreq]
        exact hsettled
      · rw [hreq]
        exact hsettled.discard (by rw [Dict.get?_set, if_pos rfl]) hfin
    · obtain hreq | ⟨-, hreq⟩ := hrequests
      · exact fun x hx => hreq ▸ hx
      · exact hreq ▸ fun x hx => mem_of_mem_filter hx
    · obtain ⟨-, hw, -⟩ | ⟨-, -, hw, -⟩ | ⟨-, hw, -⟩ := henter
      · exact fun x hx => hw.symm ▸ hx
      · exact fun x hx => hw.mem_iff.mpr (mem_cons_of_mem _ hx)
      · exact fun x hx => hw.symm ▸ hx
    · intro x hne
      dsimp only
      split
      · simp [EncoderCacheManager.mem_setAdd, hne]
      · simp [EncoderCacheManager.mem_setAdd, hne]

variable (env) in
theorem Invariant.removeStopped (h : Invariant s [] pass) (hs : s.QueuesPartitioned) :
    (pass.removeStopped env).QueuesPartitioned := by
  have hnodup : pass.sched.running.Nodup := by
    rw [h.running]
    exact (nodup_append.mp hs.nodup_queues).1
  refine h.queues.perm ?_ ?_
  · unfold OutputPass.removeStopped
    simp only
    rw [Scheduler.removeAll_eq_filter hnodup]
  · refine List.Perm.append_right _ ?_
    unfold OutputPass.removeStopped
    split
    · next hnone => simp [hnone]
    · exact RequestQueue.removeRequests_perm _ _ _ _

end OutputPass

theorem Scheduler.QueuesPartitioned.updateFromOutput {κ ε : Type} {env : SchedulerEnv κ ε}
    {s s' : Scheduler κ ε} {frame : SchedulerOutput} {out : ModelRunnerOutput}
    {outputs : List EngineCoreOutput} (hs : s.QueuesPartitioned)
    (hstops : s.StopsInPlace env frame out)
    (h : s.updateFromOutput env frame out = .ok (outputs, s')) : s'.QueuesPartitioned := by
  refine updateFromOutput_rule (P := QueuesPartitioned) ?_
    (fun _ _ _ hnodup hs hfinish => hs.finishRequests hnodup hfinish) (fun _ _ hs => hs)
    (fun _ _ _ hs hfree => hs.freeBlocks hfree) h
  intro failed s₁ pass hfailed hloop
  obtain ⟨⟨-, -, hwaiting, -⟩, -, hpart⟩ := failedKvLoads_spec hfailed
  have hs₁ := hpart hs
  have hpass : OutputPass.Invariant s₁ [] pass := by
    refine OutputPass.foldlM_processOutput_rule
      (fun hpass => ⟨hpass.requests, fun x hx => (hpass.todo x hx).2.2.2⟩) .skip ?_
      frame.numScheduledTokens.nodupKeys (.start hs₁) hloop
    intro item hitem hnot r hr hf todo pass pass' hpass hnodup hget hstep
    refine hpass.processRequest hnodup hget hf ?_ hstep
    intro hstop
    obtain ⟨r₀, c, p, hr₀, rfl, hnot⟩ := failedKvLoads_registered hfailed hnot hr
    rw [stops_recount] at hstop
    rw [hwaiting]
    exact hstops item.1 (mem_map_of_mem hitem) r₀ hr₀ hf hnot hstop
  exact hpass.removeStopped env hs₁

/-- The outputs of a run stop requests in their place. -/
def EngineEvent.StopsInPlace {κ ε : Type} (env : SchedulerEnv κ ε) (e : EngineState κ ε) :
    EngineEvent → Prop
  | .updateFromOutput out =>
    ∀ frame ∈ e.inflight.head?, e.sched.StopsInPlace env frame out
  | _ => True

/-- Every unfinished request is in exactly one queue, the running requests are those in `running`,
and the counter counts the requests that wait for their next input. -/
def Scheduler.QueuesExact {κ ε : Type} (s : Scheduler κ ε) : Prop :=
  (∀ x ∈ s.requests, ∀ r, s.objects.get? x = some r → r.isFinished = false →
    (s.running ++ s.waiting ++ s.skippedWaiting).count x = 1 ∧
      (x ∈ s.running ↔ r.status = .running)) ∧
  s.numWaitingForStreamingInput =
    (s.requests.filter (s.hasStatus .waitingForStreamingReq)).length

theorem Scheduler.QueuesPartitioned.exact {κ ε : Type} {s : Scheduler κ ε}
    (hs : s.QueuesPartitioned) : s.QueuesExact := by
  refine ⟨?_, ?_⟩
  · intro x _ r hr hf
    rw [append_assoc]
    exact ⟨hs.once x r hr hf, hs.running x r hr hf⟩
  · rw [hs.streaming, countP_eq_length_filter]
    rfl

theorem EngineReachable.queuesPartitioned {κ ε : Type} {env : SchedulerEnv κ ε}
    {e : EngineState κ ε} (he : EngineReachable env (fun e event => event.StopsInPlace env e) e) :
    e.sched.QueuesPartitioned := by
  induction he with
  | start kv encoder =>
    constructor <;> simp [EngineState.init]
  | @step e e' event _ hadmissible hok h ih =>
    refine EngineState.apply_rule h ?_ (fun _ _ _ _ => ih.schedule) ?_ ih.updateDraftTokenIds ?_
      (fun _ _ _ => ih.resetPrefixCache) fun _ => ih
    · rintro request delays s' rfl hadd
      exact ih.addRequest hadmissible.1 hadmissible.2 hadd
    · rintro out frame hframe outputs s' rfl hupdate
      exact ih.updateFromOutput (hok frame hframe) hupdate
    · rintro requestIds status delays s' rfl hfinish
      exact ih.finishRequests hadmissible hfinish

/-- In every run whose outputs stop requests in their place, the queues partition the unfinished
requests. -/
theorem EngineReachable.queuesExact {κ ε : Type} {env : SchedulerEnv κ ε} {e : EngineState κ ε}
    (he : EngineReachable env (fun e event => event.StopsInPlace env e) e) :
    e.sched.QueuesExact :=
  he.queuesPartitioned.exact

def fourRunning : SchedulerConfig where
  maxNumRunningReqs := 4
  maxNumScheduledTokens := 8
  maxModelLen := 16
  blockSize := 1

def oneToken : ModelRunnerOutput where
  sampledTokenIds _ := [5]

/-- The requests of the oldest step still run. -/
def headRuns {κ ε : Type} (e : EngineState κ ε) : EngineEvent → Bool
  | .updateFromOutput _ => e.inflight.head?.all fun frame =>
      frame.numScheduledTokens.keys.all (e.sched.hasStatus .running)
  | _ => true

theorem stopsInPlace_of_headRuns {κ ε : Type} {env : SchedulerEnv κ ε} {e : EngineState κ ε}
    {event : EngineEvent} (h : headRuns e event = true) : event.StopsInPlace env e := by
  cases event with
  | updateFromOutput out =>
    intro frame hframe requestId hmem r hr hf _ _
    simp only [headRuns, Option.mem_def.mp hframe, Option.all_some, all_eq_true] at h
    have hstatus := h requestId hmem
    rw [Scheduler.hasStatus, (Scheduler.registered_eq_some.mp hr).2, Option.any_some,
      beq_iff_eq] at hstatus
    exact .inl hstatus
  | addRequest request delays | schedule answers | updateDraftTokenIds draftTokenIds
  | finishRequests requestIds status delays | resetPrefixCache resetRunningRequests
  | setPauseState pauseState => trivial

/-- A session stops while it runs and goes on with the input that is queued. -/
theorem queuesExact_resumedSession : ∃ e : EngineState KVCacheManager EncoderCacheManager,
    EngineReachable (managerEnv fourRunning false)
      (fun e event => event.StopsInPlace (managerEnv fourRunning false) e) e ∧
    e.sched.QueuesExact ∧ e.sched.waiting = [1] := by
  obtain ⟨e, he, hwaiting⟩ := exists_ok (show (smallRun fourRunning 8 headRuns [
    .addRequest (promptRequest 1 [7] 1 true) fun _ => false,
    .schedule {},
    .addRequest (promptRequest 1 [8] 1 true) fun _ => false,
    .updateFromOutput oneToken]).toOption.map (fun e => e.sched.waiting) = some [1] by
      decide +kernel)
  have hreach : EngineReachable (managerEnv fourRunning false)
      (fun e event => event.StopsInPlace (managerEnv fourRunning false) e) e :=
    smallRun_reachable (fun _ _ => stopsInPlace_of_headRuns) he
  exact ⟨e, hreach, hreach.queuesExact, hwaiting⟩

/-- A session is preempted while its step is in flight. The output of the step stops it, and it is
in no queue any more. -/
theorem preemptedSession_not_queuesExact :
    ∃ e : EngineState KVCacheManager EncoderCacheManager,
      EngineReachable (managerEnv fourRunning false) (fun _ _ => True) e ∧
      ¬ e.sched.QueuesExact := by
  obtain ⟨e, he, hfacts⟩ := exists_ok (show (smallRun fourRunning 8 (fun _ _ => true) [
    .addRequest (promptRequest 1 [7] 1 true) fun _ => false,
    .schedule {},
    .addRequest (promptRequest 1 [8] 1 true) fun _ => false,
    .resetPrefixCache true,
    .updateFromOutput oneToken]).toOption.map (fun e => (e.sched.requests,
      (e.sched.objects.get? 1).map SchedRequest.isFinished,
      e.sched.running ++ e.sched.waiting ++ e.sched.skippedWaiting)) =
        some ([1], some false, []) by decide +kernel)
  simp only [Prod.mk.injEq] at hfacts
  obtain ⟨hrequests, hlive, hqueues⟩ := hfacts
  obtain ⟨r, hr, hf⟩ := Option.map_eq_some_iff.mp hlive
  refine ⟨e, smallRun_reachable (fun _ _ _ => trivial) he, ?_⟩
  intro hexact
  obtain ⟨honce, -⟩ := hexact.1 1 (by simp [hrequests]) r hr hf
  simp [hqueues] at honce

end Vllm
