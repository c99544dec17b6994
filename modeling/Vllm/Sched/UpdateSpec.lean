import Vllm.Sched.Moves
import Vllm.Sched.Update

/-! What each part of `update_from_output`, `finish_requests` and the like does to the scheduler,
one lemma for each function. -/
namespace Vllm
open Raises

theorem Request.updateBlockHashes_eq_ok {blockHasher : Option BlockHasher} {r r' : Request}
    (h : r.updateBlockHashes blockHasher = .ok r') :
    ∃ blockHashes, r' = { r with blockHashes } := by
  unfold Request.updateBlockHashes at h
  split at h
  · cases h
    exact ⟨r.blockHashes, rfl⟩
  · obtain ⟨new, -, h⟩ := of_bind h
    cases h
    exact ⟨_, rfl⟩

namespace SchedRequest
variable {r r' : SchedRequest} {blockHasher : Option BlockHasher} {maxModelLen : ℕ}

/-- The request with `tokenIds` appended, and with other hashes and status. -/
def extended (r : SchedRequest) (tokenIds : List TokenId) (blockHashes : List BlockHash)
    (status : RequestStatus) : SchedRequest :=
  { r with core := { r.core with
    outputTokenIds := r.core.outputTokenIds ++ tokenIds
    allTokenIds := r.core.allTokenIds ++ tokenIds
    blockHashes
    status } }

@[simp] theorem extended_status (tokenIds : List TokenId) (blockHashes : List BlockHash)
    (status : RequestStatus) : (r.extended tokenIds blockHashes status).status = status := rfl

theorem checkStop_eq_ok {stopped : Bool} (h : r.checkStop maxModelLen = .ok (stopped, r')) :
    ∃ status, r' = r.setStatus status ∧
      if stopped then status.isFinished = true else status = r.status := by
  unfold checkStop at h
  obtain ⟨-, -, h⟩ := of_bind h
  split at h
  · cases h
    exact ⟨r.status, rfl, rfl⟩
  split at h
  · simp at h
  split at h
  · cases h
    exact ⟨_, rfl, rfl⟩
  split at h
  · cases h
    exact ⟨_, rfl, rfl⟩
  split at h
  · cases h
    exact ⟨_, rfl, rfl⟩
  split at h
  · cases h
    exact ⟨_, rfl, rfl⟩
  · cases h
    exact ⟨r.status, rfl, rfl⟩

theorem appendOutputTokenId_eq_ok {tokenId : TokenId}
    (h : r.appendOutputTokenId blockHasher tokenId = .ok r') :
    ∃ blockHashes, r' = r.extended [tokenId] blockHashes r.status := by
  unfold appendOutputTokenId at h
  obtain ⟨core, hcore, h⟩ := of_bind h
  cases h
  obtain ⟨blockHashes, rfl⟩ := Request.updateBlockHashes_eq_ok hcore
  exact ⟨blockHashes, rfl⟩

theorem appendUntilStop_eq_ok {tokenIds kept : List TokenId} {stopped : Bool}
    (h : r.appendUntilStop blockHasher maxModelLen tokenIds = .ok (kept, stopped, r')) :
    kept <+: tokenIds ∧ (tokenIds ≠ [] → kept ≠ []) ∧
      (stopped = false → kept = tokenIds) ∧
      ∃ blockHashes status, r' = r.extended kept blockHashes status ∧
        if stopped then status.isFinished = true else status = r.status := by
  induction tokenIds generalizing r kept with
  | nil =>
    obtain ⟨rfl, hpair⟩ := Prod.mk.inj (pure_eq_ok.mp h)
    obtain ⟨rfl, rfl⟩ := Prod.mk.inj hpair
    refine ⟨List.prefix_rfl, fun h => h, fun _ => rfl, r.core.blockHashes, r.status, ?_, rfl⟩
    simp [extended, status]
  | cons tokenId rest ih =>
    unfold appendUntilStop at h
    obtain ⟨r₁, hr₁, h⟩ := of_bind h
    obtain ⟨hashes₁, rfl⟩ := appendOutputTokenId_eq_ok hr₁
    obtain ⟨⟨stopped₁, r₂⟩, hr₂, h⟩ := of_bind h
    obtain ⟨status₁, rfl, hstatus₁⟩ := checkStop_eq_ok hr₂
    simp only at h
    split at h
    · next hstop =>
      obtain ⟨rfl, hpair⟩ := Prod.mk.inj (pure_eq_ok.mp h)
      cases hpair
      rw [if_pos hstop] at hstatus₁
      refine ⟨⟨rest, rfl⟩, fun _ => by simp, by simp, hashes₁, status₁, rfl, hstatus₁⟩
    · next hgo =>
      obtain ⟨⟨kept', stopped', r₃⟩, hrest, h⟩ := of_bind h
      obtain ⟨rfl, hpair⟩ := Prod.mk.inj (pure_eq_ok.mp h)
      cases hpair
      obtain ⟨hpre, -, hall, hashes, status, rfl, hstatus⟩ := ih hrest
      rw [if_neg hgo] at hstatus₁
      refine ⟨(List.prefix_cons_inj tokenId).mpr hpre, by simp,
        fun hs => by rw [hall hs], hashes, status, ?_, ?_⟩
      · simp [extended, setStatus]
      · rw [status_setStatus, hstatus₁, extended_status] at hstatus
        exact hstatus

theorem updateAsSession_eq_ok {update : SessionUpdate}
    (h : r.updateAsSession blockHasher update = .ok r') :
    ∃ core, r' = { r with core, samplingParams := update.samplingParams } ∧
      core.status = .waiting ∧ core.loraRequest = r.core.loraRequest ∧
      core.sortKey = (r.core.priority, update.update.arrivalTime, r.core.requestId) := by
  unfold updateAsSession at h
  obtain ⟨core, hcore, h⟩ := of_bind h
  cases h
  refine ⟨core, rfl, ?_⟩
  unfold updateRequestAsSession at hcore
  cases hprompt : r.core.promptTokenIds with
  | none =>
    simp only [hprompt] at hcore
    obtain ⟨prompt', hraise, -⟩ := of_bind hcore
    simp at hraise
  | some prompt =>
    simp only [hprompt] at hcore
    obtain ⟨prompt', -, hcore⟩ := of_bind hcore
    obtain ⟨session, hsession, hcore⟩ := of_bind hcore
    obtain ⟨blockHashes, rfl⟩ := Request.updateBlockHashes_eq_ok hsession
    cases hcore
    exact ⟨rfl, rfl, rfl⟩

end SchedRequest

namespace Scheduler
variable {κ ε : Type} {env : SchedulerEnv κ ε} {s s' : Scheduler κ ε} {requestId : RequestId}
  {r : SchedRequest} {out : ModelRunnerOutput}

theorem updateRequestWithOutput_eq_ok {tokenIds kept : List TokenId} {stopped : Bool}
    (h : s.updateRequestWithOutput env requestId r tokenIds = .ok (kept, stopped, s')) :
    (env.config.asyncScheduling = true ∧ r.asyncTokensToDiscard > 0 ∧ kept = [] ∧
      stopped = false ∧
      s' = s.put requestId { r with asyncTokensToDiscard := r.asyncTokensToDiscard - 1 }) ∨
    (¬ (env.config.asyncScheduling = true ∧ r.asyncTokensToDiscard > 0) ∧
      ∃ r₁ kv, r.appendUntilStop env.config.blockHasher env.config.maxModelLen tokenIds =
          .ok (kept, stopped, r₁) ∧
        ((env.config.asyncScheduling = false ∧ s' = s.put requestId r₁) ∨
          (env.config.asyncScheduling = true ∧ r₁.numOutputPlaceholders - kept.length ≥ 0 ∧
            s' = { s.put requestId { r₁ with
              numOutputPlaceholders := r₁.numOutputPlaceholders - kept.length } with kv }))) := by
  unfold updateRequestWithOutput at h
  split at h
  · next hasync =>
    split at h
    · next hdiscard =>
      obtain ⟨rfl, hpair⟩ := Prod.mk.inj (pure_eq_ok.mp h)
      cases hpair
      exact .inl ⟨hasync, hdiscard, rfl, rfl, rfl⟩
    · next hdiscard =>
      obtain ⟨⟨kept₁, stopped₁, r₁⟩, happend, h⟩ := of_bind h
      obtain ⟨_, hplaceholders, h⟩ := of_bind h
      obtain ⟨kv, -, h⟩ := of_bind h
      obtain ⟨rfl, hpair⟩ := Prod.mk.inj (pure_eq_ok.mp h)
      cases hpair
      exact .inr ⟨fun hboth => hdiscard hboth.2, r₁, kv, happend,
        .inr ⟨hasync, require_eq_ok.mp hplaceholders, rfl⟩⟩
  · next hsync =>
    obtain ⟨⟨kept₁, stopped₁, r₁⟩, happend, h⟩ := of_bind h
    obtain ⟨rfl, hpair⟩ := Prod.mk.inj (pure_eq_ok.mp h)
    cases hpair
    exact .inr ⟨fun hboth => hsync hboth.1, r₁, s.kv, happend, .inl ⟨by simpa using hsync, rfl⟩⟩

theorem takeTokens_eq_ok {newTokenIds : List TokenId} {stopped : Bool}
    (h : s.takeTokens env out requestId r = .ok (newTokenIds, stopped, s')) :
    (out.sampledTokenIds requestId = [] ∧ newTokenIds = [] ∧
      ((¬ (r.pooling = true ∧ out.hasPoolerOutput requestId = true) ∧ stopped = false ∧ s' = s) ∨
        (r.pooling = true ∧ out.hasPoolerOutput requestId = true ∧ stopped = true ∧
          s' = s.put requestId (r.setStatus .finishedStopped)))) ∨
    (out.sampledTokenIds requestId ≠ [] ∧ ∃ stopped₁ s₁,
      s.updateRequestWithOutput env requestId r (out.sampledTokenIds requestId) =
        .ok (newTokenIds, stopped₁, s₁) ∧
      ((newTokenIds ≠ [] ∧ out.grammarRejects requestId = true ∧ stopped = true ∧
          ∃ r₁, s₁.objects.get? requestId = some r₁ ∧
            s' = s₁.put requestId { r₁.setStatus .finishedError with resumable := false }) ∨
        (¬ (newTokenIds ≠ [] ∧ out.grammarRejects requestId = true) ∧ stopped = stopped₁ ∧
          s' = s₁))) := by
  unfold takeTokens at h
  obtain ⟨⟨new₁, stopped₁, s₁⟩, hfirst, h⟩ := of_bind h
  simp only at hfirst h
  split at hfirst
  · next hsampled =>
    apply Or.inr
    refine ⟨hsampled, stopped₁, s₁, ?_⟩
    split at h
    · next hreject =>
      obtain ⟨r₁, hr₁, h⟩ := of_bind h
      obtain ⟨rfl, hpair⟩ := Prod.mk.inj (pure_eq_ok.mp h)
      cases hpair
      exact ⟨hfirst, .inl ⟨hreject.1, hreject.2, rfl, r₁, object_eq_ok.mp hr₁, rfl⟩⟩
    · next hreject =>
      obtain ⟨rfl, hpair⟩ := Prod.mk.inj (pure_eq_ok.mp h)
      cases hpair
      exact ⟨hfirst, .inr ⟨hreject, rfl, rfl⟩⟩
  · next hsampled =>
    apply Or.inl
    have hnone : out.sampledTokenIds requestId = [] := by simpa using hsampled
    split at hfirst
    all_goals
      obtain ⟨rfl, hpair⟩ := Prod.mk.inj (pure_eq_ok.mp hfirst)
      cases hpair
      simp only [ne_eq, not_true_eq_false, false_and, ↓reduceIte, pure_eq_ok, Prod.mk.injEq] at h
      obtain ⟨rfl, rfl, rfl⟩ := h
    · next hpool => exact ⟨hnone, rfl, .inr ⟨hpool.1, hpool.2, rfl, rfl⟩⟩
    · next hpool => exact ⟨hnone, rfl, .inl ⟨hpool, rfl, rfl⟩⟩

theorem freeRequest_eq_ok {delays : RequestId → Bool} {delayFreeBlocks : Bool}
    (h : s.freeRequest env delays requestId delayFreeBlocks = .ok s') :
    ∃ r kv encoder requests, s.objects.get? requestId = some r ∧ r.isFinished = true ∧
      env.encoder.free s.encoder r.view = .ok encoder ∧
      (requests = s.requests ∨ requests = setDiscard s.requests requestId) ∧
      s' = { s with
        requests
        kv
        encoder
        inflightPrefills := setDiscard s.inflightPrefills requestId
        finishedReqIds := setAdd s.finishedReqIds requestId } := by
  unfold freeRequest at h
  obtain ⟨r, hr, h⟩ := of_bind h
  obtain ⟨_, hfinished, h⟩ := of_bind h
  obtain ⟨kv, -, h⟩ := of_bind h
  obtain ⟨encoder, hencoder, h⟩ := of_bind h
  rw [object_eq_ok] at hr
  rw [require_eq_ok] at hfinished
  split at h
  · cases h
    exact ⟨r, kv, encoder, s.requests, hr, hfinished, hencoder, .inl rfl, rfl⟩
  · unfold freeBlocks at h
    obtain ⟨r', -, h⟩ := of_bind h
    obtain ⟨-, -, h⟩ := of_bind h
    obtain ⟨kv', -, h⟩ := of_bind h
    obtain ⟨-, -, h⟩ := of_bind h
    cases h
    exact ⟨r, kv', encoder, setDiscard s.requests requestId, hr, hfinished, hencoder, .inr rfl, rfl⟩

theorem freeBlocks_eq_ok (h : s.freeBlocks env requestId = .ok s') :
    ∃ r kv, s.objects.get? requestId = some r ∧ r.isFinished = true ∧
      s' = { s with
        kv
        requests := setDiscard s.requests requestId } := by
  unfold freeBlocks at h
  obtain ⟨r, hr, h⟩ := of_bind h
  obtain ⟨_, hfinished, h⟩ := of_bind h
  obtain ⟨kv, -, h⟩ := of_bind h
  obtain ⟨-, -, h⟩ := of_bind h
  cases h
  exact ⟨r, kv, object_eq_ok.mp hr, require_eq_ok.mp hfinished, rfl⟩

theorem registered_eq_some :
    s.registered requestId = some r ↔
      requestId ∈ s.requests ∧ s.objects.get? requestId = some r := by
  unfold registered
  split <;> simp_all

section Rules
variable {P : Scheduler κ ε → Prop}

theorem updateFromKvXferFinished_rule
    (hrecved : ∀ s finishedRecvingKvReqIds, P s → P { s with finishedRecvingKvReqIds })
    (hfree : ∀ s s' requestId, P s → s.freeBlocks env requestId = .ok s' → P s')
    {out : ModelRunnerOutput} (hs : P s) (h : s.updateFromKvXferFinished env out = .ok s') :
    P s' := by
  unfold Scheduler.updateFromKvXferFinished at h
  obtain ⟨s₁, hrecving, hsending⟩ := of_bind h
  refine foldlM_invariant (P := P) ?_ ?_ hsending
  · intro x _ b b' hb hstep
    unfold finishSending at hstep
    split at hstep
    · simp at hstep
    · exact hfree b b' x hb hstep
  · refine foldlM_invariant (P := P) ?_ hs hrecving
    intro x _ b b' hb hstep
    unfold finishRecving at hstep
    split at hstep
    · simp at hstep
    split at hstep
    · cases hstep
      exact hrecved b _ hb
    · exact hfree b b' x hb hstep

theorem updateDraftTokenIds_rule (hput : ∀ s x r specTokenIds, s.objects.get? x = some r → P s →
      P (s.put x { r with specTokenIds }))
    (draftTokenIds : List (RequestId × List TokenId)) (hs : P s) :
    P (s.updateDraftTokenIds draftTokenIds) := by
  unfold Scheduler.updateDraftTokenIds
  induction draftTokenIds generalizing s with
  | nil => exact hs
  | cons item rest ih =>
    rw [List.foldl_cons]
    apply ih
    dsimp only
    split
    · exact hs
    · next r hr =>
      split
      · exact hs
      · exact hput s _ r _ (registered_eq_some.mp hr).2 hs

end Rules

/-- The rest of a request's streaming queue once its head is taken. -/
def dequeued (r : SchedRequest) : SchedRequest :=
  { r with streamingQueue := some (r.streamingQueue.getD []).tail }

/-- What becomes of a request that has stopped: it is finished, it goes on with the next input, or
it waits for it. -/
theorem handleStoppedRequest_eq_ok {finished : Bool}
    (h : s.handleStoppedRequest env requestId r = .ok (finished, s')) :
    (finished = true ∧ (r.resumable = false ∨ (r.streamingQueue.getD []).head? = some none) ∧
      (s' = s ∨ s' = s.put requestId (dequeued r))) ∨
    (finished = false ∧ r.resumable = true ∧ ∃ update s₁,
      (r.streamingQueue.getD []).head? = some (some update) ∧
      s.updateSession env requestId (dequeued r) update = .ok s₁ ∧
      s' = s₁.enqueueWaitingRequest env requestId .waiting) ∨
    (finished = false ∧ r.resumable = true ∧ r.streamingQueue.getD [] = [] ∧
      s' = { s.put requestId (r.setStatus .waitingForStreamingReq) with
        numWaitingForStreamingInput := s.numWaitingForStreamingInput + 1
        skippedWaiting := RequestQueue.addRequest env.config.policy
          (s.put requestId (r.setStatus .waitingForStreamingReq)).lt s.skippedWaiting requestId }) := by
  unfold handleStoppedRequest at h
  split at h
  · next hresumable =>
    cases h
    exact .inl ⟨rfl, .inl hresumable, .inl rfl⟩
  next hresumable =>
  replace hresumable : r.resumable = true := by simpa using hresumable
  split at h
  · next rest hqueue =>
    cases h
    refine .inl ⟨rfl, .inr (by simp [hqueue]), .inr ?_⟩
    simp [dequeued, hqueue]
  · next update rest hqueue =>
    obtain ⟨s₁, hs₁, h⟩ := of_bind h
    cases h
    refine .inr (.inl ⟨rfl, hresumable, update, s₁, by simp [hqueue], ?_, rfl⟩)
    simpa [dequeued, hqueue] using hs₁
  · next hqueue =>
    cases h
    exact .inr (.inr ⟨rfl, hresumable, hqueue, rfl⟩)

variable (env s) in
/-- A request joins one of the two waiting queues. -/
theorem enqueueWaitingRequest_eq (x : RequestId) (status : RequestStatus) :
    ∃ waiting skippedWaiting,
      s.enqueueWaitingRequest env x status = { s with
        waiting
        skippedWaiting } ∧
      (waiting ++ skippedWaiting).Perm (x :: (s.waiting ++ s.skippedWaiting)) := by
  unfold enqueueWaitingRequest
  split
  · exact ⟨_, _, rfl, ((RequestQueue.addRequest_perm _ _ _ _).append_left _).trans List.perm_middle⟩
  · exact ⟨_, _, rfl, (RequestQueue.addRequest_perm _ _ _ _).append_right _⟩

theorem updateSession_eq_ok {session : SchedRequest} {update : SessionUpdate}
    (h : s.updateSession env requestId session update = .ok s') : ∃ core,
      core.status = .waiting ∧ core.loraRequest = session.core.loraRequest ∧
      core.sortKey =
        (session.core.priority, update.update.arrivalTime, session.core.requestId) ∧
      s' = { s.put requestId { session with core, samplingParams := update.samplingParams } with
        numWaitingForStreamingInput := if session.status = .waitingForStreamingReq
          then s.numWaitingForStreamingInput - 1 else s.numWaitingForStreamingInput } := by
  unfold updateSession at h
  obtain ⟨session', hsession, h⟩ := of_bind h
  cases h
  obtain ⟨core, rfl, hstatus, hlora, hkey⟩ := SchedRequest.updateAsSession_eq_ok hsession
  exact ⟨core, hstatus, hlora, hkey, rfl⟩

/-- One request of `finish_requests`. -/
theorem finishRequest_eq_ok {delays : RequestId → Bool} {status : RequestStatus}
    (h : s.finishRequest env delays status requestId = .ok s') :
    ∃ r kv encoder requests recving failed, s.objects.get? requestId = some r ∧
      status.isFinished = true ∧
      env.encoder.free s.encoder (r.setStatus status).view = .ok encoder ∧
      (requests = s.requests ∨ requests = setDiscard s.requests requestId) ∧
      s' = { s with
        objects := s.objects.set requestId (r.setStatus status)
        requests
        kv
        encoder
        inflightPrefills := setDiscard s.inflightPrefills requestId
        finishedReqIds := setAdd s.finishedReqIds requestId
        finishedRecvingKvReqIds := recving
        failedRecvingKvReqIds := failed } := by
  unfold finishRequest at h
  obtain ⟨r, hr, h⟩ := of_bind h
  rw [object_eq_ok] at hr
  obtain ⟨r', kv, encoder, requests, hr', hfinished, hencoder, hrequests, rfl⟩ :=
    freeRequest_eq_ok h
  have hobject : r' = r.setStatus status := by
    simp only [put, Dict.get?_set, ↓reduceIte, Option.some.injEq] at hr'
    exact hr'.symm
  subst hobject
  by_cases hloading : r.status = .waitingForRemoteKvs
  · simp only [hloading, decide_true, ↓reduceIte] at hencoder hrequests ⊢
    exact ⟨r, kv, encoder, requests, _, _, hr, hfinished, hencoder, hrequests, rfl⟩
  · simp only [hloading, decide_false, Bool.false_eq_true, ↓reduceIte] at hencoder hrequests ⊢
    exact ⟨r, kv, encoder, requests, _, _, hr, hfinished, hencoder, hrequests, rfl⟩

theorem updateAfterSchedule_eq_ok {output : SchedulerOutput}
    (h : s.updateAfterSchedule env output = .ok s') : ∃ objects inflightPrefills,
      s' = { s with
        objects
        inflightPrefills
        finishedReqIds := [] } ∧
      ∀ x, (objects.get? x).map SchedRequest.core = (s.objects.get? x).map SchedRequest.core := by
  have hput : ∀ (objects : Dict RequestId SchedRequest) {x : RequestId} {r u : SchedRequest},
      objects.get? x = some r → u.core = r.core → ∀ y,
      ((objects.set x u).get? y).map SchedRequest.core =
        (objects.get? y).map SchedRequest.core := by
    intro objects x r u hr hcore y
    rw [Dict.get?_set]
    split
    · next hyx => rw [hyx, hr, Option.map_some, Option.map_some, hcore]
    · rfl
  have hget : ∀ {s : Scheduler κ ε} {x : RequestId} {r : SchedRequest},
      s.registered x = some r → s.objects.get? x = some r := by
    intro s x r hr
    unfold registered at hr
    split at hr
    · exact hr
    · simp at hr
  unfold Scheduler.updateAfterSchedule at h
  obtain ⟨s₁, hadvance, h⟩ := of_bind h
  have hs₁ : ∃ objects inflightPrefills, s₁ = { s with
        objects
        inflightPrefills } ∧
      ∀ x, (objects.get? x).map SchedRequest.core = (s.objects.get? x).map SchedRequest.core := by
    refine foldlM_invariant (P := fun s₁ : Scheduler κ ε => ∃ objects inflightPrefills,
      s₁ = { s with
        objects
        inflightPrefills } ∧
      ∀ x, (objects.get? x).map SchedRequest.core = (s.objects.get? x).map SchedRequest.core)
      ?_ ⟨s.objects, s.inflightPrefills, rfl, fun _ => rfl⟩ hadvance
    rintro item - b b' ⟨objects, inflightPrefills, rfl, hcore⟩ hstep
    unfold Scheduler.advanceComputed at hstep
    split at hstep
    · simp at hstep
    · next r hr =>
      cases hstep
      split
      · exact ⟨_, _, rfl, fun x => Eq.trans (hput objects (hget hr) (by rfl) x) (hcore x)⟩
      · exact ⟨_, _, rfl, fun x => Eq.trans (hput objects (hget hr) (by rfl) x) (hcore x)⟩
  obtain ⟨objects, inflightPrefills, rfl, hcore⟩ := hs₁
  split at h
  · refine foldlM_invariant (P := fun s₁ : Scheduler κ ε => ∃ objects inflightPrefills,
      s₁ = { s with
        objects
        inflightPrefills
        finishedReqIds := [] } ∧
      ∀ x, (objects.get? x).map SchedRequest.core = (s.objects.get? x).map SchedRequest.core)
      ?_ ⟨objects, inflightPrefills, rfl, hcore⟩ h
    rintro item - b b' ⟨objects, inflightPrefills, rfl, hcore⟩ hstep
    unfold Scheduler.addPlaceholders at hstep
    split at hstep
    · simp at hstep
    · next r hr =>
      split at hstep
      · cases hstep
        exact ⟨objects, inflightPrefills, rfl, hcore⟩
      · cases hstep
        exact ⟨_, _, rfl, fun x => Eq.trans (hput objects (hget hr) (by rfl) x) (hcore x)⟩
  · cases h
    exact ⟨objects, inflightPrefills, rfl, hcore⟩

end Scheduler

end Vllm
