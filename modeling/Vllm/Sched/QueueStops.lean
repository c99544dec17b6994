import Vllm.Sched.QueueCalls

/-! The stop handling of `update_from_output` and the queues: which stopped requests find their
place. -/
namespace Vllm
open EncoderCacheManager List

namespace SchedRequest
variable {r r' : SchedRequest} {blockHasher : Option BlockHasher} {maxModelLen : ℕ}

/-- The request with other counters. -/
def recount (r : SchedRequest) (numComputedTokens numOutputPlaceholders : ℤ) : SchedRequest :=
  { r with
    numComputedTokens
    numOutputPlaceholders }

theorem checkStop_recount (c p : ℤ) : (r.recount c p).checkStop maxModelLen =
    (r.checkStop maxModelLen).map fun result => (result.1, result.2.recount c p) := by
  delta checkStop numOutputTokens numTokens recount Raises.require
  split
  · cases r.core.outputTokenIds.getLast? with
    | none | some lastTokenId => simp only [bind, Except.bind]; split_ifs <;> rfl
  · rfl

theorem appendOutputTokenId_recount (c p : ℤ) (tokenId : TokenId) :
    (r.recount c p).appendOutputTokenId blockHasher tokenId =
      (r.appendOutputTokenId blockHasher tokenId).map fun r' => r'.recount c p := by
  unfold appendOutputTokenId
  simp only [recount]
  cases r.core.appendOutputTokenIds blockHasher [tokenId] with
  | error e | ok core => rfl

theorem appendUntilStop_recount (c p : ℤ) (tokenIds : List TokenId) :
    (r.recount c p).appendUntilStop blockHasher maxModelLen tokenIds =
      (r.appendUntilStop blockHasher maxModelLen tokenIds).map fun result =>
        (result.1, result.2.1, result.2.2.recount c p) := by
  induction tokenIds generalizing r with
  | nil => rfl
  | cons tokenId rest ih =>
    unfold appendUntilStop
    rw [appendOutputTokenId_recount]
    cases r.appendOutputTokenId blockHasher tokenId with
    | error e => rfl
    | ok r₁ =>
      simp only [bind, Except.bind, Except.map]
      rw [checkStop_recount]
      cases r₁.checkStop maxModelLen with
      | error e => rfl
      | ok result =>
        obtain ⟨stopped, r₂⟩ := result
        simp only [Except.map]
        cases stopped with
        | true => rfl
        | false =>
          simp only [Bool.false_eq_true, ↓reduceIte]
          rw [ih]
          cases r₂.appendUntilStop blockHasher maxModelLen rest with
          | error e => rfl
          | ok result => rfl

end SchedRequest

namespace Scheduler
variable {κ ε : Type} (env : SchedulerEnv κ ε) (out : ModelRunnerOutput) (requestId : RequestId)

/-- Whether the output of a step stops the request. -/
def stops (r : SchedRequest) : Bool :=
  if out.sampledTokenIds requestId = [] then r.pooling && out.hasPoolerOutput requestId
  else if env.config.asyncScheduling = true ∧ r.asyncTokensToDiscard > 0 then false
  else
    match r.appendUntilStop env.config.blockHasher env.config.maxModelLen
      (out.sampledTokenIds requestId) with
    | .ok (_, stopped, _) => stopped || out.grammarRejects requestId
    | .error _ => false

/-- A request is resumable no longer once the grammar has rejected its tokens. -/
def staysResumable (r : SchedRequest) : Bool :=
  r.resumable && !(decide (out.sampledTokenIds requestId ≠ []) && out.grammarRejects requestId)

/-- Whether the request, when it stops, goes on with an input that is queued already. -/
def goesOn (r : SchedRequest) : Bool :=
  staysResumable out requestId r &&
    match (r.streamingQueue.getD []).head? with
    | some (some _) => true
    | _ => false

variable {env out requestId} {s s' : Scheduler κ ε} {r : SchedRequest}

theorem stops_recount (c p : ℤ) : stops env out requestId (r.recount c p) =
    stops env out requestId r := by
  unfold stops
  rw [SchedRequest.appendUntilStop_recount]
  cases r.appendUntilStop env.config.blockHasher env.config.maxModelLen
    (out.sampledTokenIds requestId) with
  | error e => rfl
  | ok result => rfl

theorem takeTokens_cases {newTokenIds : List TokenId} {stopped : Bool}
    (hr : s.objects.get? requestId = some r)
    (h : s.takeTokens env out requestId r = .ok (newTokenIds, stopped, s')) :
    stopped = stops env out requestId r ∧ ∃ r' kv,
      s' = { s with
        objects := s.objects.set requestId r'
        kv } ∧
      r'.streamingQueue = r.streamingQueue ∧ r'.core.loraRequest = r.core.loraRequest ∧
      r'.core.sortKey = r.core.sortKey ∧ (stopped = false → r'.status = r.status) ∧
      (stopped = true → r'.isFinished = true ∧
        r'.resumable = staysResumable out requestId r) := by
  obtain ⟨hnone, -, ⟨hpool, rfl, rfl⟩ | ⟨hpool, hpooler, rfl, rfl⟩⟩ |
    ⟨hsome, stopped₁, s₁, hupdate, htaken⟩ := takeTokens_eq_ok h
  · refine ⟨?_, r, s'.kv, ?_, rfl, rfl, rfl, fun _ => rfl, by simp⟩
    · rw [stops, if_pos hnone]
      rw [eq_comm, Bool.and_eq_false_iff]
      by_contra hboth
      apply hpool
      simpa using hboth
    · rw [Dict.set_of_get? hr]
  · refine ⟨?_, r.setStatus .finishedStopped, s.kv, rfl, rfl, rfl, rfl, by simp,
      fun _ => ⟨rfl, ?_⟩⟩
    · rw [stops, if_pos hnone, hpool, hpooler]
      rfl
    · simp [staysResumable, hnone, SchedRequest.setStatus]
  · obtain ⟨hasync, hdiscard, rfl, rfl, rfl⟩ | ⟨hkeep, r₁, kv, happend, hs₁⟩ :=
      updateRequestWithOutput_eq_ok hupdate
    · obtain ⟨hne, -⟩ | ⟨-, rfl, rfl⟩ := htaken
      · exact absurd rfl hne
      · refine ⟨?_, _, s.kv, rfl, rfl, rfl, rfl, fun _ => rfl, by simp⟩
        rw [stops, if_neg hsome, if_pos ⟨hasync, hdiscard⟩]
    · obtain ⟨-, hkept, -, blockHashes, status, rfl, hstatus⟩ :=
        SchedRequest.appendUntilStop_eq_ok happend
      have hstops : stops env out requestId r = (stopped₁ || out.grammarRejects requestId) := by
        rw [stops, if_neg hsome, if_neg hkeep, happend]
      obtain ⟨r₂, kv₂, rfl, hqueue, hlora, hkey, hresumable, hr₂⟩ : ∃ r₂ kv₂,
          s₁ = { s with
            objects := s.objects.set requestId r₂
            kv := kv₂ } ∧
          r₂.streamingQueue = r.streamingQueue ∧ r₂.core.loraRequest = r.core.loraRequest ∧
          r₂.core.sortKey = r.core.sortKey ∧ r₂.resumable = r.resumable ∧ r₂.status = status := by
        obtain ⟨-, rfl⟩ | ⟨-, -, rfl⟩ := hs₁
        · exact ⟨_, _, rfl, rfl, rfl, rfl, rfl, rfl⟩
        · exact ⟨_, _, rfl, rfl, rfl, rfl, rfl, rfl⟩
      obtain ⟨-, hreject, rfl, r₃, hr₃, rfl⟩ | ⟨hreject, rfl, rfl⟩ := htaken
      · rw [Dict.get?_set, if_pos rfl, Option.some.injEq] at hr₃
        subst hr₃
        refine ⟨?_, { r₂.setStatus .finishedError with resumable := false }, kv₂, ?_, hqueue,
          hlora, hkey, by simp, fun _ => ⟨rfl, ?_⟩⟩
        · rw [hstops, hreject, Bool.or_true]
        · rw [put, Dict.set_set]
        · simp [staysResumable, hreject, hsome]
      · have hreject' : out.grammarRejects requestId = false := by
          by_contra hrejects
          exact hreject ⟨hkept hsome, by simpa using hrejects⟩
        refine ⟨?_, r₂, kv₂, rfl, hqueue, hlora, hkey, ?_, ?_⟩
        · rw [hstops, hreject', Bool.or_false]
        · rintro rfl
          rw [hr₂]
          simpa using hstatus
        · rintro rfl
          refine ⟨?_, ?_⟩
          · rw [SchedRequest.isFinished, hr₂]
            simpa using hstatus
          · simp [staysResumable, hreject', hresumable]

theorem settleStopped_cases (hr : s.objects.get? requestId = some r) (hf : r.isFinished = true)
    (h : s.settleStopped env out requestId = .ok s') :
    ∃ r', s'.objects = s.objects.set requestId r' ∧
      r'.core.loraRequest = r.core.loraRequest ∧ s'.running = s.running ∧
      ((r'.isFinished = true ∧ r'.core.sortKey = r.core.sortKey ∧
          (s'.requests = s.requests ∨ s'.requests = setDiscard s.requests requestId) ∧
          s'.waiting = s.waiting ∧ s'.skippedWaiting = s.skippedWaiting ∧
          s'.numWaitingForStreamingInput = s.numWaitingForStreamingInput) ∨
        (r'.status = .waiting ∧ r.resumable = true ∧
          (∃ update, (r.streamingQueue.getD []).head? = some (some update) ∧
            r'.core.sortKey = (r.core.priority, update.update.arrivalTime, r.core.requestId)) ∧
          s'.requests = s.requests ∧
          s'.waiting = RequestQueue.addRequest env.config.policy s'.lt s.waiting requestId ∧
          s'.skippedWaiting = s.skippedWaiting ∧
          s'.numWaitingForStreamingInput = s.numWaitingForStreamingInput) ∨
        (r'.status = .waitingForStreamingReq ∧ r'.core.sortKey = r.core.sortKey ∧
          s'.requests = s.requests ∧ s'.waiting = s.waiting ∧ s'.skippedWaiting =
            RequestQueue.addRequest env.config.policy s'.lt s.skippedWaiting requestId ∧
          s'.numWaitingForStreamingInput = s.numWaitingForStreamingInput + 1)) := by
  unfold settleStopped at h
  obtain ⟨r₀, hr₀, h⟩ := Raises.of_bind h
  obtain rfl := Option.some.inj ((object_eq_ok.mp hr₀).symm.trans hr)
  obtain ⟨⟨finished, s₁⟩, hhandle, h⟩ := Raises.of_bind h
  obtain ⟨rfl, -, hs₁⟩ | ⟨rfl, hresumable, update, s₂, hhead, hsession, rfl⟩ |
    ⟨rfl, hresumable, hempty, rfl⟩ := handleStoppedRequest_eq_ok hhandle
  · simp only [↓reduceIte] at h
    obtain ⟨r₁, kv, encoder, requests, hr₁, hfinished, -, hrequests, rfl⟩ := freeRequest_eq_ok h
    obtain rfl | rfl := hs₁
    · exact ⟨r₀, (Dict.set_of_get? hr).symm, rfl, rfl, .inl ⟨hf, rfl, hrequests, rfl, rfl, rfl⟩⟩
    · exact ⟨dequeued r₀, rfl, rfl, rfl, .inl ⟨hf, rfl, hrequests, rfl, rfl, rfl⟩⟩
  · simp only [Bool.false_eq_true, ↓reduceIte] at h
    cases h
    obtain ⟨core, hcore, hlora, hkey, rfl⟩ := updateSession_eq_ok hsession
    refine ⟨{ dequeued r₀ with
      core
      samplingParams := update.samplingParams }, rfl, hlora, rfl,
      .inr (.inl ⟨hcore, hresumable, ⟨update, hhead, hkey⟩, rfl, rfl, rfl, ?_⟩)⟩
    have hstatus : (dequeued r₀).status ≠ .waitingForStreamingReq := by
      intro heq
      have heq' : r₀.status = .waitingForStreamingReq := heq
      simp [SchedRequest.isFinished, heq', RequestStatus.isFinished] at hf
    exact if_neg hstatus
  · simp only [Bool.false_eq_true, ↓reduceIte] at h
    cases h
    exact ⟨_, rfl, rfl, rfl, .inr (.inr ⟨rfl, rfl, rfl, rfl, rfl, rfl⟩)⟩

end Scheduler

theorem count_filter_not_mem (l removed : List RequestId) (y : RequestId) :
    (l.filter (· ∉ removed)).count y = if y ∈ removed then 0 else l.count y := by
  split
  · next hy =>
    apply count_eq_zero_of_not_mem
    simp [hy]
  · next hy => exact count_filter (p := fun z => decide (z ∉ removed)) (decide_eq_true hy)

namespace Partitioned
variable {objects : Dict RequestId SchedRequest} {requests : List RequestId} {streaming : ℤ}
  {R W S W' S' P Q P' Q' : List RequestId} {x : RequestId} {r r' : SchedRequest}

section
variable (h : Partitioned objects requests streaming (R.filter (· ∉ P)) (W.filter (· ∉ Q) ++ S))
  (hr : objects.get? x = some r) (hf : r.isFinished = false) (hP : x ∉ P) (hQ : x ∉ Q)
include h hr hf hP hQ

theorem counts : R.count x + W.count x + S.count x = 1 ∧ (0 < R.count x ↔ r.status = .running) := by
  have honce := h.once x r hr hf
  have hrunning := h.running x r hr hf
  rw [count_append, count_append, count_filter_not_mem, count_filter_not_mem,
    if_neg hP, if_neg hQ, ← Nat.add_assoc] at honce
  rw [← count_pos_iff, count_filter_not_mem, if_neg hP] at hrunning
  exact ⟨honce, hrunning⟩

theorem settle (hleave : (r.status = .running ∧ P' = setAdd P x ∧ Q' = Q) ∨
      (r.status ≠ .running ∧ x ∈ W ∧ P' = P ∧ Q' = setAdd Q x))
    (henter : (r'.isFinished = true ∧ W' = W ∧ S' = S) ∨
      (r'.status = .waiting ∧ r.status = .running ∧ W'.Perm (x :: W) ∧ S' = S) ∨
      (r'.status = .waitingForStreamingReq ∧ W' = W ∧ S'.Perm (x :: S))) :
    Partitioned (objects.set x r') requests (streaming + isStreaming r' - isStreaming r)
      (R.filter (· ∉ P')) (W'.filter (· ∉ Q') ++ S') := by
  obtain ⟨hcounts, hrunning⟩ := h.counts hr hf hP hQ
  have hP' : ∀ y ≠ x, (y ∈ P' ↔ y ∈ P) := by
    intro y hy
    obtain ⟨-, rfl, -⟩ | ⟨-, -, rfl, -⟩ := hleave
    · simp [mem_setAdd, hy]
    · rfl
  have hQ' : ∀ y ≠ x, (y ∈ Q' ↔ y ∈ Q) := by
    intro y hy
    obtain ⟨-, -, rfl⟩ | ⟨-, -, -, rfl⟩ := hleave
    · rfl
    · simp [mem_setAdd, hy]
  have hW' : ∀ y ≠ x, W'.count y = W.count y := by
    intro y hy
    obtain ⟨-, rfl, -⟩ | ⟨-, -, hperm, -⟩ | ⟨-, rfl, -⟩ := henter
    · rfl
    · rw [hperm.count_eq, count_cons_of_ne (Ne.symm hy)]
    · rfl
  have hS' : ∀ y ≠ x, S'.count y = S.count y := by
    intro y hy
    obtain ⟨-, -, rfl⟩ | ⟨-, -, -, rfl⟩ | ⟨-, -, hperm⟩ := henter
    · rfl
    · rfl
    · rw [hperm.count_eq, count_cons_of_ne (Ne.symm hy)]
  refine h.set hr (h.alive x r hr hf) ?_ ?_
  · intro y hy
    simp only [count_append, count_filter_not_mem, hP' y hy, hQ' y hy, hW' y hy, hS' y hy,
      mem_filter, true_and]
  · have hzero : ∀ l removed : List RequestId, x ∈ removed →
        (l.filter (· ∉ removed)).count x = 0 := by
      intro l removed hx
      rw [count_filter_not_mem, if_pos hx]
    have hgone : x ∉ R.filter (· ∉ P') ∧ (W.filter (· ∉ Q')).count x = 0 ∧ S.count x = 0 := by
      obtain ⟨hrun, rfl, rfl⟩ | ⟨hrun, hmem, rfl, rfl⟩ := hleave
      · have hpos := hrunning.mpr hrun
        refine ⟨by simp [mem_setAdd], ?_, by omega⟩
        rw [count_filter_not_mem, if_neg hQ]
        omega
      · have hpos := count_pos_iff.mpr hmem
        have hnot : ¬ 0 < R.count x := fun hlt => hrun (hrunning.mp hlt)
        refine ⟨?_, hzero _ _ (mem_setAdd.mpr (.inr rfl)), by omega⟩
        intro hmem'
        exact hnot (count_pos_iff.mpr (mem_of_mem_filter hmem'))
    obtain ⟨hR, hW, hS⟩ := hgone
    have hRcount := count_eq_zero_of_not_mem hR
    obtain ⟨hfin, rfl, rfl⟩ | ⟨hstatus, hrun, hperm, rfl⟩ | ⟨hstatus, rfl, hperm⟩ := henter
    · rw [if_pos hfin]
      apply count_eq_zero.mp
      rw [count_append, count_append]
      omega
    · have hfin : r'.isFinished = false := by
        simp [SchedRequest.isFinished, hstatus, RequestStatus.isFinished]
      have hQx : x ∉ Q' := by
        obtain ⟨-, -, rfl⟩ | ⟨hne, -⟩ := hleave
        · exact hQ
        · exact absurd hrun hne
      rw [count_filter_not_mem, if_neg hQx] at hW
      rw [hfin]
      refine ⟨?_, ⟨fun hmem => absurd hmem hR, fun hrun' => ?_⟩⟩
      · rw [count_append, count_append, hRcount, count_filter_not_mem, if_neg hQx,
          hperm.count_eq, count_cons_self, hW, hS]
      · simp [hstatus] at hrun'
    · have hfin : r'.isFinished = false := by
        simp [SchedRequest.isFinished, hstatus, RequestStatus.isFinished]
      rw [hfin]
      refine ⟨?_, ⟨fun hmem => absurd hmem hR, fun hrun' => ?_⟩⟩
      · rw [count_append, count_append, hRcount, hperm.count_eq, count_cons_self, hW, hS]
      · simp [hstatus] at hrun'

end

end Partitioned

end Vllm
