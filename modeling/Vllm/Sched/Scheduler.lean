import Vllm.KvCache.KvCacheManager
import Vllm.Sched.EncoderInputs
import Vllm.Sched.RequestQueue
import Vllm.Sched.SchedRequest

/-! `Scheduler.schedule` of `sched/scheduler.py`. The two cache managers are given by their
operations; what a connector, a grammar or the worker answers is an input of the call. -/
namespace Vllm

structure SchedulerConfig where
  policy : SchedulingPolicy := .fcfs
  asyncScheduling : Bool := false
  useV2ModelRunner : Bool := false
  ppSize : ℕ := 1
  maxNumRunningReqs : ℕ
  maxNumScheduledTokens : ℕ
  maxModelLen : ℕ
  longPrefillTokenThreshold : ℕ := 0
  enableChunkedPrefill : Bool := true
  useEagle : Bool := false
  numLookaheadTokens : ℕ := 0
  numSampledTokensPerStep : ℕ := 1
  numSpecTokens : ℕ := 0
  maxNumEncoderInputTokens : ℕ := 0
  isEncoderDecoder : Bool := false
  hasConnector : Bool := false
  hasEcConnector : Bool := false
  maxLoras : Option ℕ := none
  schedulerReserveFullIsl : Bool := false
  recomputeKvLoadFailures : Bool := true
  blockSize : ℕ
  /-- `cache_config.block_size`, which may be smaller than the block size of the scheduler. -/
  cacheBlockSize : ℕ := blockSize
  blockHasher : Option BlockHasher := none
  needMambaBlockAlignedSplit : Bool := false

/-- What the scheduler asks of the KV cache manager. -/
structure KvCacheOps (κ : Type) where
  newStepStarts : κ → κ
  getComputedBlocks : κ → Request → Raises CacheHitResult
  /-- The lookup by group that a hybrid model with Mamba layers uses beside a connector. -/
  perGroupHit : Option (κ → Request → Raises CacheHitResult)
  allocateSlots : κ → Request → AllocateSlotsArgs → Raises (Option (List (List BlockId)) × κ)
  free : κ → Request → Raises κ
  cacheBlocks : κ → Request → ℤ → Raises κ
  removeSkippedBlocks : κ → RequestId → ℤ → Raises κ
  getBlockIds : κ → RequestId → List (List BlockId)
  requestRemainingBlocks : κ → Request → Raises ℕ
  evictBlocks : κ → List BlockId → Raises κ
  resetPrefixCache : κ → Raises (Bool × κ)

/-- The result of `_try_schedule_encoder_inputs`. -/
structure EncoderPlan where
  encoderInputsToSchedule : List ℕ := []
  numNewTokens : ℤ
  encoderComputeBudget : ℕ
  externalLoadEncoderInput : List ℕ := []

/-- What the scheduler asks of the encoder cache manager. -/
structure EncoderOps (ε : Type) where
  tryScheduleEncoderInputs : ε → Request → Option (String → Bool) → (numComputedTokens : ℕ) →
    (numNewTokens : ℤ) → (encoderComputeBudget shiftComputedTokens : ℕ) → Raises (EncoderPlan × ε)
  allocate : ε → Request → ℕ → Raises ε
  free : ε → Request → Raises ε
  freeEncoderInputs : ε → SchedRequest → Raises ε
  getFreedMmHashes : ε → List String × ε

structure SchedulerEnv (κ ε : Type) where
  config : SchedulerConfig
  kv : KvCacheOps κ
  encoder : EncoderOps ε

inductive PauseState where
  | unpaused | pausedNew | pausedAll
  deriving DecidableEq

/-- `objects` has every request that was ever added, and `requests` the ids that `self.requests`
holds: a queue may keep a request that the dictionary has dropped. -/
structure Scheduler (κ ε : Type) where
  objects : Dict RequestId SchedRequest
  requests : List RequestId
  running : List RequestId
  waiting : List RequestId
  skippedWaiting : List RequestId
  kv : κ
  encoder : ε
  finishedReqIds : List RequestId := []
  finishedRecvingKvReqIds : List RequestId := []
  failedRecvingKvReqIds : List RequestId := []
  inflightPrefills : List RequestId := []
  numWaitingForStreamingInput : ℤ := 0
  currentStep : ℕ := 0
  pauseState : PauseState := .unpaused

/-- What the connectors and the grammar compiler answer during one call of `schedule`. -/
structure StepAnswers where
  getNumNewMatchedTokens : RequestId → ℕ → Option ℕ × Bool := fun _ _ => (some 0, false)
  hasCacheItem : String → Bool := fun _ => false
  ensureCacheAvailable : RequestId → ℤ → Bool := fun _ _ => true
  grammarReady : RequestId → Bool := fun _ => false

structure SchedulerOutput where
  scheduledNewReqs : List RequestId
  scheduledResumedReqs : List RequestId
  scheduledRunningReqs : List RequestId
  numScheduledTokens : Dict RequestId ℤ
  scheduledSpecDecodeTokens : Dict RequestId (List TokenId)
  scheduledEncoderInputs : Dict RequestId (List ℕ)
  /-- The allocations that the encoder cache connector has been told of. -/
  encoderAllocations : List (RequestId × ℕ)
  preemptedReqIds : List RequestId
  finishedReqIds : List RequestId
  freeEncoderMmHashes : List String

/-- The local variables of `schedule`, and the scheduler it updates. -/
structure ScheduleStep (κ ε : Type) where
  sched : Scheduler κ ε
  tokenBudget : ℤ
  encoderComputeBudget : ℕ
  reqIndex : ℕ := 0
  scheduledNewReqs : List RequestId := []
  scheduledResumedReqs : List RequestId := []
  scheduledRunningReqs : List RequestId := []
  preemptedReqs : List RequestId := []
  reqToNewBlocks : Dict RequestId (List (List BlockId)) := Dict.empty
  numScheduledTokens : Dict RequestId ℤ := Dict.empty
  scheduledSpecDecodeTokens : Dict RequestId (List TokenId) := Dict.empty
  scheduledEncoderInputs : Dict RequestId (List ℕ) := Dict.empty
  encoderAllocations : List (RequestId × ℕ) := []
  scheduledLoras : List ℕ := []
  stepSkippedWaiting : List RequestId := []

namespace Scheduler
variable {κ ε : Type}

def object (s : Scheduler κ ε) (requestId : RequestId) : Raises SchedRequest :=
  match s.objects.get? requestId with
  | none => throw .keyError
  | some r => pure r

/-- `self.requests.get(request_id)` -/
def registered (s : Scheduler κ ε) (requestId : RequestId) : Option SchedRequest :=
  if requestId ∈ s.requests then s.objects.get? requestId else none

def put (s : Scheduler κ ε) (requestId : RequestId) (r : SchedRequest) : Scheduler κ ε :=
  { s with objects := s.objects.set requestId r }

def lt (s : Scheduler κ ε) (requestId other : RequestId) : Bool :=
  match s.objects.get? requestId, s.objects.get? other with
  | some r, some r' => r.core.lt r'.core
  | _, _ => false

variable (env : SchedulerEnv κ ε)

def isBlockedWaitingStatus : RequestStatus → Bool
  | .waitingForStructuredOutputGrammar | .waitingForRemoteKvs | .waitingForStreamingReq => true
  | _ => false

def preemptRequest (s : Scheduler κ ε) (requestId : RequestId) : Raises (Scheduler κ ε) := do
  let r ← s.object requestId
  Raises.require (r.status = .running)
  let kv ← env.kv.free s.kv r.view
  let encoder ← env.encoder.free s.encoder r.view
  let s := s.put requestId { r.setStatus .preempted with
    numComputedTokens := 0
    specTokenIds := []
    numPreemptions := r.numPreemptions + 1 }
  pure { s with
    kv
    encoder
    inflightPrefills := setDiscard s.inflightPrefills requestId
    waiting := RequestQueue.prependRequest env.config.policy s.lt s.waiting requestId }

/-- `_update_waiting_for_remote_kv` -/
def updateWaitingForRemoteKv (s : Scheduler κ ε) (requestId : RequestId) (r : SchedRequest) :
    Raises (Scheduler κ ε × SchedRequest) := do
  Raises.require (env.config.hasConnector = true)
  let (s, r) ← (if requestId ∈ s.failedRecvingKvReqIds then do
      let kv ← (if r.numComputedTokens ≠ 0 then env.kv.cacheBlocks s.kv r.view r.numComputedTokens
        else env.kv.free s.kv r.view)
      pure ({ s with
        kv
        failedRecvingKvReqIds := setDiscard s.failedRecvingKvReqIds requestId }, r)
    else do
      let kv ← env.kv.cacheBlocks s.kv r.view r.numComputedTokens
      pure ({ s with kv }, if r.numComputedTokens = r.numTokens
        then { r with numComputedTokens := (r.numTokens : ℤ) - 1 } else r))
  pure ({ s with
    finishedRecvingKvReqIds := setDiscard s.finishedRecvingKvReqIds requestId }, r)

/-- `_try_promote_blocked_waiting_request` -/
def tryPromoteBlockedWaitingRequest (answers : StepAnswers) (s : Scheduler κ ε)
    (requestId : RequestId) (r : SchedRequest) : Raises (Bool × Scheduler κ ε) :=
  match r.status with
  | .waitingForRemoteKvs =>
    if requestId ∉ s.finishedRecvingKvReqIds then pure (false, s)
    else do
      let (s, r) ← s.updateWaitingForRemoteKv env requestId r
      pure (true, s.put requestId
        (r.setStatus (if r.numPreemptions ≠ 0 then .preempted else .waiting)))
  | .waitingForStructuredOutputGrammar =>
    if answers.grammarReady requestId = false then pure (false, s)
    else pure (true, s.put requestId (r.setStatus .waiting))
  | .waitingForStreamingReq => do
    Raises.require (r.streamingQueue.getD [] = [])
    pure (false, s)
  | _ => throw .assertionError

end Scheduler

namespace ScheduleStep
variable {κ ε : Type}

def setSched (st : ScheduleStep κ ε) (sched : Scheduler κ ε) : ScheduleStep κ ε := { st with sched }

def setKv (st : ScheduleStep κ ε) (kv : κ) : ScheduleStep κ ε := st.setSched { st.sched with kv }

def setEncoder (st : ScheduleStep κ ε) (encoder : ε) : ScheduleStep κ ε :=
  st.setSched { st.sched with encoder }

variable (env : SchedulerEnv κ ε)

/-- The running request with the greatest priority value, and the latest arrival among those. -/
def lowestPriority (sched : Scheduler κ ε) : List RequestId → Raises RequestId
  | [] => throw .valueError
  | requestId :: rest => rest.foldlM (fun best requestId => do
      let r ← sched.object best
      let r' ← sched.object requestId
      pure (if r.core.priority < r'.core.priority ∨
        (r.core.priority = r'.core.priority ∧ r.core.arrivalTime < r'.core.arrivalTime)
        then requestId else best)) requestId

/-- A preempted request that this step has scheduled already is taken out of the step again. -/
def withdraw (st : ScheduleStep κ ε) (requestId : RequestId) : Raises (ScheduleStep κ ε) :=
  if requestId ∈ st.scheduledRunningReqs then do
    let r ← st.sched.object requestId
    match st.numScheduledTokens.get? requestId, st.reqToNewBlocks.get? requestId with
    | some numTokens, some _ =>
      let preemptedEncoderInputs := st.scheduledEncoderInputs.getD requestId []
      let numEmbedsToRestore ← preemptedEncoderInputs.mapM fun i => do
        let f ← EncoderCacheManager.feature r.core i
        pure f.mmPosition.getNumEmbeds
      pure { st with
        scheduledRunningReqs := st.scheduledRunningReqs.erase requestId
        tokenBudget := st.tokenBudget + numTokens
        numScheduledTokens := st.numScheduledTokens.erase requestId
        reqToNewBlocks := st.reqToNewBlocks.erase requestId
        scheduledSpecDecodeTokens := st.scheduledSpecDecodeTokens.erase requestId
        scheduledEncoderInputs := st.scheduledEncoderInputs.erase requestId
        encoderComputeBudget := st.encoderComputeBudget + numEmbedsToRestore.sum
        reqIndex := st.reqIndex - 1 }
    | _, _ => throw .keyError
  else pure st

/-- The request to preempt is taken off the running list. -/
def takeVictim (st : ScheduleStep κ ε) : Raises (RequestId × ScheduleStep κ ε) :=
  match env.config.policy with
  | .priority => do
    let victim ← lowestPriority st.sched st.sched.running
    let st ← withdraw (st.setSched { st.sched with running := st.sched.running.erase victim }) victim
    pure (victim, st)
  | .fcfs =>
    match st.sched.running.getLast? with
    | none => throw .indexError
    | some victim =>
      pure (victim, st.setSched { st.sched with running := st.sched.running.dropLast })

def preemptOne (st : ScheduleStep κ ε) : Raises (RequestId × ScheduleStep κ ε) := do
  let (victim, st) ← takeVictim env st
  let sched ← st.sched.preemptRequest env victim
  pure (victim, { st with
    sched
    preemptedReqs := st.preemptedReqs ++ [victim] })

/-- Requests are preempted until there are slots for the request, or it is preempted itself. Each
turn shortens the running list, so that the fuel, its length and one more, is never used up. -/
def allocateOrPreempt (requestId : RequestId) (numNewTokens : ℤ) :
    ℕ → ScheduleStep κ ε → Raises (Option (List (List BlockId)) × ScheduleStep κ ε)
  | 0, st => pure (none, st)
  | fuel + 1, st => do
    let r ← st.sched.object requestId
    let (newBlocks, kv) ← env.kv.allocateSlots st.sched.kv r.view {
      numNewTokens
      numLookaheadTokens := env.config.numLookaheadTokens }
    let st := st.setKv kv
    match newBlocks with
    | some newBlocks => pure (some newBlocks, st)
    | none => do
      let (victim, st) ← preemptOne env st
      if victim = requestId then pure (none, st)
      else allocateOrPreempt requestId numNewTokens fuel st

/-- The encoder inputs of a scheduled request get their place in the encoder cache. -/
def allocateEncoderInputs (st : ScheduleStep κ ε) (requestId : RequestId) (r : SchedRequest)
    (plan : EncoderPlan) : Raises (ScheduleStep κ ε) := do
  let inputs := plan.encoderInputsToSchedule ++ plan.externalLoadEncoderInput
  let encoder ← inputs.foldlM (fun encoder i => env.encoder.allocate encoder r.view i)
    st.sched.encoder
  let st := { st.setEncoder encoder with
    encoderAllocations := if env.config.hasEcConnector
      then st.encoderAllocations ++ inputs.map (requestId, ·) else st.encoderAllocations }
  if plan.encoderInputsToSchedule = [] then pure st
  else pure { st with
    scheduledEncoderInputs := st.scheduledEncoderInputs.set requestId plan.encoderInputsToSchedule
    encoderComputeBudget := plan.encoderComputeBudget }

/-- The draft tokens among the scheduled tokens of a running request. -/
def specTokensOf (r : SchedRequest) (numNewTokens : ℤ) : List TokenId :=
  let numScheduledSpecTokens : ℤ :=
    numNewTokens + r.numComputedTokens - r.numTokens - r.numOutputPlaceholders
  r.specTokenIds.take numScheduledSpecTokens.toNat

/-- The bookkeeping for a running request that has its slots. -/
def recordRunning (st : ScheduleStep κ ε) (requestId : RequestId) (r : SchedRequest)
    (numNewTokens : ℤ) (newBlocks : List (List BlockId)) : ScheduleStep κ ε :=
  { st with
    sched := st.sched.put requestId { r with specTokenIds := [] }
    scheduledRunningReqs := st.scheduledRunningReqs ++ [requestId]
    reqToNewBlocks := st.reqToNewBlocks.set requestId newBlocks
    numScheduledTokens := st.numScheduledTokens.set requestId numNewTokens
    tokenBudget := st.tokenBudget - numNewTokens
    reqIndex := st.reqIndex + 1
    scheduledSpecDecodeTokens := if specTokensOf r numNewTokens = []
      then st.scheduledSpecDecodeTokens
      else st.scheduledSpecDecodeTokens.set requestId (specTokensOf r numNewTokens) }

/-- The tokens that a running request would get, before encoder inputs are looked at. -/
def numNewTokensRunning (st : ScheduleStep κ ε) (r : SchedRequest) : ℤ :=
  let numNewTokens : ℤ := r.numTokensWithSpec + r.numOutputPlaceholders - r.numComputedTokens
  let threshold : ℤ := env.config.longPrefillTokenThreshold
  let numNewTokens := if 0 < threshold ∧ threshold < numNewTokens then threshold else numNewTokens
  min (min numNewTokens st.tokenBudget)
    (env.config.maxModelLen - r.numComputedTokens - env.config.numSampledTokensPerStep)

/-- A running request that is left out because its last token is in flight already, or because
its next decode step is not due. -/
def isDeferred (st : ScheduleStep κ ε) (r : SchedRequest) : Bool :=
  decide (r.numOutputPlaceholders > 0 ∧
    r.numComputedTokens + 2 - r.numOutputPlaceholders ≥ r.core.numPromptTokens + r.maxTokens) ||
  decide (st.sched.currentStep < r.nextDecodeEligibleStep)

/-- The part of a turn that calls `_try_schedule_encoder_inputs`. -/
def planEncoderInputs (answers : StepAnswers) (st : ScheduleStep κ ε) (r : SchedRequest)
    (numComputedTokens numNewTokens : ℤ) : Raises (EncoderPlan × ε) :=
  if r.core.hasEncoderInputs then
    env.encoder.tryScheduleEncoderInputs st.sched.encoder r.view
      (if env.config.hasEcConnector then some answers.hasCacheItem else none)
      numComputedTokens.toNat numNewTokens st.encoderComputeBudget
      (if env.config.useEagle then 1 else 0)
  else pure ({
    numNewTokens
    encoderComputeBudget := st.encoderComputeBudget }, st.sched.encoder)

/-- `_mamba_block_aligned_split` -/
def mambaBlockAlignedSplit (r : SchedRequest) (numNewTokens : ℤ)
    (numNewLocalComputedTokens numExternalComputedTokens numUncachedCommonPrefixTokens : ℕ) : ℤ :=
  let numComputedTokens : ℤ :=
    r.numComputedTokens + numNewLocalComputedTokens + numExternalComputedTokens
  if numComputedTokens < max (r.core.numPromptTokens : ℤ) (r.numTokens - 1) then
    let blockSize : ℤ := env.config.cacheBlockSize
    let lastCachePosition : ℤ := r.numTokens - r.numTokens % blockSize
    let lastCachePosition := if env.config.useEagle then max (lastCachePosition - blockSize) 0
      else lastCachePosition
    let numComputedTokensAfterSched := numComputedTokens + numNewTokens
    let numNewTokens := if numComputedTokensAfterSched < lastCachePosition then
        numNewTokens / blockSize * blockSize
      else if numComputedTokens < lastCachePosition ∧
          lastCachePosition < numComputedTokensAfterSched then
        lastCachePosition - numComputedTokens
      else numNewTokens
    if blockSize ≤ numUncachedCommonPrefixTokens ∧ numUncachedCommonPrefixTokens < numNewTokens
    then numUncachedCommonPrefixTokens / blockSize * blockSize
    else numNewTokens
  else numNewTokens

def alignedSplit (r : SchedRequest) (numNewTokens : ℤ) (numLocal numExternal numUncached : ℕ) : ℤ :=
  if env.config.needMambaBlockAlignedSplit
  then mambaBlockAlignedSplit env r numNewTokens numLocal numExternal numUncached
  else numNewTokens

/-- One turn of the loop over the running requests. The result says whether the loop goes on. -/
def runningTurn (answers : StepAnswers) (st : ScheduleStep κ ε) (requestId : RequestId) :
    Raises (Bool × ScheduleStep κ ε) := do
  let r ← st.sched.object requestId
  if isDeferred st r then pure (true, { st with reqIndex := st.reqIndex + 1 })
  else
    let (plan, encoder) ← planEncoderInputs env answers st r r.numComputedTokens
      (numNewTokensRunning env st r)
    let st := st.setEncoder encoder
    let numNewTokens := alignedSplit env r plan.numNewTokens 0 0 0
    if numNewTokens = 0 then pure (true, { st with reqIndex := st.reqIndex + 1 })
    else
      let (newBlocks, st) ← allocateOrPreempt env requestId numNewTokens
        (st.sched.running.length + 1) st
      match newBlocks with
      | none => pure (false, st)
      | some newBlocks => do
        let st ← allocateEncoderInputs env (recordRunning st requestId r numNewTokens newBlocks)
          requestId r plan
        pure (true, st)

/-- The loop over the running requests. Each turn brings `reqIndex` closer to the end of the list,
so that the fuel, its length, is never used up. -/
def runningLoop (answers : StepAnswers) : ℕ → ScheduleStep κ ε → Raises (ScheduleStep κ ε)
  | 0, st => pure st
  | fuel + 1, st =>
    if st.tokenBudget > 0 then
      match st.sched.running[st.reqIndex]? with
      | none => pure st
      | some requestId => do
        let (go, st) ← runningTurn env answers st requestId
        if go then runningLoop answers fuel st else pure st
    else pure st

/-- The LoRAs of the running requests that are scheduled. -/
def recordLoras (st : ScheduleStep κ ε) : Raises (ScheduleStep κ ε) :=
  match env.config.maxLoras with
  | none => pure st
  | some maxLoras => do
    let loras ← st.scheduledRunningReqs.foldlM (fun loras requestId => do
      let r ← st.sched.object requestId
      pure (match r.core.loraRequest with
        | none => loras
        | some lora => if lora.loraIntId > 0 then setAdd loras lora.loraIntId else loras)) []
    Raises.require (loras.length ≤ maxLoras)
    pure { st with scheduledLoras := loras }

end ScheduleStep

end Vllm
