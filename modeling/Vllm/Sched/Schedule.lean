import Vllm.Sched.Scheduler

/-! `Scheduler.schedule`, continued: the loop over the waiting requests, the output of the step,
and what `_update_after_schedule` does to the scheduled requests. -/
namespace Vllm

/-- The two queues that a waiting request may be taken from. -/
inductive WaitingQueue where
  | waiting | skippedWaiting
  deriving DecidableEq

namespace Scheduler
variable {κ ε : Type}

def queue (s : Scheduler κ ε) : WaitingQueue → List RequestId
  | .waiting => s.waiting
  | .skippedWaiting => s.skippedWaiting

def setQueue (s : Scheduler κ ε) (q : WaitingQueue) (ids : List RequestId) : Scheduler κ ε :=
  match q with
  | .waiting => { s with waiting := ids }
  | .skippedWaiting => { s with skippedWaiting := ids }

/-- `_select_waiting_queue_for_scheduling` -/
def selectWaitingQueue (policy : SchedulingPolicy) (s : Scheduler κ ε) : Option WaitingQueue :=
  match policy, s.waiting, s.skippedWaiting with
  | _, [], [] => none
  | _, _ :: _, [] => some .waiting
  | _, [], _ :: _ => some .skippedWaiting
  | .fcfs, _ :: _, _ :: _ => some .skippedWaiting
  | .priority, waitingReq :: _, skippedReq :: _ =>
    if s.lt waitingReq skippedReq then some .waiting else some .skippedWaiting

end Scheduler

/-- What is known of a waiting request before tokens are assigned to it. -/
structure WaitingLookup where
  newComputedBlocks : Option (List (List BlockId)) := none
  numNewLocalComputedTokens : ℕ := 0
  numExternalComputedTokens : ℕ := 0
  loadKvAsync : Bool := false
  numUncachedCommonPrefixTokens : ℕ := 0
  numComputedTokens : ℤ

namespace ScheduleStep
variable {κ ε : Type} (env : SchedulerEnv κ ε)

def popWaiting (st : ScheduleStep κ ε) (q : WaitingQueue) : Raises (ScheduleStep κ ε) :=
  match RequestQueue.popRequest env.config.policy st.sched.lt (st.sched.queue q) with
  | none => throw .indexError
  | some (_, rest) => pure (st.setSched (st.sched.setQueue q rest))

/-- The request at the head of the queue is put aside for this step. -/
def skipWaiting (st : ScheduleStep κ ε) (q : WaitingQueue) (requestId : RequestId) :
    Raises (ScheduleStep κ ε) := do
  let st ← popWaiting env st q
  pure { st with stepSkippedWaiting :=
    RequestQueue.prependRequest env.config.policy st.sched.lt st.stepSkippedWaiting requestId }

/-- Whether the LoRA of the request would be one too many. -/
def exceedsMaxLoras (st : ScheduleStep κ ε) (r : SchedRequest) : Bool :=
  match env.config.maxLoras, r.core.loraRequest with
  | some maxLoras, some lora =>
    st.scheduledLoras.length = maxLoras ∧ lora.loraIntId ∉ st.scheduledLoras
  | _, _ => false

/-- The tokens that are computed already, locally or behind the connector. The request is put
aside if the connectors do not know yet. -/
def lookupComputed (answers : StepAnswers) (st : ScheduleStep κ ε) (requestId : RequestId)
    (r : SchedRequest) : Raises (Option WaitingLookup) :=
  if r.numComputedTokens ≠ 0 then pure (some { numComputedTokens := r.numComputedTokens })
  else do
    let hit ← (match env.config.hasConnector, env.kv.perGroupHit with
      | true, some perGroupHit => perGroupHit st.sched.kv r.view
      | _, _ => env.kv.getComputedBlocks st.sched.kv r.view)
    let (extTokens, loadKvAsync) := if env.config.hasConnector
      then answers.getNumNewMatchedTokens requestId hit.numTokens else (some 0, false)
    match extTokens with
    | none => pure none
    | some numExternalComputedTokens =>
      let numComputedTokens := hit.numTokens + numExternalComputedTokens
      Raises.require (numComputedTokens ≤ r.numTokens)
      if env.config.hasEcConnector ∧ r.core.mmFeatures ≠ [] ∧
          answers.ensureCacheAvailable requestId numComputedTokens = false then pure none
      else pure (some {
        newComputedBlocks := some hit.blocks
        numNewLocalComputedTokens := hit.numTokens
        numExternalComputedTokens
        loadKvAsync
        numUncachedCommonPrefixTokens := hit.numUncachedCommonPrefixTokens
        numComputedTokens })

/-- The tokens that a waiting request would get, before encoder inputs are looked at. -/
def numNewTokensWaiting (r : SchedRequest) (lookup : WaitingLookup) : ℤ :=
  let numNewTokens : ℤ := r.numTokens - lookup.numComputedTokens
  let threshold : ℤ := env.config.longPrefillTokenThreshold
  if 0 < threshold ∧ threshold < numNewTokens then threshold else numNewTokens

/-- The tokens and encoder inputs of a waiting request. Without a plan the loop is left. -/
def planWaiting (answers : StepAnswers) (st : ScheduleStep κ ε) (r : SchedRequest)
    (lookup : WaitingLookup) : Raises (Option (ℤ × EncoderPlan) × ε) :=
  if lookup.loadKvAsync then do
    Raises.require (lookup.numExternalComputedTokens > 0)
    pure (some (0, {
      numNewTokens := 0
      encoderComputeBudget := st.encoderComputeBudget }), st.sched.encoder)
  else if env.config.enableChunkedPrefill = false ∧ numNewTokensWaiting env r lookup > st.tokenBudget
  then pure (none, st.sched.encoder)
  else do
    let numNewTokens := min (numNewTokensWaiting env r lookup) st.tokenBudget
    Raises.require (numNewTokens > 0)
    let (plan, encoder) ← planEncoderInputs env answers st r lookup.numComputedTokens numNewTokens
    let numNewTokens := alignedSplit env r plan.numNewTokens lookup.numNewLocalComputedTokens
      lookup.numExternalComputedTokens lookup.numUncachedCommonPrefixTokens
    if plan.numNewTokens = 0 ∨ numNewTokens = 0 then pure (none, encoder)
    else pure (some (numNewTokens, plan), encoder)

/-- `_inflight_prefill_reserved_blocks` -/
def inflightPrefillReservedBlocks (s : Scheduler κ ε) : Raises ℕ := do
  let blocks ← s.inflightPrefills.mapM fun requestId => do
    let r ← s.object requestId
    env.kv.requestRemainingBlocks s.kv r.view
  pure blocks.sum

def encoderTokens (r : SchedRequest) (plan : EncoderPlan) : Raises ℕ :=
  if env.config.isEncoderDecoder ∧ r.core.hasEncoderInputs then do
    let embeds ← plan.encoderInputsToSchedule.mapM fun i => do
      let f ← EncoderCacheManager.feature r.core i
      pure f.mmPosition.getNumEmbeds
    pure embeds.sum
  else pure 0

def allocateWaiting (st : ScheduleStep κ ε) (r : SchedRequest) (lookup : WaitingLookup)
    (numNewTokens : ℤ) (plan : EncoderPlan) : Raises (Option (List (List BlockId)) × κ) := do
  let numEncoderTokens ← encoderTokens env r plan
  let reservedBlocks ← (if lookup.loadKvAsync
    then inflightPrefillReservedBlocks env st.sched else pure 0)
  env.kv.allocateSlots st.sched.kv r.view {
    numNewTokens
    numNewComputedTokens := lookup.numNewLocalComputedTokens
    newComputedBlocks := lookup.newComputedBlocks
    numLookaheadTokens :=
      if lookup.loadKvAsync ∧ env.config.useEagle then 0 else env.config.numLookaheadTokens
    numExternalComputedTokens := lookup.numExternalComputedTokens
    delayCacheBlocks := lookup.loadKvAsync
    numEncoderTokens
    fullSequenceMustFit := env.config.schedulerReserveFullIsl
    reservedBlocks
    hasScheduledReqs := st.sched.running ≠ [] }

/-- A request whose KV is loaded in the background waits for it. -/
def startRemoteLoad (st : ScheduleStep κ ε) (requestId : RequestId) (r : SchedRequest)
    (lookup : WaitingLookup) : ScheduleStep κ ε :=
  let sched := st.sched.put requestId { r.setStatus .waitingForRemoteKvs with
    numComputedTokens := lookup.numComputedTokens }
  { st with
    sched := { sched with inflightPrefills := setAdd sched.inflightPrefills requestId }
    stepSkippedWaiting :=
      RequestQueue.prependRequest env.config.policy sched.lt st.stepSkippedWaiting requestId }

/-- A waiting request starts to run. -/
def startRunning (st : ScheduleStep κ ε) (requestId : RequestId) (r : SchedRequest)
    (lookup : WaitingLookup) (numNewTokens : ℤ) : Raises (ScheduleStep κ ε) :=
  let sched := st.sched.put requestId { r.setStatus .running with
    numComputedTokens := lookup.numComputedTokens }
  let st := { st with
    sched := { sched with
      running := sched.running ++ [requestId]
      inflightPrefills := if lookup.numComputedTokens + numNewTokens < r.numTokens
        then setAdd sched.inflightPrefills requestId else sched.inflightPrefills }
    scheduledLoras := match env.config.maxLoras, r.core.loraRequest with
      | some _, some lora => setAdd st.scheduledLoras lora.loraIntId
      | _, _ => st.scheduledLoras
    reqToNewBlocks := st.reqToNewBlocks.set requestId (env.kv.getBlockIds st.sched.kv requestId)
    numScheduledTokens := st.numScheduledTokens.set requestId numNewTokens
    tokenBudget := st.tokenBudget - numNewTokens }
  match r.status with
  | .waiting => pure { st with scheduledNewReqs := st.scheduledNewReqs ++ [requestId] }
  | .preempted => pure { st with scheduledResumedReqs := st.scheduledResumedReqs ++ [requestId] }
  | _ => throw .runtimeError

/-- A waiting request with a plan: it gets its blocks, or the loop is left. -/
def placeWaiting (st : ScheduleStep κ ε) (q : WaitingQueue) (requestId : RequestId)
    (r : SchedRequest) (lookup : WaitingLookup) (numNewTokens : ℤ) (plan : EncoderPlan) :
    Raises (Bool × ScheduleStep κ ε) := do
  let (newBlocks, kv) ← allocateWaiting env st r lookup numNewTokens plan
  let st := st.setKv kv
  match newBlocks with
  | none => do
    let encoder ← (if r.core.hasEncoderInputs then env.encoder.free st.sched.encoder r.view
      else pure st.sched.encoder)
    pure (false, st.setEncoder encoder)
  | some _ => do
    let st ← popWaiting env st q
    if lookup.loadKvAsync then pure (true, startRemoteLoad env st requestId r lookup)
    else do
      let st ← startRunning env st requestId r lookup numNewTokens
      let st ← allocateEncoderInputs env st requestId r plan
      pure (true, st)

/-- A waiting request that is not blocked. -/
def considerWaiting (answers : StepAnswers) (st : ScheduleStep κ ε) (q : WaitingQueue)
    (requestId : RequestId) (r : SchedRequest) : Raises (Bool × ScheduleStep κ ε) :=
  if exceedsMaxLoras env st r then do
    let st ← skipWaiting env st q requestId
    pure (true, st)
  else do
    match (← lookupComputed env answers st requestId r) with
    | none => do
      let st ← skipWaiting env st q requestId
      pure (true, st)
    | some lookup => do
      let (plan, encoder) ← planWaiting env answers st r lookup
      let st := st.setEncoder encoder
      match plan with
      | none => pure (false, st)
      | some (numNewTokens, plan) => placeWaiting env st q requestId r lookup numNewTokens plan

/-- One turn of the loop over the waiting requests. -/
def waitingTurn (answers : StepAnswers) (st : ScheduleStep κ ε) :
    Raises (Bool × ScheduleStep κ ε) := do
  match st.sched.selectWaitingQueue env.config.policy with
  | none => throw .assertionError
  | some q =>
    match RequestQueue.peekRequest (st.sched.queue q) with
    | none => throw .indexError
    | some requestId => do
      let r ← st.sched.object requestId
      if Scheduler.isBlockedWaitingStatus r.status then do
        let (promoted, sched) ← st.sched.tryPromoteBlockedWaitingRequest env answers requestId r
        let st := st.setSched sched
        if promoted then do
          let r ← st.sched.object requestId
          considerWaiting env answers st q requestId r
        else do
          let st ← skipWaiting env st q requestId
          pure (true, st)
      else considerWaiting env answers st q requestId r

/-- The loop over the waiting requests. Each turn takes a request off a queue or leaves the loop,
so that the fuel, the number of waiting requests, is never used up. -/
def waitingLoop (answers : StepAnswers) : ℕ → ScheduleStep κ ε → Raises (ScheduleStep κ ε)
  | 0, st => pure st
  | fuel + 1, st =>
    if (st.sched.waiting ≠ [] ∨ st.sched.skippedWaiting ≠ []) ∧ st.tokenBudget > 0 ∧
        st.sched.running.length ≠ env.config.maxNumRunningReqs then do
      let (go, st) ← waitingTurn env answers st
      if go then waitingLoop answers fuel st else pure st
    else pure st

/-- Requests put aside in this step go in front of those put aside before. -/
def requeueSkipped (st : ScheduleStep κ ε) : ScheduleStep κ ε :=
  let skippedWaiting := RequestQueue.prependRequests env.config.policy st.sched.lt
    st.sched.skippedWaiting st.stepSkippedWaiting
  { st with
    sched := { st.sched with skippedWaiting }
    stepSkippedWaiting := [] }

def scheduleWaiting (answers : StepAnswers) (st : ScheduleStep κ ε) : Raises (ScheduleStep κ ε) :=
  if st.preemptedReqs = [] ∧ st.sched.pauseState = .unpaused then do
    let st ← waitingLoop env answers
      (st.sched.waiting.length + st.sched.skippedWaiting.length) st
    pure (requeueSkipped env st)
  else pure st

def checkConstraints (st : ScheduleStep κ ε) : Raises Unit := do
  Raises.require ((st.numScheduledTokens.entries.map Prod.snd).sum ≤
    env.config.maxNumScheduledTokens)
  Raises.require (st.tokenBudget ≥ 0)
  Raises.require (st.sched.running.length ≤ env.config.maxNumRunningReqs)
  Raises.require (st.scheduledNewReqs.length + st.scheduledResumedReqs.length +
    st.scheduledRunningReqs.length ≤ st.sched.running.length)

end ScheduleStep

namespace Scheduler
variable {κ ε : Type} (env : SchedulerEnv κ ε)

/-- `_update_after_schedule` of the base class, for one scheduled request. -/
def advanceComputed (s : Scheduler κ ε) (item : RequestId × ℤ) : Raises (Scheduler κ ε) :=
  match s.registered item.1 with
  | none => throw .keyError
  | some r =>
    let numComputedTokens := r.numComputedTokens + item.2
    let isPrefillChunk := decide (numComputedTokens < r.numTokens + r.numOutputPlaceholders)
    let s := s.put item.1 { r with
      numComputedTokens
      isPrefillChunk }
    pure (if isPrefillChunk then s
      else { s with inflightPrefills := setDiscard s.inflightPrefills item.1 })

/-- `_update_after_schedule` of the asynchronous scheduler, for one scheduled request. -/
def addPlaceholders (specTokens : Dict RequestId (List TokenId)) (s : Scheduler κ ε)
    (item : RequestId × ℤ) : Raises (Scheduler κ ε) :=
  match s.registered item.1 with
  | none => throw .keyError
  | some r =>
    if r.isPrefillChunk then pure s
    else pure (s.put item.1 { r with
      numOutputPlaceholders := r.numOutputPlaceholders +
        (env.config.numSampledTokensPerStep + (specTokens.getD item.1 []).length : ℕ)
      specTokenIds := List.replicate env.config.numSpecTokens (-1)
      nextDecodeEligibleStep := if env.config.useV2ModelRunner
        then s.currentStep + env.config.ppSize else r.nextDecodeEligibleStep })

def updateAfterSchedule (s : Scheduler κ ε) (output : SchedulerOutput) :
    Raises (Scheduler κ ε) := do
  let s ← output.numScheduledTokens.entries.foldlM advanceComputed s
  let s := { s with finishedReqIds := [] }
  if env.config.asyncScheduling then
    output.numScheduledTokens.entries.foldlM
      (addPlaceholders env output.scheduledSpecDecodeTokens) s
  else pure s

/-- The local variables at the start of a step. -/
def startStep (s : Scheduler κ ε) : ScheduleStep κ ε where
  sched := { s with
    currentStep := s.currentStep + 1
    kv := env.kv.newStepStarts s.kv }
  tokenBudget := if s.pauseState = .pausedAll then 0 else env.config.maxNumScheduledTokens
  encoderComputeBudget := env.config.maxNumEncoderInputTokens

/-- The step once both loops are through. -/
def assembleStep (answers : StepAnswers) (s : Scheduler κ ε) : Raises (ScheduleStep κ ε) := do
  let st ← ScheduleStep.runningLoop env answers s.running.length (s.startStep env)
  let st ← ScheduleStep.recordLoras env st
  ScheduleStep.scheduleWaiting env answers st

def schedule (answers : StepAnswers) (s : Scheduler κ ε) :
    Raises (SchedulerOutput × Scheduler κ ε) := do
  let st ← assembleStep env answers s
  ScheduleStep.checkConstraints env st
  let (freeEncoderMmHashes, encoder) := env.encoder.getFreedMmHashes st.sched.encoder
  let output := {
    scheduledNewReqs := if env.config.useV2ModelRunner
      then st.scheduledNewReqs ++ st.scheduledResumedReqs else st.scheduledNewReqs
    scheduledResumedReqs := if env.config.useV2ModelRunner then [] else st.scheduledResumedReqs
    scheduledRunningReqs := st.scheduledRunningReqs
    numScheduledTokens := st.numScheduledTokens
    scheduledSpecDecodeTokens := st.scheduledSpecDecodeTokens
    scheduledEncoderInputs := st.scheduledEncoderInputs
    encoderAllocations := st.encoderAllocations
    preemptedReqIds := st.preemptedReqs
    finishedReqIds := st.sched.finishedReqIds
    freeEncoderMmHashes }
  let s ← updateAfterSchedule env { st.sched with encoder } output
  pure (output, s)

end Scheduler

end Vllm
