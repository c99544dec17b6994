import Vllm.Sched.Schedule

/-! What happens to the requests between two steps: `update_from_output` with the stop handling
and the recovery from failed KV loads, `add_request`, `finish_requests` and
`reset_prefix_cache`. -/
namespace Vllm

/-- What the worker returns for a step, and what the grammar and the connector answer while it is
processed. -/
structure ModelRunnerOutput where
  sampledTokenIds : RequestId → List TokenId
  hasPoolerOutput : RequestId → Bool := fun _ => false
  /-- The grammar is to advance over the tokens and rejects them. -/
  grammarRejects : RequestId → Bool := fun _ => false
  /-- The connector keeps the blocks of the finished request for a transfer. -/
  connectorDelaysFree : RequestId → Bool := fun _ => false
  invalidBlockIds : List BlockId := []
  finishedRecving : List RequestId := []
  finishedSending : List RequestId := []

structure EngineCoreOutput where
  requestId : RequestId
  newTokenIds : List TokenId
  finishReason : Option RequestStatus

/-- The scheduler and the local variables of `update_from_output`. -/
structure OutputPass (κ ε : Type) where
  sched : Scheduler κ ε
  stoppedRunningReqs : List RequestId := []
  stoppedPreemptedReqs : List RequestId := []
  outputs : List EngineCoreOutput := []

/-- `remove_all` of `sched/utils.py`. -/
def removeAll (l itemsToRemove : List RequestId) : List RequestId :=
  match itemsToRemove with
  | [] => l
  | [item] => l.erase item
  | _ => l.filter (· ∉ itemsToRemove)

namespace Scheduler
variable {κ ε : Type} (env : SchedulerEnv κ ε)

/-- `_enqueue_waiting_request` -/
def enqueueWaitingRequest (s : Scheduler κ ε) (requestId : RequestId) (status : RequestStatus) :
    Scheduler κ ε :=
  if isBlockedWaitingStatus status then { s with
    skippedWaiting := RequestQueue.addRequest env.config.policy s.lt s.skippedWaiting requestId }
  else { s with
    waiting := RequestQueue.addRequest env.config.policy s.lt s.waiting requestId }

/-- `_update_request_as_session` -/
def updateSession (s : Scheduler κ ε) (requestId : RequestId) (session : SchedRequest)
    (update : SessionUpdate) : Raises (Scheduler κ ε) := do
  let session' ← session.updateAsSession env.config.blockHasher update
  let s := s.put requestId session'
  pure { s with numWaitingForStreamingInput :=
    if session.status = .waitingForStreamingReq then s.numWaitingForStreamingInput - 1
    else s.numWaitingForStreamingInput }

/-- `_handle_stopped_request`: whether the request is finished. -/
def handleStoppedRequest (s : Scheduler κ ε) (requestId : RequestId) (r : SchedRequest) :
    Raises (Bool × Scheduler κ ε) :=
  if r.resumable = false then pure (true, s)
  else
    match r.streamingQueue.getD [] with
    | none :: rest => pure (true, s.put requestId { r with streamingQueue := some rest })
    | some update :: rest => do
      let s ← s.updateSession env requestId { r with streamingQueue := some rest } update
      pure (false, s.enqueueWaitingRequest env requestId .waiting)
    | [] =>
      let s := s.put requestId (r.setStatus .waitingForStreamingReq)
      let s := { s with numWaitingForStreamingInput := s.numWaitingForStreamingInput + 1 }
      pure (false, s.enqueueWaitingRequest env requestId .waitingForStreamingReq)

/-- `_free_blocks` -/
def freeBlocks (s : Scheduler κ ε) (requestId : RequestId) : Raises (Scheduler κ ε) := do
  let r ← s.object requestId
  Raises.require (r.isFinished = true)
  let kv ← env.kv.free s.kv r.view
  Raises.require (requestId ∈ s.requests)
  pure { s with
    kv
    requests := setDiscard s.requests requestId }

/-- `_free_request` -/
def freeRequest (connectorDelaysFree : RequestId → Bool) (s : Scheduler κ ε)
    (requestId : RequestId) (delayFreeBlocks : Bool) : Raises (Scheduler κ ε) := do
  let r ← s.object requestId
  Raises.require (r.isFinished = true)
  let kv ← (if env.config.hasConnector
    then env.kv.removeSkippedBlocks s.kv requestId r.numComputedTokens else pure s.kv)
  let encoder ← env.encoder.free s.encoder r.view
  let s := { s with
    kv
    encoder
    inflightPrefills := setDiscard s.inflightPrefills requestId
    finishedReqIds := setAdd s.finishedReqIds requestId }
  if delayFreeBlocks ∨ (env.config.hasConnector ∧ connectorDelaysFree requestId) then pure s
  else s.freeBlocks env requestId

/-- `_update_request_with_output`, of the base class or of the asynchronous scheduler. -/
def updateRequestWithOutput (s : Scheduler κ ε) (requestId : RequestId) (r : SchedRequest)
    (newTokenIds : List TokenId) : Raises (List TokenId × Bool × Scheduler κ ε) :=
  if env.config.asyncScheduling then
    if r.asyncTokensToDiscard > 0 then
      pure ([], false, s.put requestId
        { r with asyncTokensToDiscard := r.asyncTokensToDiscard - 1 })
    else do
      let (kept, stopped, r') ←
        r.appendUntilStop env.config.blockHasher env.config.maxModelLen newTokenIds
      let r' := { r' with numOutputPlaceholders := r'.numOutputPlaceholders - kept.length }
      Raises.require (r'.numOutputPlaceholders ≥ 0)
      let kv ← (if r.status = .running then
          env.kv.cacheBlocks s.kv r'.view (r'.numComputedTokens - r'.numOutputPlaceholders)
        else pure s.kv)
      pure (kept, stopped, { s.put requestId r' with kv })
  else do
    let (kept, stopped, r') ←
      r.appendUntilStop env.config.blockHasher env.config.maxModelLen newTokenIds
    pure (kept, stopped, s.put requestId r')

/-- The counters go back by the rejected draft tokens. -/
def rollBackRejected (scheduledSpecTokenIds generatedTokenIds : List TokenId) (r : SchedRequest) :
    SchedRequest :=
  if scheduledSpecTokenIds ≠ [] ∧
      (generatedTokenIds ≠ [] ∨ env.config.numSampledTokensPerStep = 0) then
    let numAccepted := generatedTokenIds.length - env.config.numSampledTokensPerStep
    let numRejected : ℤ := (scheduledSpecTokenIds.length : ℤ) - numAccepted
    { r with
      numComputedTokens := if r.numComputedTokens > 0 then r.numComputedTokens - numRejected
        else r.numComputedTokens
      numOutputPlaceholders := if r.numOutputPlaceholders > 0
        then r.numOutputPlaceholders - numRejected else r.numOutputPlaceholders }
  else r

/-- The tokens of one request are appended: what is kept of them, and whether it stops. -/
def takeTokens (out : ModelRunnerOutput) (s : Scheduler κ ε) (requestId : RequestId)
    (r : SchedRequest) : Raises (List TokenId × Bool × Scheduler κ ε) := do
  let generatedTokenIds := out.sampledTokenIds requestId
  let (newTokenIds, stopped, s) ← (if generatedTokenIds ≠ [] then
      s.updateRequestWithOutput env requestId r generatedTokenIds
    else if r.pooling ∧ out.hasPoolerOutput requestId then
      pure ([], true, s.put requestId (r.setStatus .finishedStopped))
    else pure ([], false, s))
  if newTokenIds ≠ [] ∧ out.grammarRejects requestId then do
    let r ← s.object requestId
    pure (newTokenIds, true, s.put requestId { r.setStatus .finishedError with resumable := false })
  else pure (newTokenIds, stopped, s)

/-- What follows when a request has stopped. -/
def settleStopped (out : ModelRunnerOutput) (s : Scheduler κ ε) (requestId : RequestId) :
    Raises (Scheduler κ ε) := do
  let r ← s.object requestId
  let (finished, s) ← s.handleStoppedRequest env requestId r
  if finished then s.freeRequest env out.connectorDelaysFree requestId false
  else pure s

end Scheduler

namespace OutputPass
variable {κ ε : Type} (env : SchedulerEnv κ ε)

/-- The turn of the loop for a request that is not finished. -/
def processRequest (frame : SchedulerOutput) (out : ModelRunnerOutput) (pass : OutputPass κ ε)
    (requestId : RequestId) (r : SchedRequest) : Raises (OutputPass κ ε) := do
  let r := Scheduler.rollBackRejected env (frame.scheduledSpecDecodeTokens.getD requestId [])
    (out.sampledTokenIds requestId) r
  let s := pass.sched.put requestId r
  let encoder ← (if r.core.hasEncoderInputs then env.encoder.freeEncoderInputs s.encoder r
    else pure s.encoder)
  let (newTokenIds, stopped, s) ← Scheduler.takeTokens env out { s with encoder } requestId r
  if stopped then do
    let r' ← s.object requestId
    let s ← s.settleStopped env out requestId
    pure { pass with
      sched := s
      stoppedRunningReqs := if r.status = .running
        then setAdd pass.stoppedRunningReqs requestId else pass.stoppedRunningReqs
      stoppedPreemptedReqs := if r.status = .running
        then pass.stoppedPreemptedReqs else setAdd pass.stoppedPreemptedReqs requestId
      outputs := pass.outputs ++ [{
        requestId
        newTokenIds
        finishReason := some r'.status }] }
  else if newTokenIds ≠ [] ∨ out.hasPoolerOutput requestId then
    pure { pass with
      sched := s
      outputs := pass.outputs ++ [{
        requestId
        newTokenIds
        finishReason := none }] }
  else pure { pass with sched := s }

/-- One turn of the loop over the scheduled requests. -/
def processOutput (frame : SchedulerOutput) (out : ModelRunnerOutput)
    (failedKvLoadReqIds : List RequestId) (pass : OutputPass κ ε) (item : RequestId × ℤ) :
    Raises (OutputPass κ ε) := do
  Raises.require (item.2 > 0)
  if item.1 ∈ failedKvLoadReqIds then pure pass
  else
    match pass.sched.registered item.1 with
    | none => pure pass
    | some r =>
      if r.isFinished then pure pass
      else processRequest env frame out pass item.1 r

/-- Stopped requests leave the queues. -/
def removeStopped (pass : OutputPass κ ε) : Scheduler κ ε :=
  let s := pass.sched
  { s with
    running := removeAll s.running pass.stoppedRunningReqs
    waiting := if pass.stoppedPreemptedReqs = [] then s.waiting
      else RequestQueue.removeRequests env.config.policy s.lt s.waiting pass.stoppedPreemptedReqs }

end OutputPass

/-- The local variables of `_update_requests_with_invalid_blocks`. -/
structure InvalidBlockScan where
  affectedReqIds : List RequestId := []
  blocksToEvict : List BlockId := []
  markedInvalidBlockIds : List BlockId := []

/-- The variables of its loop over the blocks of one request. -/
structure RequestBlockScan where
  isAffected : Bool := false
  markedInvalidBlock : Bool := false
  numComputedTokens : ℤ
  blocksToEvict : List BlockId
  markedInvalidBlockIds : List BlockId

namespace Scheduler
variable {κ ε : Type} (env : SchedulerEnv κ ε)

def scanInvalidBlocks (invalidBlockIds reqBlockIds : List BlockId) (evictBlocks : Bool) :
    List (ℕ × BlockId) → RequestBlockScan → RequestBlockScan
  | [], scan => scan
  | (idx, blockId) :: rest, scan =>
    scanInvalidBlocks invalidBlockIds reqBlockIds evictBlocks rest
      (if blockId ∉ invalidBlockIds then scan
      else if blockId ∈ scan.markedInvalidBlockIds then { scan with isAffected := true }
      else if scan.markedInvalidBlock then { scan with
        isAffected := true
        markedInvalidBlockIds := setAdd scan.markedInvalidBlockIds blockId }
      else {
        isAffected := true
        markedInvalidBlock := true
        numComputedTokens := idx * env.config.blockSize
        blocksToEvict := if evictBlocks
          then (reqBlockIds.drop idx).foldl setAdd scan.blocksToEvict else scan.blocksToEvict
        markedInvalidBlockIds := setAdd scan.markedInvalidBlockIds blockId })

/-- One request in `_update_requests_with_invalid_blocks`. -/
def updateRequestWithInvalidBlocks (invalidBlockIds : List BlockId)
    (numScheduledTokens : Dict RequestId ℤ) (evictBlocks : Bool)
    (acc : InvalidBlockScan × Scheduler κ ε) (requestId : RequestId) :
    Raises (InvalidBlockScan × Scheduler κ ε) := do
  let (scan, s) := acc
  let r ← s.object requestId
  match env.kv.getBlockIds s.kv requestId with
  | [reqBlockIds] =>
    let reqNumComputedTokens : ℤ := r.numComputedTokens - numScheduledTokens.getD requestId 0
    let reqNumComputedBlocks :=
      (reqNumComputedTokens + env.config.blockSize - 1) / env.config.blockSize
    let result := scanInvalidBlocks env invalidBlockIds reqBlockIds evictBlocks
      ((List.range reqNumComputedBlocks.toNat).zip reqBlockIds) {
        numComputedTokens := r.numComputedTokens
        blocksToEvict := scan.blocksToEvict
        markedInvalidBlockIds := scan.markedInvalidBlockIds }
    if result.isAffected then
      pure ({
        affectedReqIds := setAdd scan.affectedReqIds requestId
        blocksToEvict := result.blocksToEvict
        markedInvalidBlockIds := result.markedInvalidBlockIds },
        s.put requestId { r with numComputedTokens :=
          if result.markedInvalidBlock then result.numComputedTokens else reqNumComputedTokens })
    else pure (scan, s)
  | _ => throw .valueError

def updateRequestsWithInvalidBlocks (invalidBlockIds : List BlockId)
    (numScheduledTokens : Dict RequestId ℤ) (evictBlocks : Bool) (ids : List RequestId)
    (s : Scheduler κ ε) : Raises (InvalidBlockScan × Scheduler κ ε) :=
  ids.foldlM (updateRequestWithInvalidBlocks env invalidBlockIds numScheduledTokens evictBlocks)
    ({}, s)

/-- `_handle_invalid_blocks`: the requests that the loop leaves out. -/
def handleInvalidBlocks (invalidBlockIds : List BlockId) (numScheduledTokens : Dict RequestId ℤ)
    (s : Scheduler κ ε) : Raises (List RequestId × Scheduler κ ε) := do
  let loading := s.skippedWaiting.filter fun requestId =>
    (s.objects.get? requestId).any fun r => r.status == .waitingForRemoteKvs
  let (asyncScan, s) ← updateRequestsWithInvalidBlocks env invalidBlockIds numScheduledTokens false
    loading s
  let (syncScan, s) ← updateRequestsWithInvalidBlocks env invalidBlockIds numScheduledTokens true
    s.running s
  if asyncScan.affectedReqIds = [] ∧ syncScan.affectedReqIds = [] then pure ([], s)
  else if env.config.recomputeKvLoadFailures then
    pure (syncScan.affectedReqIds, { s with
      failedRecvingKvReqIds := asyncScan.affectedReqIds.foldl setAdd s.failedRecvingKvReqIds })
  else do
    let kv ← (if syncScan.blocksToEvict = [] then pure s.kv
      else env.kv.evictBlocks s.kv syncScan.blocksToEvict)
    pure (syncScan.affectedReqIds.foldl setAdd asyncScan.affectedReqIds, { s with kv })

/-- The first pass of `finish_requests`: the requests that are not finished yet. -/
def requestsToFinish (s : Scheduler κ ε) (requestIds : List RequestId) : List RequestId :=
  requestIds.filter fun requestId =>
    match s.registered requestId with
    | none => false
    | some r => !r.isFinished

def hasStatus (s : Scheduler κ ε) (status : RequestStatus) (requestId : RequestId) : Bool :=
  (s.objects.get? requestId).any fun r => r.status == status

/-- The second pass of `finish_requests`, for one request. -/
def finishRequest (connectorDelaysFree : RequestId → Bool) (finishedStatus : RequestStatus)
    (s : Scheduler κ ε) (requestId : RequestId) : Raises (Scheduler κ ε) := do
  let r ← s.object requestId
  let loading := decide (r.status = .waitingForRemoteKvs)
  let delayFreeBlocks := loading && decide (requestId ∉ s.finishedRecvingKvReqIds)
  let s := if loading then { s with
      finishedRecvingKvReqIds := setDiscard s.finishedRecvingKvReqIds requestId
      failedRecvingKvReqIds := setDiscard s.failedRecvingKvReqIds requestId }
    else s
  freeRequest env connectorDelaysFree (s.put requestId (r.setStatus finishedStatus)) requestId
    delayFreeBlocks

/-- The requests to finish leave the queues. -/
def dequeueRequests (s : Scheduler κ ε) (ids : List RequestId) : Scheduler κ ε :=
  let running := ids.filter (s.hasStatus .running)
  let waiting := ids.filter fun requestId => !s.hasStatus .running requestId
  { s with
    running := removeAll s.running running
    waiting := if waiting = [] then s.waiting
      else RequestQueue.removeRequests env.config.policy s.lt s.waiting waiting
    skippedWaiting := if waiting = [] then s.skippedWaiting
      else RequestQueue.removeRequests env.config.policy s.lt s.skippedWaiting waiting
    numWaitingForStreamingInput := s.numWaitingForStreamingInput -
      (ids.filter (s.hasStatus .waitingForStreamingReq)).length }

/-- `finish_requests` for a set of ids, given without duplicates. -/
def finishRequests (connectorDelaysFree : RequestId → Bool) (requestIds : List RequestId)
    (finishedStatus : RequestStatus) (s : Scheduler κ ε) : Raises (Scheduler κ ε) := do
  Raises.require (finishedStatus.isFinished = true)
  let ids := s.requestsToFinish requestIds
  ids.foldlM (finishRequest env connectorDelaysFree finishedStatus) (s.dequeueRequests env ids)

/-- A transfer to the worker has ended. -/
def finishRecving (s : Scheduler κ ε) (requestId : RequestId) : Raises (Scheduler κ ε) :=
  match s.registered requestId with
  | none => throw .assertionError
  | some r =>
    if r.status = .waitingForRemoteKvs then pure { s with
      finishedRecvingKvReqIds := setAdd s.finishedRecvingKvReqIds requestId }
    else s.freeBlocks env requestId

def finishSending (s : Scheduler κ ε) (requestId : RequestId) : Raises (Scheduler κ ε) :=
  match s.registered requestId with
  | none => throw .assertionError
  | some _ => s.freeBlocks env requestId

def updateFromKvXferFinished (out : ModelRunnerOutput) (s : Scheduler κ ε) :
    Raises (Scheduler κ ε) := do
  let s ← out.finishedRecving.foldlM (finishRecving env) s
  out.finishedSending.foldlM (finishSending env) s

def updateFromOutput (frame : SchedulerOutput) (out : ModelRunnerOutput) (s : Scheduler κ ε) :
    Raises (List EngineCoreOutput × Scheduler κ ε) := do
  let (failed, s) ← (if out.invalidBlockIds = [] then pure ([], s)
    else handleInvalidBlocks env out.invalidBlockIds frame.numScheduledTokens s)
  let pass ← frame.numScheduledTokens.entries.foldlM (OutputPass.processOutput env frame out failed)
    { sched := s }
  let s := pass.removeStopped env
  let s ← (if failed ≠ [] ∧ env.config.recomputeKvLoadFailures = false
    then s.finishRequests env out.connectorDelaysFree failed .finishedError else pure s)
  let s ← s.updateFromKvXferFinished env out
  pure (pass.outputs, s)

/-- `update_draft_token_ids`, with the drafts that the grammar has left. -/
def updateDraftTokenIds (draftTokenIds : List (RequestId × List TokenId)) (s : Scheduler κ ε) :
    Scheduler κ ε :=
  draftTokenIds.foldl (fun s (requestId, specTokenIds) =>
    match s.registered requestId with
    | none => s
    | some r =>
      if r.isFinished then s
      else s.put requestId { r with
        specTokenIds := if r.isPrefillChunk then [] else specTokenIds }) s

def addRequest (connectorDelaysFree : RequestId → Bool) (request : SchedRequest)
    (s : Scheduler κ ε) : Raises (Scheduler κ ε) :=
  match s.registered request.requestId with
  | some existing =>
    if existing.status ≠ .waitingForStreamingReq then
      match existing.streamingQueue with
      | none => throw .assertionError
      | some queue => pure (s.put request.requestId { existing with
          streamingQueue := some (queue ++ [request.toUpdate]) })
    else
      match request.toUpdate with
      | some update => s.updateSession env request.requestId existing update
      | none => s.finishRequests env connectorDelaysFree [request.requestId] .finishedAborted
  | none =>
    let request := if request.resumable then { request with streamingQueue := some [] } else request
    let s := s.put request.requestId request
    let s := s.enqueueWaitingRequest env request.requestId request.status
    pure { s with requests := s.requests ++ [request.requestId] }

/-- The loop of `reset_prefix_cache`, from the last running request on. -/
def preemptRunning : List RequestId → Scheduler κ ε → Raises (Scheduler κ ε)
  | [], s => pure s
  | requestId :: rest, s => do
    let s ← { s with running := s.running.dropLast }.preemptRequest env requestId
    let r ← s.object requestId
    preemptRunning rest (s.put requestId { r with
      asyncTokensToDiscard := r.numOutputPlaceholders
      numOutputPlaceholders := 0 })

def resetPrefixCache (resetRunningRequests : Bool) (s : Scheduler κ ε) :
    Raises (Bool × Scheduler κ ε) := do
  let s ← (if resetRunningRequests then preemptRunning env s.running.reverse s else pure s)
  let (resetSuccessful, kv) ← env.kv.resetPrefixCache s.kv
  if resetRunningRequests ∧ resetSuccessful = false then throw .runtimeError
  else pure (resetSuccessful, { s with kv })

end Scheduler

end Vllm
