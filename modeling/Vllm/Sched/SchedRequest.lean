import Vllm.KvCache.StreamingSession

/-! The request as the scheduler sees it: its counters, its streaming queue and the conditions
under which it stops (`request.py`, `sched/utils.py`). -/
namespace Vllm

structure RepetitionDetectionParams where
  maxPatternSize : ℤ
  minPatternSize : ℤ
  minCount : ℤ
  deriving DecidableEq

/-- The fields of the sampling parameters that decide when a request stops. -/
structure SamplingParams where
  minTokens : ℕ := 0
  eosTokenId : Option TokenId := none
  stopTokenIds : List TokenId := []
  repetitionDetection : Option RepetitionDetectionParams := none
  deriving DecidableEq

/-- The `k`-th token from the end. -/
def tokenFromEnd (tokenIds : List TokenId) (k : ℕ) : Option TokenId :=
  tokenIds[tokenIds.length - k]?

def hasRepeatingPattern (tokenIds : List TokenId) (patternLen repetitionMinCount : ℕ) : Bool :=
  (List.range' 1 patternLen).all fun n =>
    (List.range' 1 (repetitionMinCount - 1)).all fun m =>
      tokenFromEnd tokenIds (patternLen * m + n) = tokenFromEnd tokenIds n

/-- The loop over the pattern lengths. -/
def scanPatterns (tokenIds : List TokenId) (minCount : ℕ) : List ℕ → Bool
  | [] => false
  | patternLen :: rest =>
    if patternLen * minCount > tokenIds.length then false
    else if hasRepeatingPattern tokenIds patternLen minCount then true
    else scanPatterns tokenIds minCount rest

def checkSequenceRepetition (tokenIds : List TokenId) (params : RepetitionDetectionParams) : Bool :=
  let minPatternSize := if params.minPatternSize ≤ 0 then 1 else params.minPatternSize
  if params.maxPatternSize ≤ 0 ∨ params.minCount < 2 ∨ minPatternSize > params.maxPatternSize then
    false
  else scanPatterns tokenIds params.minCount.toNat (List.range' minPatternSize.toNat
    (params.maxPatternSize + 1 - minPatternSize).toNat)

/-- An update together with the sampling parameters that come with it. -/
structure SessionUpdate where
  update : StreamingUpdate
  samplingParams : SamplingParams
  deriving DecidableEq

/-- A request with the counters of the scheduler. Its own `numComputedTokens` takes the place of
the one in `core`, since a rollback may make it negative. -/
structure SchedRequest where
  core : Request
  samplingParams : SamplingParams := {}
  pooling : Bool := false
  maxTokens : ℕ
  resumable : Bool := false
  streamingQueue : Option (List (Option SessionUpdate)) := none
  numComputedTokens : ℤ := 0
  numOutputPlaceholders : ℤ := 0
  asyncTokensToDiscard : ℤ := 0
  nextDecodeEligibleStep : ℕ := 0
  specTokenIds : List TokenId := []
  isPrefillChunk : Bool := false
  numPreemptions : ℕ := 0

def RequestStatus.isFinished : RequestStatus → Bool
  | .finishedStopped | .finishedLengthCapped | .finishedAborted | .finishedIgnored
  | .finishedError | .finishedRepetition => true
  | _ => false

namespace SchedRequest

def requestId (r : SchedRequest) : RequestId := r.core.requestId

def status (r : SchedRequest) : RequestStatus := r.core.status

def numTokens (r : SchedRequest) : ℕ := r.core.numTokens

def numTokensWithSpec (r : SchedRequest) : ℕ := r.core.numTokens + r.specTokenIds.length

def numOutputTokens (r : SchedRequest) : ℕ := r.core.outputTokenIds.length

def isFinished (r : SchedRequest) : Bool := r.status.isFinished

/-- The request as the cache managers read it. -/
def view (r : SchedRequest) : Request :=
  { r.core with numComputedTokens := r.numComputedTokens.toNat }

def setStatus (r : SchedRequest) (status : RequestStatus) : SchedRequest :=
  { r with core := { r.core with status } }

@[simp] theorem status_setStatus (r : SchedRequest) (status : RequestStatus) :
    (r.setStatus status).status = status := rfl

/-- `StreamingUpdate.from_request`, for an existing session. -/
def toUpdate (r : SchedRequest) : Option SessionUpdate :=
  if r.resumable = false then none
  else some {
    update := {
      mmFeatures := r.core.mmFeatures
      promptTokenIds := r.core.promptTokenIds
      arrivalTime := r.core.arrivalTime }
    samplingParams := r.samplingParams }

/-- Where a Python slice with this bound is cut. -/
def sliceIndex (length : ℕ) (k : ℤ) : ℕ := if k < 0 then (length + k).toNat else k.toNat

/-- `_update_request_as_session`, on the request itself. -/
def updateAsSession (blockHasher : Option BlockHasher) (session : SchedRequest)
    (update : SessionUpdate) : Raises SchedRequest := do
  let core ← updateRequestAsSession blockHasher { session.core with
    numComputedTokens := sliceIndex session.numTokens session.numComputedTokens } update.update
  pure { session with core, samplingParams := update.samplingParams }

def checkStop (r : SchedRequest) (maxModelLen : ℕ) : Raises (Bool × SchedRequest) := do
  Raises.require (r.pooling = false)
  if r.numOutputTokens < r.samplingParams.minTokens then pure (false, r)
  else
    match r.core.outputTokenIds.getLast? with
    | none => throw .indexError
    | some lastTokenId =>
      if r.samplingParams.eosTokenId = some lastTokenId then
        pure (true, r.setStatus .finishedStopped)
      else if lastTokenId ∈ r.samplingParams.stopTokenIds then
        pure (true, r.setStatus .finishedStopped)
      else if r.numTokens ≥ maxModelLen ∨ r.numOutputTokens ≥ r.maxTokens then
        pure (true, r.setStatus .finishedLengthCapped)
      else if r.samplingParams.repetitionDetection.any
          (checkSequenceRepetition r.core.outputTokenIds) then
        pure (true, r.setStatus .finishedRepetition)
      else pure (false, r)

def appendOutputTokenId (blockHasher : Option BlockHasher) (r : SchedRequest)
    (tokenId : TokenId) : Raises SchedRequest := do
  let core ← r.core.appendOutputTokenIds blockHasher [tokenId]
  pure { r with core }

/-- `Scheduler._update_request_with_output`: the tokens that are kept, whether the request has
stopped, and the request. -/
def appendUntilStop (blockHasher : Option BlockHasher) (maxModelLen : ℕ) :
    List TokenId → SchedRequest → Raises (List TokenId × Bool × SchedRequest)
  | [], r => pure ([], false, r)
  | tokenId :: rest, r => do
    let r ← r.appendOutputTokenId blockHasher tokenId
    let (stopped, r) ← r.checkStop maxModelLen
    if stopped then pure ([tokenId], true, r)
    else
      let (kept, stopped, r) ← appendUntilStop blockHasher maxModelLen rest r
      pure (tokenId :: kept, stopped, r)

end SchedRequest

end Vllm
