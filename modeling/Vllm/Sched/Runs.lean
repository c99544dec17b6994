import Vllm.Sched.Update

/-! Runs of the scheduler: any order of its calls, with the outputs of the steps coming back in the
order in which they were scheduled. The operations of the two cache managers, as the scheduler calls
them. -/
namespace Vllm

/-- A request as its constructor leaves it. -/
structure SchedRequest.IsNew (r : SchedRequest) : Prop where
  status : r.status = .waiting ∨ r.status = .waitingForStructuredOutputGrammar
  streamingQueue : r.streamingQueue = none
  numComputedTokens : r.numComputedTokens = 0
  numOutputPlaceholders : r.numOutputPlaceholders = 0
  asyncTokensToDiscard : r.asyncTokensToDiscard = 0
  specTokenIds : r.specTokenIds = []
  isPrefillChunk : r.isPrefillChunk = false
  numPreemptions : r.numPreemptions = 0
  outputTokenIds : r.core.outputTokenIds = []

/-- The scheduler, and the steps whose output is still to come, the oldest first. -/
structure EngineState (κ ε : Type) where
  sched : Scheduler κ ε
  inflight : List SchedulerOutput

inductive EngineEvent where
  | addRequest (request : SchedRequest) (connectorDelaysFree : RequestId → Bool)
  | schedule (answers : StepAnswers)
  | updateFromOutput (out : ModelRunnerOutput)
  | updateDraftTokenIds (draftTokenIds : List (RequestId × List TokenId))
  | finishRequests (requestIds : List RequestId) (finishedStatus : RequestStatus)
      (connectorDelaysFree : RequestId → Bool)
  | resetPrefixCache (resetRunningRequests : Bool)
  | setPauseState (pauseState : PauseState)

namespace EngineState
variable {κ ε : Type}

def init (kv : κ) (encoder : ε) : EngineState κ ε where
  sched := {
    objects := Dict.empty
    requests := []
    running := []
    waiting := []
    skippedWaiting := []
    kv
    encoder }
  inflight := []

def apply (env : SchedulerEnv κ ε) (e : EngineState κ ε) : EngineEvent → Raises (EngineState κ ε)
  | .addRequest request connectorDelaysFree => do
    let sched ← e.sched.addRequest env connectorDelaysFree request
    pure { e with sched }
  | .schedule answers => do
    let (output, sched) ← e.sched.schedule env answers
    pure {
      sched
      inflight := e.inflight ++ [output] }
  | .updateFromOutput out =>
    match e.inflight with
    | [] => throw .indexError
    | frame :: inflight => do
      let (_, sched) ← e.sched.updateFromOutput env frame out
      pure {
        sched
        inflight }
  | .updateDraftTokenIds draftTokenIds =>
    pure { e with sched := e.sched.updateDraftTokenIds draftTokenIds }
  | .finishRequests requestIds finishedStatus connectorDelaysFree => do
    let sched ← e.sched.finishRequests env connectorDelaysFree requestIds finishedStatus
    pure { e with sched }
  | .resetPrefixCache resetRunningRequests => do
    let (_, sched) ← e.sched.resetPrefixCache env resetRunningRequests
    pure { e with sched }
  | .setPauseState pauseState => pure { e with sched := { e.sched with pauseState } }

/-- What every call of the scheduler establishes holds after each event. -/
theorem apply_rule {env : SchedulerEnv κ ε} {e e' : EngineState κ ε} {event : EngineEvent}
    {P : Scheduler κ ε → Prop} (h : e.apply env event = .ok e')
    (hadd : ∀ request delays s', event = .addRequest request delays →
      e.sched.addRequest env delays request = .ok s' → P s')
    (hschedule : ∀ answers output s', event = .schedule answers →
      e.sched.schedule env answers = .ok (output, s') → P s')
    (hupdate : ∀ out, ∀ frame ∈ e.inflight.head?, ∀ outputs s', event = .updateFromOutput out →
      e.sched.updateFromOutput env frame out = .ok (outputs, s') → P s')
    (hdrafts : ∀ draftTokenIds, P (e.sched.updateDraftTokenIds draftTokenIds))
    (hfinish : ∀ requestIds status delays s', event = .finishRequests requestIds status delays →
      e.sched.finishRequests env delays requestIds status = .ok s' → P s')
    (hreset : ∀ reset success s', e.sched.resetPrefixCache env reset = .ok (success, s') → P s')
    (hpause : ∀ pauseState, P { e.sched with pauseState }) : P e'.sched := by
  cases event with
  | addRequest request delays =>
    obtain ⟨sched, hcall, h⟩ := Raises.of_bind h
    cases h
    exact hadd request delays sched rfl hcall
  | schedule answers =>
    obtain ⟨⟨output, sched⟩, hcall, h⟩ := Raises.of_bind h
    cases h
    exact hschedule answers output sched rfl hcall
  | updateFromOutput out =>
    obtain ⟨sched, inflight⟩ := e
    cases inflight with
    | nil => simp [apply] at h
    | cons frame inflight =>
      obtain ⟨⟨outputs, sched'⟩, hcall, h⟩ := Raises.of_bind h
      cases h
      exact hupdate out frame rfl outputs sched' rfl hcall
  | updateDraftTokenIds draftTokenIds =>
    cases h
    exact hdrafts draftTokenIds
  | finishRequests requestIds status delays =>
    obtain ⟨sched, hcall, h⟩ := Raises.of_bind h
    cases h
    exact hfinish requestIds status delays sched rfl hcall
  | resetPrefixCache reset =>
    obtain ⟨⟨success, sched⟩, hcall, h⟩ := Raises.of_bind h
    cases h
    exact hreset reset success sched hcall
  | setPauseState pauseState =>
    cases h
    exact hpause pauseState

end EngineState

/-- What the engine promises: requests are new objects with ids of their own, and a set of ids has
no duplicates. -/
def EngineEvent.Admissible {κ ε : Type} (e : EngineState κ ε) : EngineEvent → Prop
  | .addRequest request _ => request.IsNew ∧
      (request.requestId ∉ e.sched.requests → e.sched.objects.get? request.requestId = none)
  | .finishRequests requestIds _ _ => requestIds.Nodup
  | _ => True

/-- The states reached by admissible events that `ok` allows. -/
inductive EngineReachable {κ ε : Type} (env : SchedulerEnv κ ε)
    (ok : EngineState κ ε → EngineEvent → Prop) : EngineState κ ε → Prop
  | start (kv : κ) (encoder : ε) : EngineReachable env ok (.init kv encoder)
  | step {e e' : EngineState κ ε} {event : EngineEvent} (he : EngineReachable env ok e)
      (hadmissible : event.Admissible e) (hok : ok e event) (h : e.apply env event = .ok e') :
      EngineReachable env ok e'

instance (r : SchedRequest) : Decidable r.IsNew :=
  decidable_of_iff ((r.status = .waiting ∨ r.status = .waitingForStructuredOutputGrammar) ∧
    r.streamingQueue = none ∧ r.numComputedTokens = 0 ∧ r.numOutputPlaceholders = 0 ∧
    r.asyncTokensToDiscard = 0 ∧ r.specTokenIds = [] ∧ r.isPrefillChunk = false ∧
    r.numPreemptions = 0 ∧ r.core.outputTokenIds = [])
    ⟨fun ⟨h₁, h₂, h₃, h₄, h₅, h₆, h₇, h₈, h₉⟩ => ⟨h₁, h₂, h₃, h₄, h₅, h₆, h₇, h₈, h₉⟩,
      fun h => ⟨h.status, h.streamingQueue, h.numComputedTokens, h.numOutputPlaceholders,
        h.asyncTokensToDiscard, h.specTokenIds, h.isPrefillChunk, h.numPreemptions,
        h.outputTokenIds⟩⟩

namespace EngineState
variable {κ ε : Type} {env : SchedulerEnv κ ε}

/-- What the engine promises for the event holds. -/
def admits (e : EngineState κ ε) : EngineEvent → Bool
  | .addRequest request _ => decide request.IsNew &&
      (decide (request.requestId ∈ e.sched.requests) ||
        (e.sched.objects.get? request.requestId).isNone)
  | .finishRequests requestIds _ _ => decide requestIds.Nodup
  | _ => true

theorem admissible_of_admits {e : EngineState κ ε} {event : EngineEvent}
    (h : e.admits event = true) : event.Admissible e := by
  cases event with
  | addRequest request delays =>
    simp only [admits, Bool.and_eq_true, decide_eq_true_eq, Bool.or_eq_true,
      Option.isNone_iff_eq_none] at h
    exact ⟨h.1, fun hnot => h.2.resolve_left hnot⟩
  | finishRequests requestIds status delays =>
    have hnodup : requestIds.Nodup := of_decide_eq_true h
    exact hnodup
  | schedule answers | updateFromOutput out | updateDraftTokenIds draftTokenIds
  | resetPrefixCache resetRunningRequests | setPauseState pauseState => trivial

/-- A run whose events are checked as it goes. -/
def checkedRun (env : SchedulerEnv κ ε) (ok : EngineState κ ε → EngineEvent → Bool) :
    List EngineEvent → EngineState κ ε → Raises (EngineState κ ε)
  | [], e => pure e
  | event :: events, e =>
    if e.admits event = true ∧ ok e event = true then do
      let e ← e.apply env event
      checkedRun env ok events e
    else throw .assertionError

theorem checkedRun_reachable {ok : EngineState κ ε → EngineEvent → Prop}
    {check : EngineState κ ε → EngineEvent → Bool} {events : List EngineEvent}
    {e e' : EngineState κ ε} (hcheck : ∀ e event, check e event = true → ok e event)
    (he : EngineReachable env ok e) (h : checkedRun env check events e = .ok e') :
    EngineReachable env ok e' := by
  induction events generalizing e with
  | nil =>
    cases h
    exact he
  | cons event events ih =>
    unfold checkedRun at h
    split at h
    · next hevent =>
      obtain ⟨e₁, happly, h⟩ := Raises.of_bind h
      exact ih (.step he (admissible_of_admits hevent.1) (hcheck e event hevent.2) happly) h
    · simp at h

end EngineState

namespace KVCacheManager

def newStepStarts (m : KVCacheManager) : KVCacheManager :=
  { m with coordinator := m.coordinator.newStepStarts }

def cacheBlocks (m : KVCacheManager) (request : Request) (numComputedTokens : ℤ) :
    Raises KVCacheManager :=
  if m.enableCaching then do
    let coordinator ← m.coordinator.cacheBlocks request numComputedTokens.toNat
    pure { m with coordinator }
  else pure m

def setPool (m : KVCacheManager) (blockPool : BlockPool) : KVCacheManager :=
  { m with coordinator := { m.coordinator with blockPool } }

def evictBlocks (m : KVCacheManager) (blockIds : List BlockId) : Raises KVCacheManager := do
  let pool ← m.blockPool.evictBlocks (blockIds.map Int.ofNat)
  pure (m.setPool pool)

def resetPrefixCache (m : KVCacheManager) : Raises (Bool × KVCacheManager) :=
  let (successful, pool) := m.blockPool.resetPrefixCache
  pure (successful, m.setPool pool)

/-- `_request_remaining_blocks` of the scheduler. -/
def requestRemainingBlocks (m : KVCacheManager) (request : Request) : Raises ℕ := do
  let fullNumTokens := min request.numTokens m.maxModelLen
  let numBlocks ← m.coordinator.getNumBlocksToAllocate request.requestId fullNumTokens
    m.emptyKvCacheBlocks 0 request.numComputedTokens fullNumTokens true
  pure numBlocks.toNat

/-- The operations for a model whose lookup beside a connector is the plain one. -/
def ops : KvCacheOps KVCacheManager where
  newStepStarts := newStepStarts
  getComputedBlocks := getComputedBlocks
  perGroupHit := none
  allocateSlots := allocateSlots
  free := free
  cacheBlocks := cacheBlocks
  removeSkippedBlocks m requestId totalComputedTokens :=
    m.removeSkippedBlocks requestId totalComputedTokens.toNat
  getBlockIds m requestId := m.coordinator.getBlocks requestId
  requestRemainingBlocks := requestRemainingBlocks
  evictBlocks := evictBlocks
  resetPrefixCache := resetPrefixCache

end KVCacheManager

namespace EncoderCacheManager

/-- `_free_encoder_inputs` of the scheduler, for a decoder-only model. -/
def freeProcessedInputs (m : EncoderCacheManager) (r : SchedRequest) : Raises EncoderCacheManager :=
  (m.getCachedInputIds r.requestId).foldlM (fun m inputId => do
    let f ← feature r.core inputId
    if (f.endPos : ℤ) ≤ r.numComputedTokens - r.numOutputPlaceholders
    then m.freeEncoderInput r.core inputId else pure m) m

/-- The operations for a decoder-only model. -/
def ops (disableChunkedMmInput : Bool) : EncoderOps EncoderCacheManager where
  tryScheduleEncoderInputs m request hasCacheItem numComputedTokens numNewTokens
      encoderComputeBudget shiftComputedTokens := do
    let config : EncoderConfig := {
      isEncoderDecoder := false
      disableChunkedMmInput
      hasCacheItem }
    let scan ← config.tryScheduleEncoderInputs m request numComputedTokens numNewTokens
      encoderComputeBudget shiftComputedTokens
    pure ({
      encoderInputsToSchedule := scan.encoderInputsToSchedule
      numNewTokens := scan.numNewTokens
      encoderComputeBudget := scan.encoderComputeBudget
      externalLoadEncoderInput := scan.externalLoadEncoderInput }, scan.manager)
  allocate := allocate
  free := free
  freeEncoderInputs := freeProcessedInputs
  getFreedMmHashes := getFreedMmHashes

end EncoderCacheManager

/-- A scheduler with the two managers. -/
def managerEnv (config : SchedulerConfig) (disableChunkedMmInput : Bool) :
    SchedulerEnv KVCacheManager EncoderCacheManager where
  config
  kv := KVCacheManager.ops
  encoder := EncoderCacheManager.ops disableChunkedMmInput

/-- Full attention with blocks of one token. -/
def smallPool (numBlocks : ℕ) : KVCacheManagerConfig where
  numBlocks
  kvCacheGroups := [{ kvCacheSpec := {
    kind := .fullAttention .fullAttention
    blockSize := 1
    blockSize_pos := Nat.one_pos } }]
  maxModelLen := 16
  schedulerBlockSize := 1
  hashBlockSize := 1
  maxNumBatchedTokens := 16
  enableCaching := false

def promptRequest (requestId : RequestId) (promptTokenIds : List TokenId) (maxTokens : ℕ)
    (resumable : Bool := false) : SchedRequest where
  core := {
    requestId
    promptTokenIds := some promptTokenIds
    numPromptTokens := promptTokenIds.length
    allTokenIds := promptTokenIds }
  maxTokens
  resumable

/-- A run from an empty scheduler with `numBlocks` blocks. -/
def smallRun (config : SchedulerConfig) (numBlocks : ℕ)
    (check : EngineState KVCacheManager EncoderCacheManager → EngineEvent → Bool)
    (events : List EngineEvent) : Raises (EngineState KVCacheManager EncoderCacheManager) := do
  let kv ← KVCacheManager.init (smallPool numBlocks)
  EngineState.checkedRun (managerEnv config false) check events (.init kv (.init 4))

theorem smallRun_reachable {config : SchedulerConfig} {numBlocks : ℕ}
    {ok : EngineState KVCacheManager EncoderCacheManager → EngineEvent → Prop}
    {check : EngineState KVCacheManager EncoderCacheManager → EngineEvent → Bool}
    {events : List EngineEvent} {e : EngineState KVCacheManager EncoderCacheManager}
    (hcheck : ∀ e event, check e event = true → ok e event)
    (h : smallRun config numBlocks check events = .ok e) :
    EngineReachable (managerEnv config false) ok e := by
  obtain ⟨kv, -, h⟩ := Raises.of_bind h
  exact EngineState.checkedRun_reachable hcheck (.start kv _) h

end Vllm
