import Vllm.Lib.Interleaving

/-! One data-parallel engine: its requests, its wave number and running flag, and the busy loop up
to the all-reduce that ends a wave. The parties of a data-parallel deployment with the channels
between them. Only the model step and the all-reduce complete for all engines together. -/
namespace Vllm.Dp

/-- What a message can carry to name an engine: `None`, the index of the engine, or the identity
of its socket. -/
inductive EngineRef where
  | none
  | index (i : ℕ)
  | identity (bytes : List ℕ)
  deriving DecidableEq, Repr

/-- `rank.to_bytes(2, "little")` -/
def engineIdentity (rank : ℕ) : EngineRef := .identity [rank % 256, rank / 256 % 256]

structure EngineCoreRequest where
  requestId : ℕ
  currentWave : ℕ := 0
  abortImmediately : Bool := false
  deriving DecidableEq, Repr

inductive ClientMessage where
  | add (request : EngineCoreRequest)
  | abort (requestIds : List ℕ)
  deriving DecidableEq, Repr

inductive EngineInput where
  | add (request : EngineCoreRequest)
  | abort (requestIds : List ℕ)
  | startDpWave (newWave : ℕ) (excludeEngIndex : EngineRef)
  deriving DecidableEq, Repr

/-- The outputs of an engine for the coordinator. -/
structure EngineCoreOutputs where
  waveComplete : Option ℕ := none
  startWave : Option ℕ := none
  deriving DecidableEq, Repr

/-- Where an engine is in its busy loop: in the first loop of `_process_input_queue`, in the
second one, in the model step (with its own batch or a dummy one), or in the all-reduce. -/
inductive LoopPhase where
  | waiting
  | draining
  | inModel (executed : Bool)
  | inAllReduce (localUnfinished : Bool)
  deriving DecidableEq, Repr

/-- The engine waits for all others. -/
def LoopPhase.Collective : LoopPhase → Prop
  | .inModel _ | .inAllReduce _ => True
  | .waiting | .draining => False

structure DPEngineCoreProc where
  enginesRunning : Bool := false
  currentWave : ℕ := 0
  stepCounter : ℕ := 0
  /-- the ids of the requests in the scheduler's queues -/
  unfinished : List ℕ := []
  finishedReqIds : List ℕ := []
  /-- the number of finished requests that a connector has not let go -/
  delayedFrees : ℕ := 0
  /-- `connector.has_pending_push_work()` -/
  pendingPushWork : Bool := false
  /-- `max_concurrent_batches`; with more than one the engine keeps a batch queue -/
  batchQueueSize : ℕ := 1
  /-- the number of batches in the batch queue -/
  batchQueue : ℕ := 0
  inputQueue : List EngineInput := []
  abortsQueue : List (List ℕ) := []
  /-- the outputs on the way to the coordinator -/
  outputQueue : List EngineCoreOutputs := []
  phase : LoopPhase := .waiting
  deriving DecidableEq, Repr

namespace DPEngineCoreProc
variable (engine : DPEngineCoreProc)

def hasUnfinishedRequests : Bool := !engine.unfinished.isEmpty

def hasFinishedRequests : Bool :=
  !engine.finishedReqIds.isEmpty || decide (0 < engine.delayedFrees)

def hasRequests : Bool :=
  engine.hasUnfinishedRequests || engine.hasFinishedRequests || engine.pendingPushWork

/-- Whether the engine should be stepped. -/
def hasWork : Bool :=
  engine.enginesRunning || engine.hasRequests || decide (0 < engine.batchQueue)

/-- `finish_requests`: the given requests leave the queues, and their ids wait for the next
`schedule()`. -/
def finishRequests (requestIds : List ℕ) : DPEngineCoreProc :=
  { engine with
    unfinished := engine.unfinished.filter fun i => i ∉ requestIds
    finishedReqIds :=
      engine.finishedReqIds ++ engine.unfinished.filter fun i => i ∈ requestIds }

def coreAddRequest (request : EngineCoreRequest) : DPEngineCoreProc :=
  let engine := { engine with unfinished := engine.unfinished ++ [request.requestId] }
  if request.abortImmediately then engine.finishRequests [request.requestId] else engine

def addRequest (request : EngineCoreRequest) : DPEngineCoreProc :=
  let engine := engine.coreAddRequest request
  if request.currentWave ≠ engine.currentWave then
    if request.currentWave > engine.currentWave then
      { engine with currentWave := request.currentWave }
    else if !engine.enginesRunning then
      { engine with
        enginesRunning := true
        outputQueue := engine.outputQueue ++ [{ startWave := some engine.currentWave }] }
    else engine
  else engine

def handleClientRequest (engineIndex : ℕ) : EngineInput → DPEngineCoreProc
  | .startDpWave newWave excludeEngIndex =>
    if excludeEngIndex ≠ .index engineIndex ∧ newWave ≥ engine.currentWave then
      { engine with currentWave := newWave, enginesRunning := true }
    else engine
  | .add request => engine.addRequest request
  | .abort requestIds => engine.finishRequests requestIds

/-- The input thread puts a client's message in the input queue; a request that it cannot
preprocess is answered with an error instead. -/
def receiveClient (preprocessed : Bool) : ClientMessage → DPEngineCoreProc
  | .add request =>
    if preprocessed then { engine with inputQueue := engine.inputQueue ++ [.add request] }
    else engine
  | .abort requestIds =>
    { engine with
      abortsQueue := engine.abortsQueue ++ [requestIds]
      inputQueue := engine.inputQueue ++ [.abort requestIds] }

def processAbortsQueue : DPEngineCoreProc :=
  { engine.finishRequests engine.abortsQueue.flatten with abortsQueue := [] }

/-- The first loop of `_process_input_queue` ends when there is work. -/
def wake : Option DPEngineCoreProc :=
  if engine.phase = .waiting ∧ engine.hasWork then some { engine with phase := .draining }
  else none

/-- One message of the input queue, in the first loop or in the second. -/
def handleNext (engineIndex : ℕ) : Option DPEngineCoreProc :=
  match engine.inputQueue with
  | [] => none
  | input :: rest =>
    if (engine.phase = .waiting ∧ !engine.hasWork) ∨ engine.phase = .draining then
      some ({ engine with inputQueue := rest }.handleClientRequest engineIndex input)
    else none

def clearAborts : Option DPEngineCoreProc :=
  if engine.phase = .waiting ∧ !engine.hasWork ∧ engine.inputQueue = [] then
    some { engine with abortsQueue := [] }
  else none

/-- Aborts are processed and the output of a batch updates the scheduler; `stopped` are the requests
that finish with it. -/
def updateFromOutput (stopped : List ℕ) : DPEngineCoreProc :=
  engine.processAbortsQueue.finishRequests stopped

/-- `step_fn` when it answers that the model was not executed. -/
def stepIdle (stopped : List ℕ) : DPEngineCoreProc :=
  if engine.batchQueueSize ≤ 1 then
    if engine.hasRequests then { engine with finishedReqIds := [] }.processAbortsQueue else engine
  else if engine.hasRequests then
    let engine := { engine with finishedReqIds := [], batchQueue := engine.batchQueue + 1 }
    if engine.batchQueue < engine.batchQueueSize ∧ engine.hasRequests then engine
    else { engine.updateFromOutput stopped with batchQueue := engine.batchQueue - 1 }
  else if engine.batchQueue = 0 then engine
  else { engine.updateFromOutput stopped with batchQueue := engine.batchQueue - 1 }

/-- The rest of `step_fn` once all engines have run their batches. A `deferred` batch waits for the
tokens of the oldest one, whose place it takes. -/
def stepExecuted (deferred : Bool) (stopped : List ℕ) : DPEngineCoreProc :=
  if engine.batchQueueSize ≤ 1 ∨ deferred then engine.updateFromOutput stopped
  else
    let engine := { engine with batchQueue := engine.batchQueue + 1 }
    if engine.batchQueue < engine.batchQueueSize then engine
    else { engine.updateFromOutput stopped with batchQueue := engine.batchQueue - 1 }

/-- From the end of `_process_input_queue` to the model step. With `scheduled` the scheduler has
tokens to run. An engine with nothing to run leaves the loop's body early, or joins the others
with a dummy batch. -/
def enterStep (scheduled : Bool) (stopped : List ℕ) : Option DPEngineCoreProc :=
  if engine.phase = .draining ∧ engine.inputQueue = [] then
    if scheduled then
      if engine.hasUnfinishedRequests then
        some { engine with finishedReqIds := [], phase := .inModel true }
      else none
    else
      let engine := engine.stepIdle stopped
      if !engine.hasUnfinishedRequests && !engine.enginesRunning then
        some { engine with phase := .waiting }
      else some { engine with phase := .inModel false }
  else none

/-- The next step of the engine, with the input queue as it is, takes part in no collective. -/
def StepsAlone : Prop :=
  ∀ scheduled stopped engine',
    { engine with phase := .draining }.enterStep scheduled stopped = some engine' →
      engine'.phase = .waiting

/-- The rest of the step once all engines have run their batches, up to the all-reduce, which
is only performed every 32 steps. -/
def leaveModel (deferred : Bool) (stopped : List ℕ) : DPEngineCoreProc :=
  let engine := if engine.phase = .inModel true then engine.stepExecuted deferred stopped else engine
  let engine := { engine with stepCounter := engine.stepCounter + 1 }
  if engine.stepCounter % 32 ≠ 0 then { engine with enginesRunning := true, phase := .waiting }
  else { engine with phase := .inAllReduce engine.hasUnfinishedRequests }

/-- The end of the loop's body with the result of the all-reduce. -/
def leaveAllReduce (dpRank : ℕ) (hasUnfinished : Bool) : DPEngineCoreProc :=
  let engine := { engine with enginesRunning := hasUnfinished, phase := .waiting }
  if !engine.enginesRunning then
    { engine with
      outputQueue :=
        if dpRank = 0 then
          engine.outputQueue ++ [{ waveComplete := some engine.currentWave }]
        else engine.outputQueue
      currentWave := engine.currentWave + 1
      stepCounter := 0 }
  else engine

end DPEngineCoreProc

structure DPAsyncMPClient where
  currentWave : ℕ := 0
  enginesRunning : Bool := false
  /-- the stats task runs and has subscribed to the coordinator -/
  subscribed : Bool := false
  /-- the FIRST_REQ notifications on the way to the stats task -/
  firstReqs : List EngineRef := []
  deriving DecidableEq, Repr

structure DPCoordinatorProc where
  currentWave : ℕ := 0
  enginesRunning : Bool := false
  deriving DecidableEq, Repr

variable {m n : ℕ}

/-- The parties and the messages in flight: of front-ends to engines and to the coordinator, of
the coordinator to engines (START_DP_WAVE) and to front-ends (the wave and whether it runs). -/
structure WaveSystem (m n : ℕ) where
  clients : Fin m → DPAsyncMPClient := fun _ => {}
  coordinator : DPCoordinatorProc := {}
  engines : Fin n → DPEngineCoreProc := fun _ => {}
  toEngine : Fin m → Fin n → List ClientMessage := fun _ _ => []
  toCoordinator : Fin m → List (EngineRef × ℕ) := fun _ => []
  startWaves : Fin n → List (ℕ × EngineRef) := fun _ => []
  published : Fin m → List (ℕ × Bool) := fun _ => []

namespace WaveSystem
variable (s : WaveSystem m n)

/-- Nothing has been sent, and the engines have their batch queues. -/
def init (batchQueueSize : Fin n → ℕ) : WaveSystem m n where
  engines e := { batchQueueSize := batchQueueSize e }

def setClient (f : Fin m) (client : DPAsyncMPClient) : WaveSystem m n :=
  { s with clients := Function.update s.clients f client }

def setEngine (e : Fin n) (engine : DPEngineCoreProc) : WaveSystem m n :=
  { s with engines := Function.update s.engines e engine }

def sendToEngine (f : Fin m) (e : Fin n) (message : ClientMessage) : WaveSystem m n :=
  { s with
    toEngine := Function.update s.toEngine f
      (Function.update (s.toEngine f) e (s.toEngine f e ++ [message])) }

/-- `add_request_async` with the engine that was chosen for the request. -/
def addRequestAsync (f : Fin m) (e : Fin n) (requestId : ℕ) (abortImmediately : Bool) :
    WaveSystem m n :=
  let client := s.clients f
  let s := s.sendToEngine f e (.add ⟨requestId, client.currentWave, abortImmediately⟩)
  if !client.enginesRunning then
    s.setClient f { client with firstReqs := client.firstReqs ++ [engineIdentity e] }
  else s

/-- The stats task passes a FIRST_REQ notification on to the coordinator. -/
def sendFirstReq (f : Fin m) : Option (WaveSystem m n) :=
  let client := s.clients f
  match client.firstReqs with
  | [] => none
  | target :: rest =>
    if client.subscribed then
      some { s.setClient f { client with enginesRunning := true, firstReqs := rest } with
        toCoordinator := Function.update s.toCoordinator f
          (s.toCoordinator f ++ [(target, client.currentWave)]) }
    else none

/-- The stats task drains the first `k + 1` messages of the coordinator and keeps the latest. -/
def readStats (f : Fin m) (k : ℕ) : Option (WaveSystem m n) :=
  (s.published f)[k]?.map fun (wave, running) =>
    { s.setClient f { s.clients f with currentWave := wave, enginesRunning := running } with
      published := Function.update s.published f ((s.published f).drop (k + 1)) }

/-- The coordinator publishes its state to all front-ends that have subscribed. -/
def publish : WaveSystem m n :=
  { s with
    published := fun f =>
      if (s.clients f).subscribed then
        s.published f ++ [(s.coordinator.currentWave, s.coordinator.enginesRunning)]
      else s.published f }

/-- `_send_start_wave` -/
def sendStartWave (wave : ℕ) (excludeEngineIndex : EngineRef) : WaveSystem m n :=
  { s with startWaves := fun e => s.startWaves e ++ [(wave, excludeEngineIndex)] }

/-- The coordinator takes a front-end's message; the flag says whether the wave state changed. -/
def handleFront (f : Fin m) : Option (WaveSystem m n × Bool) :=
  match s.toCoordinator f with
  | [] => none
  | (engineToExclude, wave) :: rest =>
    let s := { s with toCoordinator := Function.update s.toCoordinator f rest }
    if !s.coordinator.enginesRunning then
      let engineToExclude :=
        if wave < s.coordinator.currentWave then .none else engineToExclude
      let s := { s with coordinator := { s.coordinator with enginesRunning := true } }
      some (s.sendStartWave s.coordinator.currentWave engineToExclude, true)
    else some (s, false)

/-- The coordinator takes an engine's message. -/
def handleBack (e : Fin n) : Option (WaveSystem m n × Bool) :=
  let engine := s.engines e
  match engine.outputQueue with
  | [] => none
  | outputs :: rest =>
    let s := s.setEngine e { engine with outputQueue := rest }
    match outputs.waveComplete, outputs.startWave with
    | some wave, _ =>
      if s.coordinator.currentWave ≤ wave then
        some ({ s with coordinator := ⟨wave + 1, false⟩ }, true)
      else some (s, false)
    | none, some wave =>
      if wave > s.coordinator.currentWave ∨
          (wave = s.coordinator.currentWave ∧ !s.coordinator.enginesRunning) then
        some ({ s with coordinator := ⟨wave, true⟩ }.sendStartWave wave (.index e), true)
      else some (s, false)
    | none, none => some (s, false)

/-- One turn of the coordinator's loop: at most one message of the front-ends, then at most one
of the engines; with neither the poll has timed out. -/
def coordinate (front : Option (Fin m)) (back : Option (Fin n)) : Option (WaveSystem m n) := do
  let (s, frontChanged) ← front.elim (some (s, false)) s.handleFront
  let (s, backChanged) ← back.elim (some (s, false)) s.handleBack
  let timeout := front.isNone && back.isNone
  some (if frontChanged || backChanged || timeout then s.publish else s)

/-- The input thread of an engine takes a message of a front-end. -/
def receiveClient (f : Fin m) (e : Fin n) (preprocessed : Bool) : Option (WaveSystem m n) :=
  match s.toEngine f e with
  | [] => none
  | message :: rest =>
    some { s.setEngine e ((s.engines e).receiveClient preprocessed message) with
      toEngine := Function.update s.toEngine f (Function.update (s.toEngine f) e rest) }

/-- The input thread of an engine takes a message of the coordinator. -/
def receiveStart (e : Fin n) : Option (WaveSystem m n) :=
  match s.startWaves e with
  | [] => none
  | (wave, exclude) :: rest =>
    let engine := s.engines e
    some { s.setEngine e
        { engine with inputQueue := engine.inputQueue ++ [.startDpWave wave exclude] } with
      startWaves := Function.update s.startWaves e rest }

/-- The model step completes when every engine takes part in it. -/
def modelStep (deferred : Fin n → Bool) (stopped : Fin n → List ℕ) : Option (WaveSystem m n) :=
  if ∀ e, (s.engines e).phase = .inModel true ∨ (s.engines e).phase = .inModel false then
    some { s with engines := fun e => (s.engines e).leaveModel (deferred e) (stopped e) }
  else none

/-- So does the all-reduce. -/
def allReduce : Option (WaveSystem m n) :=
  if ∀ e, (s.engines e).phase = .inAllReduce true ∨ (s.engines e).phase = .inAllReduce false then
    let hasUnfinished := decide (∃ e, (s.engines e).phase = .inAllReduce true)
    some { s with engines := fun e => (s.engines e).leaveAllReduce e hasUnfinished }
  else none

inductive Event (m n : ℕ) where
  | addRequest (f : Fin m) (e : Fin n) (requestId : ℕ) (abortImmediately : Bool)
  | abortRequests (f : Fin m) (e : Fin n) (requestIds : List ℕ)
  | subscribe (f : Fin m)
  | sendFirstReq (f : Fin m)
  | readStats (f : Fin m) (k : ℕ)
  | coordinate (front : Option (Fin m)) (back : Option (Fin n))
  | receiveClient (f : Fin m) (e : Fin n) (preprocessed : Bool)
  | receiveStart (e : Fin n)
  | wake (e : Fin n)
  | handleNext (e : Fin n)
  | clearAborts (e : Fin n)
  | connectorState (e : Fin n) (delayedFrees : ℕ) (pendingPushWork : Bool)
  | enterStep (e : Fin n) (scheduled : Bool) (stopped : List ℕ)
  | modelStep (deferred : Fin n → Bool) (stopped : Fin n → List ℕ)
  | allReduce

def step : Event m n → Option (WaveSystem m n)
  | .addRequest f e requestId abortImmediately =>
    some (s.addRequestAsync f e requestId abortImmediately)
  | .abortRequests f e requestIds => some (s.sendToEngine f e (.abort requestIds))
  | .subscribe f => some (s.setClient f { s.clients f with subscribed := true })
  | .sendFirstReq f => s.sendFirstReq f
  | .readStats f k => s.readStats f k
  | .coordinate front back => s.coordinate front back
  | .receiveClient f e preprocessed => s.receiveClient f e preprocessed
  | .receiveStart e => s.receiveStart e
  | .wake e => (s.engines e).wake.map (s.setEngine e)
  | .handleNext e => ((s.engines e).handleNext e).map (s.setEngine e)
  | .clearAborts e => (s.engines e).clearAborts.map (s.setEngine e)
  | .connectorState e delayedFrees pendingPushWork =>
    some (s.setEngine e { s.engines e with delayedFrees, pendingPushWork })
  | .enterStep e scheduled stopped =>
    ((s.engines e).enterStep scheduled stopped).map (s.setEngine e)
  | .modelStep deferred stopped => s.modelStep deferred stopped
  | .allReduce => s.allReduce

/-- No message is in flight, and the input queues of the engines are empty. -/
structure Quiet : Prop where
  toEngine : ∀ f e, s.toEngine f e = []
  toCoordinator : ∀ f, s.toCoordinator f = []
  firstReqs : ∀ f, (s.clients f).firstReqs = []
  published : ∀ f, s.published f = []
  startWaves : ∀ e, s.startWaves e = []
  outputQueue : ∀ e, (s.engines e).outputQueue = []
  inputQueue : ∀ e, (s.engines e).inputQueue = []

end WaveSystem

end Vllm.Dp
