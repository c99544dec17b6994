import Vllm.Request
import Vllm.Lib.Dict
import Vllm.Lib.Interleaving

/-! Parallel sampling: a request with `n > 1` is split into child requests, and a parent tracks
which of them are still running and collects their completions. The output processor: requests by
internal id, the parents of parallel sampling, and the internal ids behind each external id. A
detokenizer is its output tokens; stop strings are inputs. -/
namespace Vllm.Engine

abbrev ReqId := String

inductive RequestOutputKind where
  | cumulative | delta | finalOnly
  deriving DecidableEq, Repr, Inhabited

inductive FinishReason where
  | stop | length | abort | error | repetition
  deriving DecidableEq, Repr

structure CompletionOutput where
  index : ℕ
  tokenIds : List TokenId
  finishReason : Option FinishReason
  deriving DecidableEq, Repr

def CompletionOutput.finished (c : CompletionOutput) : Bool := c.finishReason.isSome

structure ParentRequest where
  requestId : ReqId
  externalReqId : ReqId
  n : ℕ
  outputKind : RequestOutputKind
  childRequests : List ReqId := []
  outputAggregator : List (Option CompletionOutput)
  deriving DecidableEq, Repr, Inhabited

/-- The id of a child, `f"{index}_{request_id}"`. -/
def childReqId (index : ℕ) (requestId : ReqId) : ReqId := toString index ++ ("_" ++ requestId)

theorem repr_inj {i j : ℕ} (h : i.repr = j.repr) : i = j := by
  have hdigits := congrArg (fun s => Nat.ofDigitChars 10 (String.toList s) 0) h
  simpa only [Nat.toList_repr, Nat.ofDigitChars_ten_toDigits] using hdigits

theorem childReqId_inj {i j : ℕ} {requestId : ReqId} :
    childReqId i requestId = childReqId j requestId ↔ i = j := by
  refine ⟨?_, fun h => h ▸ rfl⟩
  intro h
  exact repr_inj ((String.append_left_inj _).mp h)

theorem childReqId_ne (i : ℕ) (requestId : ReqId) : childReqId i requestId ≠ requestId := by
  intro h
  have hlen := congrArg String.length h
  rw [childReqId, String.length_append, String.length_append] at hlen
  have hone : "_".length = 1 := rfl
  omega

namespace ParentRequest

def new (requestId externalReqId : ReqId) (n : ℕ) (outputKind : RequestOutputKind) :
    ParentRequest where
  requestId := requestId
  externalReqId := externalReqId
  n := n
  outputKind := outputKind
  outputAggregator := if outputKind = .finalOnly then List.replicate n none else []

def getChildInfo (p : ParentRequest) (index : ℕ) : ReqId × ParentRequest :=
  let childReqId := childReqId index p.requestId
  (childReqId, { p with childRequests := p.childRequests.insert childReqId })

/-- What a child's completion gives for the whole request, and whether that is finished. -/
def getOutputs (p : ParentRequest) (childRequestId : ReqId) (c : CompletionOutput) :
    Raises (List (Option CompletionOutput) × Bool × ParentRequest) :=
  let alreadyFinishedAndReturned := c.finished && !p.childRequests.contains childRequestId
  let childRequests :=
    if c.finished then p.childRequests.erase childRequestId else p.childRequests
  let finished := childRequests.isEmpty
  if p.outputKind ≠ .finalOnly then
    let outputs := if alreadyFinishedAndReturned then [] else [some c]
    pure (outputs, finished, { p with childRequests })
  else if c.index < p.outputAggregator.length then
    let outputAggregator := p.outputAggregator.set c.index (some c)
    let outputs := if finished then outputAggregator else []
    pure (outputs, finished, { p with childRequests, outputAggregator })
  else throw .indexError

end ParentRequest

structure EngineCoreRequest where
  requestId : ReqId
  externalReqId : ReqId
  outputKind : RequestOutputKind
  isPooling : Bool := false
  deriving DecidableEq, Repr

structure EngineCoreOutput where
  requestId : ReqId
  newTokenIds : List TokenId
  poolingOutput : Bool := false
  finishReason : Option FinishReason := none
  deriving DecidableEq, Repr

def EngineCoreOutput.finished (o : EngineCoreOutput) : Bool := o.finishReason.isSome

/-- What goes to a client: `RequestOutput` or `PoolingRequestOutput`. -/
inductive RequestOutput where
  | completions (requestId : ReqId) (outputs : List (Option CompletionOutput)) (finished : Bool)
  | pooling (requestId : ReqId) (finished : Bool)
  deriving DecidableEq, Repr

namespace RequestOutput

def finished : RequestOutput → Bool
  | completions _ _ finished | pooling _ finished => finished

def streamFinished : RequestOutput := .completions "" [] true

end RequestOutput

/-- A request in the processor; its parent and its queue are named by the ids they were made
for. -/
structure RequestState where
  requestId : ReqId
  externalReqId : ReqId
  parentReq : Option ReqId
  requestIndex : ℕ
  outputKind : RequestOutputKind
  detokenizer : Option (List TokenId)
  queue : Option ReqId
  sentTokensOffset : ℕ := 0
  deriving DecidableEq, Repr

namespace RequestState

def fromNewRequest (request : EngineCoreRequest) (parentReq : Option ReqId) (requestIndex : ℕ)
    (queue : Option ReqId) : RequestState where
  requestId := request.requestId
  externalReqId := request.externalReqId
  parentReq := parentReq
  requestIndex := requestIndex
  outputKind := request.outputKind
  detokenizer := if request.isPooling then none else some []
  queue := queue

/-- The tokens that a stream is sent now, unless it has to wait for its interval. -/
def streamTokens (st : RequestState) (streamInterval : ℕ) (newTokenIds : List TokenId)
    (finished : Bool) : Raises (Option (RequestState × List TokenId)) :=
  if streamInterval ≤ 1 then pure (some (st, newTokenIds))
  else match st.detokenizer with
    | none => throw .assertionError
    | some outputTokenIds =>
      if finished ∨ st.sentTokensOffset = 0 ∨
          streamInterval ≤ outputTokenIds.length - st.sentTokensOffset then
        if st.outputKind = .delta then
          pure (some ({ st with sentTokensOffset := outputTokenIds.length },
            outputTokenIds.drop st.sentTokensOffset))
        else pure (some (st, newTokenIds))
      else pure none

def newCompletionOutput (st : RequestState) (tokenIds : List TokenId)
    (finishReason : Option FinishReason) : Raises CompletionOutput :=
  match st.detokenizer with
  | none => throw .assertionError
  | some outputTokenIds =>
    pure ⟨st.requestIndex, if st.outputKind = .delta then tokenIds else outputTokenIds,
      finishReason⟩

/-- The new tokens are detokenized, and a stop string in them ends the request. -/
def updateDetokenizer (st : RequestState) (o : EngineCoreOutput) (stopString : Bool) :
    Raises (RequestState × Option FinishReason) :=
  if o.poolingOutput then pure (st, o.finishReason)
  else match st.detokenizer with
    | none => throw .assertionError
    | some outputTokenIds =>
      pure ({ st with detokenizer := some (outputTokenIds ++ o.newTokenIds) },
        if stopString && o.newTokenIds ≠ [] then some .stop else o.finishReason)

/-- The output for the client, if there is one now, with what changes in the request and in its
parent. -/
def makeRequestOutput (st : RequestState) (parent : Option ParentRequest) (streamInterval : ℕ)
    (newTokenIds : List TokenId) (poolingOutput : Bool) (finishReason : Option FinishReason) :
    Raises (RequestState × Option ParentRequest × Option RequestOutput) :=
  let finished := finishReason.isSome
  if !finished && st.outputKind = .finalOnly then pure (st, parent, none)
  else do
    match ← st.streamTokens streamInterval newTokenIds finished with
    | none => pure (st, parent, none)
    | some (st, newTokenIds) =>
      if poolingOutput then pure (st, parent, some (.pooling st.externalReqId finished))
      else do
        let output ← st.newCompletionOutput newTokenIds finishReason
        match parent with
        | none => pure (st, none, some (.completions st.externalReqId [some output] finished))
        | some p =>
          let (outputs, finished, p) ← p.getOutputs st.requestId output
          if outputs = [] then pure (st, some p, none)
          else pure (st, some p, some (.completions p.externalReqId outputs finished))

end RequestState

/-- What an internal id was made for. -/
inductive Origin where
  | single
  | parent
  | child (parent : ReqId) (index : ℕ)
  deriving DecidableEq, Repr

/-- How far the loop that adds the children of a parent is. -/
structure FanOut where
  next : ℕ
  queue : Option ReqId
  deriving DecidableEq, Repr

structure ProcessorConfig where
  streamInterval : ℕ := 1
  stackDepth : ℕ := 1000
  two_le : 2 ≤ stackDepth := by decide

/-- The processor with the parent objects, the loops that add children, and what the clients were
given; `origin` records every internal id that was made. -/
structure OutputProcessor where
  requestStates : Dict ReqId RequestState := Dict.empty
  parentRequests : Dict ReqId ReqId := Dict.empty
  externalReqIds : Dict ReqId (List ReqId) := Dict.empty
  parents : ReqId → ParentRequest := fun _ => default
  fanOuts : ReqId → Option FanOut := fun _ => none
  queues : ReqId → List RequestOutput := fun _ => []
  requestOutputs : List RequestOutput := []
  reqsToAbort : List ReqId := []
  origin : ReqId → Option Origin := fun _ => none

namespace OutputProcessor
variable (cfg : ProcessorConfig)

def setParent (s : OutputProcessor) (id : ReqId) : Option ParentRequest → OutputProcessor
  | some p => { s with parents := Function.update s.parents id p }
  | none => s

/-- An output goes to the request's queue, or back to the caller. -/
def put (s : OutputProcessor) : Option ReqId → RequestOutput → OutputProcessor
  | some q, out => { s with queues := Function.update s.queues q (s.queues q ++ [out]) }
  | none, out => { s with requestOutputs := s.requestOutputs ++ [out] }

/-- What making an output gave: the parent as it is now, and the output on its way. -/
def deliver (s : OutputProcessor) (st : RequestState) (parent : Option ParentRequest)
    (out : Option RequestOutput) : OutputProcessor :=
  let s := match st.parentReq with
    | some p => s.setParent p parent
    | none => s
  match out with
  | some out => s.put st.queue out
  | none => s

/-- `internal_ids.remove`, and no empty list is kept. -/
def removeExternalId (s : OutputProcessor) (st : RequestState) : Raises OutputProcessor :=
  let internalIds := s.externalReqIds.getD st.externalReqId []
  if st.requestId ∈ internalIds then
    let rest := internalIds.erase st.requestId
    pure { s with externalReqIds :=
      if rest = [] then s.externalReqIds.erase st.externalReqId
      else s.externalReqIds.set st.externalReqId rest }
  else throw .valueError

def finishRequest (s : OutputProcessor) (st : RequestState) : Raises OutputProcessor := do
  if s.requestStates.contains st.requestId then do
    let s ← ({ s with requestStates := s.requestStates.erase st.requestId }).removeExternalId st
    match st.parentReq with
    | none => pure s
    | some p =>
      if (s.parents p).childRequests = [] then
        pure { s with parentRequests := s.parentRequests.erase p }
      else pure s
  else throw .keyError

/-- A known id only ends its stream, as the requests are not resumable. -/
def addRequest (s : OutputProcessor) (request : EngineCoreRequest) (parentReq : Option ReqId)
    (requestIndex : ℕ) (queue : Option ReqId) : Raises OutputProcessor :=
  match s.requestStates.get? request.requestId with
  | some st => do
    let s ← s.finishRequest st
    match st.queue with
    | some q => pure (s.put (some q) .streamFinished)
    | none => pure s
  | none =>
    let st := RequestState.fromNewRequest request parentReq requestIndex queue
    pure { s with
      requestStates := s.requestStates.set request.requestId st
      parentRequests := match parentReq with
        | some p => s.parentRequests.set p p
        | none => s.parentRequests
      externalReqIds := s.externalReqIds.set st.externalReqId
        (s.externalReqIds.getD st.externalReqId [] ++ [request.requestId]) }

/-- The body of the loop of `process_outputs`. -/
def processOutput (s : OutputProcessor) (o : EngineCoreOutput) (stopString : Bool) :
    Raises OutputProcessor :=
  match s.requestStates.get? o.requestId with
  | none => pure s
  | some st => do
    let (st, finishReason) ← st.updateDetokenizer o stopString
    let (st, parent, out) ← st.makeRequestOutput (st.parentReq.map s.parents) cfg.streamInterval
      o.newTokenIds o.poolingOutput finishReason
    let s := { s with requestStates := s.requestStates.set o.requestId st }.deliver st parent out
    if finishReason.isSome then do
      let s ← s.finishRequest st
      pure { s with
        reqsToAbort := if o.finished then s.reqsToAbort else s.reqsToAbort ++ [o.requestId] }
    else pure s

/-- The first loop of `abort_requests`. -/
def collectId (internal : Bool) (acc : List ReqId × OutputProcessor) (requestId : ReqId) :
    Raises (List ReqId × OutputProcessor) :=
  let (internalReqIds, s) := acc
  if internal then
    match s.requestStates.get? requestId with
    | some st => do
      let s ← s.removeExternalId st
      pure (internalReqIds ++ [requestId], s)
    | none => pure (internalReqIds ++ [requestId], s)
  else
    pure (internalReqIds ++ s.externalReqIds.getD requestId [],
      { s with externalReqIds := s.externalReqIds.erase requestId })

/-- The second loop of `abort_requests`. -/
def abortId (abortChildren : List ReqId → OutputProcessor → Raises (List ReqId × OutputProcessor))
    (acc : List ReqId × OutputProcessor) (requestId : ReqId) :
    Raises (List ReqId × OutputProcessor) :=
  let (requestIdsToAbort, s) := acc
  match s.requestStates.get? requestId with
  | some st => do
    let s := { s with requestStates := s.requestStates.erase requestId }
    if st.queue = none then pure (requestIdsToAbort ++ [requestId], s)
    else do
      let (_, parent, out) ← st.makeRequestOutput (st.parentReq.map s.parents)
        cfg.streamInterval [] st.detokenizer.isNone (some .abort)
      pure (requestIdsToAbort ++ [requestId], s.deliver st parent out)
  | none =>
    match s.parentRequests.get? requestId with
    | none => pure (requestIdsToAbort, s)
    | some p => do
      let childReqs := (s.parents p).childRequests
      let (childReqs, s) ← if childReqs = [] then pure ([], s) else abortChildren childReqs s
      pure (requestIdsToAbort ++ childReqs,
        { s with parentRequests := s.parentRequests.erase requestId })

/-- `abort_requests`; children are aborted by a call of its own, which the stack has to allow. -/
def abortRequests : ℕ → List ReqId → Bool → OutputProcessor →
    Raises (List ReqId × OutputProcessor)
  | 0, _, _, _ => throw .runtimeError
  | depth + 1, requestIds, internal, s => do
    let (internalReqIds, s) ← requestIds.foldlM (collectId internal) ([], s)
    internalReqIds.foldlM
      (abortId cfg fun childReqs s => abortRequests depth childReqs true s) ([], s)

/-- What can happen: a single request, a parent, its next child, an output, an abort. -/
inductive Event where
  | add (request : EngineCoreRequest) (queued : Bool)
  | newParent (requestId externalReqId : ReqId) (n : ℕ) (outputKind : RequestOutputKind)
    (queued : Bool)
  | addChild (parent : ReqId)
  | output (o : EngineCoreOutput) (stopString : Bool)
  | abort (requestIds : List ReqId) (internal : Bool)
  deriving DecidableEq, Repr

/-- The origins of a parent and of its children. -/
def parentOrigin (s : OutputProcessor) (requestId : ReqId) (n : ℕ) (id : ReqId) : Option Origin :=
  if id = requestId then some .parent
  else match (List.range n).find? fun i => childReqId i requestId = id with
    | some i => some (.child requestId i)
    | none => s.origin id

def step (s : OutputProcessor) : Event → Raises OutputProcessor
  | .add request queued => do
    let s ← s.addRequest request none 0 (if queued then some request.requestId else none)
    pure { s with origin := Function.update s.origin request.requestId (some .single) }
  | .newParent requestId externalReqId n outputKind queued =>
    pure { s with
      parents := Function.update s.parents requestId
        (.new requestId externalReqId n outputKind)
      fanOuts := Function.update s.fanOuts requestId
        (some ⟨0, if queued then some requestId else none⟩)
      origin := s.parentOrigin requestId n }
  | .addChild parent =>
    match s.fanOuts parent with
    | none => pure s
    | some fanOut =>
      let p := s.parents parent
      if fanOut.next < p.n then
        let (requestId, p) := p.getChildInfo fanOut.next
        { s with
          parents := Function.update s.parents parent p
          fanOuts := Function.update s.fanOuts parent
            (some { fanOut with next := fanOut.next + 1 }) }.addRequest
          ⟨requestId, p.externalReqId, p.outputKind, false⟩ (some parent) fanOut.next fanOut.queue
      else pure s
  | .output o stopString => s.processOutput cfg o stopString
  | .abort requestIds internal => do
    let (_, s) ← abortRequests cfg cfg.stackDepth requestIds internal s
    pure s

end OutputProcessor

end Vllm.Engine
