import Vllm.Engine.ParallelSampling
import Vllm.Text.StopSearch

/-! One request of the output processor with its detokenizer and logprobs, the outputs it makes and
the collector that merges them when the producer gets ahead of the consumer. -/
namespace Vllm.Text
open Engine (RequestOutputKind)

/-- A request without a tokenizer only keeps its token ids. -/
inductive IncrementalDetokenizer where
  | plain (tokenIds : List ℕ)
  | base (d : BaseIncrementalDetokenizer)

namespace IncrementalDetokenizer

def outputTokenIds : IncrementalDetokenizer → List ℕ
  | plain tokenIds => tokenIds
  | base d => d.tokenIds

def numOutputTokens (d : IncrementalDetokenizer) : ℕ := d.outputTokenIds.length

def outputText : IncrementalDetokenizer → List Char
  | plain _ => []
  | base d => d.outputText

def update (newTokens : List Token) (stopTerminated : Bool) :
    IncrementalDetokenizer → IncrementalDetokenizer × Option (List Char)
  | plain tokenIds => (plain (tokenIds ++ newTokens.map Token.id), none)
  | base d => ((d.update newTokens stopTerminated).map base id)

def getNextOutputText (finished delta : Bool) :
    IncrementalDetokenizer → IncrementalDetokenizer × List Char
  | plain tokenIds => (plain tokenIds, [])
  | base d => ((d.getNextOutputText finished delta).map base id)

end IncrementalDetokenizer

variable {α : Type}

structure CompletionOutput (α : Type) where
  index : ℕ
  text : List Char
  tokenIds : List ℕ
  logprobs : Option (List α)
  finishReason : Option Engine.FinishReason
  stopReason : Option StopReason
  deriving DecidableEq, Repr

structure RequestOutput (α : Type) where
  outputs : List (CompletionOutput α)
  finished : Bool
  deriving DecidableEq, Repr

/-- A completion with the next one of the same index appended. -/
def CompletionOutput.merge (c next : CompletionOutput α) : Raises (CompletionOutput α) := do
  let logprobs ← match next.logprobs with
    | none | some [] => pure c.logprobs
    | some rows =>
      match c.logprobs with
      | none => throw .assertionError
      | some logprobs => pure (some (logprobs ++ rows))
  pure { c with
    text := c.text ++ next.text
    tokenIds := c.tokenIds ++ next.tokenIds
    logprobs := logprobs
    finishReason := next.finishReason
    stopReason := next.stopReason }

def addCompletion (aggregate : Bool) (next : CompletionOutput α) :
    List (CompletionOutput α) → Raises (List (CompletionOutput α))
  | [] => pure [next]
  | c :: outputs => do
    if c.index = next.index then
      if aggregate then pure ((← c.merge next) :: outputs) else pure (next :: outputs)
    else pure (c :: (← addCompletion aggregate next outputs))

/-- `RequestOutput.add`. -/
def RequestOutput.add (o next : RequestOutput α) (aggregate : Bool) : Raises (RequestOutput α) := do
  let outputs ← next.outputs.foldlM (fun outputs c => addCompletion aggregate c outputs) o.outputs
  pure { outputs := outputs, finished := o.finished || next.finished }

structure RequestOutputCollector (α : Type) where
  aggregate : Bool
  output : Option (RequestOutput α) := none

namespace RequestOutputCollector

def new (outputKind : RequestOutputKind) : RequestOutputCollector α where
  aggregate := outputKind = .delta

def put (q : RequestOutputCollector α) (output : RequestOutput α) :
    Raises (RequestOutputCollector α) :=
  match q.output with
  | none => pure { q with output := some output }
  | some waiting => do pure { q with output := some (← waiting.add output q.aggregate) }

end RequestOutputCollector

/-- A request of its own; its logprobs are the rows of the logprobs processor, if it has them. -/
structure RequestState (α : Type) where
  requestIndex : ℕ := 0
  outputKind : RequestOutputKind
  detokenizer : IncrementalDetokenizer
  logprobs : Option (List α)
  streamInterval : ℕ
  sentTokensOffset : ℕ := 0

namespace RequestState

def fromNewRequest (outputKind : RequestOutputKind) (params : Option StopParams)
    (withLogprobs : Bool) (streamInterval : ℕ) : RequestState α where
  outputKind := outputKind
  detokenizer := match params with
    | none => .plain []
    | some params => .base { params := params }
  logprobs := if withLogprobs then some [] else none
  streamInterval := streamInterval

/-- `logprobs[-n:]`. -/
def lastRows (n : ℕ) (rows : List α) : List α := if n = 0 then rows else rows.drop (rows.length - n)

def newCompletionOutput (st : RequestState α) (tokenIds : List ℕ)
    (finishReason : Option Engine.FinishReason) (stopReason : Option StopReason) :
    RequestState α × CompletionOutput α :=
  let finished := finishReason.isSome
  let delta := st.outputKind = .delta
  let (detokenizer, text) := st.detokenizer.getNextOutputText finished delta
  ({ st with detokenizer := detokenizer },
    { index := st.requestIndex
      text := text
      tokenIds := if delta then tokenIds else detokenizer.outputTokenIds
      logprobs := if delta then st.logprobs.map (lastRows tokenIds.length) else st.logprobs
      finishReason := finishReason
      stopReason := if finished then stopReason else none })

/-- The tokens to send now, unless the stream has to wait for its interval. -/
def streamTokens (st : RequestState α) (newTokenIds : List ℕ) (finished : Bool) :
    Option (RequestState α × List ℕ) :=
  if st.streamInterval > 1 then
    let numOutputTokens := st.detokenizer.numOutputTokens
    if ¬(finished ∨ st.sentTokensOffset = 0 ∨
        numOutputTokens - st.sentTokensOffset ≥ st.streamInterval) then none
    else if st.outputKind = .delta then
      some ({ st with sentTokensOffset := numOutputTokens },
        st.detokenizer.outputTokenIds.drop st.sentTokensOffset)
    else some (st, newTokenIds)
  else some (st, newTokenIds)

def makeRequestOutput (st : RequestState α) (newTokenIds : List ℕ)
    (finishReason : Option Engine.FinishReason) (stopReason : Option StopReason) :
    RequestState α × Option (RequestOutput α) :=
  let finished := finishReason.isSome
  if !finished && st.outputKind = .finalOnly then (st, none)
  else
    match st.streamTokens newTokenIds finished with
    | none => (st, none)
    | some (st, newTokenIds) =>
      let (st, output) := st.newCompletionOutput newTokenIds finishReason stopReason
      (st, some { outputs := [output], finished := finished })

end RequestState

/-- What the engine sends for a request: new tokens and, on demand, a row of logprobs for each. -/
structure EngineCoreOutput (α : Type) where
  newTokens : List Token
  newLogprobs : Option (List α) := none
  finishReason : Option Engine.FinishReason := none
  stopReason : Option StopReason := none

/-- Logprobs come for every token or for none, and an output without tokens ends the request. -/
structure EngineCoreOutput.WellFormed (withLogprobs : Bool) (o : EngineCoreOutput α) : Prop where
  rows : (o.newLogprobs.getD []).length = if withLogprobs then o.newTokens.length else 0
  requested : withLogprobs = false → o.newLogprobs = none
  tokens : o.finishReason = none → o.newTokens ≠ []

/-- Why the request ends, if it does; a stop string takes precedence. -/
def EngineCoreOutput.reasons (o : EngineCoreOutput α) (stopString : Option (List Char)) :
    Option Engine.FinishReason × Option StopReason :=
  match stopString with
  | some stop => (some .stop, some (.text stop))
  | none => (o.finishReason, o.stopReason)

/-- `LogprobsProcessor.update_from_output`. -/
def updateLogprobs (logprobs newLogprobs : Option (List α)) : Raises (Option (List α)) :=
  match newLogprobs with
  | none => pure logprobs
  | some rows =>
    match logprobs with
    | none => throw .assertionError
    | some logprobs => pure (some (logprobs ++ rows))

/-- A request of the output processor, its collector and what its consumer has received. -/
structure Session (α : Type) where
  request : RequestState α
  live : Bool := true
  queue : RequestOutputCollector α
  received : List (RequestOutput α) := []

/-- The processor handles an output or an abort, or the consumer takes what is there. -/
inductive Event (α : Type) where
  | output (o : EngineCoreOutput α)
  | abort
  | get

namespace Session

def init (outputKind : RequestOutputKind) (params : Option StopParams) (withLogprobs : Bool)
    (streamInterval : ℕ) : Session α where
  request := .fromNewRequest outputKind params withLogprobs streamInterval
  queue := .new outputKind

def putOutput (s : Session α) (newTokenIds : List ℕ) (finishReason : Option Engine.FinishReason)
    (stopReason : Option StopReason) : Raises (Session α) := do
  let (request, output) := s.request.makeRequestOutput newTokenIds finishReason stopReason
  let queue ← match output with
    | none => pure s.queue
    | some output => s.queue.put output
  pure { s with request := request, queue := queue, live := finishReason.isNone }

/-- `OutputProcessor.process_outputs` for one output; an aborted request is ignored. -/
def processOutput (s : Session α) (o : EngineCoreOutput α) : Raises (Session α) :=
  if !s.live then pure s
  else do
    let (detokenizer, stopString) :=
      s.request.detokenizer.update o.newTokens (o.finishReason = some .stop)
    let (finishReason, stopReason) := o.reasons stopString
    let logprobs ← updateLogprobs s.request.logprobs o.newLogprobs
    let request := { s.request with
      detokenizer := detokenizer
      logprobs := logprobs }
    { s with request := request }.putOutput (o.newTokens.map Token.id) finishReason stopReason

/-- `OutputProcessor.abort_requests` for this request. -/
def abort (s : Session α) : Raises (Session α) :=
  if !s.live then pure s else s.putOutput [] (some .abort) none

/-- `RequestOutputCollector.get_nowait`. -/
def get (s : Session α) : Session α :=
  match s.queue.output with
  | none => s
  | some output => { s with
      queue := { s.queue with output := none }
      received := s.received ++ [output] }

def step (s : Session α) : Event α → Raises (Session α)
  | .output o => s.processOutput o
  | .abort => s.abort
  | .get => pure s.get

def run (s : Session α) (events : List (Event α)) : Raises (Session α) := events.foldlM step s

end Session

end Vllm.Text
