import Vllm.Worker.BlockTable
import Vllm.Worker.LogitsProcs

/-! The persistent batch of the model runner: every request holds one row in parallel arrays, lists
and sparse maps. `condense` slides the last requests into the holes and `swap_states` exchanges two.
-/
namespace Vllm.Worker
open RowArray

/-- The embeddings of a prompt, one vector per position. -/
abbrev PromptEmbeds := List (List ℚ)

/-- The identity of a random generator object. -/
abbrev Generator := ℕ

structure PoolingParams where
  requiresTokenIds : Bool
  deriving DecidableEq

structure CachedRequestState where
  reqId : RequestId
  promptTokenIds : Option (List TokenId)
  promptEmbeds : Option PromptEmbeds := none
  promptIsTokenIds : Option (List Bool) := none
  samplingParams : Option SamplingParams := none
  poolingParams : Option PoolingParams := none
  generator : Option Generator := none
  blockIds : List (List ℕ) := []
  numComputedTokens : ℕ := 0
  outputTokenIds : ListRef
  loraRequest : Option LoRARequest := none
  deriving DecidableEq

def lengthFromPromptTokenIdsOrEmbeds (promptTokenIds : Option (List TokenId))
    (promptEmbeds : Option PromptEmbeds) : Raises ℕ :=
  match promptTokenIds, promptEmbeds with
  | none, none => throw .valueError
  | none, some embeds => pure embeds.length
  | some ids, none => pure ids.length
  | some ids, some embeds =>
    if embeds.length ≠ ids.length then throw .valueError else pure ids.length

section RowMaps
variable {α : Type}

/-- The values of two keys of a sparse map, exchanged. -/
def swapDictValues (d : Dict ℕ α) (key1 key2 : ℕ) : Dict ℕ α :=
  let d' := match d.get? key1 with
    | some v => d.set key2 v
    | none => d.erase key2
  match d.get? key2 with
  | some v => d'.set key1 v
  | none => d'.erase key1

/-- The value of one row of a sparse map, if there is one, handed to another row. -/
def slideDictValue (d : Dict ℕ α) (last empty : ℕ) : Dict ℕ α :=
  match d.get? last with
  | some v => (d.erase last).set empty v
  | none => d

/-- `a[i1, :n], a[i2, :n]` exchanged through a copy. -/
def swapFirst (n : ℕ) (a : ℕ → ℕ → α) (i1 i2 : ℕ) : ℕ → ℕ → α :=
  Function.update (Function.update a i1 (copyFirst n (a i2) (a i1))) i2 (copyFirst n (a i1) (a i2))

/-- `t[i1], t[i2] = t[i2], t[i1]` where indexing yields views: the second assignment reads the
row that the first one has just written. -/
def assignViews (t : ℕ → α) (i1 i2 : ℕ) : ℕ → α :=
  let t' := Function.update t i1 (t i2)
  Function.update t' i2 (t' i1)

def index (l : List α) (i : ℕ) : Raises α :=
  match l[i]? with
  | some a => pure a
  | none => throw .indexError

end RowMaps

/-- The sampling scalars of one row. -/
structure SamplingScalars where
  temperature : ℚ
  topP : ℚ
  topK : ℤ
  frequencyPenalty : ℚ
  presencePenalty : ℚ
  repetitionPenalty : ℚ
  deriving DecidableEq

/-- The scalars written for a request, as the single-precision arrays hold them. -/
def SamplingParams.scalars (params : SamplingParams) (vocabSize : ℕ) : SamplingScalars where
  temperature := if params.greedy then 0 else Float32.ofRat params.temperature
  topP := Float32.ofRat params.topP
  topK := if 0 < params.topK ∧ params.topK < vocabSize then params.topK else vocabSize
  frequencyPenalty := Float32.ofRat params.frequencyPenalty
  presencePenalty := Float32.ofRat params.presencePenalty
  repetitionPenalty := Float32.ofRat params.repetitionPenalty

/-- The arrays of sampling scalars. -/
structure SamplingRows where
  temperature : ℕ → ℚ
  topP : ℕ → ℚ
  topK : ℕ → ℤ
  frequencyPenalties : ℕ → ℚ
  presencePenalties : ℕ → ℚ
  repetitionPenalties : ℕ → ℚ

namespace SamplingRows

def row (s : SamplingRows) (i : ℕ) : SamplingScalars :=
  ⟨s.temperature i, s.topP i, s.topK i, s.frequencyPenalties i, s.presencePenalties i,
    s.repetitionPenalties i⟩

def setRow (s : SamplingRows) (i : ℕ) (v : SamplingScalars) : SamplingRows where
  temperature := Function.update s.temperature i v.temperature
  topP := Function.update s.topP i v.topP
  topK := Function.update s.topK i v.topK
  frequencyPenalties := Function.update s.frequencyPenalties i v.frequencyPenalty
  presencePenalties := Function.update s.presencePenalties i v.presencePenalty
  repetitionPenalties := Function.update s.repetitionPenalties i v.repetitionPenalty

def moveRow (s : SamplingRows) (last empty : ℕ) : SamplingRows where
  temperature := Function.update s.temperature empty (s.temperature last)
  topP := Function.update s.topP empty (s.topP last)
  topK := Function.update s.topK empty (s.topK last)
  frequencyPenalties := Function.update s.frequencyPenalties empty (s.frequencyPenalties last)
  presencePenalties := Function.update s.presencePenalties empty (s.presencePenalties last)
  repetitionPenalties := Function.update s.repetitionPenalties empty (s.repetitionPenalties last)

def swapRow (s : SamplingRows) (i1 i2 : ℕ) : SamplingRows where
  temperature := RowArray.swapRow s.temperature i1 i2
  topP := RowArray.swapRow s.topP i1 i2
  topK := RowArray.swapRow s.topK i1 i2
  frequencyPenalties := RowArray.swapRow s.frequencyPenalties i1 i2
  presencePenalties := RowArray.swapRow s.presencePenalties i1 i2
  repetitionPenalties := RowArray.swapRow s.repetitionPenalties i1 i2

end SamplingRows

/-- What is kept per request id: in which way each request is sampled. -/
structure RequestSets where
  greedyReqs : List RequestId := []
  randomReqs : List RequestId := []
  topPReqs : List RequestId := []
  topKReqs : List RequestId := []
  frequencyPenaltiesReqs : List RequestId := []
  presencePenaltiesReqs : List RequestId := []
  repetitionPenaltiesReqs : List RequestId := []
  numLogprobs : Dict RequestId ℤ := Dict.empty
  logprobTokenIds : Dict RequestId (List TokenId) := Dict.empty
  hasAllowedTokenIds : List RequestId := []

namespace RequestSets

def addIf (p : Prop) [Decidable p] (l : List RequestId) (id : RequestId) : List RequestId :=
  if p then l.insert id else l

def add (s : RequestSets) (id : RequestId) (params : SamplingParams) (vocabSize : ℕ) :
    RequestSets where
  greedyReqs := addIf (params.greedy = true) s.greedyReqs id
  randomReqs := addIf (params.greedy = false) s.randomReqs id
  topPReqs := addIf (params.topP < 1) s.topPReqs id
  topKReqs := addIf (0 < params.topK ∧ params.topK < vocabSize) s.topKReqs id
  frequencyPenaltiesReqs := addIf (params.frequencyPenalty ≠ 0) s.frequencyPenaltiesReqs id
  presencePenaltiesReqs := addIf (params.presencePenalty ≠ 0) s.presencePenaltiesReqs id
  repetitionPenaltiesReqs := addIf (params.repetitionPenalty ≠ 1) s.repetitionPenaltiesReqs id
  numLogprobs := match params.logprobs with
    | some n => s.numLogprobs.set id (if n = -1 then vocabSize else n)
    | none => s.numLogprobs
  logprobTokenIds := match params.logprobTokenIds with
    | some ids => s.logprobTokenIds.set id ids
    | none => s.logprobTokenIds
  hasAllowedTokenIds :=
    addIf (params.allowedTokenIds.getD [] ≠ []) s.hasAllowedTokenIds id

def discard (s : RequestSets) (id : RequestId) : RequestSets where
  greedyReqs := s.greedyReqs.erase id
  randomReqs := s.randomReqs.erase id
  topPReqs := s.topPReqs.erase id
  topKReqs := s.topKReqs.erase id
  frequencyPenaltiesReqs := s.frequencyPenaltiesReqs.erase id
  presencePenaltiesReqs := s.presencePenaltiesReqs.erase id
  repetitionPenaltiesReqs := s.repetitionPenaltiesReqs.erase id
  numLogprobs := s.numLogprobs.erase id
  logprobTokenIds := s.logprobTokenIds.erase id
  hasAllowedTokenIds := s.hasAllowedTokenIds.erase id

def noPenalties (s : RequestSets) : Bool :=
  s.presencePenaltiesReqs.isEmpty && s.frequencyPenaltiesReqs.isEmpty &&
    s.repetitionPenaltiesReqs.isEmpty

end RequestSets

structure SamplingMetadata where
  temperature : Option (List ℚ)
  topP : Option (List ℚ)
  topK : Option (List ℤ)
  noPenalties : Bool
  promptTokenIds : Option (List (List TokenId))
  outputTokenIds : List (Option ListRef)
  allowedTokenIdsMask : Option (List (List Bool))
  deriving DecidableEq

structure InputBatch where
  isPoolingModel : Bool
  maxNumReqs : ℕ
  maxModelLen : ℕ
  vocabSize : ℕ
  logitsprocsNeedOutputTokenIds : Bool
  reqIds : List (Option RequestId)
  reqIdToIndex : Dict RequestId ℕ
  tokenIds : ℕ → ℕ → TokenId
  isTokenIds : ℕ → ℕ → Bool
  reqPromptEmbeds : Dict ℕ PromptEmbeds
  numTokensNoSpec : ℕ → ℕ
  numPromptTokens : ℕ → ℕ
  numComputedTokens : ℕ → ℕ
  blockTable : MultiGroupBlockTable
  samplingRows : SamplingRows
  requestSets : RequestSets
  numAcceptedTokens : ℕ → ℕ
  requestLoraMapping : ℕ → ℕ
  loraIdToRequestIds : Dict ℕ (List RequestId)
  loraIdToLoraRequest : Dict ℕ LoRARequest
  generators : Dict ℕ Generator
  batchUpdateBuilder : BatchUpdateBuilder
  allowedTokenIdsMask : Option (ℕ → List Bool)
  badWordsTokenIds : Dict ℕ (List (List TokenId))
  logitsProcessingNeedsTokenIds : ℕ → Bool
  reqOutputTokenIds : List (Option ListRef)
  specTokenIds : List (List TokenId)
  logitsprocs : LogitsProcessors
  thinkingBudgetStateHolder : Option ThinkingBudgetStateHolder
  samplingMetadata : SamplingMetadata
  poolingParams : Dict RequestId PoolingParams
  prevReqIdToIndex : Option (Dict RequestId ℕ)

namespace InputBatch

def numReqs (b : InputBatch) : ℕ := b.reqIdToIndex.size

def specAt (b : InputBatch) (i : ℕ) : List TokenId := b.specTokenIds.getD i []

def getActiveTokenCount (b : InputBatch) (reqIndex : ℕ) : ℕ :=
  b.numTokensNoSpec reqIndex + (b.specAt reqIndex).length

/-- The record of an added request for the logits processors. -/
def addedRecord (newReqIndex : ℕ) (request : CachedRequestState) : List AddedRequest :=
  match request.samplingParams with
  | some params => [⟨newReqIndex, params, request.promptTokenIds, request.outputTokenIds⟩]
  | none => []

/-- The row of a new request: the lowest vacated one, or a new one behind the last. -/
def registerAddRequest (b : InputBatch) (request : CachedRequestState) :
    Raises (ℕ × BatchUpdateBuilder) := do
  let (popped, builder) := b.batchUpdateBuilder.popRemoved
  let newReqIndex := popped.getD b.numReqs
  Raises.require (newReqIndex < b.maxNumReqs)
  pure (newReqIndex,
    { builder with
      batchChanged := true
      added := builder.added ++ addedRecord newReqIndex request })

/-- Which prompt positions hold token ids rather than embeddings. -/
def promptTokenFlags (request : CachedRequestState) (numPromptTokens : ℕ) : List Bool :=
  match request.promptTokenIds with
  | some _ => request.promptIsTokenIds.getD (List.replicate numPromptTokens true)
  | none => List.replicate numPromptTokens false

/-- The mask row of a request: true outside of its allowed tokens. -/
def allowedMask (vocabSize : ℕ) (allowedTokenIds : List ℕ) : List Bool :=
  (List.range vocabSize).map fun t => !allowedTokenIds.contains t

def clearMask (vocabSize : ℕ) : List Bool := List.replicate vocabSize false

/-- The mask tensor with the row of a request that has allowed tokens. -/
def storeMask (b : InputBatch) (reqIndex : ℕ) (params : SamplingParams) :
    Option (ℕ → List Bool) :=
  match params.allowedTokenIds with
  | some (t :: ts) => some (Function.update
      (b.allowedTokenIdsMask.getD fun _ => clearMask b.vocabSize) reqIndex
      (allowedMask b.vocabSize (t :: ts)))
  | _ => b.allowedTokenIdsMask

def storeBadWords (b : InputBatch) (reqIndex : ℕ) (params : SamplingParams) :
    Dict ℕ (List (List TokenId)) :=
  match params.badWordsTokenIds with
  | some (w :: ws) => b.badWordsTokenIds.set reqIndex (w :: ws)
  | _ => b.badWordsTokenIds

/-- An optional value of a row, written into a sparse map if there is one. -/
def storeSparse {α : Type} (d : Dict ℕ α) (reqIndex : ℕ) (value : Option α) : Dict ℕ α :=
  match value with
  | some v => d.set reqIndex v
  | none => d

/-- What a request is sampled or pooled with has to be recognised. -/
def checkParams (b : InputBatch) (request : CachedRequestState) : Raises Unit :=
  match request.samplingParams, request.poolingParams with
  | some params, _ =>
    if ∀ t ∈ params.allowedTokenIds.getD [], t < b.vocabSize then pure () else throw .indexError
  | none, some _ => pure ()
  | none, none => throw .notImplementedError

def loraId (request : CachedRequestState) : ℕ :=
  match request.loraRequest with
  | some lora => lora.loraIntId
  | none => 0

/-- Everything that is written for a request added at row `i`. -/
def storeRequest (b : InputBatch) (i : ℕ) (request : CachedRequestState)
    (builder : BatchUpdateBuilder) (numPromptTokens : ℕ) (output : List TokenId)
    (blockTable : MultiGroupBlockTable) : InputBatch :=
  { b with
    batchUpdateBuilder := builder
    reqIds :=
      if i = b.reqIds.length then b.reqIds ++ [some request.reqId]
      else b.reqIds.set i (some request.reqId)
    reqOutputTokenIds :=
      if i = b.reqIds.length then b.reqOutputTokenIds ++ [some request.outputTokenIds]
      else b.reqOutputTokenIds.set i (some request.outputTokenIds)
    specTokenIds :=
      if i = b.reqIds.length then b.specTokenIds ++ [[]] else b.specTokenIds.set i []
    reqIdToIndex := b.reqIdToIndex.set request.reqId i
    numPromptTokens := Function.update b.numPromptTokens i numPromptTokens
    tokenIds := Function.update b.tokenIds i
      (writeAt (writeAt (b.tokenIds i) 0 (request.promptTokenIds.getD [])) numPromptTokens output)
    isTokenIds := Function.update b.isTokenIds i
      (fillRange (writeAt (b.isTokenIds i) 0 (promptTokenFlags request numPromptTokens))
        numPromptTokens (numPromptTokens + output.length) true)
    reqPromptEmbeds := storeSparse b.reqPromptEmbeds i request.promptEmbeds
    numTokensNoSpec := Function.update b.numTokensNoSpec i (numPromptTokens + output.length)
    numComputedTokens := Function.update b.numComputedTokens i request.numComputedTokens
    blockTable
    samplingRows := match request.samplingParams with
      | some params => b.samplingRows.setRow i (params.scalars b.vocabSize)
      | none => b.samplingRows
    requestSets := match request.samplingParams with
      | some params => b.requestSets.add request.reqId params b.vocabSize
      | none => b.requestSets
    generators := match request.samplingParams with
      | some _ => storeSparse b.generators i request.generator
      | none => b.generators
    allowedTokenIdsMask := match request.samplingParams with
      | some params => b.storeMask i params
      | none => b.allowedTokenIdsMask
    badWordsTokenIds := match request.samplingParams with
      | some params => b.storeBadWords i params
      | none => b.badWordsTokenIds
    poolingParams := match request.samplingParams, request.poolingParams with
      | none, some params => b.poolingParams.set request.reqId params
      | _, _ => b.poolingParams
    logitsProcessingNeedsTokenIds := match request.samplingParams, request.poolingParams with
      | none, some params =>
        Function.update b.logitsProcessingNeedsTokenIds i params.requiresTokenIds
      | _, _ => b.logitsProcessingNeedsTokenIds
    numAcceptedTokens := Function.update b.numAcceptedTokens i 1
    requestLoraMapping := Function.update b.requestLoraMapping i (loraId request)
    loraIdToRequestIds := match request.loraRequest with
      | some lora => b.loraIdToRequestIds.set lora.loraIntId
          ((b.loraIdToRequestIds.getD lora.loraIntId []).insert request.reqId)
      | none => b.loraIdToRequestIds
    loraIdToLoraRequest := match request.loraRequest with
      | some lora => b.loraIdToLoraRequest.set lora.loraIntId lora
      | none => b.loraIdToLoraRequest }

def addRequest (outputs : Outputs) (b : InputBatch) (request : CachedRequestState) :
    Raises (ℕ × InputBatch) := do
  let (reqIndex, builder) ← b.registerAddRequest request
  if reqIndex > b.reqIds.length then throw .indexError
  let numPromptTokens ←
    lengthFromPromptTokenIdsOrEmbeds request.promptTokenIds request.promptEmbeds
  let output := outputs request.outputTokenIds
  if (promptTokenFlags request numPromptTokens).length ≠ numPromptTokens ∨
      numPromptTokens + output.length > b.maxModelLen then
    throw .valueError
  let blockTable ← b.blockTable.addRow request.blockIds reqIndex
  b.checkParams request
  pure (reqIndex, b.storeRequest reqIndex request builder numPromptTokens output blockTable)

/-- The draft tokens of the step, written behind the request's tokens. -/
def writeSpecTokens (b : InputBatch) (reqIndex : ℕ) (specTokenIds : List TokenId) :
    Raises InputBatch :=
  let startIndex := b.numTokensNoSpec reqIndex
  let endTokenIndex := startIndex + specTokenIds.length
  if specTokenIds = [] ∨ endTokenIndex ≤ b.maxModelLen then
    pure { b with
      specTokenIds := b.specTokenIds.set reqIndex specTokenIds
      tokenIds := Function.update b.tokenIds reqIndex
        (writeAt (b.tokenIds reqIndex) startIndex specTokenIds)
      isTokenIds := Function.update b.isTokenIds reqIndex
        (fillRange (b.isTokenIds reqIndex) startIndex endTokenIndex true) }
  else throw .valueError

def removeLora (b : InputBatch) (reqIndex : ℕ) (reqId : RequestId) : Raises InputBatch :=
  let loraId := b.requestLoraMapping reqIndex
  if loraId = 0 then pure b
  else
    match b.loraIdToRequestIds.get? loraId with
    | none => throw .keyError
    | some ids =>
      let loraReqIds := ids.erase reqId
      pure { b with
        loraIdToRequestIds :=
          if loraReqIds.isEmpty then b.loraIdToRequestIds.erase loraId
          else b.loraIdToRequestIds.set loraId loraReqIds
        loraIdToLoraRequest :=
          if loraReqIds.isEmpty then b.loraIdToLoraRequest.erase loraId
          else b.loraIdToLoraRequest
        requestLoraMapping := Function.update b.requestLoraMapping reqIndex 0 }

def removeSampling (b : InputBatch) (reqIndex : ℕ) (reqId : RequestId) : InputBatch :=
  { b with
    requestSets := b.requestSets.discard reqId
    generators := b.generators.erase reqIndex
    prevReqIdToIndex := b.prevReqIdToIndex.map fun d => d.erase reqId
    allowedTokenIdsMask := b.allowedTokenIdsMask.map fun mask =>
      Function.update mask reqIndex (clearMask b.vocabSize)
    badWordsTokenIds := b.badWordsTokenIds.erase reqIndex }

def removeRequest (b : InputBatch) (reqId : RequestId) : Raises (Option ℕ × InputBatch) :=
  match b.reqIdToIndex.get? reqId with
  | none => pure (none, b)
  | some reqIndex => do
    let builder ← b.batchUpdateBuilder.removedAppend reqIndex
    let b ← { b with
      reqIdToIndex := b.reqIdToIndex.erase reqId
      batchUpdateBuilder := builder
      reqIds := b.reqIds.set reqIndex none
      reqOutputTokenIds := b.reqOutputTokenIds.set reqIndex none
      specTokenIds := b.specTokenIds.set reqIndex []
      blockTable := b.blockTable.clearRow reqIndex }.removeLora reqIndex reqId
    if b.isPoolingModel then
      pure (some reqIndex, { b with poolingParams := b.poolingParams.erase reqId })
    else pure (some reqIndex, b.removeSampling reqIndex reqId)

/-- The part of `swap_states` that pooling models skip. -/
def swapSampling (b : InputBatch) (i1 i2 : ℕ) : InputBatch :=
  { b with
    batchUpdateBuilder := { b.batchUpdateBuilder with
      moved := b.batchUpdateBuilder.moved ++ [(i1, i2, .swap)] }
    samplingRows := b.samplingRows.swapRow i1 i2
    numAcceptedTokens := swapRow b.numAcceptedTokens i1 i2
    generators := swapDictValues b.generators i1 i2
    badWordsTokenIds := swapDictValues b.badWordsTokenIds i1 i2
    allowedTokenIdsMask := b.allowedTokenIdsMask.map fun mask => assignViews mask i1 i2 }

/-- The part of `swap_states` that all models have. -/
def swapCommon (b : InputBatch) (i1 i2 : ℕ) (id1 id2 : RequestId) : InputBatch :=
  let maxActiveTokenCount := max (b.getActiveTokenCount i1) (b.getActiveTokenCount i2)
  { b with
    reqIds := (b.reqIds.set i1 (some id2)).set i2 (some id1)
    reqOutputTokenIds := (b.reqOutputTokenIds.set i1 (b.reqOutputTokenIds.getD i2 none)).set i2
      (b.reqOutputTokenIds.getD i1 none)
    specTokenIds := (b.specTokenIds.set i1 (b.specAt i2)).set i2 (b.specAt i1)
    reqIdToIndex := (b.reqIdToIndex.set id1 (b.reqIdToIndex.getD id2 0)).set id2
      (b.reqIdToIndex.getD id1 0)
    numTokensNoSpec := swapRow b.numTokensNoSpec i1 i2
    numPromptTokens := swapRow b.numPromptTokens i1 i2
    numComputedTokens := swapRow b.numComputedTokens i1 i2
    tokenIds := swapFirst maxActiveTokenCount b.tokenIds i1 i2
    isTokenIds := swapFirst maxActiveTokenCount b.isTokenIds i1 i2
    reqPromptEmbeds := swapDictValues b.reqPromptEmbeds i1 i2
    blockTable := b.blockTable.swapRow i1 i2
    requestLoraMapping := swapRow b.requestLoraMapping i1 i2 }

def swapStates (b : InputBatch) (i1 i2 : ℕ) : Raises InputBatch := do
  let oldId1 ← index b.reqIds i1
  let oldId2 ← index b.reqIds i2
  match oldId1, oldId2 with
  | some id1, some id2 =>
    let b := b.swapCommon i1 i2 id1 id2
    pure (if b.isPoolingModel then b else b.swapSampling i1 i2)
  | _, _ => throw .assertionError

/-- The part of one slide of `condense` that pooling models skip. -/
def slideSampling (b : InputBatch) (last empty : ℕ) : InputBatch :=
  { b with
    batchUpdateBuilder := { b.batchUpdateBuilder with
      moved := b.batchUpdateBuilder.moved ++ [(last, empty, .unidirectional)] }
    samplingRows := b.samplingRows.moveRow last empty
    numAcceptedTokens :=
      Function.update b.numAcceptedTokens empty (b.numAcceptedTokens last)
    generators := slideDictValue b.generators last empty
    allowedTokenIdsMask := b.allowedTokenIdsMask.map fun mask =>
      Function.update mask empty (mask last)
    badWordsTokenIds := slideDictValue b.badWordsTokenIds last empty }

/-- The part of one slide that all models have. -/
def slideCommon (b : InputBatch) (last empty : ℕ) (reqId : RequestId) : InputBatch :=
  let numTokens := b.getActiveTokenCount last
  { b with
    reqIds := (b.reqIds.set empty (some reqId)).set last none
    reqOutputTokenIds := (b.reqOutputTokenIds.set empty (b.reqOutputTokenIds.getD last none)).set
      last none
    reqIdToIndex := b.reqIdToIndex.set reqId empty
    specTokenIds := (b.specTokenIds.set last []).set empty (b.specAt last)
    tokenIds := Function.update b.tokenIds empty
      (copyFirst numTokens (b.tokenIds last) (b.tokenIds empty))
    isTokenIds := Function.update b.isTokenIds empty
      (copyFirst numTokens (b.isTokenIds last) (b.isTokenIds empty))
    reqPromptEmbeds := slideDictValue b.reqPromptEmbeds last empty
    numTokensNoSpec := Function.update b.numTokensNoSpec empty (b.numTokensNoSpec last)
    numPromptTokens := Function.update b.numPromptTokens empty (b.numPromptTokens last)
    numComputedTokens := Function.update b.numComputedTokens empty (b.numComputedTokens last)
    blockTable := b.blockTable.moveRow last empty
    requestLoraMapping := Function.update b.requestLoraMapping empty (b.requestLoraMapping last) }

/-- The request at row `last` slides down into the vacated row `empty`. -/
def slide (b : InputBatch) (last empty : ℕ) : Raises InputBatch := do
  let reqId ← index b.reqIds last
  match reqId with
  | none => throw .assertionError
  | some reqId =>
    let b := b.slideCommon last empty reqId
    pure (if b.isPoolingModel then b else b.slideSampling last empty)

/-- The largest row up to `last` that is not vacated. -/
def lastFilled (removed : List ℕ) : ℕ → Option ℕ
  | 0 => if 0 ∈ removed then none else some 0
  | last + 1 => if last + 1 ∈ removed then lastFilled removed last else some (last + 1)

/-- The loop of `condense`. Every round pops one of the vacated rows, so that their number
bounds the rounds. -/
def condenseLoop : ℕ → InputBatch → ℕ → Raises InputBatch
  | 0, b, _ => pure b
  | rounds + 1, b, last =>
    if b.batchUpdateBuilder.removed.isEmpty then pure b
    else
      match lastFilled b.batchUpdateBuilder.removed last, b.batchUpdateBuilder.popRemoved with
      | some last, (some empty, builder) =>
        if empty ≥ last then pure b
        else do
          let b ← { b with batchUpdateBuilder := builder }.slide last empty
          condenseLoop rounds b (last - 1)
      | _, _ => pure b

/-- `del lists[numReqs:]` -/
def trimLists (b : InputBatch) (numReqs : ℕ) : InputBatch :=
  { b with
    reqIds := b.reqIds.take numReqs
    reqOutputTokenIds := b.reqOutputTokenIds.take numReqs
    specTokenIds := b.specTokenIds.take numReqs }

def sortRemoved (b : InputBatch) : InputBatch :=
  { b with batchUpdateBuilder := b.batchUpdateBuilder.ensureRemovedSorted }

def condense (b : InputBatch) : Raises InputBatch :=
  let numReqs := b.numReqs
  let b := b.sortRemoved
  let emptyReqIndices := b.batchUpdateBuilder.removed
  if emptyReqIndices.isEmpty then pure b
  else if numReqs = 0 then pure (b.trimLists 0)
  else do
    let b ← condenseLoop emptyReqIndices.length b (numReqs + emptyReqIndices.length - 1)
    pure (b.trimLists numReqs)

/-- The prompt tokens of all rows, padded to the longest prompt with the vocabulary size. -/
def makePromptTokenIdsCpuTensor (b : InputBatch) : List (List TokenId) :=
  let maxPromptLen := (firstEntries b.numReqs b.numPromptTokens).foldl max 0
  (List.range b.numReqs).map fun i =>
    (List.range maxPromptLen).map fun p =>
      if p < b.numPromptTokens i then b.tokenIds i p else b.vocabSize

def makeSamplingMetadata (b : InputBatch) : SamplingMetadata :=
  let numReqs := b.numReqs
  let noPenalties := b.requestSets.noPenalties
  let needsPromptTokenIds :=
    !noPenalties || (firstEntries numReqs b.logitsProcessingNeedsTokenIds).any id
  let thinkingBudgetTracksReqs := match b.thinkingBudgetStateHolder with
    | some holder => holder.hasTrackedRequests
    | none => false
  let needsOutputTokenIds := !noPenalties || !b.badWordsTokenIds.isEmpty ||
    b.logitsprocsNeedOutputTokenIds || thinkingBudgetTracksReqs
  { temperature :=
      if b.requestSets.randomReqs.isEmpty then none
      else some (firstEntries numReqs b.samplingRows.temperature)
    topP :=
      if b.requestSets.topPReqs.isEmpty then none
      else some (firstEntries numReqs b.samplingRows.topP)
    topK :=
      if b.requestSets.topKReqs.isEmpty then none
      else some (firstEntries numReqs b.samplingRows.topK)
    noPenalties
    promptTokenIds := if needsPromptTokenIds then some b.makePromptTokenIdsCpuTensor else none
    outputTokenIds := if needsOutputTokenIds then b.reqOutputTokenIds else []
    allowedTokenIdsMask :=
      if b.requestSets.hasAllowedTokenIds.isEmpty then none
      else b.allowedTokenIdsMask.map fun mask => firstEntries numReqs mask }

def refreshMetadata (outputs : Outputs) (b : InputBatch) : InputBatch :=
  if b.isPoolingModel then
    let (batchChanged, builder) := b.batchUpdateBuilder.reset
    let b := { b with batchUpdateBuilder := builder }
    if batchChanged then { b with samplingMetadata := b.makeSamplingMetadata } else b
  else
    let (batchUpdate, builder) := b.batchUpdateBuilder.getAndReset b.numReqs
    let b := { b with
      batchUpdateBuilder := builder
      thinkingBudgetStateHolder := match batchUpdate with
        | some u => b.thinkingBudgetStateHolder.map fun holder => holder.syncBatch u
        | none => b.thinkingBudgetStateHolder
      logitsprocs := b.logitsprocs.updateState outputs batchUpdate }
    if batchUpdate.isSome then { b with samplingMetadata := b.makeSamplingMetadata } else b

end InputBatch

/-- The configuration a batch is created with; `uninit` is what the uninitialised arrays hold. -/
structure BatchConfig where
  isPoolingModel : Bool := false
  maxNumReqs : ℕ
  maxModelLen : ℕ
  vocabSize : ℕ
  blockTable : MultiGroupBlockTable := []
  logitsprocsNeedOutputTokenIds : Bool := false
  reasoning : Option (List TokenId × List TokenId) := none
  uninit : ℕ → SamplingScalars := fun _ => ⟨0, 0, 0, 0, 0, 0⟩

/-- An empty batch. -/
def BatchConfig.newBatch (c : BatchConfig) : InputBatch where
  isPoolingModel := c.isPoolingModel
  maxNumReqs := c.maxNumReqs
  maxModelLen := c.maxModelLen
  vocabSize := c.vocabSize
  logitsprocsNeedOutputTokenIds := c.logitsprocsNeedOutputTokenIds
  reqIds := []
  reqIdToIndex := Dict.empty
  tokenIds := fun _ _ => 0
  isTokenIds := fun _ _ => false
  reqPromptEmbeds := Dict.empty
  numTokensNoSpec := fun _ => 0
  numPromptTokens := fun _ => 0
  numComputedTokens := fun _ => 0
  blockTable := c.blockTable
  samplingRows :=
    { temperature := fun i => (c.uninit i).temperature
      topP := fun i => (c.uninit i).topP
      topK := fun i => (c.uninit i).topK
      frequencyPenalties := fun i => (c.uninit i).frequencyPenalty
      presencePenalties := fun i => (c.uninit i).presencePenalty
      repetitionPenalties := fun i => (c.uninit i).repetitionPenalty }
  requestSets := {}
  numAcceptedTokens := fun _ => 1
  requestLoraMapping := fun _ => 0
  loraIdToRequestIds := Dict.empty
  loraIdToLoraRequest := Dict.empty
  generators := Dict.empty
  batchUpdateBuilder := {}
  allowedTokenIdsMask := none
  badWordsTokenIds := Dict.empty
  logitsProcessingNeedsTokenIds := fun _ => false
  reqOutputTokenIds := []
  specTokenIds := List.replicate c.maxNumReqs []
  logitsprocs := {}
  thinkingBudgetStateHolder := c.reasoning.map fun r =>
    { thinkStartTokenIds := r.1, thinkEndTokenIds := r.2 }
  samplingMetadata :=
    { temperature := none, topP := none, topK := none, noPenalties := true
      promptTokenIds := none, outputTokenIds := [], allowedTokenIdsMask := none }
  poolingParams := Dict.empty
  prevReqIdToIndex := none

end Vllm.Worker
