import Vllm.Sched.EncoderCache

/-! The two sides that look for multimodal embeddings in a window of tokens: the scheduler's
`_try_schedule_encoder_inputs`, and `_gather_mm_embeddings` of the worker that runs the step. -/
namespace Vllm

/-- `bisect.bisect_left` with a key, on a list that the key sorts. -/
def bisectLeft {α : Type} (key : α → ℕ) (l : List α) (x : ℕ) : ℕ :=
  (l.takeWhile fun a => key a < x).length

def getMmFeaturesInWindow (mmFeatures : List MultiModalFeatureSpec) (start stop : ℕ) : ℕ × ℕ :=
  (bisectLeft MultiModalFeatureSpec.endPos mmFeatures (start + 1),
    bisectLeft MultiModalFeatureSpec.offset mmFeatures stop)

/-- What the scheduler is configured with. `hasCacheItem` is the encoder cache connector. -/
structure EncoderConfig where
  isEncoderDecoder : Bool
  disableChunkedMmInput : Bool
  hasCacheItem : Option (String → Bool)

/-- The local variables of `_try_schedule_encoder_inputs`, and the manager it updates. -/
structure EncoderScan where
  manager : EncoderCacheManager
  numNewTokens : ℤ
  encoderComputeBudget : ℕ
  mmHashesToSchedule : List String := []
  numEmbedsToSchedule : ℕ := 0
  encoderInputsToSchedule : List ℕ := []
  externalLoadEncoderInput : List ℕ := []

namespace EncoderConfig

/-- The step would compute only a part of the input, and may start behind none of it. -/
def Splits (config : EncoderConfig) (f : MultiModalFeatureSpec)
    (numComputedTokens : ℕ) (numNewTokens : ℤ) : Prop :=
  config.disableChunkedMmInput = true ∧ numComputedTokens < f.offset ∧
    numComputedTokens + numNewTokens < f.endPos

instance (config : EncoderConfig) (f : MultiModalFeatureSpec) (c : ℕ)
    (n : ℤ) : Decidable (config.Splits f c n) := by
  unfold Splits
  infer_instance

def isExternal (config : EncoderConfig) (identifier : String) : Bool :=
  match config.hasCacheItem with
  | none => false
  | some hasCacheItem => hasCacheItem identifier

/-- The embeddings of the input among the tokens that the step would compute. -/
def embedsInStep (f : MultiModalFeatureSpec) (numComputedTokens : ℕ) (numNewTokens : ℤ) : ℤ × ℤ :=
  f.mmPosition.getEmbedsIndicesInRange (max 0 ((numComputedTokens : ℤ) - f.offset))
    (min (f.mmPosition.length : ℤ) ((numComputedTokens : ℤ) + numNewTokens - f.offset))

/-- What is left of the loop body once the input is neither scheduled already nor cached. The
first component says that the loop is left. -/
def placeEncoderInput (config : EncoderConfig) (request : Request)
    (numComputedTokens shiftComputedTokens i : ℕ) (f : MultiModalFeatureSpec) (s : EncoderScan) :
    Raises (Bool × EncoderScan) := do
  if config.Splits f numComputedTokens s.numNewTokens then
    pure (true, { s with
      numNewTokens := max 0 ((f.offset : ℤ) - (numComputedTokens + shiftComputedTokens)) })
  else
    let (ok, manager) ← s.manager.canAllocate request i s.encoderComputeBudget
      s.numEmbedsToSchedule
    let s := { s with manager }
    if ok = false then
      if numComputedTokens + shiftComputedTokens < f.offset then
        pure (true, { s with
          numNewTokens := (f.offset : ℤ) - (numComputedTokens + shiftComputedTokens) })
      else pure (true, { s with numNewTokens := 0 })
    else
      let (currEmbedsStart, currEmbedsEnd) := embedsInStep f numComputedTokens s.numNewTokens
      let numEncoderEmbeds := f.mmPosition.getNumEmbeds
      if currEmbedsEnd - currEmbedsStart = 0 then pure (false, s)
      else if config.isExternal f.identifier then
        pure (false, { s with
          mmHashesToSchedule := setAdd s.mmHashesToSchedule f.identifier
          externalLoadEncoderInput := s.externalLoadEncoderInput ++ [i]
          numEmbedsToSchedule := s.numEmbedsToSchedule + numEncoderEmbeds })
      else
        pure (false, { s with
          numEmbedsToSchedule := s.numEmbedsToSchedule + numEncoderEmbeds
          encoderComputeBudget := s.encoderComputeBudget - numEncoderEmbeds
          mmHashesToSchedule := setAdd s.mmHashesToSchedule f.identifier
          encoderInputsToSchedule := s.encoderInputsToSchedule ++ [i] })

/-- One turn of the loop over the inputs in the window. -/
def scanEncoderInput (config : EncoderConfig) (request : Request)
    (numComputedTokens shiftComputedTokens i : ℕ) (s : EncoderScan) :
    Raises (Bool × EncoderScan) := do
  let f ← EncoderCacheManager.feature request i
  if config.isEncoderDecoder then
    if numComputedTokens > 0 then do
      Raises.require (f.offset = 0)
      pure (false, s)
    else config.placeEncoderInput request numComputedTokens shiftComputedTokens i f s
  else if f.identifier ∈ s.mmHashesToSchedule then pure (false, s)
  else
    let (hit, manager) ← s.manager.checkAndUpdateCache request i
    let s := { s with manager }
    if hit then pure (false, s)
    else config.placeEncoderInput request numComputedTokens shiftComputedTokens i f s

def scanEncoderInputs (config : EncoderConfig) (request : Request)
    (numComputedTokens shiftComputedTokens : ℕ) : List ℕ → EncoderScan → Raises EncoderScan
  | [], s => pure s
  | i :: rest, s => do
    let (stop, s) ← config.scanEncoderInput request numComputedTokens shiftComputedTokens i s
    if stop then pure s
    else scanEncoderInputs config request numComputedTokens shiftComputedTokens rest s

/-- The inputs to schedule, the tokens to run, the budget left and the inputs to load are fields
of the result. -/
def tryScheduleEncoderInputs (config : EncoderConfig) (manager : EncoderCacheManager)
    (request : Request) (numComputedTokens : ℕ) (numNewTokens : ℤ) (encoderComputeBudget : ℕ)
    (shiftComputedTokens : ℕ := 0) : Raises EncoderScan :=
  if numNewTokens = 0 ∨ request.hasEncoderInputs = false then
    pure { manager, numNewTokens, encoderComputeBudget }
  else
    let (lo, hi) := getMmFeaturesInWindow request.mmFeatures numComputedTokens
      (numComputedTokens + numNewTokens + shiftComputedTokens).toNat
    let lo := if config.isEncoderDecoder then 0 else lo
    config.scanEncoderInputs request numComputedTokens shiftComputedTokens
      (List.range' lo (hi - lo)) { manager, numNewTokens, encoderComputeBudget }

end EncoderConfig

/-- How `_gather_mm_embeddings` fails. -/
inductive GatherError where
  | indexError
  | emptyRange
  | encoderCacheMiss (mmHash : String)
  deriving DecidableEq

/-- Rows `embedsStart` to `embedsEnd` of an encoder output, for the tokens of the step from
`startPos` to `endPos`. -/
structure GatheredEmbeds where
  mmHash : String
  startPos : ℤ
  endPos : ℤ
  embedsStart : ℤ
  embedsEnd : ℤ
  isEmbed : Option (List Bool)
  deriving DecidableEq

/-- The turn of the worker's loop for one feature of a request. -/
def gatherFeature (encoderCache : String → Bool) (mmFeatures : List MultiModalFeatureSpec)
    (numComputedTokens numScheduledTokens reqStartIdx i : ℕ) :
    Except GatherError (Option GatheredEmbeds) :=
  match mmFeatures[i]? with
  | none => .error .indexError
  | some f =>
    let startIdx := max ((numComputedTokens : ℤ) - f.offset) 0
    let endIdx := min ((numComputedTokens : ℤ) - f.offset + numScheduledTokens)
      (f.mmPosition.length : ℤ)
    if startIdx < endIdx then
      let (currEmbedsStart, currEmbedsEnd) := f.mmPosition.getEmbedsIndicesInRange startIdx endIdx
      if currEmbedsStart = currEmbedsEnd then .ok none
      else if encoderCache f.identifier = false then .error (.encoderCacheMiss f.identifier)
      else
        let reqStartPos := (reqStartIdx : ℤ) + f.offset - numComputedTokens
        .ok (some {
          mmHash := f.identifier
          startPos := reqStartPos + startIdx
          endPos := reqStartPos + endIdx
          embedsStart := currEmbedsStart
          embedsEnd := currEmbedsEnd
          isEmbed := f.mmPosition.isEmbed.map
            fun mask => (mask.take endIdx.toNat).drop startIdx.toNat })
    else .error .emptyRange

/-- The part of `_gather_mm_embeddings` for one request. `numComputedTokens` is shifted already. -/
def gatherMmEmbeddings (encoderCache : String → Bool) (mmFeatures : List MultiModalFeatureSpec)
    (numComputedTokens numScheduledTokens reqStartIdx : ℕ) :
    Except GatherError (List GatheredEmbeds) := do
  let (lo, hi) := getMmFeaturesInWindow mmFeatures numComputedTokens
    (numComputedTokens + numScheduledTokens)
  let gathered ← (List.range' lo (hi - lo)).mapM
    (gatherFeature encoderCache mmFeatures numComputedTokens numScheduledTokens reqStartIdx)
  pure (gathered.filterMap id)

end Vllm
