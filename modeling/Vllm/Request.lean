import Vllm.Lib.Raise
import Mathlib.Data.Rat.Defs
import Mathlib.Data.List.Basic

/-! The request object shared by the block hasher, the KV cache manager and the
scheduler. Token lists, counters and multimodal features follow `Request.__init__`. -/
namespace Vllm

abbrev TokenId := ℤ
abbrev RequestId := ℕ
abbrev BlockHash := List UInt8

/-- `isEmbed` is a mask of `length` positions, of which those set have embeddings. -/
structure PlaceholderRange where
  offset : ℕ
  length : ℕ
  isEmbed : Option (List Bool) := none
  deriving DecidableEq, Repr

structure MultiModalFeatureSpec where
  identifier : String
  mmPosition : PlaceholderRange
  deriving DecidableEq, Repr

namespace MultiModalFeatureSpec

def offset (f : MultiModalFeatureSpec) : ℕ := f.mmPosition.offset

/-- The first position behind the placeholder. -/
def endPos (f : MultiModalFeatureSpec) : ℕ := f.mmPosition.offset + f.mmPosition.length

/-- The placeholder moved `base` tokens to the right. -/
def shift (f : MultiModalFeatureSpec) (base : ℕ) : MultiModalFeatureSpec :=
  { f with mmPosition := { f.mmPosition with offset := f.mmPosition.offset + base } }

@[simp] theorem shift_offset (f : MultiModalFeatureSpec) (base : ℕ) :
    (f.shift base).offset = f.offset + base := rfl

@[simp] theorem shift_endPos (f : MultiModalFeatureSpec) (base : ℕ) :
    (f.shift base).endPos = f.endPos + base := by
  simp only [shift, endPos]
  omega

end MultiModalFeatureSpec

structure LoRARequest where
  loraName : String
  loraIntId : ℕ
  deriving DecidableEq, Repr

inductive RequestStatus where
  | waiting | waitingForStructuredOutputGrammar | waitingForRemoteKvs
  | waitingForStreamingReq | running | preempted | finishedStopped
  | finishedLengthCapped | finishedAborted | finishedIgnored | finishedError
  | finishedRepetition
  deriving DecidableEq, Repr

/-- The continuation of a streaming session. -/
structure StreamingUpdate where
  mmFeatures : List MultiModalFeatureSpec
  promptTokenIds : Option (List TokenId)
  arrivalTime : ℚ
  deriving DecidableEq

structure Request where
  requestId : RequestId
  priority : ℤ := 0
  arrivalTime : ℚ := 0
  status : RequestStatus := .waiting
  loraRequest : Option LoRARequest := none
  cacheSalt : Option String := none
  promptTokenIds : Option (List TokenId)
  promptEmbeds : Option (List (List UInt8)) := none
  numPromptTokens : ℕ
  outputTokenIds : List TokenId := []
  allTokenIds : List TokenId
  mmFeatures : List MultiModalFeatureSpec := []
  blockHashes : List BlockHash := []
  numComputedTokens : ℕ := 0
  skipReadingPrefixCache : Bool := false
  deriving DecidableEq

namespace Request

def numTokens (r : Request) : ℕ := r.allTokenIds.length

def hasEncoderInputs (r : Request) : Bool := !r.mmFeatures.isEmpty

end Request

end Vllm
