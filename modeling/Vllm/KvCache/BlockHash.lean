import Vllm.Request

/-! Block hashing of `kv_cache_utils.py`: extra keys of a block, the hash of one block,
and the request block hasher with its restart position in the feature list. -/
namespace Vllm

/-- One entry of the `extra_keys` tuple: a LoRA name or cache salt, a multimodal item
with its offset from the start of the block, or a prompt-embedding digest. -/
inductive ExtraKey where
  | str (s : String)
  | mm (identifier : String) (offset : ℤ)
  | bytes (digest : List UInt8)
  deriving DecidableEq, Repr

/-- The tuple `(parent_block_hash, token_ids, extra_keys)` given to the hash function. -/
structure HashInput where
  parent : BlockHash
  tokenIds : List TokenId
  extraKeys : Option (List ExtraKey)
  deriving DecidableEq

/-- What `get_request_block_hasher` closes over, with `NONE_HASH` and `hashlib.sha256`. -/
structure BlockHasher where
  blockSize : ℕ
  blockSize_pos : 0 < blockSize
  cachingHashFn : HashInput → BlockHash
  noneHash : BlockHash
  sha256 : List UInt8 → List UInt8

/-- The Python slice `l[start:stop]`. -/
def slice {α : Type} (l : List α) (start stop : ℕ) : List α := (l.drop start).take (stop - start)

/-- The scan over the features from the current one on, with its position. -/
def mmScan (startTokenIdx endTokenIdx : ℕ) :
    List MultiModalFeatureSpec → ℕ → List ExtraKey × ℕ
  | [], idx => ([], idx)
  | f :: fs, idx =>
    if endTokenIdx > f.offset then
      if startTokenIdx ≥ f.endPos then mmScan startTokenIdx endTokenIdx fs (idx + 1)
      else
        let key := ExtraKey.mm f.identifier ((f.offset : ℤ) - startTokenIdx)
        if endTokenIdx ≥ f.endPos then
          let rest := mmScan startTokenIdx endTokenIdx fs (idx + 1)
          (key :: rest.1, rest.2)
        else ([key], idx)
    else ([], idx)

def genMmExtraHashKeys (request : Request) (startTokenIdx endTokenIdx : ℕ)
    (startMmIdx : ℤ) : Raises (List ExtraKey × ℤ) :=
  match request.mmFeatures.getLast? with
  | none => pure ([], startMmIdx)
  | some last =>
    if last.endPos ≤ startTokenIdx then pure ([], startMmIdx)
    else do
      Raises.require (startMmIdx < 0 → -startMmIdx ≤ request.mmFeatures.length)
      let currMmIdx :=
        (if startMmIdx < 0 then request.mmFeatures.length + startMmIdx else startMmIdx).toNat
      let scan := mmScan startTokenIdx endTokenIdx (request.mmFeatures.drop currMmIdx) currMmIdx
      pure (scan.1, (scan.2 : ℤ))

def genLoraExtraHashKeys (request : Request) : List ExtraKey :=
  match request.loraRequest with
  | none => []
  | some lora => [.str lora.loraName]

/-- The raw bytes of a slice of the embedding tensor, row after row. -/
def tensorData (rows : List (List UInt8)) : List UInt8 := rows.flatten

def genPromptEmbedsExtraHashKeys (sha256 : List UInt8 → List UInt8) (request : Request)
    (startTokenIdx endTokenIdx : ℕ) : List ExtraKey :=
  match request.promptEmbeds with
  | none => []
  | some rows => [.bytes (sha256 (tensorData (slice rows startTokenIdx endTokenIdx)))]

/-- The salt enters the first block only, and an empty salt counts as none. -/
def cacheSaltKeys (request : Request) (startTokenIdx : ℕ) : List ExtraKey :=
  match request.cacheSalt with
  | none => []
  | some salt => if startTokenIdx = 0 ∧ salt ≠ "" then [.str salt] else []

def generateBlockHashExtraKeys (sha256 : List UInt8 → List UInt8) (request : Request)
    (startTokenIdx endTokenIdx : ℕ) (startMmIdx : ℤ) :
    Raises (Option (List ExtraKey) × ℤ) := do
  let (mmExtraKeys, newStartMmIdx) ←
    genMmExtraHashKeys request startTokenIdx endTokenIdx startMmIdx
  let extraKeys := genLoraExtraHashKeys request ++ mmExtraKeys ++
    cacheSaltKeys request startTokenIdx ++
    genPromptEmbedsExtraHashKeys sha256 request startTokenIdx endTokenIdx
  if extraKeys = [] then pure (none, newStartMmIdx)
  else pure (some extraKeys, newStartMmIdx)

def hashBlockTokens (hasher : BlockHasher) (parentBlockHash : Option BlockHash)
    (currBlockTokenIds : List TokenId) (extraKeys : Option (List ExtraKey)) : BlockHash :=
  let parent := match parentBlockHash with
    | none => hasher.noneHash
    | some h => if h = [] then hasher.noneHash else h
  hasher.cachingHashFn ⟨parent, currBlockTokenIds, extraKeys⟩

/-- The loop of `request_block_hasher`; `fuel` bounds its rounds, each of which
consumes one block of tokens. -/
def hashLoop (hasher : BlockHasher) (request : Request) :
    ℕ → ℕ → ℤ → Option BlockHash → Raises (List BlockHash)
  | 0, _, _, _ => pure []
  | fuel + 1, startTokenIdx, currMmIdx, prevBlockHashValue => do
    let endTokenIdx := startTokenIdx + hasher.blockSize
    if endTokenIdx > request.numTokens then pure []
    else
      let (extraKeys, currMmIdx) ←
        generateBlockHashExtraKeys hasher.sha256 request startTokenIdx endTokenIdx currMmIdx
      let blockHash := hashBlockTokens hasher prevBlockHashValue
        (slice request.allTokenIds startTokenIdx endTokenIdx) extraKeys
      let rest ← hashLoop hasher request fuel endTokenIdx currMmIdx (some blockHash)
      pure (blockHash :: rest)

def requestBlockHasher (hasher : BlockHasher) (request : Request) : Raises (List BlockHash) :=
  let startTokenIdx := request.blockHashes.length * hasher.blockSize
  if startTokenIdx + hasher.blockSize > request.numTokens then pure []
  else
    let currMmIdx : ℤ := if startTokenIdx > 0 then -1 else 0
    hashLoop hasher request (request.numTokens + 1) startTokenIdx currMmIdx
      request.blockHashes.getLast?

namespace Request

def updateBlockHashes (blockHasher : Option BlockHasher) (r : Request) : Raises Request :=
  match blockHasher with
  | none => pure r
  | some hasher => do
    let new ← requestBlockHasher hasher r
    pure { r with blockHashes := r.blockHashes ++ new }

def appendOutputTokenIds (blockHasher : Option BlockHasher) (r : Request)
    (tokenIds : List TokenId) : Raises Request :=
  updateBlockHashes blockHasher
    { r with
      outputTokenIds := r.outputTokenIds ++ tokenIds
      allTokenIds := r.allTokenIds ++ tokenIds }

end Request

end Vllm
