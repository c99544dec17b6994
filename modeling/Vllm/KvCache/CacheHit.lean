import Vllm.KvCache.SingleTypeManager

/-! `find_longest_cache_hit` of the manager classes. Groups that share a spec are looked up
together, and the lists of their hits always have one length: a hit is a list of rows, each
with one block per group. -/
namespace Vllm

/-- One block for every group of the lookup. -/
abbrev HitRow := List BlockId

namespace CacheHit

def lookup (pool : BlockPool) (blockHashes : List BlockHash) (groupIds : List ℕ) (i : ℕ) :
    Raises (Option HitRow) :=
  match blockHashes[i]? with
  | none => throw .indexError
  | some blockHash => pool.getCachedBlock blockHash groupIds

/-- The number of rows left when rows are popped until the length is aligned. -/
def alignedLength (blockSize alignmentTokens : ℕ) : ℕ → ℕ
  | 0 => 0
  | n + 1 =>
    if blockSize ≠ alignmentTokens ∧ (n + 1) * blockSize % alignmentTokens ≠ 0
    then alignedLength blockSize alignmentTokens n else n + 1

def popUnaligned (blockSize alignmentTokens : ℕ) (rows : List HitRow) : List HitRow :=
  rows.take (alignedLength blockSize alignmentTokens rows.length)

/-- The hits of the listed indices, up to the first miss. -/
def scanForward (pool : BlockPool) (blockHashes : List BlockHash) (groupIds : List ℕ) :
    List ℕ → Raises (List HitRow)
  | [] => pure []
  | i :: rest => do
    let cachedBlock ← lookup pool blockHashes groupIds i
    match cachedBlock with
    | none => pure []
    | some row => return row :: (← scanForward pool blockHashes groupIds rest)

def fullAttention (pool : BlockPool) (blockHashes : List BlockHash) (maxLength : ℕ)
    (groupIds : List ℕ) (blockSize : ℕ) (dropEagleBlock : Bool) (alignmentTokens : ℕ) :
    Raises (List HitRow) := do
  let rows ← scanForward pool blockHashes groupIds
    (List.range (min (maxLength / blockSize) blockHashes.length))
  let rows := if dropEagleBlock then rows.dropLast else rows
  pure (popUnaligned blockSize alignmentTokens rows)

/-- The scan of a sliding window from right to left: the rows, the length of the current
run of hits and whether it is long enough. -/
def slidingWindowScan (pool : BlockPool) (blockHashes : List BlockHash) (groupIds : List ℕ)
    (blockSize contiguousBlocks : ℕ) (dropEagleBlock : Bool) (alignmentTokens : ℕ) :
    ℕ → List HitRow → ℕ → Raises (List HitRow × ℕ × Bool)
  | 0, rows, numContiguousBlocks => pure (rows, numContiguousBlocks, false)
  | i + 1, rows, numContiguousBlocks => do
    let cachedBlock ← lookup pool blockHashes groupIds i
    match cachedBlock with
    | none =>
      slidingWindowScan pool blockHashes groupIds blockSize contiguousBlocks dropEagleBlock
        alignmentTokens i rows 0
    | some row =>
      let postPopBlocks := if dropEagleBlock then i else i + 1
      if numContiguousBlocks = 0 ∧ blockSize ≠ alignmentTokens ∧
          postPopBlocks * blockSize % alignmentTokens ≠ 0 then
        slidingWindowScan pool blockHashes groupIds blockSize contiguousBlocks dropEagleBlock
          alignmentTokens i rows numContiguousBlocks
      else if numContiguousBlocks + 1 ≥ contiguousBlocks then
        pure ((rows.set i row).take (i + (numContiguousBlocks + 1)), numContiguousBlocks + 1, true)
      else
        slidingWindowScan pool blockHashes groupIds blockSize contiguousBlocks dropEagleBlock
          alignmentTokens i (rows.set i row) (numContiguousBlocks + 1)

def slidingWindow (pool : BlockPool) (blockHashes : List BlockHash) (maxLength : ℕ)
    (groupIds : List ℕ) (windowSize blockSize : ℕ) (dropEagleBlock : Bool)
    (alignmentTokens : ℕ) : Raises (List HitRow) := do
  let contiguousBlocks :=
    SingleTypeKVCacheManager.contiguousBlocksForHit windowSize blockSize dropEagleBlock
  let maxNumBlocks := maxLength / blockSize
  let nullRow := List.replicate groupIds.length pool.nullBlock
  let (rows, numContiguousBlocks, matchFound) ← slidingWindowScan pool blockHashes groupIds
    blockSize contiguousBlocks dropEagleBlock alignmentTokens maxNumBlocks
    (List.replicate maxNumBlocks nullRow) 0
  let rows := if matchFound then rows
    else popUnaligned blockSize alignmentTokens (rows.take numContiguousBlocks)
  pure (if dropEagleBlock then popUnaligned blockSize alignmentTokens rows.dropLast else rows)

def chunkedLocalAttention (pool : BlockPool) (blockHashes : List BlockHash) (maxLength : ℕ)
    (groupIds : List ℕ) (attentionChunkSize blockSize : ℕ) (dropEagleBlock : Bool)
    (alignmentTokens : ℕ) : Raises (List HitRow) := do
  Raises.require (dropEagleBlock = false)
  Raises.require (blockSize = alignmentTokens)
  let maxNumBlocks := maxLength / blockSize
  let startBlockIdx := maxLength / attentionChunkSize * attentionChunkSize / blockSize
  let rows ← scanForward pool blockHashes groupIds
    (List.range' startBlockIdx (maxNumBlocks - startBlockIdx))
  pure (List.replicate startBlockIdx (List.replicate groupIds.length pool.nullBlock) ++ rows)

/-- The scan of a mamba state from right to left: null rows before the last aligned hit. -/
def mambaScan (pool : BlockPool) (blockHashes : List BlockHash) (groupIds : List ℕ)
    (blockSize alignmentTokens : ℕ) : ℕ → Raises (List HitRow)
  | 0 => pure []
  | i + 1 => do
    let cachedBlock ← lookup pool blockHashes groupIds i
    match cachedBlock with
    | none => mambaScan pool blockHashes groupIds blockSize alignmentTokens i
    | some row =>
      if blockSize ≠ alignmentTokens ∧ (i + 1) * blockSize % alignmentTokens ≠ 0 then
        mambaScan pool blockHashes groupIds blockSize alignmentTokens i
      else
        pure (List.replicate i (List.replicate groupIds.length pool.nullBlock) ++ [row])

end CacheHit

/-- `find_longest_cache_hit` of the manager class of a spec. -/
def findLongestCacheHit (pool : BlockPool) (blockHashes : List BlockHash) (maxLength : ℕ)
    (groupIds : List ℕ) (spec : KVCacheSpec) (dropEagleBlock : Bool)
    (alignmentTokens dcpWorldSize pcpWorldSize : ℕ) : Raises (List HitRow) :=
  match spec.kind with
  | .fullAttention _ =>
    CacheHit.fullAttention pool blockHashes maxLength groupIds
      (if dcpWorldSize * pcpWorldSize > 1 then spec.blockSize * (dcpWorldSize * pcpWorldSize)
        else spec.blockSize) dropEagleBlock alignmentTokens
  | .slidingWindow w => do
    Raises.require (dcpWorldSize = 1 ∧ pcpWorldSize = 1)
    CacheHit.slidingWindow pool blockHashes maxLength groupIds w spec.blockSize dropEagleBlock
      alignmentTokens
  | .chunkedLocalAttention c => do
    Raises.require (dcpWorldSize = 1 ∧ pcpWorldSize = 1)
    CacheHit.chunkedLocalAttention pool blockHashes maxLength groupIds c spec.blockSize
      dropEagleBlock alignmentTokens
  | .mamba _ _ => do
    Raises.require (dcpWorldSize = 1 ∧ pcpWorldSize = 1)
    CacheHit.mambaScan pool blockHashes groupIds spec.blockSize alignmentTokens
      (maxLength / spec.blockSize)
  | .crossAttention => throw .notImplementedError

end Vllm
