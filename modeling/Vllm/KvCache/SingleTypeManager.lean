import Vllm.KvCache.FreeQueue
import Vllm.Lib.GridLoop

/-! `single_type_kv_cache_manager.py`: the block tables of one KV cache group. A manager
keeps, for every request, the blocks that hold its tokens; the pool is passed along. -/
namespace Vllm

/-- `cdiv` of the source. -/
abbrev cdiv (a b : ℕ) : ℕ := GridLoop.ceilDiv a b

/-- The classes of full attention specs that `type(...)` tells apart. -/
inductive FullAttentionClass where
  | fullAttention | tqFullAttention | mlaAttention | hiddenStateCache
  deriving DecidableEq, Repr

inductive MambaCacheMode where
  | none | all | align
  deriving DecidableEq, Repr

inductive SpecKind where
  | fullAttention (specClass : FullAttentionClass)
  | slidingWindow (slidingWindow : ℕ)
  | chunkedLocalAttention (attentionChunkSize : ℕ)
  | mamba (mambaCacheMode : MambaCacheMode) (numSpeculativeBlocks : ℕ)
  | crossAttention
  deriving DecidableEq, Repr

/-- A KV cache spec. `layout` stands for the fields that only spec equality reads. -/
structure KVCacheSpec where
  kind : SpecKind
  blockSize : ℕ
  layout : ℕ := 0
  blockSize_pos : 0 < blockSize
  deriving DecidableEq

namespace KVCacheSpec

def isFullAttention (spec : KVCacheSpec) : Bool :=
  match spec.kind with
  | .fullAttention _ => true
  | _ => false

def isSlidingWindow (spec : KVCacheSpec) : Bool :=
  match spec.kind with
  | .slidingWindow _ => true
  | _ => false

def isCrossAttention (spec : KVCacheSpec) : Bool := spec.kind = .crossAttention

def maxAdmissionBlocksPerRequest (spec : KVCacheSpec) (maxNumBatchedTokens maxModelLen : ℕ) :
    Option ℕ :=
  match spec.kind with
  | .slidingWindow w =>
    some (cdiv (min (w + maxNumBatchedTokens - 1) maxModelLen) spec.blockSize + 1)
  | .chunkedLocalAttention c =>
    some (cdiv (min (c + maxNumBatchedTokens) maxModelLen) spec.blockSize)
  | _ => none

end KVCacheSpec

structure SingleTypeKVCacheManager where
  kvCacheSpec : KVCacheSpec
  enableCaching : Bool
  kvCacheGroupId : ℕ
  schedulerBlockSize : ℕ
  dcpWorldSize : ℕ := 1
  pcpWorldSize : ℕ := 1
  maxAdmissionBlocksPerRequest : Option ℕ := none
  newBlockIds : List BlockId := []
  reqToBlocks : Dict RequestId (List BlockId) := .empty
  numCachedBlock : Dict RequestId ℕ := .empty
  useEagle : Bool := false
  cachedBlocksThisStep : List BlockHashWithGroupId := []
  lastStateBlockIdx : Dict RequestId ℤ := .empty
  allocatedBlockReqs : List RequestId := []

namespace SingleTypeKVCacheManager

def blockSize (m : SingleTypeKVCacheManager) : ℕ :=
  if m.dcpWorldSize * m.pcpWorldSize > 1
  then m.kvCacheSpec.blockSize * (m.dcpWorldSize * m.pcpWorldSize) else m.kvCacheSpec.blockSize

/-- The blocks of a request; the table is a `defaultdict(list)`. -/
def blocksOf (m : SingleTypeKVCacheManager) (requestId : RequestId) : List BlockId :=
  m.reqToBlocks.getD requestId []

def setBlocks (m : SingleTypeKVCacheManager) (requestId : RequestId) (blocks : List BlockId) :
    SingleTypeKVCacheManager :=
  { m with reqToBlocks := m.reqToBlocks.set requestId blocks }

/-- The specs whose new blocks are recorded for zeroing. -/
def recordsNewBlocks (m : SingleTypeKVCacheManager) : Bool :=
  match m.kvCacheSpec.kind with
  | .fullAttention .hiddenStateCache => false
  | .fullAttention _ => true
  | _ => false

def recordNewBlocks (m : SingleTypeKVCacheManager) (blocks : List BlockId) :
    SingleTypeKVCacheManager :=
  if m.recordsNewBlocks then { m with newBlockIds := m.newBlockIds ++ blocks } else m

def takeNewBlockIds (m : SingleTypeKVCacheManager) : List BlockId × SingleTypeKVCacheManager :=
  (m.newBlockIds, { m with newBlockIds := [] })

def getNumSkippedTokens (m : SingleTypeKVCacheManager) (numComputedTokens : ℤ) : ℤ :=
  match m.kvCacheSpec.kind with
  | .fullAttention _ => 0
  | .crossAttention => 0
  | .slidingWindow w => max 0 (numComputedTokens - w + 1)
  | .chunkedLocalAttention c => numComputedTokens / c * c
  | .mamba _ _ => numComputedTokens - 1

def getNumEvictableBlocks (pool : BlockPool) (blocks : List BlockId) : ℕ :=
  blocks.countP fun b => pool.refCnt b = 0 ∧ b ≠ pool.nullBlock

/-- `get_num_blocks_to_allocate` of the base class. -/
def baseNumBlocksToAllocate (m : SingleTypeKVCacheManager) (pool : BlockPool)
    (requestId : RequestId) (numTokens : ℕ) (newComputedBlocks : List BlockId)
    (totalComputedTokens : ℕ) (applyAdmissionCap : Bool) : Raises ℤ := do
  let numRequiredBlocks : ℤ :=
    match applyAdmissionCap, m.maxAdmissionBlocksPerRequest with
    | true, some cap => min (cdiv numTokens m.blockSize) cap
    | _, _ => cdiv numTokens m.blockSize
  let numReqBlocks : ℤ := (m.blocksOf requestId).length
  if m.numCachedBlock.contains requestId then do
    Raises.require (newComputedBlocks.length = 0)
    pure (max (numRequiredBlocks - numReqBlocks) 0)
  else
    let numSkippedTokens := m.getNumSkippedTokens totalComputedTokens
    let numLocalComputedBlocks := newComputedBlocks.length + numReqBlocks
    let numSkippedBlocks := numSkippedTokens / m.blockSize
    let numNewBlocks := max (numRequiredBlocks - max numSkippedBlocks numLocalComputedBlocks) 0
    let numSkippedNewComputedBlocks := max 0 (numSkippedBlocks - numReqBlocks)
    let numEvictableBlocks := getNumEvictableBlocks pool
      (newComputedBlocks.drop numSkippedNewComputedBlocks.toNat)
    pure (numNewBlocks + numEvictableBlocks)

/-- `get_num_blocks_to_allocate` of a mamba manager in `align` mode. -/
def alignNumBlocksToAllocate (m : SingleTypeKVCacheManager) (pool : BlockPool)
    (numSpeculativeBlocks : ℕ) (requestId : RequestId) (newComputedBlocks : List BlockId)
    (numTokensMainModel : ℕ) : ℤ :=
  let numRequiredBlocks : ℤ := cdiv numTokensMainModel m.blockSize + numSpeculativeBlocks
  let numNewBlocks :=
    numRequiredBlocks - newComputedBlocks.length - (m.blocksOf requestId).length
  let numNewBlocks : ℤ :=
    if numNewBlocks > 0 then
      if requestId ∈ m.allocatedBlockReqs then 1 else 1 + numSpeculativeBlocks
    else numNewBlocks
  numNewBlocks + getNumEvictableBlocks pool newComputedBlocks

def getNumBlocksToAllocate (m : SingleTypeKVCacheManager) (pool : BlockPool)
    (requestId : RequestId) (numTokens : ℕ) (newComputedBlocks : List BlockId)
    (totalComputedTokens numTokensMainModel : ℕ) (applyAdmissionCap : Bool) : Raises ℤ :=
  match m.kvCacheSpec.kind with
  | .mamba mode numSpeculativeBlocks =>
    if newComputedBlocks.getLast?.any fun b =>
      (pool.blockHash b).any (· ∈ m.cachedBlocksThisStep) then pure (pool.numGpuBlocks + 1)
    else if mode ≠ .align then
      m.baseNumBlocksToAllocate pool requestId
        (numTokens + m.kvCacheSpec.blockSize * numSpeculativeBlocks) newComputedBlocks
        totalComputedTokens applyAdmissionCap
    else pure (m.alignNumBlocksToAllocate pool numSpeculativeBlocks requestId newComputedBlocks
      numTokensMainModel)
  | _ => m.baseNumBlocksToAllocate pool requestId numTokens newComputedBlocks totalComputedTokens
      applyAdmissionCap

/-- The whole blocks that the attention window leaves behind. -/
def numSkippedBlocks (m : SingleTypeKVCacheManager) (totalComputedTokens : ℤ) : ℕ :=
  (m.getNumSkippedTokens totalComputedTokens / m.blockSize).toNat

/-- The hits that `allocate_new_computed_blocks` touches and adds to the table. -/
def keptHits (m : SingleTypeKVCacheManager) (totalComputedTokens : ℕ)
    (newComputedBlocks : List BlockId) : List BlockId :=
  newComputedBlocks.drop (m.numSkippedBlocks totalComputedTokens)

/-- The external tokens that still need a block once skipped ones are left out. -/
def keptExternalTokens (m : SingleTypeKVCacheManager)
    (numLocalComputedTokens numExternalComputedTokens : ℕ) : ℤ :=
  let total : ℤ := numLocalComputedTokens + numExternalComputedTokens
  if m.numSkippedBlocks total > 0
  then min (total - m.getNumSkippedTokens total) numExternalComputedTokens
  else numExternalComputedTokens

/-- The table of a new request before blocks for external tokens are drawn. -/
def hitTable (m : SingleTypeKVCacheManager) (nullBlock : BlockId) (totalComputedTokens : ℕ)
    (newComputedBlocks : List BlockId) : List BlockId :=
  List.replicate (m.numSkippedBlocks totalComputedTokens) nullBlock ++
    m.keptHits totalComputedTokens newComputedBlocks

/-- How many blocks a new request draws for external tokens. -/
def externalDraw (m : SingleTypeKVCacheManager) (nullBlock : BlockId)
    (newComputedBlocks : List BlockId)
    (numLocalComputedTokens numExternalComputedTokens : ℕ) : ℤ :=
  let total := numLocalComputedTokens + numExternalComputedTokens
  if m.keptExternalTokens numLocalComputedTokens numExternalComputedTokens > 0
  then cdiv total m.blockSize - (m.hitTable nullBlock total newComputedBlocks).length else 0

def allocateNewComputedBlocks (m : SingleTypeKVCacheManager) (pool : BlockPool)
    (requestId : RequestId) (newComputedBlocks : List BlockId)
    (numLocalComputedTokens numExternalComputedTokens : ℕ) :
    Raises (SingleTypeKVCacheManager × BlockPool) :=
  if m.kvCacheSpec.isCrossAttention ∨ m.numCachedBlock.contains requestId then do
    Raises.require (newComputedBlocks.length = 0)
    pure (m, pool)
  else do
    Raises.require ((m.blocksOf requestId).length = 0)
    let total := numLocalComputedTokens + numExternalComputedTokens
    let kept := m.keptHits total newComputedBlocks
    let pool ← (if m.enableCaching then pool.touch kept else do
      Raises.require (kept = [])
      pure pool)
    let reqBlocks := m.hitTable pool.nullBlock total newComputedBlocks
    let m : SingleTypeKVCacheManager := { m.setBlocks requestId reqBlocks with
      numCachedBlock := m.numCachedBlock.set requestId reqBlocks.length }
    if m.keptExternalTokens numLocalComputedTokens numExternalComputedTokens > 0 then do
      let (allocatedBlocks, pool) ← pool.getNewBlocks
        (m.externalDraw pool.nullBlock newComputedBlocks numLocalComputedTokens
          numExternalComputedTokens)
      pure ((m.setBlocks requestId (reqBlocks ++ allocatedBlocks)).recordNewBlocks
        allocatedBlocks, pool)
    else pure (m, pool)

/-- `allocate_new_blocks` of the base class. -/
def baseAllocateNewBlocks (m : SingleTypeKVCacheManager) (pool : BlockPool)
    (requestId : RequestId) (numTokens : ℕ) :
    Raises (List BlockId × SingleTypeKVCacheManager × BlockPool) :=
  let reqBlocks := m.blocksOf requestId
  let numNewBlocks : ℤ := cdiv numTokens m.blockSize - reqBlocks.length
  if numNewBlocks ≤ 0 then pure ([], m.setBlocks requestId reqBlocks, pool)
  else do
    let (newBlocks, pool) ← pool.getNewBlocks numNewBlocks
    pure (newBlocks,
      (m.setBlocks requestId (reqBlocks ++ newBlocks)).recordNewBlocks newBlocks, pool)

/-- The loop that moves the speculative blocks of the last step behind the padding. -/
def moveSpeculativeBlocks (nullBlock : BlockId) (numSkippedBlocks : ℕ) :
    List ℕ → List BlockId → List BlockId
  | [], blocks => blocks
  | blockIdx :: rest, blocks =>
    if blockIdx < numSkippedBlocks then
      moveSpeculativeBlocks nullBlock numSkippedBlocks rest
        ((blocks ++ [blocks.getD blockIdx nullBlock]).set blockIdx nullBlock)
    else blocks

/-- The table of a request in `align` mode before new blocks are drawn: padded with null
blocks, and with the speculative blocks of an earlier step moved behind the padding. -/
def movedTable (m : SingleTypeKVCacheManager) (nullBlock : BlockId) (numSpeculativeBlocks : ℕ)
    (requestId : RequestId) (numSkippedBlocks : ℕ) : List BlockId :=
  let reqBlocks := m.blocksOf requestId
  let padded := reqBlocks ++ List.replicate (numSkippedBlocks - reqBlocks.length) nullBlock
  if requestId ∈ m.allocatedBlockReqs then
    moveSpeculativeBlocks nullBlock numSkippedBlocks
      (List.range' (reqBlocks.length - numSpeculativeBlocks) numSpeculativeBlocks) padded
  else padded

/-- `allocate_new_blocks` of a mamba manager in `align` mode. -/
def alignAllocateNewBlocks (m : SingleTypeKVCacheManager) (pool : BlockPool)
    (numSpeculativeBlocks : ℕ) (requestId : RequestId) (numTokensMainModel : ℕ) :
    Raises (List BlockId × SingleTypeKVCacheManager × BlockPool) :=
  let reqBlocks := m.blocksOf requestId
  let numRequiredBlocks := cdiv numTokensMainModel m.blockSize + numSpeculativeBlocks
  if numRequiredBlocks ≤ reqBlocks.length then pure ([], m.setBlocks requestId reqBlocks, pool)
  else
    let prevBlockLen := reqBlocks.length
    let blocksAllocated := requestId ∈ m.allocatedBlockReqs
    let lastStateBlockIdx :=
      if blocksAllocated then m.lastStateBlockIdx.set requestId
        ((prevBlockLen : ℤ) - 1 - numSpeculativeBlocks)
      else if prevBlockLen > 0 then m.lastStateBlockIdx.set requestId ((prevBlockLen : ℤ) - 1)
      else m.lastStateBlockIdx
    let numSkippedBlocks := numRequiredBlocks - numSpeculativeBlocks - 1
    let moved := m.movedTable pool.nullBlock numSpeculativeBlocks requestId numSkippedBlocks
    let numNewBlocks : ℤ := (numRequiredBlocks : ℤ) - moved.length
    do
      Raises.require (numNewBlocks ≤ if blocksAllocated then 1 else numSpeculativeBlocks + 1)
      let (newBlocks, pool) ← pool.getNewBlocks numNewBlocks
      pure ((moved ++ newBlocks).drop prevBlockLen, { m.setBlocks requestId (moved ++ newBlocks) with
        lastStateBlockIdx
        allocatedBlockReqs := m.allocatedBlockReqs.insert requestId }, pool)

def allocateNewBlocks (m : SingleTypeKVCacheManager) (pool : BlockPool) (requestId : RequestId)
    (numTokens numTokensMainModel : ℕ) :
    Raises (List BlockId × SingleTypeKVCacheManager × BlockPool) :=
  match m.kvCacheSpec.kind with
  | .mamba .align numSpeculativeBlocks =>
    m.alignAllocateNewBlocks pool numSpeculativeBlocks requestId numTokensMainModel
  | .mamba _ numSpeculativeBlocks =>
    m.baseAllocateNewBlocks pool requestId (numTokens + m.blockSize * numSpeculativeBlocks)
  | _ => m.baseAllocateNewBlocks pool requestId numTokens

/-- The number of contiguous blocks that a hit of a sliding window needs. -/
def contiguousBlocksForHit (windowSize blockSize : ℕ) (useEagle : Bool) : ℕ :=
  cdiv (windowSize - 1) blockSize + if useEagle then 1 else 0

/-- The mask of a sliding window: the tails of the segments, and the tail of the latest
boundary that a replay of the prompt can land on. `none` means that every block is kept. -/
def slidingWindowMask (m : SingleTypeKVCacheManager) (windowSize startBlock endBlock : ℕ)
    (retentionInterval : Option ℕ) (numPromptTokens : ℕ) : Option (List Bool) :=
  let blockSize := m.kvCacheSpec.blockSize
  let alignmentTokens := m.schedulerBlockSize
  let need := contiguousBlocksForHit windowSize blockSize m.useEagle
  let shift := if m.useEagle then 1 else 0
  let segmentTokens : Option ℕ :=
    match retentionInterval with
    | none => some alignmentTokens
    | some 0 => none
    | some interval => some interval
  let perSegment := segmentTokens.map (· / blockSize)
  if perSegment.any (need ≥ ·) then none
  else
    let latest := (numPromptTokens - 1) / alignmentTokens * alignmentTokens
    let promptEndBlock := latest / blockSize + shift
    some ((List.range' startBlock (endBlock - startBlock)).map fun i =>
      perSegment.any (fun per => i ≥ shift ∧ (i - shift) % per ≥ per - need) ||
        (retentionInterval.isSome &&
          decide (promptEndBlock - need ≤ i ∧ i < promptEndBlock)))

def reachableBlockMask (m : SingleTypeKVCacheManager) (startBlock endBlock : ℕ)
    (retentionInterval : Option ℕ) (numPromptTokens : ℕ) : Raises (Option (List Bool)) :=
  match m.kvCacheSpec.kind with
  | .slidingWindow windowSize => do
    Raises.require (m.schedulerBlockSize % m.kvCacheSpec.blockSize = 0)
    pure (m.slidingWindowMask windowSize startBlock endBlock retentionInterval numPromptTokens)
  | _ => pure none

/-- `cache_blocks` of the base class. -/
def baseCacheBlocks (m : SingleTypeKVCacheManager) (pool : BlockPool) (request : Request)
    (numTokens : ℕ) (retentionInterval : Option ℕ) :
    Raises (SingleTypeKVCacheManager × BlockPool) :=
  let numCachedBlocks := m.numCachedBlock.getD request.requestId 0
  let numFullBlocks := numTokens / m.blockSize
  if numCachedBlocks ≥ numFullBlocks then pure (m, pool)
  else do
    let blockMask ← m.reachableBlockMask numCachedBlocks numFullBlocks retentionInterval
      request.numPromptTokens
    let pool ← pool.cacheFullBlocks request (m.blocksOf request.requestId) numCachedBlocks
      numFullBlocks m.blockSize m.kvCacheGroupId blockMask
    pure ({ m with numCachedBlock := m.numCachedBlock.set request.requestId numFullBlocks }, pool)

/-- The hashes of the new cached blocks, which mamba keeps until the next step. -/
def newStepHashes (pool : BlockPool) : List BlockId → Raises (List BlockHashWithGroupId)
  | [] => pure []
  | block :: rest =>
    if block = pool.nullBlock then newStepHashes pool rest
    else match pool.blockHash block with
      | none => throw .assertionError
      | some key => do
        let keys ← newStepHashes pool rest
        pure (key :: keys)

def cacheBlocks (m : SingleTypeKVCacheManager) (pool : BlockPool) (request : Request)
    (numTokens : ℕ) (retentionInterval : Option ℕ) :
    Raises (SingleTypeKVCacheManager × BlockPool) :=
  match m.kvCacheSpec.kind with
  | .crossAttention => throw .valueError
  | .mamba _ _ => do
    let numCachedBlocksBefore := m.numCachedBlock.getD request.requestId 0
    let (m, pool) ← m.baseCacheBlocks pool request numTokens retentionInterval
    let numCachedBlocksAfter := m.numCachedBlock.getD request.requestId 0
    let keys ← newStepHashes pool
      (slice (m.blocksOf request.requestId) numCachedBlocksBefore numCachedBlocksAfter)
    pure ({ m with cachedBlocksThisStep := m.cachedBlocksThisStep ++ keys }, pool)
  | _ => m.baseCacheBlocks pool request numTokens retentionInterval

def newStepStarts (m : SingleTypeKVCacheManager) : SingleTypeKVCacheManager :=
  { m with cachedBlocksThisStep := [] }

/-- `pop(request_id, ...)` on the tables of the base class. -/
def forget (m : SingleTypeKVCacheManager) (requestId : RequestId) : SingleTypeKVCacheManager :=
  { m with
    reqToBlocks := m.reqToBlocks.erase requestId
    numCachedBlock := m.numCachedBlock.erase requestId }

/-- The two lists of a sliding window or of skipped blocks: cached blocks go to the end of
the free queue and uncached ones to its front. -/
def freeByHash (pool : BlockPool) (blocks : List BlockId) : Raises BlockPool := do
  let pool' ← pool.freeBlocks (blocks.filter fun b => pool.blockHash b ≠ none) false
  pool'.freeBlocks (blocks.filter fun b => pool.blockHash b = none) true

def free (m : SingleTypeKVCacheManager) (pool : BlockPool) (requestId : RequestId) :
    Raises (SingleTypeKVCacheManager × BlockPool) :=
  let reqBlocks := m.blocksOf requestId
  match m.kvCacheSpec.kind with
  | .slidingWindow _ => do
    let pool ← freeByHash pool reqBlocks.reverse
    pure (m.forget requestId, pool)
  | .mamba .align _ => do
    let pool ← pool.freeBlocks reqBlocks.reverse false
    pure ({ m.forget requestId with
      allocatedBlockReqs := m.allocatedBlockReqs.filter (· ≠ requestId)
      lastStateBlockIdx := m.lastStateBlockIdx.erase requestId }, pool)
  | _ => do
    let pool ← pool.freeBlocks reqBlocks.reverse false
    pure (m.forget requestId, pool)

/-- The loop of `remove_skipped_blocks` from index `i - 1` down to the first null block: the
table with the skipped blocks replaced, and these blocks. -/
def skipLoop (nullBlock : BlockId) : ℕ → List BlockId → List BlockId × List BlockId
  | 0, blocks => (blocks, [])
  | i + 1, blocks =>
    let block := blocks.getD i nullBlock
    if block = nullBlock then (blocks, [])
    else
      let (blocks, removed) := skipLoop nullBlock i (blocks.set i nullBlock)
      (blocks, block :: removed)

/-- `remove_skipped_blocks` of the base class. -/
def baseRemoveSkippedBlocks (m : SingleTypeKVCacheManager) (pool : BlockPool)
    (requestId : RequestId) (totalComputedTokens : ℕ) :
    Raises (SingleTypeKVCacheManager × BlockPool) :=
  if m.getNumSkippedTokens totalComputedTokens ≤ 0 then pure (m, pool)
  else do
    let blocks := m.blocksOf requestId
    let numSkippedBlocks := min (m.numSkippedBlocks totalComputedTokens) blocks.length
    let (blocks, removed) := skipLoop pool.nullBlock numSkippedBlocks blocks
    let pool ← freeByHash pool removed
    pure (m.setBlocks requestId blocks, pool)

/-- A list position as Python indexes it: negative ones from the end. -/
def pyIndex (length : ℕ) (index : ℤ) : Option ℕ :=
  let index := if index < 0 then index + length else index
  if 0 ≤ index ∧ index < length then some index.toNat else none

/-- The block that held the state of two steps ago, freed in `align` mode. -/
def freeLastState (m : SingleTypeKVCacheManager) (pool : BlockPool) (requestId : RequestId)
    (numComputedTokens : ℕ) : Raises (SingleTypeKVCacheManager × BlockPool) :=
  match m.lastStateBlockIdx.get? requestId with
  | none => pure (m, pool)
  | some lastStateBlockIdx =>
    if lastStateBlockIdx < (cdiv numComputedTokens m.blockSize : ℤ) - 1 then
      let blocks := m.blocksOf requestId
      match pyIndex blocks.length lastStateBlockIdx with
      | none => throw .indexError
      | some index =>
        let block := blocks.getD index pool.nullBlock
        if block ≠ pool.nullBlock then do
          let pool ← pool.freeBlocks [block] false
          pure (m.setBlocks requestId (blocks.set index pool.nullBlock), pool)
        else pure (m, pool)
    else pure (m, pool)

def removeSkippedBlocks (m : SingleTypeKVCacheManager) (pool : BlockPool)
    (requestId : RequestId) (totalComputedTokens : ℕ) :
    Raises (SingleTypeKVCacheManager × BlockPool) :=
  match m.kvCacheSpec.kind with
  | .mamba mode numSpeculativeBlocks => do
    let numComputedTokens := totalComputedTokens - numSpeculativeBlocks
    let (m, pool) ← m.baseRemoveSkippedBlocks pool requestId numComputedTokens
    if mode = .align then m.freeLastState pool requestId numComputedTokens else pure (m, pool)
  | _ => m.baseRemoveSkippedBlocks pool requestId totalComputedTokens

end SingleTypeKVCacheManager

end Vllm
