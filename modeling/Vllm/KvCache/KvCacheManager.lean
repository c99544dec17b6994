import Vllm.KvCache.CacheHit

/-! `kv_cache_coordinator.py` and `kv_cache_manager.py`: the coordinator runs an operation on the
managers of all groups, one after the other on one block pool. -/
namespace Vllm

/-- KV cache groups that share one spec. -/
structure SpecGroup where
  spec : KVCacheSpec
  groupIds : List ℕ
  useEagle : Bool

inductive CoordinatorKind where
  | noPrefixCache
  | unitary
  | hybrid (attentionGroups : List SpecGroup)

structure KVCacheCoordinator where
  kind : CoordinatorKind
  enableCaching : Bool
  schedulerBlockSize : ℕ
  hashBlockSize : ℕ
  dcpWorldSize : ℕ
  pcpWorldSize : ℕ
  blockPool : BlockPool
  eagleGroupIds : List ℕ
  singleTypeManagers : List SingleTypeKVCacheManager
  retentionInterval : Option ℕ

structure KVCacheGroupSpec where
  kvCacheSpec : KVCacheSpec
  isEagleGroup : Bool := false

/-- The arguments of the constructors and the environment variables they read.
`watermarkBlocks` is `int(watermark * num_blocks)`. -/
structure KVCacheManagerConfig where
  numBlocks : ℕ
  kvCacheGroups : List KVCacheGroupSpec
  maxModelLen : ℕ
  schedulerBlockSize : ℕ
  hashBlockSize : ℕ
  maxNumBatchedTokens : ℕ
  enableCaching : Bool := true
  useEagle : Bool := false
  enableKvCacheEvents : Bool := false
  dcpWorldSize : ℕ := 1
  pcpWorldSize : ℕ := 1
  watermarkBlocks : ℕ := 0
  retentionInterval : Option ℕ := none
  useIntBlockHashes : Bool := false
  sha256 : List UInt8 → List UInt8 := id

namespace KVCacheManagerConfig

def eagleGroupIds (cfg : KVCacheManagerConfig) : List ℕ :=
  let flagged := (cfg.kvCacheGroups.zipIdx.filter fun g => g.1.isEagleGroup).map Prod.snd
  if cfg.useEagle ∧ flagged = [] then List.range cfg.kvCacheGroups.length else flagged

def blockSize (cfg : KVCacheManagerConfig) (spec : KVCacheSpec) : ℕ :=
  if cfg.dcpWorldSize * cfg.pcpWorldSize > 1
  then spec.blockSize * (cfg.dcpWorldSize * cfg.pcpWorldSize) else spec.blockSize

def getManagerForKvCacheSpec (cfg : KVCacheManagerConfig) (spec : KVCacheSpec)
    (kvCacheGroupId : ℕ) (useEagle : Bool) : SingleTypeKVCacheManager where
  kvCacheSpec := spec
  enableCaching := cfg.enableCaching
  kvCacheGroupId
  schedulerBlockSize := cfg.schedulerBlockSize
  dcpWorldSize := cfg.dcpWorldSize
  pcpWorldSize := cfg.pcpWorldSize
  maxAdmissionBlocksPerRequest :=
    spec.maxAdmissionBlocksPerRequest cfg.maxNumBatchedTokens cfg.maxModelLen
  useEagle

def validatePrefixCacheRetentionInterval (cfg : KVCacheManagerConfig) : Raises Unit :=
  match cfg.retentionInterval with
  | none => pure ()
  | some interval =>
    if ¬ (cfg.kvCacheGroups.any fun g => g.kvCacheSpec.isSlidingWindow) ∨
      interval % cfg.schedulerBlockSize ≠ 0 then throw .valueError else pure ()

/-- The spec group of a KV cache group: the first with the same spec, or a new one. -/
def addToSpecGroups (groupId : ℕ) (spec : KVCacheSpec) (useEagle : Bool) :
    List SpecGroup → List SpecGroup
  | [] => [⟨spec, [groupId], useEagle⟩]
  | g :: gs =>
    if g.spec = spec then
      ⟨g.spec, g.groupIds ++ [groupId], g.useEagle || useEagle⟩ :: gs
    else g :: addToSpecGroups groupId spec useEagle gs

/-- `verify_and_split_kv_cache_groups`: groups by spec, full attention first. -/
def attentionGroups (cfg : KVCacheManagerConfig) : List SpecGroup :=
  let groups := cfg.kvCacheGroups.zipIdx.foldl (fun groups g =>
    addToSpecGroups g.2 g.1.kvCacheSpec (g.2 ∈ cfg.eagleGroupIds) groups) []
  groups.filter (fun g => g.spec.isFullAttention) ++
    groups.filter (fun g => ¬ g.spec.isFullAttention)

/-- Whether the manager of a group drops the lookahead block of EAGLE. -/
def managerUsesEagle (cfg : KVCacheManagerConfig) (kind : CoordinatorKind) (groupId : ℕ) : Bool :=
  match kind with
  | .noPrefixCache => false
  | .unitary => groupId ∈ cfg.eagleGroupIds
  | .hybrid groups => groups.any fun g => g.useEagle && decide (groupId ∈ g.groupIds)

/-- `get_kv_cache_coordinator` chooses the class and checks its assertions. -/
def coordinatorKind (cfg : KVCacheManagerConfig) : Raises CoordinatorKind :=
  if cfg.enableCaching = false then pure .noPrefixCache
  else if cfg.kvCacheGroups.length = 1 then do
    Raises.require (∀ g ∈ cfg.kvCacheGroups, cfg.hashBlockSize = cfg.blockSize g.kvCacheSpec)
    pure .unitary
  else do
    Raises.require (∀ g ∈ cfg.kvCacheGroups, g.kvCacheSpec.blockSize % cfg.hashBlockSize = 0)
    Raises.require (cfg.dcpWorldSize = 1 ∧ cfg.pcpWorldSize = 1)
    Raises.require (cfg.attentionGroups.length > 1)
    pure (.hybrid cfg.attentionGroups)

def getKvCacheCoordinator (cfg : KVCacheManagerConfig) : Raises KVCacheCoordinator := do
  Raises.require (cfg.schedulerBlockSize % cfg.hashBlockSize = 0 ∧
    ∀ g ∈ cfg.kvCacheGroups, cfg.schedulerBlockSize % g.kvCacheSpec.blockSize = 0)
  let blockPool ← BlockPool.init cfg.numBlocks cfg.enableCaching cfg.hashBlockSize
    cfg.enableKvCacheEvents cfg.useIntBlockHashes cfg.sha256
  cfg.validatePrefixCacheRetentionInterval
  let kind ← cfg.coordinatorKind
  pure {
    kind, blockPool
    enableCaching := cfg.enableCaching
    schedulerBlockSize := cfg.schedulerBlockSize
    hashBlockSize := cfg.hashBlockSize
    dcpWorldSize := cfg.dcpWorldSize
    pcpWorldSize := cfg.pcpWorldSize
    eagleGroupIds := cfg.eagleGroupIds
    singleTypeManagers := cfg.kvCacheGroups.zipIdx.map fun g =>
      cfg.getManagerForKvCacheSpec g.1.kvCacheSpec g.2 (cfg.managerUsesEagle kind g.2)
    retentionInterval := cfg.retentionInterval }

end KVCacheManagerConfig

/-- The hits of every group, their length in tokens, and how much longer the longest hit
of a single group is. -/
structure CacheHitResult where
  blocks : List (List BlockId)
  numTokens : ℕ
  numUncachedCommonPrefixTokens : ℕ := 0

/-- A spec group in a hybrid lookup, with the rows found so far. -/
structure GroupHit where
  group : SpecGroup
  rows : Option (List HitRow) := none

namespace GroupHit

/-- The blocks of one KV cache group. -/
def column (hit : GroupHit) (nullBlock : BlockId) (groupId : ℕ) : List BlockId :=
  (hit.rows.getD []).map fun row => row.getD (hit.group.groupIds.idxOf groupId) nullBlock

def truncate (hit : GroupHit) (hitLength : ℕ) : GroupHit :=
  { hit with rows := hit.rows.map fun rows => rows.take (hitLength / hit.group.spec.blockSize) }

end GroupHit

/-- The variables of the fixed-point loop. -/
structure HybridScan where
  currHitLength : ℕ
  longestHitLength : ℕ
  eagleVerified : List ℕ
  hits : List GroupHit

namespace KVCacheCoordinator

/-- An operation on the managers, one after the other. -/
def forEach {α β : Type} (op : α → BlockPool → Raises (β × BlockPool)) :
    List α → BlockPool → Raises (List β × BlockPool)
  | [], pool => pure ([], pool)
  | a :: as, pool => do
    let (b, pool) ← op a pool
    let (bs, pool) ← forEach op as pool
    pure (b :: bs, pool)

/-- The coordinator after its managers and the pool have changed. -/
def update (c : KVCacheCoordinator)
    (result : List SingleTypeKVCacheManager × BlockPool) : KVCacheCoordinator :=
  { c with singleTypeManagers := result.1, blockPool := result.2 }

def withHits (c : KVCacheCoordinator) (newComputedBlocks : List (List BlockId)) :
    List (SingleTypeKVCacheManager × List BlockId) :=
  c.singleTypeManagers.zipIdx.map fun m => (m.1, newComputedBlocks.getD m.2 [])

def getNumBlocksToAllocate (c : KVCacheCoordinator) (requestId : RequestId) (numTokens : ℕ)
    (newComputedBlocks : List (List BlockId))
    (numEncoderTokens totalComputedTokens numTokensMainModel : ℕ) (applyAdmissionCap : Bool) :
    Raises ℤ := do
  let counts ← (c.withHits newComputedBlocks).mapM fun (m, hits) =>
    if m.kvCacheSpec.isCrossAttention then
      m.getNumBlocksToAllocate c.blockPool requestId numEncoderTokens [] 0 numEncoderTokens
        applyAdmissionCap
    else m.getNumBlocksToAllocate c.blockPool requestId numTokens hits totalComputedTokens
      numTokensMainModel applyAdmissionCap
  pure counts.sum

def allocateNewComputedBlocks (c : KVCacheCoordinator) (requestId : RequestId)
    (newComputedBlocks : List (List BlockId))
    (numLocalComputedTokens numExternalComputedTokens : ℕ) : Raises KVCacheCoordinator := do
  let result ← forEach (fun (m, hits) pool => m.allocateNewComputedBlocks pool requestId hits
    numLocalComputedTokens numExternalComputedTokens) (c.withHits newComputedBlocks) c.blockPool
  pure (c.update result)

def allocateNewBlocks (c : KVCacheCoordinator) (requestId : RequestId)
    (numTokens numTokensMainModel numEncoderTokens : ℕ) :
    Raises (List (List BlockId) × KVCacheCoordinator) := do
  let (results, pool) ← forEach (fun m pool => do
    let (blocks, m, pool) ← SingleTypeKVCacheManager.allocateNewBlocks m pool requestId
      (if m.kvCacheSpec.isCrossAttention then numEncoderTokens else numTokens) numTokensMainModel
    pure ((blocks, m), pool)) c.singleTypeManagers c.blockPool
  pure (results.map Prod.fst, c.update (results.map Prod.snd, pool))

/-- How many tokens a manager caches: all, or in a hybrid coordinator those of aligned
segments and one more block for EAGLE. -/
def numTokensToCache (c : KVCacheCoordinator) (m : SingleTypeKVCacheManager)
    (numComputedTokens : ℕ) : ℕ :=
  match c.kind with
  | .hybrid _ =>
    let aligned := numComputedTokens / c.schedulerBlockSize * c.schedulerBlockSize
    if m.useEagle ∧ aligned > 0 then min numComputedTokens (aligned + m.blockSize) else aligned
  | _ => numComputedTokens

def cacheBlocks (c : KVCacheCoordinator) (request : Request) (numComputedTokens : ℕ) :
    Raises KVCacheCoordinator := do
  let result ← forEach (fun m pool => m.cacheBlocks pool request
    (c.numTokensToCache m numComputedTokens) c.retentionInterval) c.singleTypeManagers c.blockPool
  pure (c.update result)

def free (c : KVCacheCoordinator) (requestId : RequestId) : Raises KVCacheCoordinator := do
  let result ← forEach (fun m pool => m.free pool requestId) c.singleTypeManagers c.blockPool
  pure (c.update result)

def removeSkippedBlocks (c : KVCacheCoordinator) (requestId : RequestId)
    (totalComputedTokens : ℕ) : Raises KVCacheCoordinator := do
  let result ← forEach (fun m pool => m.removeSkippedBlocks pool requestId totalComputedTokens)
    c.singleTypeManagers c.blockPool
  pure (c.update result)

def newStepStarts (c : KVCacheCoordinator) : KVCacheCoordinator :=
  { c with singleTypeManagers := c.singleTypeManagers.map fun m => m.newStepStarts }

def getBlocks (c : KVCacheCoordinator) (requestId : RequestId) : List (List BlockId) :=
  c.singleTypeManagers.map fun m => m.blocksOf requestId

/-- The hashes at the granularity of a spec. -/
def specHashes (c : KVCacheCoordinator) (spec : KVCacheSpec) (blockHashes : List BlockHash) :
    List BlockHash :=
  if spec.blockSize = c.hashBlockSize then blockHashes
  else blockHashListWithBlockSize blockHashes c.hashBlockSize spec.blockSize

/-- One spec group in a pass of the hybrid lookup. -/
def hybridGroup (c : KVCacheCoordinator) (blockHashes : List BlockHash)
    (maxCacheHitLength idx : ℕ) (hit : GroupHit) (scan : HybridScan) : Raises HybridScan :=
  let spec := hit.group.spec
  if spec.isFullAttention ∧ hit.rows.isSome then
    pure { scan with
      currHitLength := scan.currHitLength / spec.blockSize * spec.blockSize
      hits := scan.hits ++ [hit] }
  else do
    let dropEagleBlock := hit.group.useEagle && decide (idx ∉ scan.eagleVerified)
    let maxLength := if dropEagleBlock
      then min (scan.currHitLength + spec.blockSize) maxCacheHitLength else scan.currHitLength
    let rows ← findLongestCacheHit c.blockPool (c.specHashes spec blockHashes) maxLength
      hit.group.groupIds spec dropEagleBlock c.schedulerBlockSize 1 1
    let newHitLength := rows.length * spec.blockSize
    pure {
      currHitLength := newHitLength
      longestHitLength := max scan.longestHitLength newHitLength
      eagleVerified := if dropEagleBlock then idx :: scan.eagleVerified
        else if newHitLength < scan.currHitLength then [] else scan.eagleVerified
      hits := scan.hits ++ [{ hit with rows := some rows }] }

/-- One pass over the spec groups. -/
def hybridPass (c : KVCacheCoordinator) (blockHashes : List BlockHash) (maxCacheHitLength : ℕ) :
    ℕ → List GroupHit → HybridScan → Raises HybridScan
  | _, [], scan => pure scan
  | idx, hit :: hits, scan => do
    let scan ← c.hybridGroup blockHashes maxCacheHitLength idx hit scan
    hybridPass c blockHashes maxCacheHitLength (idx + 1) hits scan

/-- The fixed-point loop. Every pass but the last lowers the hit length, so that the fuel
`max_cache_hit_length + 1` is never used up. -/
def hybridLoop (c : KVCacheCoordinator) (blockHashes : List BlockHash) (maxCacheHitLength : ℕ)
    (isSimpleHybrid : Bool) : ℕ → ℕ → HybridScan → Raises (ℕ × HybridScan)
  | 0, hitLength, scan => pure (hitLength, scan)
  | fuel + 1, hitLength, scan => do
    let scan ← c.hybridPass blockHashes maxCacheHitLength 0 scan.hits
      { scan with currHitLength := hitLength, hits := [] }
    if scan.currHitLength ≥ hitLength then pure (hitLength, scan)
    else if isSimpleHybrid then pure (scan.currHitLength, scan)
    else hybridLoop c blockHashes maxCacheHitLength isSimpleHybrid fuel scan.currHitLength scan

/-- The first spec group is cut to the final hit length if it is full attention. -/
def truncateFirst (hitLength : ℕ) : List GroupHit → List GroupHit
  | [] => []
  | hit :: hits =>
    (if hit.group.spec.isFullAttention then hit.truncate hitLength else hit) :: hits

def blocksByGroup (nullBlock : BlockId) (numGroups : ℕ) (hits : List GroupHit) :
    List (List BlockId) :=
  (List.range numGroups).map fun groupId =>
    match hits.find? fun hit => groupId ∈ hit.group.groupIds with
    | none => []
    | some hit => hit.column nullBlock groupId

def findLongestCacheHit (c : KVCacheCoordinator) (blockHashes : List BlockHash)
    (maxCacheHitLength : ℕ) : Raises CacheHitResult :=
  let numGroups := c.singleTypeManagers.length
  match c.kind with
  | .noPrefixCache => pure { blocks := List.replicate numGroups [], numTokens := 0 }
  | .unitary =>
    match c.singleTypeManagers with
    | [] => throw .indexError
    | m :: _ => do
      let rows ← Vllm.findLongestCacheHit c.blockPool blockHashes maxCacheHitLength [0]
        m.kvCacheSpec (0 ∈ c.eagleGroupIds) m.blockSize c.dcpWorldSize c.pcpWorldSize
      pure {
        blocks := [rows.map fun row => row.getD 0 c.blockPool.nullBlock]
        numTokens := rows.length * m.blockSize }
  | .hybrid groups => do
    let isSimpleHybrid :=
      groups.length = 2 ∧ (groups.head?.any fun g => g.spec.isFullAttention) = true
    let (hitLength, scan) ← c.hybridLoop blockHashes maxCacheHitLength isSimpleHybrid
      (maxCacheHitLength + 1) maxCacheHitLength
      { currHitLength := 0, longestHitLength := 0, eagleVerified := []
        hits := groups.map fun group => { group } }
    pure {
      blocks := blocksByGroup c.blockPool.nullBlock numGroups (truncateFirst hitLength scan.hits)
      numTokens := hitLength
      numUncachedCommonPrefixTokens := scan.longestHitLength - hitLength }

end KVCacheCoordinator

structure KVCacheManager where
  maxModelLen : ℕ
  enableCaching : Bool
  coordinator : KVCacheCoordinator
  watermarkBlocks : ℕ

/-- The arguments of `allocate_slots` besides the request. -/
structure AllocateSlotsArgs where
  numNewTokens : ℤ
  numNewComputedTokens : ℕ := 0
  newComputedBlocks : Option (List (List BlockId)) := none
  numLookaheadTokens : ℕ := 0
  numExternalComputedTokens : ℕ := 0
  delayCacheBlocks : Bool := false
  numEncoderTokens : ℕ := 0
  fullSequenceMustFit : Bool := false
  reservedBlocks : ℕ := 0
  hasScheduledReqs : Bool := true

namespace KVCacheManager

def init (cfg : KVCacheManagerConfig) : Raises KVCacheManager := do
  let coordinator ← cfg.getKvCacheCoordinator
  pure {
    coordinator
    maxModelLen := cfg.maxModelLen
    enableCaching := cfg.enableCaching
    watermarkBlocks := cfg.watermarkBlocks }

def blockPool (m : KVCacheManager) : BlockPool := m.coordinator.blockPool

def emptyKvCacheBlocks (m : KVCacheManager) : List (List BlockId) :=
  List.replicate m.coordinator.singleTypeManagers.length []

def getComputedBlocks (m : KVCacheManager) (request : Request) : Raises CacheHitResult :=
  if m.enableCaching = false ∨ request.skipReadingPrefixCache then
    pure { blocks := m.emptyKvCacheBlocks, numTokens := 0 }
  else m.coordinator.findLongestCacheHit request.blockHashes (request.numTokens - 1)

/-- The blocks an admission has to leave free. -/
def watermark (m : KVCacheManager) (request : Request) (hasScheduledReqs : Bool) : ℕ :=
  if hasScheduledReqs ∧ (request.status = .waiting ∨ request.status = .preempted)
  then m.watermarkBlocks else 0

/-- The gate that a request passes only if its whole sequence fits. -/
def fullSequenceFits (m : KVCacheManager) (request : Request) (args : AllocateSlotsArgs)
    (newComputedBlocks : List (List BlockId)) (totalComputedTokens : ℕ) : Raises Bool := do
  let fullNumTokens := min request.numTokens m.maxModelLen
  let numBlocksToAllocate ← m.coordinator.getNumBlocksToAllocate request.requestId fullNumTokens
    newComputedBlocks args.numEncoderTokens totalComputedTokens fullNumTokens true
  pure (numBlocksToAllocate + m.watermark request args.hasScheduledReqs ≤
    m.blockPool.getNumFreeBlocks)

/-- The blocks are taken once they are known to be available. -/
def commitSlots (m : KVCacheManager) (request : Request) (args : AllocateSlotsArgs)
    (newComputedBlocks : List (List BlockId)) (numLocalComputedTokens numTokensNeedSlot
      numTokensMainModel : ℕ) : Raises (List (List BlockId) × KVCacheManager) := do
  let coordinator ← (if newComputedBlocks.any (· ≠ []) ∨ args.numExternalComputedTokens > 0
    then m.coordinator.allocateNewComputedBlocks request.requestId newComputedBlocks
      numLocalComputedTokens args.numExternalComputedTokens
    else pure m.coordinator)
  let (newBlocks, coordinator) ← coordinator.allocateNewBlocks request.requestId
    numTokensNeedSlot numTokensMainModel args.numEncoderTokens
  if m.enableCaching = false ∨ args.delayCacheBlocks then
    pure (newBlocks, { m with coordinator })
  else do
    let coordinator ← coordinator.cacheBlocks request (min numTokensMainModel request.numTokens)
    pure (newBlocks, { m with coordinator })

/-- `None` when the blocks are not available; skipped blocks are freed all the same. -/
def allocateSlots (m : KVCacheManager) (request : Request) (args : AllocateSlotsArgs) :
    Raises (Option (List (List BlockId)) × KVCacheManager) :=
  if args.numNewTokens = 0 ∧ args.numExternalComputedTokens = 0 then throw .valueError
  else do
    let newComputedBlocks := args.newComputedBlocks.getD m.emptyKvCacheBlocks
    let numLocalComputedTokens := request.numComputedTokens + args.numNewComputedTokens
    let totalComputedTokens :=
      min (numLocalComputedTokens + args.numExternalComputedTokens) m.maxModelLen
    let fits ← (if args.fullSequenceMustFit
      then m.fullSequenceFits request args newComputedBlocks totalComputedTokens else pure true)
    if fits = false then pure (none, m)
    else do
      let numTokensMainModel := (totalComputedTokens + args.numNewTokens).toNat
      let numTokensNeedSlot := min (numTokensMainModel + args.numLookaheadTokens) m.maxModelLen
      let coordinator ← m.coordinator.removeSkippedBlocks request.requestId totalComputedTokens
      let m := { m with coordinator }
      let numBlocksToAllocate ← coordinator.getNumBlocksToAllocate request.requestId
        numTokensNeedSlot newComputedBlocks args.numEncoderTokens
        (numLocalComputedTokens + args.numExternalComputedTokens) numTokensMainModel false
      let availableBlocks : ℤ := m.blockPool.getNumFreeBlocks - args.reservedBlocks
      if numBlocksToAllocate + m.watermark request args.hasScheduledReqs > availableBlocks then
        pure (none, m)
      else do
        let (newBlocks, m) ← m.commitSlots request args newComputedBlocks numLocalComputedTokens
          numTokensNeedSlot numTokensMainModel
        pure (some newBlocks, m)

def free (m : KVCacheManager) (request : Request) : Raises KVCacheManager := do
  let coordinator ← m.coordinator.free request.requestId
  pure { m with coordinator }

def removeSkippedBlocks (m : KVCacheManager) (requestId : RequestId)
    (totalComputedTokens : ℕ) : Raises KVCacheManager := do
  let coordinator ← m.coordinator.removeSkippedBlocks requestId totalComputedTokens
  pure { m with coordinator }

end KVCacheManager

end Vllm
