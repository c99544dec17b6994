import Vllm.Offload.ConnectorState

/-! `offloading/scheduler.py`: the configuration that the connector derives from its spec, and how
far the offloaded blocks of a request reach beyond those computed on the GPU. -/
namespace Vllm

/-- `get_sliding_window_size_in_blocks`; none means full attention. -/
def getSlidingWindowSizeInBlocks (kind : SpecKind) (offloadedBlockSize : ℕ) :
    Raises (Option ℕ) :=
  match kind with
  | .slidingWindow w => do
    Raises.require (0 < w)
    pure (some (cdiv w offloadedBlockSize))
  | .mamba _ _ => pure (some 1)
  | .fullAttention _ => pure none
  | _ => throw .assertionError

/-- The spec of the connector: the KV cache groups, with block sizes that count the tokens of all
context parallel ranks. -/
structure OffloadingSpec where
  groups : List KVCacheSpec
  contextParallelFactor : ℕ := 1
  hashBlockSize : ℕ
  blockSizeFactor : ℕ := 1
  numWorkers : ℕ := 1
  offloadPromptOnly : Bool := true
  contextParallelFactor_pos : 0 < contextParallelFactor
  blockSizeFactor_pos : 0 < blockSizeFactor

namespace OffloadingSpec
variable (spec : OffloadingSpec)

def gpuBlockSize (group : KVCacheSpec) : ℕ := group.blockSize * spec.contextParallelFactor

def offloadedBlockSize (group : KVCacheSpec) : ℕ :=
  spec.gpuBlockSize group * spec.blockSizeFactor

/-- `resolve_mamba_align_size`: one size for all mamba groups that align. -/
def resolveMambaAlignSize : Raises (Option ℕ) :=
  spec.groups.foldlM (fun size group =>
    match group.kind with
    | .mamba .align _ => do
      Raises.require (size = none ∨ size = some (spec.offloadedBlockSize group))
      pure (some (spec.offloadedBlockSize group))
    | _ => pure size) none

/-- The block size of full attention, if there is just one. -/
def alignmentTokens (windows : List (Option ℕ)) : Option ℕ :=
  match ((spec.groups.zip windows).filterMap fun (group, window) =>
    if window = none then some (spec.offloadedBlockSize group) else none).dedup with
  | [size] => some size
  | _ => none

/-- `_alignment_block_count`. -/
def alignmentBlockCount (windows : List (Option ℕ)) (group : KVCacheSpec)
    (window : Option ℕ) : Option ℕ :=
  match spec.alignmentTokens windows, window with
  | some tokens, some size =>
    if tokens ≤ spec.offloadedBlockSize group then none
    else if tokens / spec.offloadedBlockSize group ≤ size then none
    else some (tokens / spec.offloadedBlockSize group)
  | _, _ => none

def groupConfig (windows : List (Option ℕ)) (idx : ℕ) (group : KVCacheSpec)
    (window : Option ℕ) : GroupOffloadConfig where
  groupIdx := idx
  gpuBlockSize := spec.gpuBlockSize group
  offloadedBlockSize := spec.offloadedBlockSize group
  hashBlockSizeFactor := spec.offloadedBlockSize group / spec.hashBlockSize
  slidingWindowSizeInBlocks := window
  alignmentBlockCount := spec.alignmentBlockCount windows group window

/-- `SchedulerOffloadConfig.from_spec`. -/
def schedulerConfig : Raises SchedulerOffloadConfig := do
  let windows ← spec.groups.mapM fun group =>
    getSlidingWindowSizeInBlocks group.kind (spec.offloadedBlockSize group)
  pure {
    kvGroupConfigs := (spec.groups.zip windows).mapIdx fun idx group =>
      spec.groupConfig windows idx group.1 group.2
    blockSizeFactor := spec.blockSizeFactor
    numWorkers := spec.numWorkers
    offloadPromptOnly := spec.offloadPromptOnly }

end OffloadingSpec

namespace SchedulerOffloadConfig

/-- `_lookup_groups`: full attention first. -/
def lookupGroups (config : SchedulerOffloadConfig) : List ℕ :=
  ((config.kvGroupConfigs.filter fun g => g.slidingWindowSizeInBlocks.isNone).map
    GroupOffloadConfig.groupIdx) ++ config.slidingWindowGroups

end SchedulerOffloadConfig

section Lookup
variable {M : Type} (look : M → OffloadKey → Option Bool × M)

/-- `_maximal_prefix_lookup`, after some hits and with a lookup put off or not. -/
def maximalPrefixLookup (m : M) (hitCount : ℕ) (deferLookup : Bool) :
    List OffloadKey → Option ℕ × M
  | [] => (if deferLookup then none else some hitCount, m)
  | key :: keys =>
    match look m key with
    | (none, m) => maximalPrefixLookup m (hitCount + 1) true keys
    | (some true, m) => maximalPrefixLookup m (hitCount + 1) deferLookup keys
    | (some false, m) => (if deferLookup then none else some hitCount, m)

/-- `_sliding_window_lookup`; the keys come last first. -/
def slidingWindowLookup (slidingWindowSize : ℕ) (m : M) (consecutiveHits : ℕ)
    (deferLookup : Bool) : List OffloadKey → Option ℕ × M
  | [] => (if deferLookup then none else some consecutiveHits, m)
  | key :: keys =>
    match look m key with
    | (none, m) => slidingWindowLookup slidingWindowSize m 0 true keys
    | (some false, m) => slidingWindowLookup slidingWindowSize m 0 deferLookup keys
    | (some true, m) =>
      if consecutiveHits + 1 = slidingWindowSize
      then (if deferLookup then none else some (keys.length + slidingWindowSize), m)
      else slidingWindowLookup slidingWindowSize m (consecutiveHits + 1) deferLookup keys

/-- The variables of the loop; `lookupGroups` are the groups of the next round. -/
structure LookupState (M : Type) where
  manager : M
  maxHitSizeTokens : ℕ
  numHitTokens : ℕ := 0
  deferLookup : Bool := false
  lookedUpSlidingWindow : Bool := false
  lookupGroups : List ℕ := []

/-- What comes of a group: less than a block is hit, or the loop goes on. -/
inductive LookupStep (M : Type) where
  | miss (manager : M)
  | go (s : LookupState M)

variable (config : SchedulerOffloadConfig)

/-- A hit that is shorter than before may spoil the groups before it, which are then repeated. -/
def LookupState.next (s : LookupState M) (manager : M) (isSlidingWindow isDeferred : Bool)
    (maxHitSizeTokens numHitTokens : ℕ) : LookupState M :=
  let deferLookup := s.deferLookup || isDeferred
  let shorter : Bool := numHitTokens < s.numHitTokens
  { manager, maxHitSizeTokens, numHitTokens
    deferLookup := deferLookup && !shorter
    lookedUpSlidingWindow := s.lookedUpSlidingWindow || isSlidingWindow
    lookupGroups :=
      if shorter && deferLookup then config.lookupGroups
      else if shorter && s.lookedUpSlidingWindow && s.lookupGroups.isEmpty
      then config.slidingWindowGroups
      else s.lookupGroups }

def lookupBlocks (g : GroupOffloadConfig) (m : M) (offloadKeys : List OffloadKey) :
    Option ℕ × M :=
  match g.slidingWindowSizeInBlocks with
  | none => maximalPrefixLookup look m 0 false offloadKeys
  | some size => slidingWindowLookup look size m 0 false offloadKeys.reverse

/-- The body of the loop over the groups, after its assertion. -/
def lookupIn (g : GroupOffloadConfig) (gs : RequestGroupState) (numComputedTokens : ℕ)
    (s : LookupState M) : LookupStep M :=
  let maxHitSizeTokens :=
    min s.maxHitSizeTokens (gs.offloadKeys.length * g.offloadedBlockSize)
  if maxHitSizeTokens - numComputedTokens < g.offloadedBlockSize then .miss s.manager
  else
    let numBlocks := min (cdiv maxHitSizeTokens g.offloadedBlockSize) gs.offloadKeys.length
    let startBlockIdx := numComputedTokens / g.offloadedBlockSize
    let found := lookupBlocks look g s.manager (slice gs.offloadKeys startBlockIdx numBlocks)
    if found.1 = some 0 then .miss found.2
    else
      let maxHitSizeTokens := match found.1 with
        | none => maxHitSizeTokens
        | some n => min maxHitSizeTokens (g.offloadedBlockSize * (startBlockIdx + n))
      if maxHitSizeTokens - numComputedTokens < g.offloadedBlockSize then .miss found.2
      else .go (s.next config found.2 g.slidingWindowSizeInBlocks.isSome found.1.isNone
        maxHitSizeTokens (maxHitSizeTokens - numComputedTokens))

def lookupGroup (st : RequestOffloadState) (numTokens : ℕ) (s : LookupState M) (groupIdx : ℕ) :
    Offloading (LookupStep M) := do
  let g ← Offloading.find (.other .indexError) config.kvGroupConfigs[groupIdx]?
  let gs ← Offloading.find (.other .indexError) st.groupStates[groupIdx]?
  Offloading.require (numTokens / g.offloadedBlockSize ≤ gs.offloadKeys.length)
  pure (lookupIn look config g gs st.numLocallyComputedTokens s)

/-- The groups in turn. -/
def lookupRound (st : RequestOffloadState) (numTokens : ℕ) (s : LookupState M) :
    List ℕ → Offloading (LookupStep M)
  | [] => pure (.go s)
  | groupIdx :: groups => do
    match ← lookupGroup look config st numTokens s groupIdx with
    | .miss m => pure (.miss m)
    | .go s => lookupRound st numTokens s groups

/-- The outer loop. A round that is repeated has shortened the hit, which bounds the rounds. -/
def lookupRounds (st : RequestOffloadState) (numTokens : ℕ) :
    ℕ → LookupState M → Offloading (LookupStep M)
  | 0, _ => throw (.other .runtimeError)
  | rounds + 1, s =>
    if s.lookupGroups = [] then pure (.go s)
    else do
      match ← lookupRound look config st numTokens
          { s with lookupGroups := [], lookedUpSlidingWindow := false } s.lookupGroups with
      | .miss m => pure (.miss m)
      | .go s => lookupRounds st numTokens rounds s

/-- With sliding windows the last token is computed again, and mamba hits are aligned. -/
def initialMaxHit (mambaAlignSize : Option ℕ) (numTokens : ℕ) : ℕ :=
  if config.slidingWindowGroups = [] then numTokens
  else match mambaAlignSize with
    | none => numTokens - 1
    | some size => (numTokens - 1) / size * size

/-- Whether a block of the hit is being loaded already. -/
def isBeingLoaded (st : RequestOffloadState) (blocksBeingLoaded : List OffloadKey)
    (numHitTokens : ℕ) : Bool :=
  (config.kvGroupConfigs.zip st.groupStates).any fun (g, gs) =>
    let numBlocks := cdiv (st.numLocallyComputedTokens + numHitTokens) g.offloadedBlockSize
    let startBlockIdx := st.numLocallyComputedTokens / g.offloadedBlockSize
    let offloadKeys := slice gs.offloadKeys startBlockIdx numBlocks
    let offloadKeys := match g.slidingWindowSizeInBlocks with
      | none => offloadKeys
      | some size => offloadKeys.drop (offloadKeys.length - size)
    offloadKeys.any (· ∈ blocksBeingLoaded)

/-- `_lookup`: the tokens to load beyond the computed ones; none asks to be called again. -/
def lookupTokens (mambaAlignSize : Option ℕ) (blocksBeingLoaded : Option (List OffloadKey))
    (st : RequestOffloadState) (numTokens : ℕ) (m : M) : Offloading (Option ℕ × M) := do
  let maxHitSizeTokens := initialMaxHit config mambaAlignSize numTokens
  match ← lookupRounds look config st numTokens (maxHitSizeTokens + 2)
      { manager := m, maxHitSizeTokens, lookupGroups := config.lookupGroups } with
  | .miss m => pure (some 0, m)
  | .go s =>
    if s.deferLookup then pure (none, s.manager)
    else if isBeingLoaded config st (blocksBeingLoaded.getD []) s.numHitTokens
    then pure (none, s.manager)
    else pure (some s.numHitTokens, s.manager)

end Lookup

end Vllm
