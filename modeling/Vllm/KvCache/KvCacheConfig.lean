import Vllm.KvCache.LayerGroups

/-! `kv_cache_utils.py`, second half: what the memory of each worker holds. The groups of the
whole model are projected to the workers, the memory is checked, and the tensors are laid out. -/
namespace Vllm

structure KVCacheTensor where
  size : ℕ
  sharedBy : List LayerName
  deriving DecidableEq, Repr

structure KVCacheConfig where
  numBlocks : ℕ
  kvCacheTensors : List KVCacheTensor
  kvCacheGroups : List LayerGroup

def mayOverrideNumBlocks (config : VllmConfig) (numBlocks : ℕ) : ℕ :=
  config.numGpuBlocksOverride.getD numBlocks

/-- `get_num_blocks` -/
def getNumBlocks (config : VllmConfig) (numLayers availableMemory pageSize : ℕ) : Raises ℕ := do
  let perPage ← floorDivChecked availableMemory pageSize
  pure (mayOverrideNumBlocks config (← floorDivChecked perPage numLayers))

/-- Whether every group has a spec for several layers, with these specs. -/
def uniformTypes (groups : List LayerGroup) : Option
    (List (List LayerName × UniformTypeKVCacheSpecs)) :=
  groups.mapM fun group => group.kvCacheSpec.uniformType?.map fun specs => (group.layerNames, specs)

/-- One layer in `_bucket_layers_by_page_size`: it takes the next slot of its page size. -/
def bucketLayer (pageSize : ℕ) (layerName : LayerName)
    (state : Dict ℕ (List (List LayerName)) × Dict ℕ ℕ) :
    Dict ℕ (List (List LayerName)) × Dict ℕ ℕ :=
  let slots := state.1.getD pageSize []
  let slotIdx := state.2.getD pageSize 0
  let slots := if slotIdx = slots.length then slots ++ [[]] else slots
  (state.1.set pageSize (slots.modify slotIdx (· ++ [layerName])),
    state.2.set pageSize (slotIdx + 1))

/-- The page size of one layer of a group. -/
def layerPageSize (spec : GroupSpec) (layerName : LayerName) : Raises ℕ :=
  match spec with
  | .layer spec => spec.pageSizeBytes
  | .uniformType specs => do (← getSpec specs.kvCacheSpecs layerName).pageSizeBytes

/-- `_bucket_layers_by_page_size` -/
def bucketLayersByPageSize (groups : List LayerGroup) :
    Raises (Dict ℕ (List (List LayerName))) :=
  groups.foldlM (fun buckets group => do
    let state ← group.layerNames.foldlM (fun state layerName => do
      pure (bucketLayer (← layerPageSize group.kvCacheSpec layerName) layerName state))
      (buckets, Dict.empty)
    pure state.1) .empty

def bytesPerBlock (buckets : Dict ℕ (List (List LayerName))) : ℕ :=
  (buckets.entries.map fun bucket => bucket.1 * bucket.2.length).sum

/-- `_pool_bytes_per_block` -/
def poolBytesPerBlock (groups : List LayerGroup) : Raises ℕ :=
  match groups with
  | [⟨_, .uniformType specs, _⟩] => specs.pageSizeBytes
  | groups =>
    if (uniformTypes groups).isSome then do
      pure (bytesPerBlock (← bucketLayersByPageSize groups))
    else do
      let size ← maxChecked (groups.map fun group => group.layerNames.length)
      let pageSize ← getUniformPageSize (groups.map LayerGroup.kvCacheSpec)
      pure (pageSize * size)

/-- `_get_kv_cache_config_deepseek_v4` -/
def getKvCacheConfigDeepseekV4 (config : VllmConfig) (groups : List LayerGroup)
    (availableMemory : ℕ) : Raises (ℕ × List KVCacheTensor) := do
  let buckets ← bucketLayersByPageSize groups
  let numBlocks ← floorDivChecked availableMemory (bytesPerBlock buckets)
  let numBlocks := mayOverrideNumBlocks config numBlocks
  pure (numBlocks, buckets.entries.flatMap fun bucket => bucket.2.map fun slot => {
    size := bucket.1 * numBlocks
    sharedBy := slot })

/-- The general case of `get_kv_cache_config_from_groups`: the `i`-th layers of the groups share
the `i`-th tensor. -/
def getKvCacheConfigGeneral (config : VllmConfig) (groups : List LayerGroup)
    (availableMemory : ℕ) : Raises (ℕ × List KVCacheTensor) := do
  let size ← maxChecked (groups.map fun group => group.layerNames.length)
  let pageSize ← getUniformPageSize (groups.map LayerGroup.kvCacheSpec)
  Raises.require (size > 0)
  let numBlocks ← getNumBlocks config size availableMemory pageSize
  pure (numBlocks, (Grouping.columns size (groups.map LayerGroup.layerNames)).map fun sharedBy => {
    size := pageSize * numBlocks
    sharedBy })

/-- One tensor for each layer, of its own page size. -/
def getKvCacheConfigUniformType (config : VllmConfig) (layerNames : List LayerName)
    (specs : UniformTypeKVCacheSpecs) (availableMemory : ℕ) :
    Raises (ℕ × List KVCacheTensor) := do
  let numBlocks ← floorDivChecked availableMemory (← specs.pageSizeBytes)
  let numBlocks := mayOverrideNumBlocks config numBlocks
  let tensors ← layerNames.mapM fun layerName => do
    let pageSize ← (← getSpec specs.kvCacheSpecs layerName).pageSizeBytes
    pure {
      size := pageSize * numBlocks
      sharedBy := [layerName] : KVCacheTensor }
  pure (numBlocks, tensors)

/-- `get_kv_cache_config_from_groups`. The memory has been checked to be positive. -/
def getKvCacheConfigFromGroups (config : VllmConfig) (groups : List LayerGroup)
    (availableMemory : ℕ) : Raises KVCacheConfig := do
  if groups = [] then pure {
    numBlocks := 1
    kvCacheTensors := []
    kvCacheGroups := groups }
  else do
    let (numBlocks, kvCacheTensors) ← (match groups with
      | [⟨layerNames, .uniformType specs, _⟩] =>
        getKvCacheConfigUniformType config layerNames specs availableMemory
      | groups =>
        if (uniformTypes groups).isSome
        then getKvCacheConfigDeepseekV4 config groups availableMemory
        else getKvCacheConfigGeneral config groups availableMemory)
    pure {
      numBlocks
      kvCacheTensors
      kvCacheGroups := groups }

/-- `_max_memory_usage_bytes_from_groups` -/
def maxMemoryUsageBytesFromGroups (config : VllmConfig) (groups : List LayerGroup) : Raises ℕ :=
  match groups with
  | [] => pure 0
  | [⟨_, .uniformType specs, _⟩] => do
    let usages ← specs.kvCacheSpecs.values.mapM (LayerSpec.maxMemoryUsageBytes config)
    pure usages.sum
  | groups =>
    match uniformTypes groups with
    | some types => do
      let layerTupleBytes ← (match types with
        | [] => pure 0
        | (_, fullMlaSpec) :: _ => do
          let sizes ← fullMlaSpec.getPageSizes
          pure sizes.sum)
      let tuples ← types.mapM fun x => x.2.getNumLayerTuples
      let numLayerTuples ← maxChecked tuples
      let usages ← types.mapM fun x => do
        let pages ← x.2.maxMemoryUsagePages config
        pure (numLayerTuples * pages * layerTupleBytes)
      pure usages.sum
    | none => do
      let size ← maxChecked (groups.map fun group => group.layerNames.length)
      let pageSize ← getUniformPageSize (groups.map LayerGroup.kvCacheSpec)
      let blocksNeeded ← groups.mapM fun group => do
        cdivChecked (← group.kvCacheSpec.maxMemoryUsageBytes config) pageSize
      pure (size * pageSize * blocksNeeded.sum)

/-- Whether a request of this length fits the memory. -/
def modelLenFits (config : VllmConfig) (groups : List LayerGroup) (availableMemory : ℤ)
    (modelLen : ℕ) : Raises Bool := do
  let needed ← maxMemoryUsageBytesFromGroups { config with maxModelLen := modelLen } groups
  pure (decide ((needed : ℤ) ≤ availableMemory))

/-- The binary search of `_estimate_max_model_len_from_groups`. The fuel bounds the length of the
interval. -/
def searchMaxModelLen (fits : ℕ → Raises Bool) : ℕ → ℕ → ℕ → ℕ → Raises ℕ
  | 0, _, _, result => pure result
  | fuel + 1, left, right, result =>
    if left ≤ right then do
      let mid := (left + right) / 2
      if ← fits mid then searchMaxModelLen fits fuel (mid + 1) right mid
      else searchMaxModelLen fits fuel left (mid - 1) result
    else pure result

/-- `_estimate_max_model_len_from_groups` -/
def estimateMaxModelLenFromGroups (config : VllmConfig) (groups : List LayerGroup)
    (availableMemory : ℤ) : Raises ℕ := do
  if ← modelLenFits config groups availableMemory 1 then
    searchMaxModelLen (modelLenFits config groups availableMemory) config.maxModelLen 1
      config.maxModelLen 1
  else pure 0

/-- `_auto_fit_max_model_len` -/
def autoFitMaxModelLen (config : VllmConfig) (workers : List (List LayerGroup × ℤ)) :
    Raises VllmConfig :=
  if ∀ worker ∈ workers, worker.1 = [] then pure config
  else do
    let autoFitMax ← workers.foldlM (fun autoFitMax worker => do
      if worker.1 = [] then pure autoFitMax
      else do
        let workerMax ← estimateMaxModelLenFromGroups config worker.1 worker.2
        pure (min workerMax autoFitMax)) config.maxModelLen
    if autoFitMax = 0 then throw .valueError
    else pure { config with maxModelLen := autoFitMax }

/-- `_project_kv_cache_groups_to_worker`, for one group. -/
def projectGroup (workerSpec : Dict LayerName LayerSpec) (group : LayerGroup) :
    Raises LayerGroup := do
  let workerLayerNames := group.layerNames.filter workerSpec.contains
  let kvCacheSpec ← (match workerLayerNames, group.kvCacheSpec with
    | [], spec => pure spec
    | _, .layer spec => pure (.layer spec)
    | names, .uniformType specs => do
      let projected ← names.mapM fun name => do
        pure (name, ← getSpec specs.kvCacheSpecs name)
      pure (.uniformType {
        blockSize := specs.blockSize
        kvCacheSpecs := Dict.ofList projected }))
  pure {
    layerNames := workerLayerNames
    kvCacheSpec
    isEagleGroup := group.isEagleGroup && !workerLayerNames.isEmpty }

def projectKvCacheGroupsToWorker (groups : List LayerGroup)
    (workerSpec : Dict LayerName LayerSpec) : Raises (List LayerGroup) :=
  groups.mapM (projectGroup workerSpec)

/-- `_check_enough_kv_cache_memory` -/
def checkEnoughKvCacheMemory (config : VllmConfig) (groups : List LayerGroup)
    (availableMemory : ℤ) : Raises Unit := do
  if availableMemory ≤ 0 then throw .valueError
  let needed ← maxMemoryUsageBytesFromGroups config groups
  if (needed : ℤ) > availableMemory then
    let _ ← estimateMaxModelLenFromGroups config groups availableMemory
    throw .valueError

/-- `get_max_concurrency_for_kv_cache_config`, whose result is only logged. -/
def checkMaxConcurrency (config : VllmConfig) (kvCacheConfig : KVCacheConfig) : Raises Unit := do
  match kvCacheConfig.kvCacheGroups with
  | [] => pure ()
  | first :: _ => do
    let groups := kvCacheConfig.kvCacheGroups
    let numLayerPerGroup ← maxChecked (groups.map fun group => group.layerNames.length)
    let usages ← groups.mapM fun group => group.kvCacheSpec.maxMemoryUsageBytes config
    let pageSize ← first.kvCacheSpec.pageSizeBytes
    let numBlockPerRequest ← cdivChecked (numLayerPerGroup * usages.sum)
      (pageSize * numLayerPerGroup)
    if numBlockPerRequest = 0 then throw .zeroDivisionError

/-- The specs of all workers, which must agree where they name the same layer. -/
def mergeWorkerSpecs (workerSpecs : List (Dict LayerName LayerSpec)) :
    Raises (Dict LayerName LayerSpec) :=
  (workerSpecs.flatMap Dict.entries).foldlM (fun merged entry =>
    match merged.get? entry.1 with
    | none => pure (merged.set entry.1 entry.2)
    | some spec => do
      Raises.require (spec = entry.2)
      pure merged) .empty

/-- The configuration of a worker with the number of blocks that all workers have. -/
def shrinkConfig (config : VllmConfig) (minNumBlocks : ℕ) (kvCacheConfig : KVCacheConfig) :
    Raises KVCacheConfig := do
  let numBlocksOld := kvCacheConfig.numBlocks
  let kvCacheTensors ← kvCacheConfig.kvCacheTensors.mapM fun tensor => do
    if numBlocksOld = 0 then throw .zeroDivisionError
    Raises.require (tensor.size % numBlocksOld = 0)
    pure { tensor with size := tensor.size / numBlocksOld * minNumBlocks }
  let kvCacheConfig := { kvCacheConfig with
    numBlocks := minNumBlocks
    kvCacheTensors }
  checkMaxConcurrency config kvCacheConfig
  pure kvCacheConfig

/-- The memory that the workers plan with. -/
def effectiveMemory (config : VllmConfig) (projected : List (List LayerGroup))
    (availableMemory : List ℤ) : Raises (List ℤ) :=
  match config.numGpuBlocksOverride with
  | none => pure availableMemory
  | some override => (projected.zip availableMemory).mapM fun worker =>
    if worker.1 = [] then pure worker.2
    else do
      let bytes ← poolBytesPerBlock worker.1
      if bytes = 0 then throw .zeroDivisionError
      pure ((override * bytes : ℕ) : ℤ)

/-- `get_kv_cache_configs`, with the configuration in which `max_model_len` may have been fitted. -/
def getKvCacheConfigs (config : VllmConfig) (workerSpecs : List (Dict LayerName LayerSpec))
    (availableMemory : List ℤ) : Raises (List KVCacheConfig × VllmConfig) := do
  let merged ← mergeWorkerSpecs workerSpecs
  if merged.values.any fun spec => !spec.isRegistered then throw .valueError
  let globalGroups ← getKvCacheGroups config merged
  let projected ← workerSpecs.mapM (projectKvCacheGroupsToWorker globalGroups)
  let availableMemory ← effectiveMemory config projected availableMemory
  let config ← (if config.autoFit then autoFitMaxModelLen config (projected.zip availableMemory)
    else pure config)
  (projected.zip availableMemory).forM fun worker =>
    if worker.1 = [] then pure () else checkEnoughKvCacheMemory config worker.1 worker.2
  let configs ← (projected.zip (workerSpecs.zip availableMemory)).mapM fun worker => do
    Raises.require ((worker.1.map fun group => group.layerNames.length).sum = worker.2.1.size)
    getKvCacheConfigFromGroups config worker.1 worker.2.2.toNat
  let minNumBlocks ← minChecked (configs.map KVCacheConfig.numBlocks)
  let configs ← configs.mapM (shrinkConfig config minNumBlocks)
  pure (configs, config)

end Vllm
