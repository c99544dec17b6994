import Vllm.KvCache.LayerSpec
import Vllm.Lib.Grouping

/-! `kv_cache_utils.py`, first half: the layers of the whole model are put into groups, each with
one block table. -/
namespace Vllm

/-- A spec for several layers that need the same token slots. -/
structure UniformTypeKVCacheSpecs where
  blockSize : ℕ
  kvCacheSpecs : Dict LayerName LayerSpec

/-- The spec of a group. -/
inductive GroupSpec where
  | layer (spec : LayerSpec)
  | uniformType (specs : UniformTypeKVCacheSpecs)

/-- `KVCacheGroupSpec` -/
structure LayerGroup where
  layerNames : List LayerName
  kvCacheSpec : GroupSpec
  isEagleGroup : Bool := false

def maxChecked : List ℕ → Raises ℕ
  | [] => throw .valueError
  | x :: xs => pure (xs.foldl max x)

def minChecked : List ℕ → Raises ℕ
  | [] => throw .valueError
  | x :: xs => pure (xs.foldl min x)

namespace UniformTypeKVCacheSpecs

def pageSizeBytes (specs : UniformTypeKVCacheSpecs) : Raises ℕ := do
  let sizes ← specs.kvCacheSpecs.values.mapM LayerSpec.pageSizeBytes
  pure sizes.sum

def maxMemoryUsagePages (config : VllmConfig) (specs : UniformTypeKVCacheSpecs) : Raises ℕ := do
  let pages ← specs.kvCacheSpecs.values.mapM fun spec => do
    cdivChecked (← spec.maxMemoryUsageBytes config) (← spec.pageSizeBytes)
  maxChecked pages

def maxMemoryUsageBytes (config : VllmConfig) (specs : UniformTypeKVCacheSpecs) : Raises ℕ := do
  pure ((← specs.maxMemoryUsagePages config) * (← specs.pageSizeBytes))

def isUniformType (specs : Dict LayerName LayerSpec) : Raises Bool :=
  if (specs.values.map LayerSpec.blockSize).dedup.length > 1 then pure false
  else match specs.values with
    | [] => throw .stopIteration
    | first :: _ => first.isUniformWithCollection specs.values

def fromSpecs (specs : Dict LayerName LayerSpec) : Raises (Option UniformTypeKVCacheSpecs) := do
  if ← isUniformType specs then
    match specs.values with
    | [] => throw .stopIteration
    | first :: _ => pure (some {
        blockSize := first.blockSize
        kvCacheSpecs := specs })
  else pure none

/-- `get_page_sizes`, a list without duplicates. -/
def getPageSizes (specs : UniformTypeKVCacheSpecs) : Raises (List ℕ) := do
  let sizes ← specs.kvCacheSpecs.values.mapM LayerSpec.pageSizeBytes
  pure sizes.dedup

/-- How often the most frequent page size occurs. -/
def getNumLayerTuples (specs : UniformTypeKVCacheSpecs) : Raises ℕ := do
  let sizes ← specs.kvCacheSpecs.values.mapM LayerSpec.pageSizeBytes
  match sizes with
  | [] => throw .indexError
  | size :: rest => pure ((rest.map (sizes.count ·)).foldl max (sizes.count size))

end UniformTypeKVCacheSpecs

namespace GroupSpec

def pageSizeBytes : GroupSpec → Raises ℕ
  | layer spec => spec.pageSizeBytes
  | uniformType specs => specs.pageSizeBytes

def maxMemoryUsageBytes (config : VllmConfig) : GroupSpec → Raises ℕ
  | layer spec => spec.maxMemoryUsageBytes config
  | uniformType specs => specs.maxMemoryUsageBytes config

def uniformType? : GroupSpec → Option UniformTypeKVCacheSpecs
  | layer _ => none
  | uniformType specs => some specs

end GroupSpec

/-- `kv_cache_spec[layer_name]` -/
def getSpec (specs : Dict LayerName LayerSpec) (layerName : LayerName) : Raises LayerSpec :=
  match specs.get? layerName with
  | none => throw .keyError
  | some spec => pure spec

def createKvCacheGroupSpecs (specs : Dict LayerName LayerSpec)
    (groupedLayerNames : List (List LayerName)) : Raises (List LayerGroup) :=
  groupedLayerNames.mapM fun layerNames => do
    let layerSpecs ← layerNames.mapM (getSpec specs)
    let merged ← LayerSpec.merge layerSpecs
    pure {
      layerNames
      kvCacheSpec := .layer merged }

/-- `is_kv_cache_spec_uniform`: an `AssertionError` of the merge means no. -/
def isKvCacheSpecUniform (specs : Dict LayerName LayerSpec) : Raises Bool :=
  if specs.values = [] then pure true
  else match LayerSpec.merge specs.values with
    | .ok _ => pure true
    | .error .assertionError => pure false
    | .error e => throw e

/-- `get_uniform_page_size` -/
def getUniformPageSize (specs : List GroupSpec) : Raises ℕ := do
  let sizes ← specs.mapM GroupSpec.pageSizeBytes
  match sizes.dedup with
  | [size] => pure size
  | _ => throw .assertionError

/-- The layer is given larger blocks until its page has the given size. -/
def unifyPageSize (maxPageSize : ℕ) (spec : LayerSpec) : Raises LayerSpec := do
  let pageSize ← spec.pageSizeBytes
  if pageSize = maxPageSize then pure spec
  else if pageSize = 0 then throw .zeroDivisionError
  else if maxPageSize % pageSize ≠ 0 then throw .notImplementedError
  else do
    let spec ← spec.replaceBlockSize (spec.blockSize * (maxPageSize / pageSize))
    let pageSize ← spec.pageSizeBytes
    Raises.require (pageSize = maxPageSize)
    pure spec

def mapSpecs (f : LayerSpec → Raises LayerSpec) (specs : Dict LayerName LayerSpec) :
    Raises (Dict LayerName LayerSpec) := do
  let entries ← specs.entries.mapM fun entry => do
    pure (entry.1, ← f entry.2)
  pure (Dict.ofList entries)

def unifyKvCacheSpecPageSize (specs : Dict LayerName LayerSpec) :
    Raises (Dict LayerName LayerSpec) := do
  let sizes ← specs.values.mapM LayerSpec.pageSizeBytes
  if sizes.dedup.length ≤ 1 then pure specs
  else do
    let maxPageSize ← maxChecked sizes
    mapSpecs (unifyPageSize maxPageSize) specs

/-- The number of layers in a group: the largest number of layers of one spec, if the others have
not many fewer. -/
def groupSize (numLayers : List ℕ) : Raises ℕ := do
  let minNumLayers ← minChecked numLayers
  let maxNumLayers ← maxChecked numLayers
  pure (if 2 * maxNumLayers < 3 * minNumLayers then maxNumLayers else minNumLayers)

def dealLayers (groupSize : ℕ) (layers : List LayerName) : List (List LayerName) :=
  let numGroups := cdiv layers.length groupSize
  (List.range numGroups).map fun i => Grouping.stride layers i numGroups

/-- `_get_kv_cache_groups_uniform_page_size`: the layers of one spec are dealt out over as many
groups as it takes. -/
def getKvCacheGroupsUniformPageSize (specs : Dict LayerName LayerSpec) :
    Raises (List LayerGroup) := do
  let sameTypeLayers := (Grouping.buckets Prod.snd specs.entries).values.map (·.map Prod.fst)
  let size ← groupSize (sameTypeLayers.map List.length)
  createKvCacheGroupSpecs specs (sameTypeLayers.flatMap (dealLayers size))

/-- `unify_hybrid_kv_cache_specs`, for one layer. Only the conversion of a sliding window spec
passes the quantisation mode on. -/
def unifyHybridSpec (uniformBlockSize : Option ℕ) : LayerSpec → Raises LayerSpec
  | .slidingWindowMla a _ _ m => do
    let a := { a with
      blockSize := uniformBlockSize.getD a.blockSize
      kvQuantMode := .none }
    let padded ← LayerSpec.applyAlignmentPadding a m (LayerSpec.mlaPageSize a m)
    pure (.mlaAttention padded { headSizeV := a.headSize } m)
  | .slidingWindow a w headSizeV => pure (.fullAttention a {
      headSizeV
      slidingWindow := some w })
  | .chunkedLocalAttention a c => pure (.fullAttention { a with kvQuantMode := .none } {
      headSizeV := a.headSize
      attentionChunkSize := some c })
  | spec => pure spec

def isUnified (specs : Dict LayerName LayerSpec) : Raises Bool := do
  if ← isKvCacheSpecUniform specs then pure true
  else UniformTypeKVCacheSpecs.isUniformType specs

def unifyHybridKvCacheSpecs (specs : Dict LayerName LayerSpec) :
    Raises (Dict LayerName LayerSpec) := do
  if ← isUnified specs then pure specs
  else do
    let fullSpecs := specs.values.filter fun spec => spec.full?.isSome
    let hasSwaMla := specs.values.any fun spec => spec.slidingWindowMla?.isSome
    let uniformBlockSize ← (if hasSwaMla then
      match fullSpecs with
      | [] => throw .assertionError
      | spec :: _ => pure (some spec.blockSize)
      else pure none)
    let hasWindow := specs.values.any fun spec =>
      spec.slidingWindow?.isSome || spec.chunkedLocal?.isSome
    let specs ← (if fullSpecs ≠ [] ∧ hasWindow then mapSpecs (unifyHybridSpec uniformBlockSize) specs
      else pure specs)
    if ← isUnified specs then pure specs else throw .valueError

def specsWhere (p : LayerSpec → Bool) (specs : Dict LayerName LayerSpec) :
    Dict LayerName LayerSpec := Dict.ofList (specs.entries.filter fun entry => p entry.2)

/-- `from_specs`, where the specs must be uniform. -/
def uniformSpecs (specs : Dict LayerName LayerSpec) : Raises UniformTypeKVCacheSpecs := do
  match ← UniformTypeKVCacheSpecs.fromSpecs specs with
  | none => throw .assertionError
  | some uniform => pure uniform

/-- `group_and_unify_kv_cache_specs`: the MLA layers, and the sliding window layers by block size
and window. Other layers are in none of them. -/
def groupAndUnifyKvCacheSpecs (specs : Dict LayerName LayerSpec) :
    Raises (Option (List UniformTypeKVCacheSpecs)) :=
  if specs.values.all fun spec => spec.slidingWindowMla?.isNone then pure none
  else do
    let mlaSpecs := specsWhere (fun spec => spec.mla?.isSome) specs
    let swaMlaSpecs := (Grouping.buckets (fun entry => (entry.2.blockSize, entry.2.slidingWindow?))
      (specs.entries.filter fun entry => entry.2.slidingWindowMla?.isSome)).values
    Raises.require (mlaSpecs.size > 0)
    let mlaUniformSpec ← uniformSpecs mlaSpecs
    let swaUniformSpecs ← swaMlaSpecs.mapM fun entries => uniformSpecs (Dict.ofList entries)
    pure (some (mlaUniformSpec :: swaUniformSpecs))

def padding (values : List ℕ) (d : ℕ) : ℕ := (values.map fun x => (d - x % d) % d).sum

/-- `_approximate_gcd`, with a lower bound. -/
def approximateGcd (values : List ℕ) (lowerBound : ℕ) : Raises ℕ :=
  if values = [] ∨ 0 ∈ values then throw .valueError
  else do
    let minD := max 1 lowerBound
    let maxD ← maxChecked values
    if minD > maxD then pure minD
    else pure ((List.range' minD (maxD + 1 - minD)).foldl (fun best d =>
      if padding values d < padding values best ∨
        (padding values d = padding values best ∧ d > best) then d else best) minD)

/-- A sliding window layer is padded to the next page size of the MLA layers. -/
def padSlidingWindowMla (candidate : ℕ) (spec : LayerSpec) : LayerSpec :=
  match spec with
  | .slidingWindowMla a w v m => .slidingWindowMla { a with pageSizePadded := some candidate } w v m
  | spec => spec

/-- The layers of one sliding window spec, padded, each with the page size it is padded to. -/
def padLayers (allPageSizes : List ℕ) (specs : Dict LayerName LayerSpec) :
    Raises (List (LayerName × LayerSpec × ℕ)) :=
  specs.entries.mapM fun entry => do
    let current ← entry.2.pageSizeBytes
    let candidate ← minChecked (allPageSizes.filter (· ≥ current))
    pure (entry.1, if current < candidate then padSlidingWindowMla candidate entry.2 else entry.2,
      candidate)

/-- The groups of one sliding window spec: the layers of each page size, in tuples with one layer
of each size, the tuples dealt out. -/
def splitSlidingWindowMla (numLayerTuples : ℕ) (allPageSizes : List ℕ)
    (specs : UniformTypeKVCacheSpecs) : Raises (List LayerGroup) := do
  let pageSizes ← specs.getPageSizes
  Raises.require ((← maxChecked pageSizes) ≤ (← maxChecked allPageSizes))
  let padded ← padLayers allPageSizes specs.kvCacheSpecs
  let layersPerSize := (Grouping.buckets (·.2.2) padded).values.map (·.map (·.1))
  match layersPerSize with
  | [] => throw .assertionError
  | layers :: rest => do
    Raises.require (∀ layers' ∈ rest, layers'.length = layers.length)
    let numTupleGroups ← cdivChecked layers.length numLayerTuples
    let layerTuples := Grouping.columns layers.length layersPerSize
    let paddedSpecs := Dict.ofList (padded.map fun x => (x.1, x.2.1))
    (List.range numTupleGroups).mapM fun i => do
      let layerNames := (Grouping.stride layerTuples i numTupleGroups).flatten
      let groupSpecs ← layerNames.mapM fun name => do
        pure (name, ← getSpec paddedSpecs name)
      let uniform ← uniformSpecs (Dict.ofList groupSpecs)
      pure {
        layerNames
        kvCacheSpec := .uniformType uniform }

/-- `_get_kv_cache_groups_uniform_groups` -/
def getKvCacheGroupsUniformGroups (groupedSpecs : List UniformTypeKVCacheSpecs) :
    Raises (List LayerGroup) :=
  match groupedSpecs with
  | [] => throw .assertionError
  | fullMlaSpec :: swaMlaSpecs => do
    Raises.require (∀ spec ∈ fullMlaSpec.kvCacheSpecs.values, spec.mla?.isSome = true)
    let numLayerTuplesPerGroup ← groupedSpecs.mapM UniformTypeKVCacheSpecs.getNumLayerTuples
    let numLayerTuples ← approximateGcd numLayerTuplesPerGroup (numLayerTuplesPerGroup.headD 0)
    Raises.require (∀ specs ∈ swaMlaSpecs, ∀ spec ∈ specs.kvCacheSpecs.values,
      spec.slidingWindowMla?.isSome = true)
    let allPageSizes ← fullMlaSpec.getPageSizes
    let swaMlaGroups ← swaMlaSpecs.mapM (splitSlidingWindowMla numLayerTuples allPageSizes)
    pure ({
      layerNames := fullMlaSpec.kvCacheSpecs.keys
      kvCacheSpec := .uniformType fullMlaSpec } :: swaMlaGroups.flatten)

/-- The first group with this layer is marked. -/
def markEagleGroup (lastLayer : LayerName) : List LayerGroup → List LayerGroup
  | [] => []
  | group :: groups =>
    if lastLayer ∈ group.layerNames then { group with isEagleGroup := true } :: groups
    else group :: markEagleGroup lastLayer groups

def modelVersion? : LayerSpec → Option String
  | .mlaAttention _ _ m | .hiddenStateCache _ _ m | .slidingWindowMla _ _ _ m => m.modelVersion
  | _ => none

/-- `_annotate_eagle_groups_deepseek_v4` -/
def annotateEagleGroupsDeepseekV4 (config : VllmConfig) (specs : Dict LayerName LayerSpec)
    (groups : List LayerGroup) : List LayerGroup :=
  if config.useEagle = false ∨ ∀ spec ∈ specs.values, modelVersion? spec ≠ some "deepseek_v4"
  then groups
  else match specs.keys.getLast? with
    | none => groups
    | some lastLayer => markEagleGroup lastLayer groups

/-- A hidden-state layer gets a group of its own, with the page size of the others. -/
def hiddenStateGroup (commonPage : ℕ) (entry : LayerName × LayerSpec) : Raises LayerGroup :=
  match entry.2.attention? with
  | none => throw .attributeError
  | some a => do
    let perToken := a.numKvHeads * a.headSize * a.dtype.elementSize
    let blockSize ← floorDivChecked commonPage perToken
    let aligned ← entry.2.replaceAttention { a with
      blockSize := max blockSize 1
      pageSizePadded := some commonPage }
    pure {
      layerNames := [entry.1]
      kvCacheSpec := .layer aligned }

/-- The general case of `get_kv_cache_groups`. -/
def getKvCacheGroupsHybrid (specs : Dict LayerName LayerSpec) : Raises (List LayerGroup) := do
  let hiddenSpecs := specs.entries.filter fun entry => entry.2.isHiddenState
  let filteredSpecs ← unifyKvCacheSpecPageSize (specsWhere (fun spec => !spec.isHiddenState) specs)
  let groups ← getKvCacheGroupsUniformPageSize filteredSpecs
  if hiddenSpecs = [] then pure groups
  else do
    let commonPage ← getUniformPageSize (groups.map LayerGroup.kvCacheSpec)
    let hiddenGroups ← hiddenSpecs.mapM (hiddenStateGroup commonPage)
    pure (groups ++ hiddenGroups)

/-- The specs as they are grouped. -/
def groupedSpecs (config : VllmConfig) (specs : Dict LayerName LayerSpec) :
    Raises (Dict LayerName LayerSpec) :=
  if config.disableHybridKvCacheManager then unifyHybridKvCacheSpecs specs else pure specs

def getKvCacheGroups (config : VllmConfig) (specs : Dict LayerName LayerSpec) :
    Raises (List LayerGroup) := do
  let specs ← groupedSpecs config specs
  if specs.isEmpty then pure []
  else if ← isKvCacheSpecUniform specs then createKvCacheGroupSpecs specs [specs.keys]
  else do
    match ← UniformTypeKVCacheSpecs.fromSpecs specs with
    | some uniform => pure [{
        layerNames := uniform.kvCacheSpecs.keys
        kvCacheSpec := .uniformType uniform }]
    | none => do
      match ← groupAndUnifyKvCacheSpecs specs with
      | some grouped => do
        let groups ← getKvCacheGroupsUniformGroups grouped
        pure (annotateEagleGroupsDeepseekV4 config specs groups)
      | none => getKvCacheGroupsHybrid specs

end Vllm
