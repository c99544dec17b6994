import Vllm.KvCache.SingleTypeManager

/-! `kv_cache_interface.py`: the KV cache format of one attention layer, as the worker reports it
at startup. -/
namespace Vllm

abbrev LayerName := String

/-- A `torch.dtype`, with what `get_dtype_size` returns for it. -/
structure TorchDtype where
  name : String
  elementSize : ℕ
  deriving DecidableEq, Repr

inductive KVQuantMode where
  | none | fp8PerTensor | int8PerTokenHead | fp8PerTokenHead | nvfp4
  deriving DecidableEq, Repr

def KVQuantMode.isPerTokenHead (mode : KVQuantMode) : Bool :=
  mode = .int8PerTokenHead ∨ mode = .fp8PerTokenHead

/-- The fields of `AttentionSpec`. -/
structure AttentionSpec where
  blockSize : ℕ
  numKvHeads : ℕ
  headSize : ℕ
  dtype : TorchDtype
  kvQuantMode : KVQuantMode := .none
  pageSizePadded : Option ℕ := none
  deriving DecidableEq, Repr

/-- The fields that `FullAttentionSpec` adds. -/
structure FullAttentionFields where
  headSizeV : ℕ
  slidingWindow : Option ℕ := none
  attentionChunkSize : Option ℕ := none
  deriving DecidableEq, Repr

/-- The fields that the two MLA specs add. -/
structure MlaFields where
  cacheDtypeStr : Option String := none
  alignment : Option ℕ := none
  compressRatio : ℕ := 1
  modelVersion : Option String := none
  deriving DecidableEq, Repr

structure MambaFields where
  shapes : List (List ℕ)
  dtypes : List TorchDtype
  pageSizePadded : Option ℕ := none
  mambaType : String := "mamba2"
  mambaCacheMode : MambaCacheMode := .none
  numSpeculativeBlocks : ℕ := 0
  deriving DecidableEq, Repr

/-- The spec classes of one layer. -/
inductive LayerSpec where
  | fullAttention (attention : AttentionSpec) (full : FullAttentionFields)
  | tqFullAttention (attention : AttentionSpec) (full : FullAttentionFields) (tqSlotSize : ℕ)
  | sinkFullAttention (attention : AttentionSpec) (full : FullAttentionFields)
      (sinkLen : Option ℕ)
  | mlaAttention (attention : AttentionSpec) (full : FullAttentionFields) (mla : MlaFields)
  | hiddenStateCache (attention : AttentionSpec) (full : FullAttentionFields) (mla : MlaFields)
  | chunkedLocalAttention (attention : AttentionSpec) (attentionChunkSize : ℕ)
  | slidingWindow (attention : AttentionSpec) (slidingWindow headSizeV : ℕ)
  | slidingWindowMla (attention : AttentionSpec) (slidingWindow : ℕ) (headSizeV : Option ℕ)
      (mla : MlaFields)
  | mamba (blockSize : ℕ) (mamba : MambaFields)
  | encoderOnlyAttention (attention : AttentionSpec)
  | crossAttention (attention : AttentionSpec)
  deriving DecidableEq, Repr

/-- What the startup code reads of `VllmConfig`. `autoFit` is `original_max_model_len == -1`. -/
structure VllmConfig where
  maxModelLen : ℕ
  autoFit : Bool := false
  decodeContextParallelSize : ℕ := 1
  prefillContextParallelSize : ℕ := 1
  maxNumBatchedTokens : ℕ := 0
  maxNumEncoderInputTokens : ℕ := 0
  mambaCacheMode : MambaCacheMode := .none
  numGpuBlocksOverride : Option ℕ := none
  disableHybridKvCacheManager : Bool := false
  useEagle : Bool := false

/-- `cdiv`, with the exception of a division by zero. -/
def cdivChecked (a b : ℕ) : Raises ℕ := if b = 0 then throw .zeroDivisionError else pure (cdiv a b)

def floorDivChecked (a b : ℕ) : Raises ℕ := if b = 0 then throw .zeroDivisionError else pure (a / b)

namespace LayerSpec

def attention? : LayerSpec → Option AttentionSpec
  | fullAttention a _ | tqFullAttention a _ _ | sinkFullAttention a _ _ | mlaAttention a _ _
  | hiddenStateCache a _ _ | chunkedLocalAttention a _ | slidingWindow a _ _
  | slidingWindowMla a _ _ _ | encoderOnlyAttention a | crossAttention a => some a
  | mamba _ _ => none

def blockSize : LayerSpec → ℕ
  | fullAttention a _ | tqFullAttention a _ _ | sinkFullAttention a _ _ | mlaAttention a _ _
  | hiddenStateCache a _ _ | chunkedLocalAttention a _ | slidingWindow a _ _
  | slidingWindowMla a _ _ _ | encoderOnlyAttention a | crossAttention a => a.blockSize
  | mamba blockSize _ => blockSize

/-- `isinstance(spec, FullAttentionSpec)` -/
def full? : LayerSpec → Option FullAttentionFields
  | fullAttention _ f | tqFullAttention _ f _ | sinkFullAttention _ f _ | mlaAttention _ f _
  | hiddenStateCache _ f _ => some f
  | _ => none

/-- `isinstance(spec, MLAAttentionSpec)` -/
def mla? : LayerSpec → Option MlaFields
  | mlaAttention _ _ m | hiddenStateCache _ _ m => some m
  | _ => none

/-- `isinstance(spec, SlidingWindowSpec)`, with the window. -/
def slidingWindow? : LayerSpec → Option ℕ
  | slidingWindow _ w _ | slidingWindowMla _ w _ _ => some w
  | _ => none

/-- `isinstance(spec, SlidingWindowMLASpec)` -/
def slidingWindowMla? : LayerSpec → Option (ℕ × MlaFields)
  | slidingWindowMla _ w _ m => some (w, m)
  | _ => none

def chunkedLocal? : LayerSpec → Option ℕ
  | chunkedLocalAttention _ c => some c
  | _ => none

def isHiddenState : LayerSpec → Bool
  | hiddenStateCache _ _ _ => true
  | _ => false

def nvfp4KvCacheFullDim (headSize : ℕ) : ℕ := headSize / 2 + headSize / 16

/-- `AttentionSpec.real_page_size_bytes` -/
def attentionPageSize (a : AttentionSpec) : ℕ :=
  if a.kvQuantMode = .nvfp4
  then 2 * a.blockSize * a.numKvHeads * nvfp4KvCacheFullDim a.headSize * a.dtype.elementSize
  else 2 * a.blockSize * a.numKvHeads * a.headSize * a.dtype.elementSize

/-- `real_page_size_bytes` of the specs with a size of their own for the values. -/
def keyValuePageSize (a : AttentionSpec) (headSizeV : ℕ) : ℕ :=
  if a.kvQuantMode = .nvfp4
  then a.blockSize * a.numKvHeads *
    (nvfp4KvCacheFullDim a.headSize + nvfp4KvCacheFullDim headSizeV) * a.dtype.elementSize
  else a.blockSize * a.numKvHeads * (a.headSize + headSizeV) * a.dtype.elementSize

def storageBlockSize (a : AttentionSpec) (m : MlaFields) : Raises ℕ :=
  floorDivChecked a.blockSize m.compressRatio

def mlaPageSize (a : AttentionSpec) (m : MlaFields) : Raises ℕ := do
  if m.cacheDtypeStr = some "fp8_ds_mla" then
    if m.modelVersion = some "deepseek_v4" then
      let storage ← storageBlockSize a m
      pure (storage * 584)
    else pure (a.blockSize * 656)
  else
    let storage ← storageBlockSize a m
    pure (storage * a.numKvHeads * a.headSize * a.dtype.elementSize)

def slidingWindowMlaPageSize (a : AttentionSpec) (m : MlaFields) : Raises ℕ := do
  if m.modelVersion = some "deepseek_v4" ∧ m.cacheDtypeStr = some "fp8_ds_mla" then
    let storage ← storageBlockSize a m
    pure (storage * 584)
  else
    Raises.require (m.modelVersion = none ∨ m.modelVersion = some "deepseek_v4")
    let storage ← storageBlockSize a m
    pure (storage * a.numKvHeads * a.headSize * a.dtype.elementSize)

/-- The padded size wins, and must be large enough. -/
def padPageSize (padded : Option ℕ) (pageSize : ℕ) : Raises ℕ :=
  match padded with
  | none => pure pageSize
  | some padded => do
    Raises.require (padded ≥ pageSize)
    pure padded

/-- `AttentionSpec.page_size_bytes`. The scales of a quantised cache are part of the page. -/
def attentionPage (a : AttentionSpec) (realPageSize : ℕ) : Raises ℕ :=
  padPageSize a.pageSizePadded (if a.kvQuantMode.isPerTokenHead
    then realPageSize + 2 * a.blockSize * a.numKvHeads * 4 else realPageSize)

def mambaPageSize (m : MambaFields) : ℕ :=
  ((m.shapes.zip m.dtypes).map fun x => x.1.prod * x.2.elementSize).sum

def pageSizeBytes : LayerSpec → Raises ℕ
  | fullAttention a f => attentionPage a (keyValuePageSize a f.headSizeV)
  | tqFullAttention a f tqSlotSize => attentionPage a (if tqSlotSize > 0
      then a.blockSize * a.numKvHeads * tqSlotSize else keyValuePageSize a f.headSizeV)
  | sinkFullAttention a f _ => attentionPage a (keyValuePageSize a f.headSizeV)
  | mlaAttention a _ m => do attentionPage a (← mlaPageSize a m)
  | hiddenStateCache a _ m => do attentionPage a (← mlaPageSize a m)
  | chunkedLocalAttention a _ => attentionPage a (attentionPageSize a)
  | slidingWindow a _ headSizeV => attentionPage a (keyValuePageSize a headSizeV)
  | slidingWindowMla a _ _ m => do attentionPage a (← slidingWindowMlaPageSize a m)
  | mamba _ m => padPageSize m.pageSizePadded (mambaPageSize m)
  | encoderOnlyAttention a => attentionPage a (attentionPageSize a)
  | crossAttention a => attentionPage a (attentionPageSize a)

/-- `_apply_alignment_padding`, on the page size without padding. -/
def applyAlignmentPadding (a : AttentionSpec) (m : MlaFields) (pageSize : Raises ℕ) :
    Raises AttentionSpec :=
  match m.alignment with
  | none => pure a
  | some alignment => do
    let actual ← pageSize
    let padded := (← cdivChecked actual alignment) * alignment
    pure (if padded ≠ actual then { a with pageSizePadded := some padded } else a)

/-- `dataclasses.replace`, which runs `__post_init__` again. -/
def replaceAttention (spec : LayerSpec) (a : AttentionSpec) : Raises LayerSpec :=
  match spec with
  | fullAttention _ f => pure (.fullAttention a f)
  | tqFullAttention _ f slot => pure (.tqFullAttention a f slot)
  | sinkFullAttention _ f len => pure (.sinkFullAttention a f len)
  | mlaAttention _ f m => do
    pure (.mlaAttention (← applyAlignmentPadding a m (mlaPageSize a m)) f m)
  | hiddenStateCache _ f m => do
    pure (.hiddenStateCache (← applyAlignmentPadding a m (mlaPageSize a m)) f m)
  | chunkedLocalAttention _ c => pure (.chunkedLocalAttention a c)
  | slidingWindow _ w v => pure (.slidingWindow a w v)
  | slidingWindowMla _ w v m => do
    pure (.slidingWindowMla (← applyAlignmentPadding a m (slidingWindowMlaPageSize a m)) w v m)
  | mamba blockSize m => pure (.mamba blockSize m)
  | encoderOnlyAttention _ => pure (.encoderOnlyAttention a)
  | crossAttention _ => pure (.crossAttention a)

def replaceBlockSize (spec : LayerSpec) (blockSize : ℕ) : Raises LayerSpec :=
  match spec, spec.attention? with
  | mamba _ m, _ => pure (.mamba blockSize m)
  | _, some a => spec.replaceAttention { a with blockSize }
  | _, none => pure spec

/-- `max_memory_usage_bytes` -/
def maxMemoryUsageBytes (config : VllmConfig) : LayerSpec → Raises ℕ
  | spec@(fullAttention a _) | spec@(tqFullAttention a _ _) | spec@(sinkFullAttention a _ _)
  | spec@(mlaAttention a _ _) | spec@(hiddenStateCache a _ _) => do
    let ranks := config.decodeContextParallelSize * config.prefillContextParallelSize
    let maxModelLen := if ranks > 1 then cdiv config.maxModelLen ranks else config.maxModelLen
    pure ((← cdivChecked maxModelLen a.blockSize) * (← spec.pageSizeBytes))
  | spec@(chunkedLocalAttention a c) => do
    let numTokens := min (c + config.maxNumBatchedTokens) config.maxModelLen
    pure ((← cdivChecked numTokens a.blockSize) * (← spec.pageSizeBytes))
  | spec@(slidingWindow a w _) | spec@(slidingWindowMla a w _ _) => do
    Raises.require (config.decodeContextParallelSize = 1)
    let numTokens := min (w + config.maxNumBatchedTokens - 1) config.maxModelLen
    pure (((← cdivChecked numTokens a.blockSize) + 1) * (← spec.pageSizeBytes))
  | spec@(mamba blockSize m) => do
    match config.mambaCacheMode with
    | .all =>
      pure (((← cdivChecked config.maxModelLen blockSize) + m.numSpeculativeBlocks) *
        (← spec.pageSizeBytes))
    | .align => pure ((← spec.pageSizeBytes) * (2 + m.numSpeculativeBlocks))
    | .none => pure ((← spec.pageSizeBytes) * (1 + m.numSpeculativeBlocks))
  | encoderOnlyAttention _ => pure 0
  | spec@(crossAttention a) => do
    pure ((← cdivChecked config.maxNumEncoderInputTokens a.blockSize) * (← spec.pageSizeBytes))

def mergeWindowSizes (windowSizes : List ℕ) : Raises (Option ℕ) :=
  match windowSizes.dedup with
  | [] => pure none
  | [w] => pure (some w)
  | _ => throw .valueError

/-- `FullAttentionSpec.merge`, for the fields that it computes. The fields of `AttentionSpec` are
those of the first spec, and every other spec must have them too. -/
def mergeFull (a : AttentionSpec) (headSizeV : ℕ) (specs : List LayerSpec) :
    Raises FullAttentionFields := do
  Raises.require (∀ spec ∈ specs, spec.full?.isSome = true)
  Raises.require (∀ spec ∈ specs, spec.mla? = none)
  let slidingWindow ← mergeWindowSizes
    (specs.filterMap fun spec => spec.full?.bind (·.slidingWindow))
  let attentionChunkSize ← mergeWindowSizes
    (specs.filterMap fun spec => spec.full?.bind (·.attentionChunkSize))
  Raises.require (∀ spec ∈ specs, spec.attention? = some a)
  Raises.require (slidingWindow = none ∨ attentionChunkSize = none)
  pure {
    headSizeV
    slidingWindow
    attentionChunkSize }

/-- The slot sizes are compared in order, and a spec without one has no such attribute. -/
def checkTqSlotSizes (tqSlotSize : ℕ) : List LayerSpec → Raises Unit
  | [] => pure ()
  | tqFullAttention _ _ slot :: specs => do
    Raises.require (slot = tqSlotSize)
    checkTqSlotSizes tqSlotSize specs
  | _ :: _ => throw .attributeError

/-- `MLAAttentionSpec.merge` -/
def mergeMla (a : AttentionSpec) (m : MlaFields) (specs : List LayerSpec) :
    Raises (FullAttentionFields × MlaFields) := do
  Raises.require (∀ spec ∈ specs, spec.mla?.isSome = true)
  Raises.require (∀ spec ∈ specs, ∀ m' ∈ spec.mla?, m'.cacheDtypeStr = m.cacheDtypeStr ∧
    m'.compressRatio = m.compressRatio ∧ m'.modelVersion = m.modelVersion)
  pure ({ headSizeV := a.headSize }, { m with alignment := none })

/-- `SlidingWindowMLASpec.merge`. The quantisation mode of the first spec is not passed on. -/
def mergeSlidingWindowMla (a : AttentionSpec) (w : ℕ) (m : MlaFields) (specs : List LayerSpec) :
    Raises LayerSpec := do
  Raises.require (∀ spec ∈ specs, spec.slidingWindowMla?.isSome = true)
  Raises.require (∀ spec ∈ specs, ∀ x ∈ spec.slidingWindowMla?, x.1 = w ∧
    x.2.cacheDtypeStr = m.cacheDtypeStr ∧ x.2.compressRatio = m.compressRatio ∧
    x.2.modelVersion = m.modelVersion)
  pure (.slidingWindowMla { a with kvQuantMode := .none } w none { m with alignment := none })

/-- `specs[0].merge(specs)` -/
def merge (specs : List LayerSpec) : Raises LayerSpec :=
  match specs with
  | [] => throw .indexError
  | fullAttention a f :: _ => do pure (.fullAttention a (← mergeFull a f.headSizeV specs))
  | sinkFullAttention a f len :: _ => do
    pure (.sinkFullAttention a (← mergeFull a f.headSizeV specs) len)
  | tqFullAttention a f slot :: _ => do
    let full ← mergeFull a f.headSizeV specs
    checkTqSlotSizes slot specs
    pure (.tqFullAttention a full slot)
  | mlaAttention a _ m :: _ => do
    let (full, mla) ← mergeMla a m specs
    pure (.mlaAttention a full mla)
  | hiddenStateCache a _ m :: _ => do
    let (full, mla) ← mergeMla a m specs
    pure (.hiddenStateCache a full mla)
  | slidingWindowMla a w _ m :: _ => mergeSlidingWindowMla a w m specs
  | spec :: rest => do
    Raises.require (∀ spec' ∈ rest, spec' = spec)
    pure spec

/-- `is_uniform_with_collection`. The base class of the full attention specs in the registry is
`FullAttentionSpec`; encoder-only specs are not registered. -/
def isUniformWithCollection (spec : LayerSpec) (specs : List LayerSpec) : Raises Bool :=
  match spec with
  | fullAttention _ _ | tqFullAttention _ _ _ | sinkFullAttention _ _ _ | mlaAttention _ _ _
  | hiddenStateCache _ _ _ => pure (specs.all fun spec => spec.full?.isSome)
  | chunkedLocalAttention _ c => pure (specs.all fun spec => spec.chunkedLocal? = some c)
  | slidingWindow _ w _ => pure (specs.all fun spec => spec.slidingWindow? = some w)
  | slidingWindowMla _ w _ _ => pure (specs.all fun spec =>
      spec.slidingWindowMla?.map Prod.fst = some w)
  | mamba _ m => pure (specs.all fun
      | mamba _ m' => m'.numSpeculativeBlocks = m.numSpeculativeBlocks
      | _ => false)
  | crossAttention _ => pure (specs.all fun
      | crossAttention _ => true
      | _ => false)
  | encoderOnlyAttention _ => throw .assertionError

/-- Whether the registry knows the class of the spec. -/
def isRegistered : LayerSpec → Bool
  | encoderOnlyAttention _ => false
  | _ => true

end LayerSpec

end Vllm
