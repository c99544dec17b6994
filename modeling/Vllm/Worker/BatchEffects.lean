import Vllm.Worker.InputBatch

/-! What each operation of the batch does to each of its structures, said once per operation. -/
namespace Vllm.Worker.InputBatch
open RowArray Raises
variable {b b' : InputBatch}

/-- What no operation between two calls of `refresh_metadata` changes. -/
structure SameSetup (b b' : InputBatch) : Prop where
  isPoolingModel : b'.isPoolingModel = b.isPoolingModel
  maxModelLen : b'.maxModelLen = b.maxModelLen
  vocabSize : b'.vocabSize = b.vocabSize
  logitsprocs : b'.logitsprocs = b.logitsprocs
  holder : b'.thinkingBudgetStateHolder = b.thinkingBudgetStateHolder
  metadata : b'.samplingMetadata = b.samplingMetadata

/-- The request `id` was removed from row `i`. -/
structure RemovedAt (b b' : InputBatch) (id : RequestId) (i : ℕ) : Prop where
  setup : SameSetup b b'
  reqIds : b'.reqIds = b.reqIds.set i none
  reqIdToIndex : b'.reqIdToIndex = b.reqIdToIndex.erase id
  outputLists : b'.reqOutputTokenIds = b.reqOutputTokenIds.set i none
  spec : b'.specTokenIds = b.specTokenIds.set i []
  builder : b.batchUpdateBuilder.removedAppend i = .ok b'.batchUpdateBuilder
  blockTable : b'.blockTable = b.blockTable.clearRow i
  lora : ∀ k, k ≠ i → b'.requestLoraMapping k = b.requestLoraMapping k
  tokenIds : b'.tokenIds = b.tokenIds
  numTokensNoSpec : b'.numTokensNoSpec = b.numTokensNoSpec
  numPromptTokens : b'.numPromptTokens = b.numPromptTokens
  numComputedTokens : b'.numComputedTokens = b.numComputedTokens
  embeds : b'.reqPromptEmbeds = b.reqPromptEmbeds
  needsTokenIds : b'.logitsProcessingNeedsTokenIds = b.logitsProcessingNeedsTokenIds
  samplingRows : b'.samplingRows = b.samplingRows
  accepted : b'.numAcceptedTokens = b.numAcceptedTokens
  generators : b'.generators = if b.isPoolingModel then b.generators else b.generators.erase i
  badWords : b'.badWordsTokenIds =
    if b.isPoolingModel then b.badWordsTokenIds else b.badWordsTokenIds.erase i
  mask : b'.allowedTokenIdsMask =
    if b.isPoolingModel then b.allowedTokenIdsMask
    else b.allowedTokenIdsMask.map fun mask => Function.update mask i (clearMask b.vocabSize)
  sets : b'.requestSets = if b.isPoolingModel then b.requestSets else b.requestSets.discard id
  pooling : b'.poolingParams = if b.isPoolingModel then b.poolingParams.erase id else b.poolingParams

variable {i : ℕ} {r : CachedRequestState}

theorem removeLora_eq_ok {id : RequestId} (h : b.removeLora i id = .ok b') :
    ∃ mapping requests loras, b' = { b with
      requestLoraMapping := mapping, loraIdToRequestIds := requests
      loraIdToLoraRequest := loras } ∧ ∀ k, k ≠ i → mapping k = b.requestLoraMapping k := by
  unfold removeLora at h
  dsimp only at h
  split at h
  · cases h
    exact ⟨_, _, _, rfl, fun k _ => rfl⟩
  · split at h
    · exact absurd h (by simp)
    · cases h
      exact ⟨_, _, _, rfl, fun k hk => Function.update_of_ne hk _ _⟩

theorem removeRequest_cases {id : RequestId} {res : Option ℕ}
    (h : b.removeRequest id = .ok (res, b')) :
    (b.reqIdToIndex.get? id = none ∧ b' = b) ∨
      ∃ i, b.reqIdToIndex.get? id = some i ∧ RemovedAt b b' id i := by
  unfold removeRequest at h
  split at h
  · rename_i hnone
    exact .inl ⟨hnone, (congrArg Prod.snd (pure_eq_ok.mp h)).symm⟩
  · rename_i i hsome
    obtain ⟨builder, hbuilder, h⟩ := of_bind h
    obtain ⟨b1, hlora, h⟩ := of_bind h
    obtain ⟨mapping, requests, loras, rfl, hmapping⟩ := removeLora_eq_ok hlora
    refine .inr ⟨i, hsome, ?_⟩
    split at h
    · rename_i hp
      replace hp : b.isPoolingModel = true := hp
      cases h
      constructor <;>
        first | exact hmapping | exact hbuilder | rfl | (rw [hp]; rfl) | constructor <;> rfl
    · rename_i hp
      replace hp : b.isPoolingModel = false := by simpa using hp
      cases h
      constructor <;>
        first | exact hmapping | exact hbuilder | rfl | (rw [hp]; rfl) | constructor <;> rfl

/-- The row a new request gets, and the builder after it was chosen. -/
structure SlotFor (b : InputBatch) (i : ℕ) (builder : BatchUpdateBuilder) : Prop where
  slot : b.batchUpdateBuilder.popRemoved = (some i, builder) ∨
    b.batchUpdateBuilder.removed = [] ∧ i = b.numReqs ∧ builder = b.batchUpdateBuilder

/-- The request `r`, with `n` prompt tokens, was added at row `i`. -/
structure AddedAt (outputs : Outputs) (b b' : InputBatch) (r : CachedRequestState) (i n : ℕ) :
    Prop where
  builder : ∃ v, SlotFor b i v ∧ b'.batchUpdateBuilder =
    { v with batchChanged := true, added := v.added ++ addedRecord i r }
  le : i ≤ b.reqIds.length
  length : lengthFromPromptTokenIdsOrEmbeds r.promptTokenIds r.promptEmbeds = .ok n
  blockTable : b.blockTable.addRow r.blockIds i = .ok b'.blockTable
  params : b.checkParams r = .ok ()
  eq : b' = b.storeRequest i r b'.batchUpdateBuilder n (outputs r.outputTokenIds) b'.blockTable

theorem registerAddRequest_eq_ok {builder : BatchUpdateBuilder}
    (h : b.registerAddRequest r = .ok (i, builder)) :
    ∃ v, SlotFor b i v ∧ builder =
      { v with batchChanged := true, added := v.added ++ addedRecord i r } := by
  unfold registerAddRequest at h
  cases hpop : b.batchUpdateBuilder.popRemoved with
  | mk popped v =>
    rw [hpop] at h
    obtain ⟨-, -, h⟩ := of_bind h
    obtain ⟨hi, hb⟩ := Prod.mk.inj (pure_eq_ok.mp h)
    refine ⟨v, ⟨?_⟩, by rw [← hb, ← hi]⟩
    cases popped with
    | some e =>
      rw [Option.getD_some] at hi
      exact .inl (by rw [hpop, hi])
    | none =>
      obtain ⟨hnil, hv⟩ := BatchUpdateBuilder.popRemoved_eq_none hpop
      exact .inr ⟨hnil, hi.symm, hv⟩

theorem addRequest_eq_ok {outputs : Outputs} (h : b.addRequest outputs r = .ok (i, b')) :
    ∃ n, AddedAt outputs b b' r i n := by
  unfold addRequest at h
  obtain ⟨⟨i', builder⟩, hreg, h⟩ := of_bind h
  obtain ⟨v, hslot, hbuilder⟩ := registerAddRequest_eq_ok hreg
  dsimp only at h
  split at h
  · exact absurd h (by simp [throw, throwThe, MonadExceptOf.throw, bind, Except.bind])
  · rename_i hle
    obtain ⟨-, -, h⟩ := of_bind h
    obtain ⟨n, hn, h⟩ := of_bind h
    split at h
    · exact absurd h (by simp [throw, throwThe, MonadExceptOf.throw, bind, Except.bind])
    · obtain ⟨-, -, h⟩ := of_bind h
      obtain ⟨tables, htables, h⟩ := of_bind h
      obtain ⟨⟨⟩, hparams, h⟩ := of_bind h
      cases h
      exact ⟨n, ⟨v, hslot, hbuilder⟩, not_lt.mp hle, hn, htables, hparams, rfl⟩

theorem index_eq_ok {α : Type} {l : List α} {a : α} (h : index l i = .ok a) : l[i]? = some a := by
  unfold index at h
  split at h
  · rename_i x hget
    rw [hget, pure_eq_ok.mp h]
  · exact absurd h (by simp)

/-- The request `id` slid from row `last` down to row `empty`. -/
structure SlidAt (b b' : InputBatch) (id : RequestId) (last empty : ℕ) : Prop where
  setup : SameSetup b b'
  owned : b.reqIds[last]? = some (some id)
  reqIds : b'.reqIds = (b.reqIds.set empty (some id)).set last none
  reqIdToIndex : b'.reqIdToIndex = b.reqIdToIndex.set id empty
  outputLists : b'.reqOutputTokenIds =
    (b.reqOutputTokenIds.set empty (b.reqOutputTokenIds.getD last none)).set last none
  spec : b'.specTokenIds = (b.specTokenIds.set last []).set empty (b.specAt last)
  blockTable : b'.blockTable = b.blockTable.moveRow last empty
  lora : b'.requestLoraMapping =
    Function.update b.requestLoraMapping empty (b.requestLoraMapping last)
  tokenIds : b'.tokenIds = Function.update b.tokenIds empty
    (copyFirst (b.getActiveTokenCount last) (b.tokenIds last) (b.tokenIds empty))
  numTokensNoSpec :
    b'.numTokensNoSpec = Function.update b.numTokensNoSpec empty (b.numTokensNoSpec last)
  numPromptTokens :
    b'.numPromptTokens = Function.update b.numPromptTokens empty (b.numPromptTokens last)
  numComputedTokens :
    b'.numComputedTokens = Function.update b.numComputedTokens empty (b.numComputedTokens last)
  embeds : b'.reqPromptEmbeds = slideDictValue b.reqPromptEmbeds last empty
  needsTokenIds : b'.logitsProcessingNeedsTokenIds = b.logitsProcessingNeedsTokenIds
  sets : b'.requestSets = b.requestSets
  pooling : b'.poolingParams = b.poolingParams
  builder : b'.batchUpdateBuilder = if b.isPoolingModel then b.batchUpdateBuilder
    else { b.batchUpdateBuilder with
      moved := b.batchUpdateBuilder.moved ++ [(last, empty, .unidirectional)] }
  samplingRows : b'.samplingRows =
    if b.isPoolingModel then b.samplingRows else b.samplingRows.moveRow last empty
  accepted : b'.numAcceptedTokens = if b.isPoolingModel then b.numAcceptedTokens
    else Function.update b.numAcceptedTokens empty (b.numAcceptedTokens last)
  generators : b'.generators =
    if b.isPoolingModel then b.generators else slideDictValue b.generators last empty
  badWords : b'.badWordsTokenIds =
    if b.isPoolingModel then b.badWordsTokenIds else slideDictValue b.badWordsTokenIds last empty
  mask : b'.allowedTokenIdsMask = if b.isPoolingModel then b.allowedTokenIdsMask
    else b.allowedTokenIdsMask.map fun mask => Function.update mask empty (mask last)

theorem slide_eq_ok {last empty : ℕ} (h : b.slide last empty = .ok b') :
    ∃ id, SlidAt b b' id last empty := by
  unfold slide at h
  obtain ⟨reqId, hindex, h⟩ := of_bind h
  have hget := index_eq_ok hindex
  cases reqId with
  | none => exact absurd h (by simp)
  | some id =>
    refine ⟨id, ?_⟩
    have hb' := (pure_eq_ok.mp h).symm
    have hpool : (b.slideCommon last empty id).isPoolingModel = b.isPoolingModel := rfl
    rw [hpool] at hb'
    cases hp : b.isPoolingModel with
    | true =>
      rw [hp, if_pos rfl] at hb'
      subst hb'
      constructor <;> first | exact hget | rfl | (rw [hp]; rfl) | constructor <;> rfl
    | false =>
      rw [hp, if_neg Bool.false_ne_true] at hb'
      subst hb'
      constructor <;> first | exact hget | rfl | (rw [hp]; rfl) | constructor <;> rfl

/-- The requests `id1` and `id2` of the rows `i1` and `i2` were exchanged. -/
structure SwappedAt (b b' : InputBatch) (id1 id2 : RequestId) (i1 i2 : ℕ) : Prop where
  setup : SameSetup b b'
  owned1 : b.reqIds[i1]? = some (some id1)
  owned2 : b.reqIds[i2]? = some (some id2)
  reqIds : b'.reqIds = (b.reqIds.set i1 (some id2)).set i2 (some id1)
  reqIdToIndex : b'.reqIdToIndex =
    (b.reqIdToIndex.set id1 (b.reqIdToIndex.getD id2 0)).set id2 (b.reqIdToIndex.getD id1 0)
  outputLists : b'.reqOutputTokenIds =
    (b.reqOutputTokenIds.set i1 (b.reqOutputTokenIds.getD i2 none)).set i2
      (b.reqOutputTokenIds.getD i1 none)
  spec : b'.specTokenIds = (b.specTokenIds.set i1 (b.specAt i2)).set i2 (b.specAt i1)
  blockTable : b'.blockTable = b.blockTable.swapRow i1 i2
  lora : b'.requestLoraMapping = swapRow b.requestLoraMapping i1 i2
  tokenIds : b'.tokenIds =
    swapFirst (max (b.getActiveTokenCount i1) (b.getActiveTokenCount i2)) b.tokenIds i1 i2
  numTokensNoSpec : b'.numTokensNoSpec = swapRow b.numTokensNoSpec i1 i2
  numPromptTokens : b'.numPromptTokens = swapRow b.numPromptTokens i1 i2
  numComputedTokens : b'.numComputedTokens = swapRow b.numComputedTokens i1 i2
  embeds : b'.reqPromptEmbeds = swapDictValues b.reqPromptEmbeds i1 i2
  needsTokenIds : b'.logitsProcessingNeedsTokenIds = b.logitsProcessingNeedsTokenIds
  sets : b'.requestSets = b.requestSets
  pooling : b'.poolingParams = b.poolingParams
  builder : b'.batchUpdateBuilder = if b.isPoolingModel then b.batchUpdateBuilder
    else { b.batchUpdateBuilder with
      moved := b.batchUpdateBuilder.moved ++ [(i1, i2, .swap)] }
  samplingRows : b'.samplingRows =
    if b.isPoolingModel then b.samplingRows else b.samplingRows.swapRow i1 i2
  accepted : b'.numAcceptedTokens =
    if b.isPoolingModel then b.numAcceptedTokens else swapRow b.numAcceptedTokens i1 i2
  generators : b'.generators =
    if b.isPoolingModel then b.generators else swapDictValues b.generators i1 i2
  badWords : b'.badWordsTokenIds =
    if b.isPoolingModel then b.badWordsTokenIds else swapDictValues b.badWordsTokenIds i1 i2
  mask : b'.allowedTokenIdsMask = if b.isPoolingModel then b.allowedTokenIdsMask
    else b.allowedTokenIdsMask.map fun mask => assignViews mask i1 i2

theorem swapStates_eq_ok {i1 i2 : ℕ} (h : b.swapStates i1 i2 = .ok b') :
    ∃ id1 id2, SwappedAt b b' id1 id2 i1 i2 := by
  unfold swapStates at h
  obtain ⟨o1, h1, h⟩ := of_bind h
  obtain ⟨o2, h2, h⟩ := of_bind h
  have hget1 := index_eq_ok h1
  have hget2 := index_eq_ok h2
  cases o1 with
  | none => exact absurd h (by simp)
  | some id1 =>
    cases o2 with
    | none => exact absurd h (by simp)
    | some id2 =>
      refine ⟨id1, id2, ?_⟩
      have hb' := (pure_eq_ok.mp h).symm
      have hpool : (b.swapCommon i1 i2 id1 id2).isPoolingModel = b.isPoolingModel := rfl
      rw [hpool] at hb'
      cases hp : b.isPoolingModel with
      | true =>
        rw [hp, if_pos rfl] at hb'
        subst hb'
        constructor <;>
          first | exact hget1 | exact hget2 | rfl | (rw [hp]; rfl) | constructor <;> rfl
      | false =>
        rw [hp, if_neg Bool.false_ne_true] at hb'
        subst hb'
        constructor <;>
          first | exact hget1 | exact hget2 | rfl | (rw [hp]; rfl) | constructor <;> rfl

end Vllm.Worker.InputBatch
