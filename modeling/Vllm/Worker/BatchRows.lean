import Vllm.Worker.BatchCondense

/-! What a row of the batch shows of its request, and that every operation carries the rows of
the requests it does not add or remove to where their requests go. -/
namespace Vllm.Worker
open RowArray Function MultiGroupBlockTable

/-- The part of a row that all models have, the token ids apart. -/
structure CommonRow where
  numPromptTokens : ℕ
  numTokensNoSpec : ℕ
  numComputedTokens : ℕ
  loraId : ℕ
  blocks : List (List ℕ)
  spec : List TokenId
  output : Option ListRef
  deriving DecidableEq

/-- What has been written for a request: at `add_request` and by the writes since. Token
positions that were never written are unknown. -/
structure RequestRow where
  common : CommonRow
  tokens : List (Option TokenId)
  scalars : Option SamplingScalars
  numAcceptedTokens : ℕ
  generator : Option Generator
  badWords : Option (List (List TokenId))
  deriving DecidableEq

def CachedRequestState.numPromptTokens (r : CachedRequestState) : ℕ :=
  match r.promptTokenIds with
  | some ids => ids.length
  | none => (r.promptEmbeds.getD []).length

theorem lengthFromPrompt_eq_ok {r : CachedRequestState} {n : ℕ}
    (h : lengthFromPromptTokenIdsOrEmbeds r.promptTokenIds r.promptEmbeds = .ok n) :
    n = r.numPromptTokens := by
  unfold lengthFromPromptTokenIdsOrEmbeds at h
  unfold CachedRequestState.numPromptTokens
  cases hids : r.promptTokenIds with
  | none =>
    cases hembeds : r.promptEmbeds with
    | none =>
      rw [hids, hembeds] at h
      exact absurd h (by simp)
    | some embeds =>
      rw [hids, hembeds] at h
      exact (Raises.pure_eq_ok.mp h).symm
  | some ids =>
    cases hembeds : r.promptEmbeds with
    | none =>
      rw [hids, hembeds] at h
      exact (Raises.pure_eq_ok.mp h).symm
    | some embeds =>
      rw [hids, hembeds] at h
      dsimp only at h
      split at h
      · exact absurd h (by simp)
      · exact (Raises.pure_eq_ok.mp h).symm

/-- The prompt as far as it is given by token ids. -/
def CachedRequestState.knownPrompt (r : CachedRequestState) : List (Option TokenId) :=
  match r.promptTokenIds with
  | some ids => ids.map some
  | none => List.replicate r.numPromptTokens none

@[simp] theorem CachedRequestState.length_knownPrompt (r : CachedRequestState) :
    r.knownPrompt.length = r.numPromptTokens := by
  unfold knownPrompt numPromptTokens
  cases r.promptTokenIds <;> simp

/-- The bad words of a request, if it has any. -/
def SamplingParams.badWords (params : SamplingParams) : Option (List (List TokenId)) :=
  params.badWordsTokenIds.filter (· ≠ [])

/-- The row of a request as it is added. -/
def RequestRow.ofRequest (vocabSize : ℕ) (tables : MultiGroupBlockTable) (outputs : Outputs)
    (r : CachedRequestState) : RequestRow where
  common :=
    { numPromptTokens := r.numPromptTokens
      numTokensNoSpec := r.numPromptTokens + (outputs r.outputTokenIds).length
      numComputedTokens := r.numComputedTokens
      loraId := InputBatch.loraId r
      blocks := tables.kernelIds r.blockIds
      spec := []
      output := some r.outputTokenIds }
  tokens := r.knownPrompt ++ (outputs r.outputTokenIds).map some
  scalars := r.samplingParams.map fun params => params.scalars vocabSize
  numAcceptedTokens := 1
  generator := if r.samplingParams.isSome then r.generator else none
  badWords := r.samplingParams.bind SamplingParams.badWords

section RowMaps
variable {α : Type}

theorem get?_swapDictValues (d : Dict ℕ α) (i j k : ℕ) :
    (swapDictValues d i j).get? k = d.get? (Equiv.swap i j k) := by
  have hsecond : (swapDictValues d i j).get? k =
      if k = i then d.get? j else if k = j then d.get? i else d.get? k := by
    unfold swapDictValues
    cases hi : d.get? i <;> cases hj : d.get? j <;> simp
  rw [hsecond]
  by_cases hki : k = i
  · subst hki
    simp
  · by_cases hkj : k = j
    · subst hkj
      simp [hki]
    · rw [if_neg hki, if_neg hkj, Equiv.swap_apply_of_ne_of_ne hki hkj]

theorem get?_slideDictValue (d : Dict ℕ α) {last empty : ℕ} (hne : empty ≠ last) (k : ℕ) :
    (slideDictValue d last empty).get? k =
      if k = last then none
      else if k = empty then ((d.get? last).or (d.get? empty)) else d.get? k := by
  unfold slideDictValue
  cases hlast : d.get? last with
  | some v =>
    simp only [Dict.get?_set, Dict.get?_erase, Option.some_or]
    by_cases hke : k = empty
    · subst hke
      simp [hne]
    · simp [hke]
  | none =>
    simp only [Option.none_or]
    by_cases hkl : k = last
    · subst hkl
      simp [hlast]
    · by_cases hke : k = empty
      · subst hke
        simp [hkl]
      · simp [hkl, hke]

theorem swapFirst_apply (n : ℕ) (a : ℕ → ℕ → α) (i j k p : ℕ) (hp : p < n) :
    swapFirst n a i j k p = a (Equiv.swap i j k) p := by
  unfold swapFirst
  by_cases hkj : k = j
  · subst hkj
    rw [update_self, Equiv.swap_apply_right, copyFirst, if_pos hp]
  · rw [update_of_ne hkj]
    by_cases hki : k = i
    · subst hki
      rw [update_self, Equiv.swap_apply_left, copyFirst, if_pos hp]
    · rw [update_of_ne hki, Equiv.swap_apply_of_ne_of_ne hki hkj]

theorem swapFirst_of_ne (n : ℕ) (a : ℕ → ℕ → α) {i j k : ℕ} (hi : k ≠ i) (hj : k ≠ j) :
    swapFirst n a i j k = a k := by
  rw [swapFirst, update_of_ne hj, update_of_ne hi]

end RowMaps

namespace SamplingRows

theorem setRow_row (s : SamplingRows) (i k : ℕ) (v : SamplingScalars) :
    (s.setRow i v).row k = if k = i then v else s.row k := by
  by_cases hk : k = i
  · subst hk
    simp [setRow, row]
  · simp [setRow, row, hk]

theorem moveRow_row (s : SamplingRows) (last empty k : ℕ) :
    (s.moveRow last empty).row k = if k = empty then s.row last else s.row k := by
  by_cases hk : k = empty
  · subst hk
    simp [moveRow, row]
  · simp [moveRow, row, hk]

theorem swapRow_row (s : SamplingRows) (i j k : ℕ) :
    (s.swapRow i j).row k = s.row (Equiv.swap i j k) := by
  simp [SamplingRows.swapRow, row, swapRow_apply]

end SamplingRows

namespace InputBatch
variable {b b' : InputBatch}

def commonRow (b : InputBatch) (i : ℕ) : CommonRow where
  numPromptTokens := b.numPromptTokens i
  numTokensNoSpec := b.numTokensNoSpec i
  numComputedTokens := b.numComputedTokens i
  loraId := b.requestLoraMapping i
  blocks := b.blockTable.rowBlocks i
  spec := b.specAt i
  output := (b.reqOutputTokenIds[i]?).join

/-- Row `i` holds what was written for a request. -/
structure Shows (b : InputBatch) (i : ℕ) (r : RequestRow) : Prop where
  common : b.commonRow i = r.common
  length : r.tokens.length = r.common.numTokensNoSpec + r.common.spec.length
  tokens : Known r.tokens (b.tokenIds i)
  scalars : ∀ s, r.scalars = some s → b.samplingRows.row i = s
  accepted : b.numAcceptedTokens i = r.numAcceptedTokens
  generator : b.generators.get? i = r.generator
  badWords : b.badWordsTokenIds.get? i = r.badWords

/-- The batch of a pooling model holds no sampling state. -/
def PoolingQuiet (b : InputBatch) : Prop :=
  b.isPoolingModel = true →
    (∀ i, b.generators.get? i = none) ∧ (∀ i, b.badWordsTokenIds.get? i = none) ∧
      ∀ i, b.numAcceptedTokens i = 1

/-- Row `j` of `b'` holds what row `i` of `b` held. -/
structure Carried (b : InputBatch) (i : ℕ) (b' : InputBatch) (j : ℕ) : Prop where
  isPoolingModel : b'.isPoolingModel = b.isPoolingModel
  common : b'.commonRow j = b.commonRow i
  tokens : ∀ p < b.getActiveTokenCount i, b'.tokenIds j p = b.tokenIds i p
  sampling : b.isPoolingModel = false → b'.samplingRows.row j = b.samplingRows.row i ∧
    b'.numAcceptedTokens j = b.numAcceptedTokens i ∧
    b'.generators.get? j = b.generators.get? i ∧
    b'.badWordsTokenIds.get? j = b.badWordsTokenIds.get? i

theorem Carried.shows {i j : ℕ} {r : RequestRow} (h : Carried b i b' j) (hq : b.PoolingQuiet)
    (hq' : b'.PoolingQuiet) (hpool : b.isPoolingModel = true → r.scalars = none)
    (hr : b.Shows i r) : b'.Shows j r := by
  have hcommon : b'.commonRow j = r.common := h.common.trans hr.common
  have htokens : Known r.tokens (b'.tokenIds j) := by
    intro p v hp
    have hlt := (List.getElem?_eq_some_iff.mp hp).1
    rw [hr.length] at hlt
    have hactive : b.getActiveTokenCount i =
        r.common.numTokensNoSpec + r.common.spec.length := by
      rw [← hr.common]
      rfl
    rw [h.tokens p (by omega)]
    exact hr.tokens p v hp
  cases hp : b.isPoolingModel with
  | false =>
    obtain ⟨hscalars, haccepted, hgen, hbad⟩ := h.sampling hp
    refine ⟨hcommon, hr.length, htokens, ?_, ?_, ?_, ?_⟩
    · intro s hs
      rw [hscalars]
      exact hr.scalars s hs
    · rw [haccepted]
      exact hr.accepted
    · rw [hgen]
      exact hr.generator
    · rw [hbad]
      exact hr.badWords
  | true =>
    obtain ⟨hgen, hbad, hacc⟩ := hq hp
    obtain ⟨hgen', hbad', hacc'⟩ := hq' (h.isPoolingModel.trans hp)
    refine ⟨hcommon, hr.length, htokens, ?_, ?_, ?_, ?_⟩
    · intro s hs
      rw [hpool hp] at hs
      exact absurd hs (by simp)
    · rw [hacc', ← hr.accepted, hacc]
    · rw [hgen', ← hr.generator, hgen]
    · rw [hbad', ← hr.badWords, hbad]

variable {empty last : ℕ} {id : RequestId}

section
variable (h : SlidAt b b' id last empty) (hb : b.Indexed) (hlt : empty < b.reqIds.length)
include h hb hlt

theorem SlidAt.outputs_eq (hne : empty ≠ last) (k : ℕ) :
    (b'.reqOutputTokenIds[k]?).join = if k = last then none
      else if k = empty then (b.reqOutputTokenIds[last]?).join
      else (b.reqOutputTokenIds[k]?).join := by
  have hlast := (List.getElem?_eq_some_iff.mp h.owned).1
  rw [← hb.lenOutputs] at hlt hlast
  have hgetD : b.reqOutputTokenIds.getD last none = (b.reqOutputTokenIds[last]?).join := by
    rw [List.getD_eq_getElem?_getD]
    cases b.reqOutputTokenIds[last]? <;> rfl
  rw [h.outputLists, join_getElem?_set _ _ (by simpa using hlast)]
  by_cases hkl : k = last
  · subst hkl
    simp
  · rw [update_of_ne hkl, if_neg hkl, join_getElem?_set _ _ hlt, hgetD]
    by_cases hke : k = empty
    · subst hke
      simp
    · rw [update_of_ne hke, if_neg hke]

theorem SlidAt.specAt_eq (k : ℕ) :
    b'.specAt k = if k = empty then b.specAt last else if k = last then [] else b.specAt k := by
  have hspecLast := hb.lt_specTokenIds (owner_eq_some.mpr h.owned)
  have hspecEmpty : empty < b.specTokenIds.length := lt_of_lt_of_le hlt hb.lenSpec
  rw [specAt, h.spec, getD_set _ _ _ (by simpa using hspecEmpty)]
  by_cases hke : k = empty
  · subst hke
    simp
  · rw [update_of_ne hke, if_neg hke, getD_set _ _ _ hspecLast]
    by_cases hkl : k = last
    · subst hkl
      simp
    · rw [update_of_ne hkl, if_neg hkl]
      rfl

theorem SlidAt.carried (hne : empty ≠ last) (hgen : b.generators.get? empty = none)
    (hbad : b.badWordsTokenIds.get? empty = none) :
    Carried b last b' empty := by
  refine ⟨h.setup.isPoolingModel, ?_, ?_, ?_⟩
  · simp only [commonRow, h.numPromptTokens, h.numTokensNoSpec, h.numComputedTokens, h.lora,
      update_self, h.blockTable, moveRow_rowBlocks, ↓reduceIte,
      h.specAt_eq hb hlt, h.outputs_eq hb hlt hne, if_neg hne]
  · intro p hp
    rw [h.tokenIds, update_self, copyFirst, if_pos hp]
  · intro hp
    rw [h.samplingRows, h.accepted, h.generators, h.badWords, hp]
    simp only [Bool.false_eq_true, ↓reduceIte, SamplingRows.moveRow_row, update_self,
      get?_slideDictValue _ hne, if_neg hne, hgen, hbad, Option.or_none, and_self]

theorem SlidAt.carried_of_ne {k : ℕ} (hne : empty ≠ last) (hkl : k ≠ last) (hke : k ≠ empty) :
    Carried b k b' k := by
  refine ⟨h.setup.isPoolingModel, ?_, ?_, ?_⟩
  · simp only [commonRow, h.numPromptTokens, h.numTokensNoSpec, h.numComputedTokens, h.lora,
      update_of_ne hke, h.blockTable, moveRow_rowBlocks,
      if_neg hke, h.specAt_eq hb hlt, h.outputs_eq hb hlt hne, if_neg hkl]
  · intro p _
    rw [h.tokenIds, update_of_ne hke]
  · intro hp
    rw [h.samplingRows, h.accepted, h.generators, h.badWords, hp]
    simp only [Bool.false_eq_true, ↓reduceIte, SamplingRows.moveRow_row,
      update_of_ne hke, get?_slideDictValue _ hne, if_neg hkl, if_neg hke, and_self]

end

theorem SwappedAt.outputs_eq {id1 id2 : RequestId} {i1 i2 : ℕ}
    (h : SwappedAt b b' id1 id2 i1 i2) (hb : b.Indexed) (k : ℕ) :
    (b'.reqOutputTokenIds[k]?).join = (b.reqOutputTokenIds[Equiv.swap i1 i2 k]?).join := by
  have h1 := (List.getElem?_eq_some_iff.mp h.owned1).1
  have h2 := (List.getElem?_eq_some_iff.mp h.owned2).1
  rw [← hb.lenOutputs] at h1 h2
  have hgetD : ∀ i, b.reqOutputTokenIds.getD i none = (b.reqOutputTokenIds[i]?).join := by
    intro i
    rw [List.getD_eq_getElem?_getD]
    cases b.reqOutputTokenIds[i]? <;> rfl
  rw [h.outputLists, hgetD, hgetD, join_getElem?_set _ _ (by simpa using h2)]
  have hinner : (fun k => ((b.reqOutputTokenIds.set i1
      (b.reqOutputTokenIds[i2]?).join)[k]?).join) =
        update (fun k => (b.reqOutputTokenIds[k]?).join) i1
          (b.reqOutputTokenIds[i2]?).join := by
    funext j
    exact join_getElem?_set _ _ h1 j
  rw [hinner]
  exact swapRow_apply (fun k => (b.reqOutputTokenIds[k]?).join) i1 i2 k

theorem SwappedAt.carried {id1 id2 : RequestId} {i1 i2 : ℕ} (h : SwappedAt b b' id1 id2 i1 i2)
    (hb : b.Indexed) (k : ℕ) : Carried b (Equiv.swap i1 i2 k) b' k := by
  refine ⟨h.setup.isPoolingModel, ?_, ?_, ?_⟩
  · simp only [commonRow, h.numPromptTokens, h.numTokensNoSpec, h.numComputedTokens, h.lora,
      swapRow_apply, h.blockTable, swapRow_rowBlocks, h.specAt_eq hb,
      h.outputs_eq hb]
  · intro p hp
    rw [h.tokenIds]
    by_cases hlt : p < max (b.getActiveTokenCount i1) (b.getActiveTokenCount i2)
    · exact swapFirst_apply _ _ _ _ _ _ hlt
    · have hk1 : k ≠ i1 := by
        rintro rfl
        rw [Equiv.swap_apply_left] at hp
        exact hlt (lt_of_lt_of_le hp (le_max_right _ _))
      have hk2 : k ≠ i2 := by
        rintro rfl
        rw [Equiv.swap_apply_right] at hp
        exact hlt (lt_of_lt_of_le hp (le_max_left _ _))
      rw [swapFirst_of_ne _ _ hk1 hk2, Equiv.swap_apply_of_ne_of_ne hk1 hk2]
  · intro hp
    rw [h.samplingRows, h.accepted, h.generators, h.badWords, hp]
    simp only [Bool.false_eq_true, ↓reduceIte, SamplingRows.swapRow_row, swapRow_apply,
      get?_swapDictValues, and_self]

theorem RemovedAt.carried {i k : ℕ} (h : RemovedAt b b' id i) (hk : k ≠ i) : Carried b k b' k := by
  refine ⟨h.setup.isPoolingModel, ?_, ?_, ?_⟩
  · simp only [commonRow, h.numPromptTokens, h.numTokensNoSpec, h.numComputedTokens, h.lora k hk,
      h.blockTable, clearRow_rowBlocks _ hk, specAt, h.spec, h.outputLists,
      List.getD_eq_getElem?_getD, List.getElem?_set_ne (Ne.symm hk)]
  · intro p _
    rw [h.tokenIds]
  · intro hp
    rw [h.samplingRows, h.accepted, h.generators, h.badWords, hp]
    simp [hk]

section Add
variable {outputs : Outputs} {r : CachedRequestState} {i n k : ℕ}

section
variable (h : AddedAt outputs b b' r i n)
include h

theorem AddedAt.setup : SameSetup b b' := by
  rw [h.eq]
  exact ⟨rfl, rfl, rfl, rfl, rfl, rfl⟩

theorem AddedAt.specAt_eq (hb : b.Open) (k : ℕ) :
    b'.specAt k = if k = i then [] else b.specAt k := by
  have hspec := hb.lenSpec
  have hle := h.le
  by_cases hk : k = i
  · subst hk
    have hidle := hb.specIdle k (h.free hb)
    rw [if_pos rfl, specAt, h.spec_eq, List.getD_eq_getElem?_getD]
    split
    · rw [List.getElem?_append]
      split
      · rw [specAt, List.getD_eq_getElem?_getD] at hidle
        exact hidle
      · rw [List.getElem?_singleton]
        split <;> rfl
    · rw [List.getElem?_set]
      simp only [↓reduceIte]
      split <;> rfl
  · rw [if_neg hk, specAt, h.spec_eq, specAt, List.getD_eq_getElem?_getD,
      List.getD_eq_getElem?_getD]
    split
    · rw [List.getElem?_append]
      split
      · rfl
      · rename_i hge
        rw [List.getElem?_eq_none (not_lt.mp hge), List.getElem?_singleton]
        split <;> rfl
    · rw [List.getElem?_set_ne (Ne.symm hk)]

theorem AddedAt.outputAt_eq (hb : b.Open) (k : ℕ) :
    (b'.reqOutputTokenIds[k]?).join =
      if k = i then some r.outputTokenIds else (b.reqOutputTokenIds[k]?).join := by
  have hle := h.le
  have hlen := hb.lenOutputs
  rw [h.outputs_eq, ← hlen, join_getElem?_store (by omega), update_apply]

theorem AddedAt.rowBlocks_eq (k : ℕ) :
    b'.blockTable.rowBlocks k =
      if k = i then b.blockTable.kernelIds r.blockIds else b.blockTable.rowBlocks k :=
  addRow_rowBlocks h.blockTable k

theorem AddedAt.tokenIds_eq :
    b'.tokenIds = update b.tokenIds i
      (writeAt (writeAt (b.tokenIds i) 0 (r.promptTokenIds.getD [])) n
        (outputs r.outputTokenIds)) := by
  rw [h.eq]
  rfl

theorem AddedAt.counts_eq :
    b'.numPromptTokens = update b.numPromptTokens i n ∧
      b'.numTokensNoSpec = update b.numTokensNoSpec i
        (n + (outputs r.outputTokenIds).length) ∧
      b'.numComputedTokens = update b.numComputedTokens i r.numComputedTokens ∧
      b'.requestLoraMapping = update b.requestLoraMapping i (loraId r) ∧
      b'.numAcceptedTokens = update b.numAcceptedTokens i 1 := by
  rw [h.eq]
  exact ⟨rfl, rfl, rfl, rfl, rfl⟩

theorem AddedAt.samplingRow_eq (k : ℕ) :
    b'.samplingRows.row k = match r.samplingParams with
      | some params => if k = i then params.scalars b.vocabSize else b.samplingRows.row k
      | none => b.samplingRows.row k := by
  rw [h.eq]
  dsimp only [storeRequest]
  cases r.samplingParams with
  | none => rfl
  | some params => exact SamplingRows.setRow_row _ _ _ _

theorem AddedAt.generators_eq (hfree : b.generators.get? i = none) (k : ℕ) :
    b'.generators.get? k =
      if k = i then (if r.samplingParams.isSome then r.generator else none)
      else b.generators.get? k := by
  rw [h.eq]
  dsimp only [storeRequest, storeSparse]
  by_cases hk : k = i
  · subst hk
    cases r.samplingParams with
    | none => simpa using hfree
    | some params => cases r.generator <;> simp [hfree]
  · cases r.samplingParams with
    | none => simp [hk]
    | some params => cases r.generator <;> simp [hk]

end

theorem get?_storeBadWords (b : InputBatch) {i : ℕ} (params : SamplingParams)
    (hfree : b.badWordsTokenIds.get? i = none) (k : ℕ) :
    (b.storeBadWords i params).get? k =
      if k = i then params.badWords else b.badWordsTokenIds.get? k := by
  have hold : b.badWordsTokenIds.get? k = if k = i then none else b.badWordsTokenIds.get? k := by
    split
    · rename_i hk
      rw [hk, hfree]
    · rfl
  unfold storeBadWords SamplingParams.badWords
  cases params.badWordsTokenIds with
  | none => exact hold
  | some words =>
    cases words with
    | nil => exact hold
    | cons w ws => simp [Option.filter]

section
variable (h : AddedAt outputs b b' r i n)
include h

theorem AddedAt.badWords_eq (hfree : b.badWordsTokenIds.get? i = none) (k : ℕ) :
    b'.badWordsTokenIds.get? k =
      if k = i then r.samplingParams.bind SamplingParams.badWords
      else b.badWordsTokenIds.get? k := by
  rw [h.eq]
  dsimp only [storeRequest]
  cases r.samplingParams with
  | none =>
    by_cases hk : k = i
    · subst hk
      simpa using hfree
    · simp [hk]
  | some params => exact b.get?_storeBadWords params hfree k

theorem AddedAt.carried_of_ne (hb : b.Open) (hgen : b.generators.get? i = none)
    (hbad : b.badWordsTokenIds.get? i = none) (hk : k ≠ i) : Carried b k b' k := by
  obtain ⟨hprompt, hnoSpec, hcomputed, hlora, haccepted⟩ := h.counts_eq
  refine ⟨h.setup.isPoolingModel, ?_, ?_, ?_⟩
  · simp only [commonRow, hprompt, hnoSpec, hcomputed, hlora, update_of_ne hk,
      h.rowBlocks_eq, h.specAt_eq hb, h.outputAt_eq hb, if_neg hk]
  · intro p _
    rw [h.tokenIds_eq, update_of_ne hk]
  · intro _
    rw [h.samplingRow_eq, haccepted, h.generators_eq hgen, h.badWords_eq hbad, if_neg hk,
      if_neg hk, update_of_ne hk]
    refine ⟨?_, rfl, rfl, rfl⟩
    cases r.samplingParams with
    | none => rfl
    | some params => exact if_neg hk

theorem AddedAt.known :
    Known (r.knownPrompt ++ (outputs r.outputTokenIds).map some) (b'.tokenIds i) := by
  obtain rfl := lengthFromPrompt_eq_ok h.length
  rw [h.tokenIds_eq, update_self]
  have hprompt : Known r.knownPrompt (writeAt (b.tokenIds i) 0 (r.promptTokenIds.getD [])) := by
    unfold CachedRequestState.knownPrompt
    cases hids : r.promptTokenIds with
    | none => exact Known.replicate_none _ _
    | some ids =>
      have hwrite := (Known.nil (b.tokenIds i)).writeAt (Nat.zero_le 0) ids
      simpa [overlay] using hwrite
  have hwrite := hprompt.writeAt (by rw [r.length_knownPrompt]) (outputs r.outputTokenIds)
  have hoverlay : overlay r.knownPrompt r.numPromptTokens (outputs r.outputTokenIds) =
      r.knownPrompt ++ (outputs r.outputTokenIds).map some := by
    rw [overlay, List.take_of_length_le (by simp), List.drop_of_length_le (by simp),
      List.append_nil]
  rwa [hoverlay] at hwrite

theorem AddedAt.shows (hb : b.Open) (hgen : b.generators.get? i = none)
    (hbad : b.badWordsTokenIds.get? i = none) :
    b'.Shows i (RequestRow.ofRequest b.vocabSize b.blockTable outputs r) := by
  have hn := lengthFromPrompt_eq_ok h.length
  obtain ⟨hprompt, hnoSpec, hcomputed, hlora, haccepted⟩ := h.counts_eq
  refine ⟨?_, ?_, h.known, ?_, ?_, ?_, ?_⟩
  · simp only [commonRow, RequestRow.ofRequest, hprompt, hnoSpec, hcomputed, hlora,
      update_self, h.rowBlocks_eq, h.specAt_eq hb, h.outputAt_eq hb, ↓reduceIte, hn]
  · simp [RequestRow.ofRequest]
  · intro s hs
    rw [h.samplingRow_eq]
    unfold RequestRow.ofRequest at hs
    cases hparams : r.samplingParams with
    | none =>
      rw [hparams] at hs
      exact absurd hs (by simp)
    | some params =>
      rw [hparams] at hs
      simpa using hs
  · rw [haccepted, update_self]
    rfl
  · rw [h.generators_eq hgen, if_pos rfl]
    rfl
  · rw [h.badWords_eq hbad, if_pos rfl]
    rfl

end

end Add

theorem carried_setBuilder (b : InputBatch) (builder : BatchUpdateBuilder) (k : ℕ) :
    Carried b k { b with batchUpdateBuilder := builder } k :=
  ⟨rfl, rfl, fun _ _ => rfl, fun _ => ⟨rfl, rfl, rfl, rfl⟩⟩

theorem Settled.carried_trimLists (hb : Settled b) {k : ℕ} (hk : k < b.numReqs) :
    Carried b k (b.trimLists b.numReqs) k := by
  refine ⟨rfl, ?_, fun _ _ => rfl, fun _ => ⟨rfl, rfl, rfl, rfl⟩⟩
  have hspec := hb.specAt_trimLists k
  have hout : ((b.trimLists b.numReqs).reqOutputTokenIds[k]?).join =
      (b.reqOutputTokenIds[k]?).join := by
    rw [trimLists, List.getElem?_take_of_lt hk]
  simp only [commonRow, hspec, hout]
  rfl

end InputBatch

end Vllm.Worker
