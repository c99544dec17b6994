import Vllm.Worker.BatchRows

/-! The writes the model runner makes to the row of a request while it is in the batch, and what
they make of the row. -/
namespace Vllm.Worker
open RowArray RequestRow Function

inductive RowWrite where
  /-- `update_req_spec_token_ids`: the draft tokens of the step -/
  | specTokens (tokens : List TokenId)
  /-- `update_async_spec_token_ids`: the drafts of an asynchronous step replace placeholders -/
  | asyncSpecTokens (tokens : List TokenId)
  /-- sampled tokens behind the tokens of the request -/
  | appendTokens (tokens : List TokenId)
  /-- the token count advanced for tokens sampled elsewhere, or set back for discarded ones -/
  | setNumTokens (n : ℕ) (markTokenIds : Bool)
  | setComputed (n : ℕ)
  | appendBlocks (blockIds : List (List ℕ))
  | setAccepted (n : ℕ)
  deriving DecidableEq

namespace InputBatch

def writeIndex (b : InputBatch) (i : ℕ) : RowWrite → Raises InputBatch
  | .specTokens tokens => b.writeSpecTokens i tokens
  | .asyncSpecTokens tokens => pure { b with specTokenIds := b.specTokenIds.set i tokens }
  | .appendTokens tokens =>
    let startIdx := b.numTokensNoSpec i
    let endIdx := startIdx + tokens.length
    if endIdx ≤ b.maxModelLen then
      pure { b with
        tokenIds := Function.update b.tokenIds i (writeAt (b.tokenIds i) startIdx tokens)
        isTokenIds := Function.update b.isTokenIds i
          (fillRange (b.isTokenIds i) startIdx endIdx true)
        numTokensNoSpec := Function.update b.numTokensNoSpec i endIdx }
    else throw .assertionError
  | .setNumTokens n markTokenIds =>
    pure { b with
      isTokenIds :=
        if markTokenIds then Function.update b.isTokenIds i
          (fillRange (b.isTokenIds i) (b.numTokensNoSpec i) n true)
        else b.isTokenIds
      numTokensNoSpec := Function.update b.numTokensNoSpec i n }
  | .setComputed n => pure { b with numComputedTokens := Function.update b.numComputedTokens i n }
  | .appendBlocks blockIds => do
    let blockTable ← b.blockTable.appendRow blockIds i
    pure { b with blockTable }
  | .setAccepted n => pure { b with numAcceptedTokens := Function.update b.numAcceptedTokens i n }

/-- A write to the row of the request `reqId`. -/
def writeRow (b : InputBatch) (reqId : RequestId) (w : RowWrite) : Raises InputBatch :=
  match b.reqIdToIndex.get? reqId with
  | none => throw .keyError
  | some i => b.writeIndex i w

end InputBatch

/-- What a write makes of what is known of the row. -/
def RequestRow.write (tables : MultiGroupBlockTable) (r : RequestRow) : RowWrite → RequestRow
  | .specTokens tokens =>
    { r with
      common := { r.common with spec := tokens }
      tokens := overlay (r.tokens.take r.common.numTokensNoSpec) r.common.numTokensNoSpec tokens }
  | .asyncSpecTokens tokens =>
    { r with
      common := { r.common with spec := tokens }
      tokens := resize (r.common.numTokensNoSpec + tokens.length) r.tokens }
  | .appendTokens tokens =>
    { r with
      common := { r.common with numTokensNoSpec := r.common.numTokensNoSpec + tokens.length }
      tokens := resize (r.common.numTokensNoSpec + tokens.length + r.common.spec.length)
        (overlay r.tokens r.common.numTokensNoSpec tokens) }
  | .setNumTokens n _ =>
    { r with
      common := { r.common with numTokensNoSpec := n }
      tokens := resize (n + r.common.spec.length) r.tokens }
  | .setComputed n => { r with common := { r.common with numComputedTokens := n } }
  | .appendBlocks blockIds =>
    { r with common := { r.common with
        blocks := List.zipWith (· ++ ·) r.common.blocks (tables.kernelIds blockIds) } }
  | .setAccepted n => { r with numAcceptedTokens := n }

@[simp] theorem RequestRow.write_scalars (tables : MultiGroupBlockTable) (r : RequestRow)
    (w : RowWrite) : (r.write tables w).scalars = r.scalars := by
  cases w <;> rfl

namespace InputBatch
variable {b b' : InputBatch} {i : ℕ} {id : RequestId} {w : RowWrite}

/-- What a write to row `i` leaves alone. -/
structure WroteAt (b b' : InputBatch) (i : ℕ) : Prop where
  setup : SameSetup b b'
  reqIds : b'.reqIds = b.reqIds
  reqIdToIndex : b'.reqIdToIndex = b.reqIdToIndex
  outputLists : b'.reqOutputTokenIds = b.reqOutputTokenIds
  builder : b'.batchUpdateBuilder = b.batchUpdateBuilder
  spec : ∃ tokens, b'.specTokenIds = b.specTokenIds.set i tokens
  numPromptTokens : b'.numPromptTokens = b.numPromptTokens
  embeds : b'.reqPromptEmbeds = b.reqPromptEmbeds
  needsTokenIds : b'.logitsProcessingNeedsTokenIds = b.logitsProcessingNeedsTokenIds
  sets : b'.requestSets = b.requestSets
  pooling : b'.poolingParams = b.poolingParams
  mask : b'.allowedTokenIdsMask = b.allowedTokenIdsMask
  generators : b'.generators = b.generators
  badWords : b'.badWordsTokenIds = b.badWordsTokenIds
  carried : ∀ k, k ≠ i → Carried b k b' k

theorem set_getD_self {α : Type} (l : List α) (i : ℕ) (d : α) : l.set i (l.getD i d) = l := by
  refine List.ext_getElem? fun k => ?_
  rw [List.getElem?_set]
  split
  · rename_i hik
    subst hik
    split
    · rename_i hlt
      rw [List.getD_eq_getElem?_getD, List.getElem?_eq_getElem hlt, Option.getD_some]
    · rename_i hge
      exact (List.getElem?_eq_none (not_lt.mp hge)).symm
  · rfl

/-- A write changes the arrays at its own row only, and nothing but the arrays. -/
theorem writeIndex_eq_ok (h : b.writeIndex i w = .ok b') :
    ∃ tokenIds isTokenIds numTokensNoSpec numComputedTokens blockTable numAcceptedTokens spec,
      b' = { b with
        tokenIds := tokenIds, isTokenIds := isTokenIds, numTokensNoSpec := numTokensNoSpec
        numComputedTokens := numComputedTokens, blockTable := blockTable
        numAcceptedTokens := numAcceptedTokens, specTokenIds := b.specTokenIds.set i spec } ∧
      ∀ k, k ≠ i → tokenIds k = b.tokenIds k ∧ numTokensNoSpec k = b.numTokensNoSpec k ∧
        numComputedTokens k = b.numComputedTokens k ∧
        MultiGroupBlockTable.rowBlocks blockTable k = b.blockTable.rowBlocks k ∧
        numAcceptedTokens k = b.numAcceptedTokens k := by
  have hsame := set_getD_self b.specTokenIds i []
  cases w with
  | specTokens tokens =>
    unfold writeIndex writeSpecTokens at h
    dsimp only at h
    split at h
    · cases h
      refine ⟨_, _, _, _, _, _, tokens, rfl, fun k hk => ⟨?_, rfl, rfl, rfl, rfl⟩⟩
      exact update_of_ne hk _ _
    · exact absurd h (by simp)
  | asyncSpecTokens tokens =>
    cases h
    exact ⟨_, _, _, _, _, _, tokens, rfl, fun k _ => ⟨rfl, rfl, rfl, rfl, rfl⟩⟩
  | appendTokens tokens =>
    unfold writeIndex at h
    dsimp only at h
    split at h
    · cases h
      refine ⟨_, _, _, _, _, _, b.specTokenIds.getD i [], by rw [hsame],
        fun k hk => ⟨?_, ?_, rfl, rfl, rfl⟩⟩
      · exact update_of_ne hk _ _
      · exact update_of_ne hk _ _
    · exact absurd h (by simp)
  | setNumTokens n markTokenIds =>
    cases h
    refine ⟨_, _, _, _, _, _, b.specTokenIds.getD i [], by rw [hsame],
      fun k hk => ⟨rfl, ?_, rfl, rfl, rfl⟩⟩
    exact update_of_ne hk _ _
  | setComputed n =>
    cases h
    refine ⟨_, _, _, _, _, _, b.specTokenIds.getD i [], by rw [hsame],
      fun k hk => ⟨rfl, rfl, ?_, rfl, rfl⟩⟩
    exact update_of_ne hk _ _
  | appendBlocks blockIds =>
    obtain ⟨tables, htables, h⟩ := Raises.of_bind h
    cases h
    refine ⟨_, _, _, _, _, _, b.specTokenIds.getD i [], by rw [hsame],
      fun k hk => ⟨rfl, rfl, rfl, ?_, rfl⟩⟩
    have hrow := MultiGroupBlockTable.appendRow_rowBlocks htables k
    rwa [if_neg hk] at hrow
  | setAccepted n =>
    cases h
    refine ⟨_, _, _, _, _, _, b.specTokenIds.getD i [], by rw [hsame],
      fun k hk => ⟨rfl, rfl, rfl, rfl, ?_⟩⟩
    exact update_of_ne hk _ _

theorem writeIndex_wroteAt (h : b.writeIndex i w = .ok b') : WroteAt b b' i := by
  obtain ⟨tokenIds, isTokenIds, noSpec, computed, tables, accepted, spec, rfl, hrows⟩ :=
    writeIndex_eq_ok h
  refine ⟨⟨rfl, rfl, rfl, rfl, rfl, rfl⟩, rfl, rfl, rfl, rfl, ⟨spec, rfl⟩, rfl, rfl, rfl, rfl, rfl,
    rfl, rfl, rfl, fun k hk => ?_⟩
  obtain ⟨htokens, hnoSpec, hcomputed, hblocks, haccepted⟩ := hrows k hk
  refine ⟨rfl, ?_, fun p _ => congrFun htokens p, fun _ => ⟨rfl, haccepted, rfl, rfl⟩⟩
  simp only [commonRow, specAt, hnoSpec, hcomputed, hblocks, List.getD_eq_getElem?_getD,
    List.getElem?_set_ne (Ne.symm hk)]

theorem writeIndex_shows {r : RequestRow} (hlt : i < b.specTokenIds.length) (hr : b.Shows i r)
    (h : b.writeIndex i w = .ok b') : b'.Shows i (r.write b.blockTable w) := by
  obtain ⟨hcommon, hlength, htokens, hscalars, haccepted, hgen, hbad⟩ := hr
  have hnoSpec : b.numTokensNoSpec i = r.common.numTokensNoSpec :=
    congrArg CommonRow.numTokensNoSpec hcommon
  have hspec : b.specAt i = r.common.spec := congrArg CommonRow.spec hcommon
  have hspecSet : ∀ tokens : List TokenId, (b.specTokenIds.set i tokens).getD i [] = tokens := by
    intro tokens
    rw [getD_set _ _ _ hlt, update_self]
  cases w with
  | specTokens tokens =>
    unfold writeIndex writeSpecTokens at h
    dsimp only at h
    split at h
    · cases h
      refine ⟨?_, ?_, ?_, hscalars, haccepted, hgen, hbad⟩
      · simp only [commonRow, specAt, hspecSet, write, ← hcommon]
      · rw [write, length_overlay (by simp; omega)]
        simp
      · simp only [update_self, hnoSpec]
        refine (htokens.take _).writeAt ?_ tokens
        simp
        omega
    · exact absurd h (by simp)
  | asyncSpecTokens tokens =>
    cases h
    refine ⟨?_, ?_, htokens.resize _, hscalars, haccepted, hgen, hbad⟩
    · simp only [commonRow, specAt, hspecSet, write, ← hcommon]
    · simp [write]
  | appendTokens tokens =>
    unfold writeIndex at h
    dsimp only at h
    split at h
    · cases h
      refine ⟨?_, ?_, ?_, hscalars, haccepted, hgen, hbad⟩
      · simp only [commonRow, specAt, write, ← hcommon, update_self]
      · simp [write]
      · simp only [update_self, hnoSpec]
        exact (htokens.writeAt (by omega) tokens).resize _
    · exact absurd h (by simp)
  | setNumTokens n markTokenIds =>
    cases h
    refine ⟨?_, ?_, htokens.resize _, hscalars, haccepted, hgen, hbad⟩
    · simp only [commonRow, specAt, write, ← hcommon, update_self]
    · simp [write]
  | setComputed n =>
    cases h
    refine ⟨?_, hlength, htokens, hscalars, haccepted, hgen, hbad⟩
    simp only [commonRow, specAt, write, ← hcommon, update_self]
  | appendBlocks blockIds =>
    obtain ⟨tables, htables, h⟩ := Raises.of_bind h
    cases h
    refine ⟨?_, hlength, htokens, hscalars, haccepted, hgen, hbad⟩
    have hrow := MultiGroupBlockTable.appendRow_rowBlocks htables i
    rw [if_pos rfl] at hrow
    simp only [commonRow, specAt, write, ← hcommon, hrow]
  | setAccepted n =>
    cases h
    refine ⟨hcommon, hlength, htokens, hscalars, ?_, hgen, hbad⟩
    simp [write]

section Invariants

section
variable (h : WroteAt b b' i)
include h

theorem WroteAt.owner_eq : b'.owner = b.owner := by
  funext k
  rw [owner, h.reqIds, owner]

theorem WroteAt.numReqs_eq : b'.numReqs = b.numReqs := by
  rw [numReqs, h.reqIdToIndex, numReqs]

theorem WroteAt.keepsIndexed (hb : b.Indexed) (howner : b.owner i = some id) : b'.Indexed := by
  obtain ⟨tokens, hspec⟩ := h.spec
  refine ⟨?_, ?_, ?_, ?_, ?_⟩
  · rw [h.outputLists, h.reqIds]
    exact hb.lenOutputs
  · rw [h.reqIds, hspec, List.length_set]
    exact hb.lenSpec
  · intro id' k
    rw [h.reqIdToIndex, h.owner_eq]
    exact hb.index id' k
  · intro k hk
    rw [h.owner_eq] at hk
    have hne : k ≠ i := by
      rintro rfl
      rw [howner] at hk
      exact absurd hk (by simp)
    rw [specAt, hspec, List.getD_eq_getElem?_getD, List.getElem?_set_ne (Ne.symm hne),
      ← List.getD_eq_getElem?_getD]
    exact hb.specIdle k hk
  · rw [h.builder]
    exact hb.sorted

theorem WroteAt.keepsOpen (hb : b.Open) (howner : b.owner i = some id) : b'.Open := by
  refine ⟨h.keepsIndexed hb.toIndexed howner, ?_, ?_⟩
  · rw [h.builder, h.reqIds]
    exact hb.removed
  · rw [h.builder, h.reqIds, h.numReqs_eq]
    exact hb.count

theorem WroteAt.keepsDense (hb : b.Dense) (howner : b.owner i = some id) : b'.Dense := by
  refine ⟨h.keepsIndexed hb.toIndexed howner, ?_, ?_, ?_⟩
  · rw [h.reqIds, h.numReqs_eq]
    exact hb.length
  · rw [h.numReqs_eq, h.owner_eq]
    exact hb.filled
  · rw [h.builder, h.numReqs_eq]
    exact hb.removed

end

end Invariants

end InputBatch

end Vllm.Worker
