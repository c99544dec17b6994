import Vllm.Engine.ParallelSampling

/-! What making an output does to a request and to its parent: only the token offset of the request
changes, and a child that finishes leaves its parent. -/
namespace Vllm.Engine
open ParentRequest Raises

/-- A child has finished with a completion. -/
def ParentRequest.finishChild (p : ParentRequest) (childRequestId : ReqId)
    (c : CompletionOutput) : ParentRequest :=
  { p with
    childRequests := p.childRequests.erase childRequestId
    outputAggregator :=
      if p.outputKind = .finalOnly then p.outputAggregator.set c.index (some c)
      else p.outputAggregator }

section FinishChild
variable (p : ParentRequest) (id : ReqId) (c : CompletionOutput)

@[simp] theorem finishChild_externalReqId :
    (p.finishChild id c).externalReqId = p.externalReqId := rfl

@[simp] theorem finishChild_n : (p.finishChild id c).n = p.n := rfl

@[simp] theorem finishChild_outputKind : (p.finishChild id c).outputKind = p.outputKind := rfl

@[simp] theorem finishChild_childRequests :
    (p.finishChild id c).childRequests = p.childRequests.erase id := rfl

@[simp] theorem length_finishChild_outputAggregator :
    (p.finishChild id c).outputAggregator.length = p.outputAggregator.length := by
  unfold finishChild
  split <;> simp

end FinishChild

/-- What a parent reports when a child has left it. -/
def ParentRequest.report (p : ParentRequest) (c : CompletionOutput) : Option RequestOutput :=
  if p.outputKind = .finalOnly then
    if p.childRequests = [] then some (.completions p.externalReqId p.outputAggregator true)
    else none
  else some (.completions p.externalReqId [some c] p.childRequests.isEmpty)

/-- A report is a finished one exactly when no child is outstanding. -/
theorem countP_report (p : ParentRequest) (c : CompletionOutput) :
    (p.report c).toList.countP (·.finished) = if p.childRequests = [] then 1 else 0 := by
  unfold report
  by_cases hkind : p.outputKind = .finalOnly
  · rw [if_pos hkind]
    by_cases hnil : p.childRequests = []
    · rw [if_pos hnil, if_pos hnil]
      rfl
    · rw [if_neg hnil, if_neg hnil]
      rfl
  · rw [if_neg hkind]
    cases p.childRequests with
    | nil | cons i is => rfl

theorem getOutputs_running {p : ParentRequest} {id : ReqId} {c : CompletionOutput}
    (hc : c.finishReason = none) (hkind : p.outputKind ≠ .finalOnly) :
    p.getOutputs id c = .ok ([some c], p.childRequests.isEmpty, p) := by
  simp [getOutputs, CompletionOutput.finished, hc, hkind, pure, Except.pure]

theorem getOutputs_finishing {p : ParentRequest} {id : ReqId} {c : CompletionOutput}
    (hc : c.finishReason.isSome) (hmem : id ∈ p.childRequests)
    (hindex : p.outputKind = .finalOnly → c.index < p.outputAggregator.length) :
    ∃ outputs finished, p.getOutputs id c = .ok (outputs, finished, p.finishChild id c) ∧
      (if outputs = [] then none else some (.completions p.externalReqId outputs finished)) =
        (p.finishChild id c).report c := by
  by_cases hkind : p.outputKind = .finalOnly
  · have hlen := hindex hkind
    have hne : p.outputAggregator.set c.index (some c) ≠ [] := by
      intro hnil
      rw [List.set_eq_nil_iff] at hnil
      simp [hnil] at hlen
    refine ⟨if (p.childRequests.erase id).isEmpty then p.outputAggregator.set c.index (some c)
      else [], (p.childRequests.erase id).isEmpty, ?_, ?_⟩
    · simp only [getOutputs, finishChild, CompletionOutput.finished, hc,
        hkind, hlen, pure, Except.pure, ne_eq, not_true_eq_false, ↓reduceIte]
    · simp only [report, finishChild_outputKind, hkind, ↓reduceIte,
        finishChild_childRequests, finishChild_externalReqId, ← List.isEmpty_iff]
      cases (p.childRequests.erase id).isEmpty with
      | true => simp [hne, finishChild, hkind]
      | false => simp
  · refine ⟨[some c], (p.childRequests.erase id).isEmpty, ?_, ?_⟩
    · simp [getOutputs, finishChild, CompletionOutput.finished, hc, hkind, hmem, pure, Except.pure]
    · simp [report, hkind]

namespace RequestState

/-- The same request, with other tokens sent or detokenized. -/
structure Same (st st' : RequestState) : Prop where
  requestId : st'.requestId = st.requestId
  externalReqId : st'.externalReqId = st.externalReqId
  parentReq : st'.parentReq = st.parentReq
  requestIndex : st'.requestIndex = st.requestIndex
  outputKind : st'.outputKind = st.outputKind
  queue : st'.queue = st.queue
  detokenizer : st'.detokenizer.isNone = st.detokenizer.isNone

theorem Same.refl (st : RequestState) : Same st st := ⟨rfl, rfl, rfl, rfl, rfl, rfl, rfl⟩

theorem Same.trans {st st' st'' : RequestState} (h : Same st st') (h' : Same st' st'') :
    Same st st'' where
  requestId := h'.requestId.trans h.requestId
  externalReqId := h'.externalReqId.trans h.externalReqId
  parentReq := h'.parentReq.trans h.parentReq
  requestIndex := h'.requestIndex.trans h.requestIndex
  outputKind := h'.outputKind.trans h.outputKind
  queue := h'.queue.trans h.queue
  detokenizer := h'.detokenizer.trans h.detokenizer

theorem Same.setTokens (st : RequestState) {old : List TokenId} (h : st.detokenizer = some old)
    (new : List TokenId) : Same st { st with detokenizer := some new } :=
  ⟨rfl, rfl, rfl, rfl, rfl, rfl, by rw [h]; rfl⟩

variable {st st' : RequestState} {streamInterval : ℕ} {newTokenIds tokens : List TokenId}
  {finished : Bool}

theorem streamTokens_eq_ok {r : Option (RequestState × List TokenId)}
    (h : st.streamTokens streamInterval newTokenIds finished = .ok r) :
    (r = none → finished = false) ∧
    ∀ st' tokens, r = some (st', tokens) → Same st st' ∧ st'.detokenizer = st.detokenizer := by
  unfold streamTokens at h
  split at h
  · cases h
    refine ⟨by simp, ?_⟩
    rintro st' tokens ⟨⟩
    exact ⟨Same.refl st, rfl⟩
  · split at h
    · simp at h
    · split at h
      · split at h
        · cases h
          refine ⟨by simp, ?_⟩
          rintro st' tokens ⟨⟩
          exact ⟨⟨rfl, rfl, rfl, rfl, rfl, rfl, rfl⟩, rfl⟩
        · cases h
          refine ⟨by simp, ?_⟩
          rintro st' tokens ⟨⟩
          exact ⟨Same.refl st, rfl⟩
      · rename_i hno
        cases h
        rw [not_or] at hno
        exact ⟨fun _ => Bool.eq_false_of_not_eq_true hno.1, by simp⟩

theorem exists_streamTokens (h : streamInterval ≤ 1 ∨ st.detokenizer.isSome) :
    ∃ r, st.streamTokens streamInterval newTokenIds finished = .ok r := by
  unfold streamTokens
  split
  · exact ⟨_, rfl⟩
  · rename_i hinterval
    obtain ⟨tokens, htokens⟩ := Option.isSome_iff_exists.mp (h.resolve_left hinterval)
    rw [htokens]
    dsimp only
    split
    · split
      · exact ⟨_, rfl⟩
      · exact ⟨_, rfl⟩
    · exact ⟨_, rfl⟩

variable {finishReason : Option FinishReason} {poolingOutput : Bool}
  {parent parent' : Option ParentRequest} {out : Option RequestOutput}

theorem newCompletionOutput_eq_ok {c : CompletionOutput}
    (h : st.newCompletionOutput tokens finishReason = .ok c) :
    c.index = st.requestIndex ∧ c.finishReason = finishReason := by
  unfold newCompletionOutput at h
  split at h
  · simp at h
  · cases h
    exact ⟨rfl, rfl⟩

/-- What a request gives: nothing yet, a pooling output, a completion of its own, or what its
parent makes of its completion. -/
theorem makeRequestOutput_eq_ok
    (h : st.makeRequestOutput parent streamInterval newTokenIds poolingOutput finishReason =
      .ok (st', parent', out)) :
    Same st st' ∧
    ((finishReason = none ∧ parent' = parent ∧ out = none) ∨
      (poolingOutput = true ∧ parent' = parent ∧
        out = some (.pooling st'.externalReqId finishReason.isSome)) ∨
      (poolingOutput = false ∧ (finishReason = none → st.outputKind ≠ .finalOnly) ∧
        ∃ tokens c, st'.newCompletionOutput tokens finishReason = .ok c ∧
        ((parent = none ∧ parent' = none ∧
            out = some (.completions st'.externalReqId [some c] finishReason.isSome)) ∨
          ∃ p outputs finished p', parent = some p ∧ parent' = some p' ∧
            p.getOutputs st.requestId c = .ok (outputs, finished, p') ∧
            out = if outputs = [] then none
              else some (.completions p'.externalReqId outputs finished)))) := by
  unfold makeRequestOutput at h
  by_cases hquiet : (!finishReason.isSome && decide (st.outputKind = .finalOnly)) = true
  · rw [if_pos hquiet] at h
    obtain ⟨rfl, rfl, rfl⟩ := by simpa using pure_eq_ok.mp h
    refine ⟨Same.refl st, .inl ⟨?_, rfl, rfl⟩⟩
    simpa using (Bool.and_eq_true_iff.mp hquiet).1
  rw [if_neg hquiet] at h
  have hkind : finishReason = none → st.outputKind ≠ .finalOnly := by
    rintro rfl hfinal
    exact hquiet (by simp [hfinal])
  obtain ⟨r, hr, h⟩ := of_bind h
  obtain ⟨hwait, hsame⟩ := streamTokens_eq_ok hr
  cases r with
  | none =>
    obtain ⟨rfl, rfl, rfl⟩ := by simpa using pure_eq_ok.mp h
    exact ⟨Same.refl st, .inl ⟨by simpa using hwait rfl, rfl, rfl⟩⟩
  | some r =>
    obtain ⟨st₁, tokens⟩ := r
    obtain ⟨hst, -⟩ := hsame st₁ tokens rfl
    dsimp only at h
    cases poolingOutput with
    | true =>
      rw [if_pos rfl] at h
      obtain ⟨rfl, rfl, rfl⟩ := by simpa using pure_eq_ok.mp h
      exact ⟨hst, .inr (.inl ⟨rfl, rfl, rfl⟩)⟩
    | false =>
      rw [if_neg (by simp)] at h
      obtain ⟨c, hc, h⟩ := of_bind h
      cases parent with
      | none =>
        obtain ⟨rfl, rfl, rfl⟩ := by simpa using pure_eq_ok.mp h
        exact ⟨hst, .inr (.inr ⟨rfl, hkind, tokens, c, hc, .inl ⟨rfl, rfl, rfl⟩⟩)⟩
      | some p =>
        obtain ⟨⟨outputs, finished, p'⟩, hp, h⟩ := of_bind h
        dsimp only at h
        have hout : st' = st₁ ∧ parent' = some p' ∧ out = if outputs = [] then none
            else some (.completions p'.externalReqId outputs finished) := by
          split at h
          · obtain ⟨rfl, rfl, rfl⟩ := by simpa using pure_eq_ok.mp h
            exact ⟨rfl, rfl, by simp [*]⟩
          · obtain ⟨rfl, rfl, rfl⟩ := by simpa using pure_eq_ok.mp h
            exact ⟨rfl, rfl, by simp [*]⟩
        obtain ⟨rfl, rfl, hout⟩ := hout
        rw [hst.requestId] at hp
        exact ⟨hst, .inr (.inr ⟨rfl, hkind, tokens, c, hc,
          .inr ⟨p, outputs, finished, p', rfl, rfl, hp, hout⟩⟩)⟩

theorem makeRequestOutput_single
    (h : st.makeRequestOutput none streamInterval newTokenIds poolingOutput finishReason =
      .ok (st', parent', out)) : Same st st' ∧ parent' = none := by
  obtain ⟨hsame, ⟨-, hp, -⟩ | ⟨-, hp, -⟩ | ⟨-, -, _, _, -, ⟨-, hp, -⟩ | ⟨p, _, _, _, hp, -⟩⟩⟩ :=
    makeRequestOutput_eq_ok h
  · exact ⟨hsame, hp⟩
  · exact ⟨hsame, hp⟩
  · exact ⟨hsame, hp⟩
  · cases hp

theorem makeRequestOutput_running {p : ParentRequest}
    (h : st.makeRequestOutput (some p) streamInterval newTokenIds false none =
      .ok (st', parent', out)) (hkind : st.outputKind = p.outputKind)
    (hmem : st.requestId ∈ p.childRequests) :
    Same st st' ∧ parent' = some p ∧ (p.outputKind = .finalOnly → out = none) ∧
      ∀ o, out = some o → o.finished = false := by
  obtain ⟨hsame, ⟨-, hp, rfl⟩ | ⟨hpool, -⟩ |
    ⟨-, hstream, tokens, c, hc, ⟨hp, -⟩ | ⟨q, outputs, finished, q', hp, hq', hget, hout⟩⟩⟩ :=
    makeRequestOutput_eq_ok h
  · exact ⟨hsame, hp, fun _ => rfl, by simp⟩
  · cases hpool
  · cases hp
  · cases hp
    have hstreams : p.outputKind ≠ .finalOnly := hkind ▸ hstream rfl
    rw [getOutputs_running (newCompletionOutput_eq_ok hc).2 hstreams] at hget
    obtain ⟨rfl, rfl, rfl⟩ := by simpa using hget
    refine ⟨hsame, hq', fun hfinal => absurd hfinal hstreams, ?_⟩
    rintro o rfl
    obtain rfl := Option.some.inj (hout.trans (if_neg (by simp)))
    simpa [RequestOutput.finished] using List.ne_nil_of_mem hmem

theorem makeRequestOutput_finishing {p : ParentRequest}
    (h : st.makeRequestOutput (some p) streamInterval newTokenIds false finishReason =
      .ok (st', parent', out)) (hfinish : finishReason.isSome)
    (hmem : st.requestId ∈ p.childRequests)
    (hindex : p.outputKind = .finalOnly → st.requestIndex < p.outputAggregator.length) :
    Same st st' ∧ ∃ c, c.index = st.requestIndex ∧ c.finishReason.isSome ∧
      parent' = some (p.finishChild st.requestId c) ∧
      out = (p.finishChild st.requestId c).report c := by
  obtain ⟨hsame, ⟨hnone, -⟩ | ⟨hpool, -⟩ |
    ⟨-, -, tokens, c, hc, ⟨hp, -⟩ | ⟨q, outputs, finished, q', hp, hq', hget, hout⟩⟩⟩ :=
    makeRequestOutput_eq_ok h
  · simp [hnone] at hfinish
  · cases hpool
  · cases hp
  · cases hp
    obtain ⟨hci, hcf⟩ := newCompletionOutput_eq_ok hc
    rw [hsame.requestIndex] at hci
    rw [← hcf] at hfinish
    obtain ⟨outputs', finished', hget', hreport⟩ := getOutputs_finishing hfinish hmem (by rwa [hci])
    rw [hget'] at hget
    obtain ⟨rfl, rfl, rfl⟩ := by simpa using hget
    refine ⟨hsame, c, hci, hfinish, hq', ?_⟩
    rw [hout, ← hreport, finishChild_externalReqId]

theorem exists_makeRequestOutput
    (hstream : (finishReason = none ∧ st.outputKind = .finalOnly) ∨ streamInterval ≤ 1 ∨
      st.detokenizer.isSome)
    (hpool : poolingOutput = st.detokenizer.isNone)
    (hindex : ∀ p, parent = some p → p.outputKind = .finalOnly →
      st.requestIndex < p.outputAggregator.length) :
    ∃ r, st.makeRequestOutput parent streamInterval newTokenIds poolingOutput finishReason =
      .ok r := by
  unfold makeRequestOutput
  by_cases hquiet : (!finishReason.isSome && decide (st.outputKind = .finalOnly)) = true
  · exact ⟨_, if_pos hquiet⟩
  rw [if_neg hquiet]
  have hready : streamInterval ≤ 1 ∨ st.detokenizer.isSome := by
    refine hstream.resolve_left ?_
    rintro ⟨rfl, hfinal⟩
    exact hquiet (by simp [hfinal])
  obtain ⟨r, hr⟩ : ∃ r, st.streamTokens streamInterval newTokenIds finishReason.isSome = .ok r :=
    exists_streamTokens hready
  have hsame := (streamTokens_eq_ok hr).2
  rw [hr]
  cases r with
  | none => exact ⟨_, rfl⟩
  | some r =>
    obtain ⟨st₁, tokens⟩ := r
    obtain ⟨hst, hdet⟩ := hsame st₁ tokens rfl
    cases hd : st.detokenizer with
    | none =>
      rw [hd] at hpool
      subst hpool
      exact ⟨_, rfl⟩
    | some outputTokenIds =>
      rw [hd] at hpool
      subst hpool
      rw [hd] at hdet
      have hc : ∃ c, st₁.newCompletionOutput tokens finishReason = .ok c := by
        simp [newCompletionOutput, hdet, pure, Except.pure]
      obtain ⟨c, hc⟩ := hc
      have hci := (newCompletionOutput_eq_ok hc).1
      rw [hst.requestIndex] at hci
      dsimp only [Bind.bind, Except.bind]
      rw [if_neg (by simp), hc]
      cases parent with
      | none => exact ⟨_, rfl⟩
      | some p =>
        have hget : ∃ r, p.getOutputs st₁.requestId c = .ok r := by
          unfold getOutputs
          by_cases hkind : p.outputKind = .finalOnly
          · have hlt := hindex p rfl hkind
            rw [← hci] at hlt
            simp [hkind, hlt, pure, Except.pure]
          · simp [hkind, pure, Except.pure]
        obtain ⟨⟨outputs, finished, p'⟩, hget⟩ := hget
        dsimp only
        rw [hget]
        dsimp only
        split
        · exact ⟨_, rfl⟩
        · exact ⟨_, rfl⟩

end RequestState

end Vllm.Engine
