import Vllm.Engine.ProcessorInvariant

/-! What additions and outputs do to the processor, when they fail, and what they keep. -/
namespace Vllm.Engine
open Multimap RequestState Raises Option

/-- The output ends its request, by itself or by a stop string in its tokens. -/
def EngineCoreOutput.ends (o : EngineCoreOutput) (stopString : Bool) : Bool :=
  (!o.poolingOutput && stopString && o.newTokenIds ≠ []) || o.finished

namespace OutputProcessor
variable {cfg : ProcessorConfig} {s s' t : OutputProcessor} {id p x : ReqId}
  {st st' : RequestState} {gone : ReqId → Prop}

/-- The processor without a finished request. -/
def finished (s : OutputProcessor) (st : RequestState) : OutputProcessor :=
  { s with
    requestStates := s.requestStates.erase st.requestId
    externalReqIds := remove s.externalReqIds st.externalReqId st.requestId
    parentRequests := match st.parentReq with
      | none => s.parentRequests
      | some p =>
        if (s.parents p).childRequests = [] then s.parentRequests.erase p else s.parentRequests }

theorem removeExternalId_eq_ok (h : s.removeExternalId st = .ok t) :
    t = { s with externalReqIds := remove s.externalReqIds st.externalReqId st.requestId } := by
  unfold removeExternalId at h
  dsimp only at h
  split at h
  · exact (pure_eq_ok.mp h).symm
  · cases h

theorem removeExternalId_eq (h : st.requestId ∈ s.externalReqIds.getD st.externalReqId []) :
    s.removeExternalId st =
      .ok { s with externalReqIds := remove s.externalReqIds st.externalReqId st.requestId } := by
  unfold removeExternalId
  rw [if_pos h]
  rfl

theorem finishRequest_eq_ok (h : s.finishRequest st = .ok t) : t = s.finished st := by
  unfold finishRequest at h
  by_cases hlive : s.requestStates.contains st.requestId = true
  · rw [if_pos hlive] at h
    obtain ⟨u, hu, h⟩ := of_bind h
    obtain rfl := removeExternalId_eq_ok hu
    unfold finished
    cases hp : st.parentReq with
    | none =>
      rw [hp] at h
      exact (pure_eq_ok.mp h).symm
    | some p =>
      rw [hp] at h
      dsimp only at h ⊢
      split at h
      · rename_i hnil
        rw [if_pos hnil]
        exact (pure_eq_ok.mp h).symm
      · rename_i hnil
        rw [if_neg hnil]
        exact (pure_eq_ok.mp h).symm
  · rw [if_neg hlive] at h
    cases h

theorem finishRequest_eq (hlive : s.requestStates.contains st.requestId = true)
    (hlisted : st.requestId ∈ s.externalReqIds.getD st.externalReqId []) :
    s.finishRequest st = .ok (s.finished st) := by
  have hok : ∃ t, s.finishRequest st = .ok t := by
    unfold finishRequest
    rw [if_pos hlive, removeExternalId_eq (by exact hlisted)]
    dsimp only [Bind.bind, Except.bind]
    cases st.parentReq with
    | none => exact ⟨_, rfl⟩
    | some p =>
      dsimp only
      split
      · exact ⟨_, rfl⟩
      · exact ⟨_, rfl⟩
  obtain ⟨t, ht⟩ := hok
  rw [ht, finishRequest_eq_ok ht]

/-- The state of a request that has been replaced, and has given its output. -/
def answered (s : OutputProcessor) (st : RequestState) (parent : Option ParentRequest)
    (out : Option RequestOutput) : OutputProcessor :=
  { s with requestStates := s.requestStates.set st.requestId st }.deliver st parent out

variable {o : EngineCoreOutput} {stopString : Bool}

theorem updateDetokenizer_eq_ok {reason : Option FinishReason}
    (h : st.updateDetokenizer o stopString = .ok (st', reason))
    (hpool : o.poolingOutput = st.detokenizer.isNone) :
    Same st st' ∧ reason.isSome = o.ends stopString := by
  unfold updateDetokenizer at h
  cases hd : st.detokenizer with
  | none =>
    rw [hd, isNone_none] at hpool
    rw [if_pos hpool] at h
    obtain ⟨rfl, rfl⟩ := by simpa using pure_eq_ok.mp h
    refine ⟨Same.refl st, ?_⟩
    simp only [EngineCoreOutput.ends, hpool, EngineCoreOutput.finished]
    simp
  | some tokens =>
    rw [hd] at hpool
    rw [if_neg (by simp [hpool]), hd] at h
    obtain ⟨rfl, rfl⟩ := by simpa using pure_eq_ok.mp h
    refine ⟨Same.setTokens st hd _, ?_⟩
    simp only [EngineCoreOutput.ends, hpool, EngineCoreOutput.finished]
    by_cases hstop : stopString = true ∧ ¬o.newTokenIds = []
    · simp [hstop]
    · rw [if_neg hstop]
      simp [hstop]

theorem exists_updateDetokenizer (hpool : o.poolingOutput = st.detokenizer.isNone) :
    ∃ r, st.updateDetokenizer o stopString = .ok r := by
  unfold updateDetokenizer
  cases hd : st.detokenizer with
  | none =>
    rw [hd, isNone_none] at hpool
    exact ⟨_, if_pos hpool⟩
  | some tokens =>
    rw [hd] at hpool
    rw [if_neg (by simp [hpool])]
    exact ⟨_, rfl⟩

/-- An output of a live request: the request and its parent are replaced, and a request that ends
is finished. -/
theorem processOutput_eq_ok (h : s.processOutput cfg o stopString = .ok t)
    (hst : s.requestStates.get? o.requestId = some st) (hid : st.requestId = o.requestId)
    (hpool : o.poolingOutput = st.detokenizer.isNone) :
    ∃ st₁ reason st' parent out, Same st st₁ ∧ reason.isSome = o.ends stopString ∧
      st₁.makeRequestOutput (st.parentReq.map s.parents) cfg.streamInterval o.newTokenIds
        o.poolingOutput reason = .ok (st', parent, out) ∧
      ((o.ends stopString = false ∧ t = s.answered st' parent out) ∨
        (o.ends stopString = true ∧
          t = { (s.answered st' parent out).finished st' with reqsToAbort := t.reqsToAbort })) := by
  unfold processOutput at h
  rw [hst] at h
  obtain ⟨⟨st₁, reason⟩, h₁, h⟩ := of_bind h
  have hstart := updateDetokenizer_eq_ok h₁ hpool
  obtain ⟨⟨st', parent, out⟩, h₂, h⟩ := of_bind h
  dsimp only at h₂ h
  rw [hstart.1.parentReq] at h₂
  have hid' : st'.requestId = o.requestId := by
    rw [(makeRequestOutput_eq_ok h₂).1.requestId, hstart.1.requestId, hid]
  have hanswered : s.answered st' parent out =
      { s with requestStates := s.requestStates.set o.requestId st' }.deliver st' parent out := by
    rw [answered, hid']
  refine ⟨st₁, reason, st', parent, out, hstart.1, hstart.2, h₂, ?_⟩
  rw [hanswered]
  split at h
  · rename_i hends
    obtain ⟨u, hu, h⟩ := of_bind h
    obtain rfl := finishRequest_eq_ok hu
    have ht := pure_eq_ok.mp h
    exact .inr ⟨hstart.2 ▸ hends, by rw [← ht]⟩
  · rename_i hends
    exact .inl ⟨hstart.2 ▸ Bool.eq_false_of_not_eq_true hends, (pure_eq_ok.mp h).symm⟩

variable {out : Option RequestOutput} {parent : Option ParentRequest}

theorem deliver_queues_of_ne {q : ReqId} (hq : st.queue ≠ some q) :
    (s.deliver st parent out).queues q = s.queues q := by
  have hput : ∀ (t : OutputProcessor) out, (t.put st.queue out).queues q = t.queues q := by
    intro t out
    cases hst : st.queue with
    | none => rfl
    | some q' =>
      have hne : q ≠ q' := by
        rintro rfl
        exact hq hst
      simp [put, hne]
  unfold deliver
  cases out with
  | none => cases st.parentReq <;> simp [setParent_queues]
  | some out => cases st.parentReq <;> simp [hput, setParent_queues]

theorem deliver_queues {q : ReqId} (hq : st.queue = some q) :
    (s.deliver st parent out).queues q = s.queues q ++ out.toList := by
  unfold deliver
  rw [hq]
  cases st.parentReq with
  | none | some p => cases out <;> simp [put]

/-- A request gave an output and goes on. -/
structure Ran (s t : OutputProcessor) (id : ReqId) (st : RequestState) : Prop where
  states : ∃ st', Same st st' ∧
    ∀ x, t.requestStates.get? x = if x = id then some st' else s.requestStates.get? x
  externalReqIds : t.externalReqIds = s.externalReqIds
  parentRequests : t.parentRequests = s.parentRequests
  parents : t.parents = s.parents
  fanOuts : t.fanOuts = s.fanOuts
  origin : t.origin = s.origin
  others : ∀ q, st.queue ≠ some q → t.queues q = s.queues q
  queue : ∀ p q, st.parentReq = some p → st.queue = some q → ∃ out : Option RequestOutput,
    t.queues q = s.queues q ++ out.toList ∧ (st.outputKind = .finalOnly → out = none) ∧
      ∀ o, out = some o → o.finished = false

/-- A request ended, with completion `c` if it is a child. -/
structure Ended (s t : OutputProcessor) (id : ReqId) (st : RequestState) (c : CompletionOutput) :
    Prop where
  states : ∀ x, t.requestStates.get? x = if x = id then none else s.requestStates.get? x
  externalReqIds : t.externalReqIds = remove s.externalReqIds st.externalReqId id
  parentRequests : t.parentRequests = match st.parentReq with
    | none => s.parentRequests
    | some p =>
      if (t.parents p).childRequests = [] then s.parentRequests.erase p else s.parentRequests
  parents : t.parents = match st.parentReq with
    | none => s.parents
    | some p => Function.update s.parents p ((s.parents p).finishChild id c)
  fanOuts : t.fanOuts = s.fanOuts
  origin : t.origin = s.origin
  completion : st.parentReq.isSome → c.index = st.requestIndex ∧ c.finishReason.isSome
  others : ∀ q, st.queue ≠ some q → t.queues q = s.queues q
  queue : ∀ p q, st.parentReq = some p → st.queue = some q →
    t.queues q = s.queues q ++ (((s.parents p).finishChild id c).report c).toList

theorem deliver_parents_same (h : parent = st.parentReq.map s.parents) :
    (s.deliver st parent out).parents = s.parents := by
  cases hp : st.parentReq with
  | none => exact deliver_parents_single s st parent out hp
  | some p =>
    rw [hp] at h
    rw [h, map_some, deliver_parents_child s st out hp, Function.update_eq_self]

variable (h : Wired s)
include h

section
variable (hok : s.processOutput cfg o stopString = .ok t)
  (hst : s.requestStates.get? o.requestId = some st)
  (hpool : o.poolingOutput = st.detokenizer.isNone)
include hok hst hpool

theorem Wired.ran (hends : o.ends stopString = false) : Ran s t o.requestId st := by
  obtain ⟨st₁, reason, st', parent, out, hsame₁, hreason, hmake, ⟨-, rfl⟩ | ⟨htrue, -⟩⟩ :=
    processOutput_eq_ok hok hst (h.requestId hst) hpool
  · rw [hends, isSome_eq_false_iff, isNone_iff_eq_none] at hreason
    subst hreason
    have hsame := hsame₁.trans (makeRequestOutput_eq_ok hmake).1
    have hchild : ∀ p, st.parentReq = some p → parent = some (s.parents p) ∧
        (st.outputKind = .finalOnly → out = none) ∧ ∀ o, out = some o → o.finished = false := by
      intro p hp
      have hof := h.child hst hp
      obtain ⟨tokens, htokens⟩ := isSome_iff_exists.mp hof.detokenizer
      rw [hp, map_some, hpool, htokens, isNone_some] at hmake
      obtain ⟨-, hparent, hfinal, hout⟩ := makeRequestOutput_running hmake
        (by rw [hsame₁.outputKind, hof.outputKind])
        (by rw [hsame₁.requestId, h.requestId hst]; exact hof.mem)
      exact ⟨hparent, fun hkind => hfinal (hof.outputKind ▸ hkind), hout⟩
    have hparent : parent = st'.parentReq.map s.parents := by
      rw [hsame.parentReq]
      cases hp : st.parentReq with
      | none =>
        rw [hp] at hmake
        exact (makeRequestOutput_single hmake).2
      | some p => exact (hchild p hp).1
    refine ⟨⟨st', hsame, ?_⟩, ?_, ?_, ?_, ?_, ?_, ?_, ?_⟩
    · intro x
      rw [answered, deliver_requestStates, Dict.get?_set, hsame.requestId, h.requestId hst]
    · rw [answered, deliver_externalReqIds]
    · rw [answered, deliver_parentRequests]
    · rw [answered, deliver_parents_same (by exact hparent)]
    · rw [answered, deliver_fanOuts]
    · rw [answered, deliver_origin]
    · intro q hq
      rw [answered, deliver_queues_of_ne (by rwa [hsame.queue])]
    · intro p q hp hq
      refine ⟨out, ?_, (hchild p hp).2⟩
      rw [answered, deliver_queues (by rwa [hsame.queue])]
  · simp [hends] at htrue

theorem Wired.ended (hends : o.ends stopString = true) : ∃ c, Ended s t o.requestId st c := by
  obtain ⟨st₁, reason, st', parent, out, hsame₁, hreason, hmake, ⟨hfalse, -⟩ | ⟨-, ht⟩⟩ :=
    processOutput_eq_ok hok hst (h.requestId hst) hpool
  · simp [hends] at hfalse
  rw [hends] at hreason
  have hsame := hsame₁.trans (makeRequestOutput_eq_ok hmake).1
  have hid := h.requestId hst
  have hc : ∃ c : CompletionOutput,
      (st.parentReq.isSome → c.index = st.requestIndex ∧ c.finishReason.isSome) ∧
      ∀ p, st.parentReq = some p →
        parent = some ((s.parents p).finishChild o.requestId c) ∧
        out = ((s.parents p).finishChild o.requestId c).report c := by
    cases hp : st.parentReq with
    | none => exact ⟨⟨0, [], none⟩, by simp, by simp⟩
    | some p =>
      have hof := h.child hst hp
      obtain ⟨tokens, htokens⟩ := isSome_iff_exists.mp hof.detokenizer
      rw [hp, map_some, hpool, htokens, isNone_some] at hmake
      obtain ⟨-, c, hci, hcf, hparent, hout⟩ := makeRequestOutput_finishing hmake hreason
        (by rw [hsame₁.requestId, hid]; exact hof.mem)
        (by rw [hsame₁.requestIndex]; exact h.index_lt hst hp)
      rw [hsame₁.requestId, hid] at hparent hout
      rw [hsame₁.requestIndex] at hci
      refine ⟨c, fun _ => ⟨hci, hcf⟩, ?_⟩
      rintro p' ⟨⟩
      exact ⟨hparent, hout⟩
  obtain ⟨c, hcompletion, hchild⟩ := hc
  refine ⟨c, ?_⟩
  have hparents : t.parents = match st.parentReq with
      | none => s.parents
      | some p => Function.update s.parents p ((s.parents p).finishChild o.requestId c) := by
    rw [ht, finished, answered]
    cases hp : st.parentReq with
    | none => exact deliver_parents_single _ st' _ _ (hsame.parentReq.trans hp)
    | some p =>
      rw [(hchild p hp).1]
      exact deliver_parents_child _ st' _ (hsame.parentReq.trans hp)
  refine ⟨?_, ?_, ?_, hparents, ?_, ?_, hcompletion, ?_, ?_⟩
  · intro x
    rw [ht, finished, answered, deliver_requestStates]
    simp only [Dict.get?_erase, Dict.get?_set, hsame.requestId, hid]
    split
    · rfl
    · rfl
  · rw [ht, finished, answered, deliver_externalReqIds, hsame.externalReqId, hsame.requestId, hid]
  · rw [ht]
    simp only [finished, hsame.parentReq, answered, deliver_parentRequests]
  · rw [ht, finished, answered, deliver_fanOuts]
  · rw [ht, finished, answered, deliver_origin]
  · intro q hq
    rw [ht]
    exact deliver_queues_of_ne (by rwa [hsame.queue])
  · intro p q hp hq
    rw [ht, ← (hchild p hp).2]
    exact deliver_queues (by rwa [hsame.queue])

end

end OutputProcessor

end Vllm.Engine
