import Vllm.Engine.RequestOutputs
import Vllm.Lib.Multimap

/-! How the requests of the output processor, the parents and the external ids belong together, and
what each kind of change keeps. -/
namespace Vllm.Engine
open Multimap RequestState

namespace OutputProcessor
variable {s s' : OutputProcessor} {id p : ReqId} {st st' : RequestState}

/-- A live child and its parent. -/
structure ChildOf (s : OutputProcessor) (id : ReqId) (st : RequestState) (p : ReqId) : Prop where
  origin : s.origin id = some (.child p st.requestIndex)
  mem : id ∈ (s.parents p).childRequests
  outputKind : st.outputKind = (s.parents p).outputKind
  detokenizer : st.detokenizer.isSome
  fanOut : ∃ f, s.fanOuts p = some f ∧ st.requestIndex < f.next ∧ st.queue = f.queue
  tracked : s.parentRequests.contains p

/-- A parent and the loop that adds its children. -/
structure ParentOf (s : OutputProcessor) (p : ReqId) (f : FanOut) : Prop where
  origin : s.origin p = some .parent
  requestId : (s.parents p).requestId = p
  next_le : f.next ≤ (s.parents p).n
  children : ∀ i < (s.parents p).n, s.origin (childReqId i p) = some (.child p i)
  nodup : (s.parents p).childRequests.Nodup
  mem : ∀ id ∈ (s.parents p).childRequests, ∃ i < f.next, id = childReqId i p
  aggregator : (s.parents p).outputKind = .finalOnly →
    (s.parents p).outputAggregator.length = (s.parents p).n

structure Wired (s : OutputProcessor) : Prop where
  requestId : ∀ {id st}, s.requestStates.get? id = some st → st.requestId = id
  single : ∀ {id st}, s.requestStates.get? id = some st → st.parentReq = none →
    s.origin id = some .single
  child : ∀ {id st p}, s.requestStates.get? id = some st → st.parentReq = some p → ChildOf s id st p
  parent : ∀ {p f}, s.fanOuts p = some f → ParentOf s p f
  parentRequests : ∀ {p q}, s.parentRequests.get? p = some q → q = p ∧ ∃ f, s.fanOuts p = some f

theorem Wired.initial : Wired ({} : OutputProcessor) where
  requestId h := by simp at h
  single h := by simp at h
  child h := by simp at h
  parent h := by simp at h
  parentRequests h := by simp at h

theorem Wired.not_live (h : Wired s) {f : FanOut} (hf : s.fanOuts p = some f) :
    s.requestStates.get? p = none := by
  by_contra hlive
  obtain ⟨st, hst⟩ := Option.ne_none_iff_exists'.mp hlive
  have horigin := (h.parent hf).origin
  cases hp : st.parentReq with
  | none => simp [h.single hst hp] at horigin
  | some q => simp [(h.child hst hp).origin] at horigin

theorem Wired.index_lt (h : Wired s) (hst : s.requestStates.get? id = some st)
    (hp : st.parentReq = some p) (hkind : (s.parents p).outputKind = .finalOnly) :
    st.requestIndex < (s.parents p).outputAggregator.length := by
  obtain ⟨f, hf, hlt, -⟩ := (h.child hst hp).fanOut
  rw [(h.parent hf).aggregator hkind]
  exact hlt.trans_le (h.parent hf).next_le

/-- A parent that some of its children may have left. -/
structure Shrunk (p p' : ParentRequest) : Prop where
  requestId : p'.requestId = p.requestId
  n : p'.n = p.n
  outputKind : p'.outputKind = p.outputKind
  childRequests : p'.childRequests.Sublist p.childRequests
  aggregator : p'.outputAggregator.length = p.outputAggregator.length

theorem Shrunk.refl (p : ParentRequest) : Shrunk p p :=
  ⟨rfl, rfl, rfl, List.Sublist.refl _, rfl⟩

theorem Shrunk.finishChild (p : ParentRequest) (id : ReqId) (c : CompletionOutput) :
    Shrunk p (p.finishChild id c) where
  requestId := rfl
  n := rfl
  outputKind := rfl
  childRequests := by
    rw [finishChild_childRequests]
    exact List.erase_sublist
  aggregator := length_finishChild_outputAggregator p id c

/-- No request and no parent comes, and what is left of them stays connected. -/
structure Shrinks (s s' : OutputProcessor) : Prop where
  states : ∀ {id st'}, s'.requestStates.get? id = some st' →
    ∃ st, s.requestStates.get? id = some st ∧ Same st st'
  origin : s'.origin = s.origin
  fanOuts : s'.fanOuts = s.fanOuts
  parents : ∀ p, Shrunk (s.parents p) (s'.parents p)
  parentRequests : ∀ {p q}, s'.parentRequests.get? p = some q → s.parentRequests.get? p = some q
  connected : ∀ {id st' p}, s'.requestStates.get? id = some st' → st'.parentReq = some p →
    id ∈ (s'.parents p).childRequests ∧ s'.parentRequests.contains p

theorem Wired.shrink (h : Wired s) (hs : Shrinks s s') : Wired s' where
  requestId := by
    intro id st' hst'
    obtain ⟨st, hst, hsame⟩ := hs.states hst'
    rw [hsame.requestId, h.requestId hst]
  single := by
    intro id st' hst' hp
    obtain ⟨st, hst, hsame⟩ := hs.states hst'
    rw [hs.origin]
    exact h.single hst (hsame.parentReq ▸ hp)
  child := by
    intro id st' p hst' hp
    obtain ⟨st, hst, hsame⟩ := hs.states hst'
    have hchild := h.child hst (hsame.parentReq ▸ hp)
    obtain ⟨hmem, htracked⟩ := hs.connected hst' hp
    refine ⟨?_, hmem, ?_, ?_, ?_, htracked⟩
    · rw [hs.origin, hsame.requestIndex]
      exact hchild.origin
    · rw [hsame.outputKind, (hs.parents p).outputKind]
      exact hchild.outputKind
    · have hdet := hchild.detokenizer
      rw [← Option.not_isNone, ← hsame.detokenizer] at hdet
      simpa using hdet
    · rw [hs.fanOuts, hsame.requestIndex, hsame.queue]
      exact hchild.fanOut
  parent := by
    intro p f hf
    rw [hs.fanOuts] at hf
    have hparent := h.parent hf
    have hshrunk := hs.parents p
    refine ⟨?_, ?_, ?_, ?_, hparent.nodup.sublist hshrunk.childRequests, ?_, ?_⟩
    · rw [hs.origin]
      exact hparent.origin
    · rw [hshrunk.requestId]
      exact hparent.requestId
    · rw [hshrunk.n]
      exact hparent.next_le
    · rw [hshrunk.n, hs.origin]
      exact hparent.children
    · exact fun id hid => hparent.mem id (hshrunk.childRequests.subset hid)
    · rw [hshrunk.outputKind, hshrunk.aggregator, hshrunk.n]
      exact hparent.aggregator
  parentRequests := by
    intro p q hq
    rw [hs.fanOuts]
    exact h.parentRequests (hs.parentRequests hq)

/-- A live request with an external id. -/
def LiveAs (s : OutputProcessor) (x id : ReqId) : Prop :=
  ∃ st, s.requestStates.get? id = some st ∧ st.externalReqId = x

/-- The external ids list the live requests, apart from those that are gone from them. -/
def Listed (s : OutputProcessor) (gone : ReqId → Prop) : Prop :=
  Represents s.externalReqIds fun x id => s.LiveAs x id ∧ ¬gone id

theorem LiveAs.unique {x y : ReqId} (h : s.LiveAs x id) (h' : s.LiveAs y id) : x = y := by
  obtain ⟨st, hst, rfl⟩ := h
  obtain ⟨st', hst', rfl⟩ := h'
  rw [hst] at hst'
  rw [Option.some.inj hst']

/-- Every parent that is kept has a live child. -/
def ParentsLive (s : OutputProcessor) : Prop :=
  ∀ p, s.parentRequests.contains p →
    ∃ id st, s.requestStates.get? id = some st ∧ st.parentReq = some p

section Projections
variable (s) (q : Option ReqId) (out : RequestOutput) (parent : Option ParentRequest)

@[simp] theorem put_requestStates : (s.put q out).requestStates = s.requestStates := by
  cases q <;> rfl

@[simp] theorem put_parentRequests : (s.put q out).parentRequests = s.parentRequests := by
  cases q <;> rfl

@[simp] theorem put_externalReqIds : (s.put q out).externalReqIds = s.externalReqIds := by
  cases q <;> rfl

@[simp] theorem put_parents : (s.put q out).parents = s.parents := by cases q <;> rfl

@[simp] theorem put_fanOuts : (s.put q out).fanOuts = s.fanOuts := by cases q <;> rfl

@[simp] theorem put_origin : (s.put q out).origin = s.origin := by cases q <;> rfl

@[simp] theorem setParent_requestStates :
    (s.setParent id parent).requestStates = s.requestStates := by cases parent <;> rfl

@[simp] theorem setParent_parentRequests :
    (s.setParent id parent).parentRequests = s.parentRequests := by cases parent <;> rfl

@[simp] theorem setParent_externalReqIds :
    (s.setParent id parent).externalReqIds = s.externalReqIds := by cases parent <;> rfl

@[simp] theorem setParent_fanOuts : (s.setParent id parent).fanOuts = s.fanOuts := by
  cases parent <;> rfl

@[simp] theorem setParent_origin : (s.setParent id parent).origin = s.origin := by
  cases parent <;> rfl

@[simp] theorem setParent_queues : (s.setParent id parent).queues = s.queues := by
  cases parent <;> rfl

end Projections

section Deliver
variable (s) (st) (parent : Option ParentRequest) (out : Option RequestOutput)

@[simp] theorem deliver_requestStates :
    (s.deliver st parent out).requestStates = s.requestStates := by
  unfold deliver
  cases st.parentReq <;> cases out <;> simp

@[simp] theorem deliver_parentRequests :
    (s.deliver st parent out).parentRequests = s.parentRequests := by
  unfold deliver
  cases st.parentReq <;> cases out <;> simp

@[simp] theorem deliver_externalReqIds :
    (s.deliver st parent out).externalReqIds = s.externalReqIds := by
  unfold deliver
  cases st.parentReq <;> cases out <;> simp

@[simp] theorem deliver_fanOuts : (s.deliver st parent out).fanOuts = s.fanOuts := by
  unfold deliver
  cases st.parentReq <;> cases out <;> simp

@[simp] theorem deliver_origin : (s.deliver st parent out).origin = s.origin := by
  unfold deliver
  cases st.parentReq <;> cases out <;> simp

theorem deliver_parents_single (h : st.parentReq = none) :
    (s.deliver st parent out).parents = s.parents := by
  unfold deliver
  rw [h]
  cases out <;> simp

theorem deliver_parents_child {q : ParentRequest} (h : st.parentReq = some p) :
    (s.deliver st (some q) out).parents = Function.update s.parents p q := by
  unfold deliver
  rw [h]
  cases out <;> simp [setParent]

end Deliver

end OutputProcessor

end Vllm.Engine
