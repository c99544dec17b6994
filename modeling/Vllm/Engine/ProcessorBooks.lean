import Vllm.Engine.ProcessorSteps

/-! Additions and outputs keep the books of the output processor: the external ids list the live
requests, and a parent is kept as long as one of its children lives. -/
namespace Vllm.Engine
open Multimap RequestState Function ParentRequest Option

namespace OutputProcessor
variable {cfg : ProcessorConfig} {s t : OutputProcessor} {id p x : ReqId} {st : RequestState}
  {c : CompletionOutput} {gone : ReqId → Prop}

/-- The books are right. -/
structure Books (s : OutputProcessor) : Prop where
  wired : Wired s
  listed : Listed s fun _ => False
  parentsLive : ParentsLive s

theorem Books.initial : Books ({} : OutputProcessor) where
  wired := Wired.initial
  listed := Represents.empty.congr (by simp [LiveAs])
  parentsLive p h := by simp [Dict.contains] at h

theorem Ran.shrinks (hr : Ran s t id st) (h : Wired s)
    (hst : s.requestStates.get? id = some st) : Shrinks s t where
  states := by
    intro i st' hi
    obtain ⟨st₁, hsame, hstates⟩ := hr.states
    rw [hstates] at hi
    split at hi
    · rename_i heq
      cases hi
      exact ⟨st, heq ▸ hst, hsame⟩
    · exact ⟨st', hi, Same.refl st'⟩
  origin := hr.origin
  fanOuts := hr.fanOuts
  parents p := by
    rw [hr.parents]
    exact Shrunk.refl _
  parentRequests := by
    rw [hr.parentRequests]
    exact fun hq => hq
  connected := by
    intro i st' p hi hp
    obtain ⟨st₁, hsame, hstates⟩ := hr.states
    rw [hr.parents, hr.parentRequests]
    rw [hstates] at hi
    split at hi
    · rename_i heq
      cases hi
      subst heq
      have hchild := h.child hst (hsame.parentReq ▸ hp)
      exact ⟨hchild.mem, hchild.tracked⟩
    · have hchild := h.child hi hp
      exact ⟨hchild.mem, hchild.tracked⟩

theorem Ended.shrinks (he : Ended s t id st c) (h : Wired s) : Shrinks s t where
  states := by
    intro i st' hi
    rw [he.states] at hi
    split at hi
    · cases hi
    · exact ⟨st', hi, Same.refl st'⟩
  origin := he.origin
  fanOuts := he.fanOuts
  parents p := by
    rw [he.parents]
    cases st.parentReq with
    | none => exact Shrunk.refl _
    | some q =>
      dsimp only
      by_cases hpq : p = q
      · subst hpq
        rw [update_self]
        exact Shrunk.finishChild _ _ _
      · rw [update_of_ne hpq]
        exact Shrunk.refl _
  parentRequests := by
    intro p q hq
    rw [he.parentRequests] at hq
    cases hp : st.parentReq with
    | none =>
      rw [hp] at hq
      exact hq
    | some p' =>
      rw [hp] at hq
      dsimp only at hq
      split at hq
      · rw [Dict.get?_erase] at hq
        split at hq
        · cases hq
        · exact hq
      · exact hq
  connected := by
    intro i st' p hi hp
    rw [he.states] at hi
    split at hi
    · cases hi
    rename_i hne
    have hchild := h.child hi hp
    have hmem : i ∈ (t.parents p).childRequests := by
      rw [he.parents]
      cases st.parentReq with
      | none => exact hchild.mem
      | some q =>
        dsimp only
        by_cases hpq : p = q
        · subst hpq
          rw [update_self, finishChild_childRequests]
          exact (List.mem_erase_of_ne hne).mpr hchild.mem
        · rw [update_of_ne hpq]
          exact hchild.mem
    refine ⟨hmem, ?_⟩
    rw [he.parentRequests]
    cases hq : st.parentReq with
    | none => exact hchild.tracked
    | some q =>
      dsimp only
      split
      · rename_i hnil
        refine (Dict.contains_erase _ _ _).mpr ⟨?_, hchild.tracked⟩
        rintro rfl
        rw [hnil] at hmem
        cases hmem
      · exact hchild.tracked

theorem Ran.listed (hr : Ran s t id st) (hst : s.requestStates.get? id = some st)
    (hl : Listed s gone) : Listed t gone := by
  unfold Listed
  rw [hr.externalReqIds]
  refine Represents.congr hl ?_
  intro x i
  obtain ⟨st₁, hsame, hstates⟩ := hr.states
  have hlive : s.LiveAs x i ↔ t.LiveAs x i := by
    unfold LiveAs
    rw [hstates]
    by_cases hi : i = id
    · simp [hi, hst, hsame.externalReqId]
    · simp [hi]
  rw [hlive]

theorem Ended.listed (he : Ended s t id st c) (hst : s.requestStates.get? id = some st)
    (hl : Listed s fun _ => False) : Listed t fun _ => False := by
  unfold Listed
  rw [he.externalReqIds]
  refine (Represents.remove hl st.externalReqId id).congr ?_
  intro x i
  unfold LiveAs
  rw [he.states]
  by_cases hi : i = id
  · simp [hi, hst]
    tauto
  · simp [hi]

theorem Ran.parentsLive (hr : Ran s t id st) (hst : s.requestStates.get? id = some st)
    (hl : ParentsLive s) : ParentsLive t := by
  intro p hp
  rw [hr.parentRequests] at hp
  obtain ⟨i, st', hi, hparent⟩ := hl p hp
  obtain ⟨st₁, hsame, hstates⟩ := hr.states
  by_cases heq : i = id
  · subst heq
    rw [hst] at hi
    cases hi
    exact ⟨i, st₁, by rw [hstates, if_pos rfl], hsame.parentReq.trans hparent⟩
  · exact ⟨i, st', by rw [hstates, if_neg heq, hi], hparent⟩

/-- A child that ends does not leave its parent behind alone. -/
def LeavesParent (s : OutputProcessor) (id p : ReqId) : Prop :=
  (∃ i st, i ≠ id ∧ s.requestStates.get? i = some st ∧ st.parentReq = some p) ∨
    ∀ i ∈ (s.parents p).childRequests, i = id

theorem Ended.parentsLive (he : Ended s t id st c) (h : Wired s)
    (hst : s.requestStates.get? id = some st) (hl : ParentsLive s)
    (hleaves : ∀ p, st.parentReq = some p → LeavesParent s id p) : ParentsLive t := by
  intro p hp
  by_cases hparent : st.parentReq = some p
  · obtain ⟨i, st', hi, hst', hp'⟩ | hlast := hleaves p hparent
    · exact ⟨i, st', by rw [he.states, if_neg hi, hst'], hp'⟩
    · have hnil : (t.parents p).childRequests = [] := by
        rw [he.parents, hparent]
        dsimp only
        rw [update_self, finishChild_childRequests, List.eq_nil_iff_forall_not_mem]
        intro i hi
        obtain ⟨f, hf, -⟩ := (h.child hst hparent).fanOut
        rw [(h.parent hf).nodup.mem_erase_iff] at hi
        exact hi.1 (hlast i hi.2)
      rw [he.parentRequests, hparent] at hp
      dsimp only at hp
      rw [if_pos hnil, Dict.contains_erase] at hp
      exact absurd rfl hp.1
  · have hkept : s.parentRequests.contains p := by
      obtain ⟨q, hq⟩ := isSome_iff_exists.mp hp
      exact isSome_iff_exists.mpr ⟨q, (he.shrinks h).parentRequests hq⟩
    obtain ⟨i, st', hi, hp'⟩ := hl p hkept
    refine ⟨i, st', ?_, hp'⟩
    rw [he.states, if_neg ?_, hi]
    rintro rfl
    rw [hst] at hi
    cases hi
    exact hparent hp'

variable {o : EngineCoreOutput} {stopString : Bool}

/-- A listed live request takes its output, unless it is pooled and streams by intervals. -/
theorem exists_processOutput (h : Wired s) (hl : Listed s fun _ => False)
    (hst : s.requestStates.get? o.requestId = some st)
    (hpool : o.poolingOutput = st.detokenizer.isNone)
    (hready : (o.ends stopString = false ∧ st.outputKind = .finalOnly) ∨ cfg.streamInterval ≤ 1 ∨
      st.detokenizer.isSome) : ∃ t, s.processOutput cfg o stopString = .ok t := by
  unfold processOutput
  rw [hst]
  obtain ⟨⟨st₁, reason⟩, h₁⟩ : ∃ r, st.updateDetokenizer o stopString = .ok r :=
    exists_updateDetokenizer hpool
  obtain ⟨hsame₁, hreason⟩ := updateDetokenizer_eq_ok h₁ hpool
  dsimp only
  rw [h₁]
  dsimp only [Bind.bind, Except.bind]
  have hmake : ∃ r, st₁.makeRequestOutput (st₁.parentReq.map s.parents) cfg.streamInterval
      o.newTokenIds o.poolingOutput reason = .ok r := by
    apply exists_makeRequestOutput
    · rw [hsame₁.outputKind]
      obtain ⟨hends, hkind⟩ | hinterval | hdet := hready
      · rw [hends, isSome_eq_false_iff, isNone_iff_eq_none] at hreason
        exact .inl ⟨hreason, hkind⟩
      · exact .inr (.inl hinterval)
      · rw [← not_isNone, ← hsame₁.detokenizer, not_isNone] at hdet
        exact .inr (.inr hdet)
    · rw [hpool, hsame₁.detokenizer]
    · intro q hq hkind
      rw [hsame₁.parentReq] at hq
      obtain ⟨p, hp, rfl⟩ := map_eq_some_iff.mp hq
      rw [hsame₁.requestIndex]
      exact h.index_lt hst hp hkind
  obtain ⟨⟨st', parent, out⟩, hmake⟩ := hmake
  have hsame := hsame₁.trans (makeRequestOutput_eq_ok hmake).1
  rw [hmake]
  dsimp only
  split
  · rw [finishRequest_eq]
    · exact ⟨_, rfl⟩
    · rw [deliver_requestStates, hsame.requestId, h.requestId hst, Dict.contains_set]
      exact .inl rfl
    · rw [deliver_externalReqIds, hsame.externalReqId, hsame.requestId, h.requestId hst]
      exact hl.mem.mpr ⟨⟨st, hst, rfl⟩, fun hfalse => hfalse⟩
  · exact ⟨_, rfl⟩

/-- An output keeps the books. -/
theorem Books.output (h : Books s) (hok : s.processOutput cfg o stopString = .ok t)
    (hpool : ∀ st, s.requestStates.get? o.requestId = some st →
      o.poolingOutput = st.detokenizer.isNone)
    (hleaves : o.ends stopString = true → ∀ st p, s.requestStates.get? o.requestId = some st →
      st.parentReq = some p → LeavesParent s o.requestId p) : Books t := by
  cases hst : s.requestStates.get? o.requestId with
  | none =>
    rw [processOutput, hst] at hok
    cases hok
    exact h
  | some st =>
    cases hends : o.ends stopString with
    | false =>
      have hr := h.wired.ran hok hst (hpool st hst) hends
      exact ⟨h.wired.shrink (hr.shrinks h.wired hst), hr.listed hst h.listed,
        hr.parentsLive hst h.parentsLive⟩
    | true =>
      obtain ⟨c, he⟩ := h.wired.ended hok hst (hpool st hst) hends
      exact ⟨h.wired.shrink (he.shrinks h.wired), he.listed hst h.listed,
        he.parentsLive h.wired hst h.parentsLive fun p => hleaves hends st p hst⟩

/-- The processor with one more request. -/
def added (s : OutputProcessor) (st : RequestState) : OutputProcessor :=
  { s with
    requestStates := s.requestStates.set st.requestId st
    parentRequests := match st.parentReq with
      | some p => s.parentRequests.set p p
      | none => s.parentRequests
    externalReqIds := s.externalReqIds.set st.externalReqId
      (s.externalReqIds.getD st.externalReqId [] ++ [st.requestId]) }

theorem addRequest_eq {request : EngineCoreRequest} {parentReq queue : Option ReqId} {index : ℕ}
    (hnew : s.requestStates.get? request.requestId = none) :
    s.addRequest request parentReq index queue =
      .ok (s.added (fromNewRequest request parentReq index queue)) := by
  unfold addRequest
  rw [hnew]
  rfl

theorem Listed.added (hl : Listed s fun _ => False)
    (hnew : s.requestStates.get? st.requestId = none) : Listed (s.added st) fun _ => False := by
  refine (Represents.add hl (k := st.externalReqId) (v := st.requestId) ?_).congr ?_
  · rintro ⟨⟨st', hst', -⟩, -⟩
    rw [hnew] at hst'
    cases hst'
  · intro x i
    simp only [LiveAs, OutputProcessor.added, Dict.get?_set, not_false_eq_true, and_true]
    by_cases hi : i = st.requestId
    · simp [hi, hnew, eq_comm]
    · simp [hi]

theorem ParentsLive.added (hl : ParentsLive s) (hnew : s.requestStates.get? st.requestId = none) :
    ParentsLive (s.added st) := by
  intro p hp
  by_cases hparent : st.parentReq = some p
  · exact ⟨st.requestId, st, by simp [OutputProcessor.added], hparent⟩
  · have hkept : s.parentRequests.contains p := by
      unfold OutputProcessor.added at hp
      cases hq : st.parentReq with
      | none =>
        rw [hq] at hp
        exact hp
      | some q =>
        rw [hq] at hp
        obtain rfl | hp := (Dict.contains_set _ _ _ _).mp hp
        · exact absurd hq hparent
        · exact hp
    obtain ⟨i, st', hi, hp'⟩ := hl p hkept
    refine ⟨i, st', ?_, hp'⟩
    rw [OutputProcessor.added, Dict.get?_set, if_neg ?_, hi]
    rintro rfl
    rw [hnew] at hi
    cases hi

theorem Wired.fresh (h : Wired s) (hid : s.origin id = none) : s.requestStates.get? id = none := by
  by_contra hlive
  obtain ⟨st, hst⟩ := ne_none_iff_exists'.mp hlive
  cases hp : st.parentReq with
  | none => simp [h.single hst hp] at hid
  | some p => simp [(h.child hst hp).origin] at hid

theorem Wired.no_fanOut (h : Wired s) (hid : s.origin id = none) : s.fanOuts id = none := by
  by_contra hsome
  obtain ⟨f, hf⟩ := ne_none_iff_exists'.mp hsome
  simp [(h.parent hf).origin] at hid

theorem ChildOf.grow (h : ChildOf s id st p)
    (horigin : ∀ i o, s.origin i = some o → t.origin i = some o) (hparents : t.parents = s.parents)
    (hfanOuts : t.fanOuts = s.fanOuts) (htracked : t.parentRequests.contains p) :
    ChildOf t id st p where
  origin := horigin _ _ h.origin
  mem := by
    rw [hparents]
    exact h.mem
  outputKind := by
    rw [hparents]
    exact h.outputKind
  detokenizer := h.detokenizer
  fanOut := by
    rw [hfanOuts]
    exact h.fanOut
  tracked := htracked

theorem ParentOf.grow {f : FanOut} (h : ParentOf s p f)
    (horigin : ∀ i o, s.origin i = some o → t.origin i = some o)
    (hparents : t.parents p = s.parents p) : ParentOf t p f where
  origin := horigin _ _ h.origin
  requestId := by
    rw [hparents]
    exact h.requestId
  next_le := by
    rw [hparents]
    exact h.next_le
  children i hi := by
    rw [hparents] at hi
    exact horigin _ _ (h.children i hi)
  nodup := by
    rw [hparents]
    exact h.nodup
  mem := by
    rw [hparents]
    exact h.mem
  aggregator := by
    rw [hparents]
    exact h.aggregator

theorem Books.add (h : Books s) (hid : s.origin st.requestId = none) (hp : st.parentReq = none) :
    Books { s.added st with
      origin := update s.origin st.requestId (some .single) } := by
  have hnew := h.wired.fresh hid
  have horigin : ∀ i o, s.origin i = some o →
      update s.origin st.requestId (some .single) i = some o := by
    intro i o hi
    rw [update_of_ne ?_, hi]
    rintro rfl
    rw [hid] at hi
    cases hi
  have hlive : ∀ {i st'}, (s.added st).requestStates.get? i = some st' →
      (i = st.requestId ∧ st' = st) ∨ s.requestStates.get? i = some st' := by
    intro i st' hi
    rw [added, Dict.get?_set] at hi
    split at hi
    · exact .inl ⟨by assumption, (Option.some.inj hi).symm⟩
    · exact .inr hi
  have hparentRequests : (s.added st).parentRequests = s.parentRequests := by
    rw [added, hp]
  refine ⟨⟨?_, ?_, ?_, ?_, ?_⟩, h.listed.added hnew, h.parentsLive.added hnew⟩
  · intro i st' hi
    obtain ⟨rfl, rfl⟩ | hi := hlive hi
    · rfl
    · exact h.wired.requestId hi
  · intro i st' hi hsingle
    obtain ⟨rfl, rfl⟩ | hi := hlive hi
    · exact update_self _ _ _
    · exact horigin _ _ (h.wired.single hi hsingle)
  · intro i st' p hi hchild
    obtain ⟨rfl, rfl⟩ | hi := hlive hi
    · rw [hp] at hchild
      cases hchild
    · have hof := h.wired.child hi hchild
      exact hof.grow horigin rfl rfl (by rw [hparentRequests]; exact hof.tracked)
  · intro p f hf
    exact (h.wired.parent hf).grow horigin rfl
  · intro p q hq
    rw [hparentRequests] at hq
    exact h.wired.parentRequests hq

section Origin
variable (s) {n i : ℕ} {o : Origin}

@[simp] theorem parentOrigin_self : s.parentOrigin p n p = some .parent := if_pos rfl

theorem parentOrigin_child (hi : i < n) :
    s.parentOrigin p n (childReqId i p) = some (.child p i) := by
  have hfind : (List.range n).find? (fun j => childReqId j p = childReqId i p) = some i := by
    rw [List.find?_range_eq_some]
    refine ⟨by simp, List.mem_range.mpr hi, ?_⟩
    intro j hj
    simpa [childReqId_inj] using hj.ne
  rw [parentOrigin, if_neg (childReqId_ne i p), hfind]

theorem parentOrigin_old (hp : s.origin p = none)
    (hchildren : ∀ i < n, s.origin (childReqId i p) = none) (hid : s.origin id = some o) :
    s.parentOrigin p n id = some o := by
  have hne : id ≠ p := by
    rintro rfl
    rw [hp] at hid
    cases hid
  have hfind : (List.range n).find? (fun j => childReqId j p = id) = none := by
    rw [List.find?_range_eq_none]
    intro j hj
    have hne' : childReqId j p ≠ id := by
      rintro rfl
      rw [hchildren j hj] at hid
      cases hid
    simpa using hne'
  rw [parentOrigin, if_neg hne, hfind, hid]

end Origin

theorem Books.newParent (h : Books s) {n : ℕ} {kind : RequestOutputKind} {queue : Option ReqId}
    (hp : s.origin p = none) (hchildren : ∀ i < n, s.origin (childReqId i p) = none) :
    Books { s with
      parents := update s.parents p (.new p x n kind)
      fanOuts := update s.fanOuts p (some ⟨0, queue⟩)
      origin := s.parentOrigin p n } := by
  have horigin : ∀ i o, s.origin i = some o → s.parentOrigin p n i = some o :=
    fun i o hi => parentOrigin_old s hp hchildren hi
  have hne : ∀ {q f}, s.fanOuts q = some f → q ≠ p := by
    rintro q f hf rfl
    rw [h.wired.no_fanOut hp] at hf
    cases hf
  refine ⟨⟨h.wired.requestId, ?_, ?_, ?_, ?_⟩, h.listed, h.parentsLive⟩
  · intro i st hi hsingle
    exact horigin _ _ (h.wired.single hi hsingle)
  · intro i st q hi hchild
    have hof := h.wired.child hi hchild
    obtain ⟨f, hf, hlt, hqueue⟩ := hof.fanOut
    have hqp := hne hf
    refine ⟨horigin _ _ hof.origin, ?_, ?_, hof.detokenizer, ⟨f, ?_, hlt, hqueue⟩, hof.tracked⟩
    · simpa [hqp] using hof.mem
    · simpa [hqp] using hof.outputKind
    · simpa [hqp] using hf
  · intro q f hf
    by_cases hqp : q = p
    · subst hqp
      obtain rfl : ⟨0, queue⟩ = f := by simpa using hf
      refine ⟨parentOrigin_self s, ?_, ?_, ?_, ?_, ?_, ?_⟩
      · simp [new]
      · simp
      · intro i hi
        exact parentOrigin_child s (by simpa [new] using hi)
      · simp [new]
      · simp [new]
      · intro hkind
        simp only [update_self, new] at hkind ⊢
        simp [hkind]
    · have hf : s.fanOuts q = some f := by simpa [hqp] using hf
      exact (h.wired.parent hf).grow horigin (by simp [hqp])
  · intro q r hr
    obtain ⟨rfl, f, hf⟩ := h.wired.parentRequests hr
    exact ⟨rfl, f, by simpa [hne hf] using hf⟩

/-- The next child of a parent. -/
def nextChild (s : OutputProcessor) (p : ReqId) (f : FanOut) : RequestState :=
  fromNewRequest ⟨childReqId f.next p, (s.parents p).externalReqId, (s.parents p).outputKind, false⟩
    (some p) f.next f.queue

/-- The processor when the loop that adds children has named the next child. -/
def namedChild (s : OutputProcessor) (p : ReqId) (f : FanOut) : OutputProcessor :=
  { s with
    parents := Function.update s.parents p
      { s.parents p with
        childRequests := (s.parents p).childRequests.insert (childReqId f.next p) }
    fanOuts := Function.update s.fanOuts p (some { f with next := f.next + 1 }) }

section AddChild
variable {f : FanOut} (h : Wired s) (hf : s.fanOuts p = some f) (hlt : f.next < (s.parents p).n)
include h hf hlt

theorem Wired.nextChild_fresh : s.requestStates.get? (childReqId f.next p) = none := by
  have horigin := (h.parent hf).children f.next hlt
  by_contra hlive
  obtain ⟨st, hst⟩ := ne_none_iff_exists'.mp hlive
  cases hp : st.parentReq with
  | none =>
    rw [h.single hst hp] at horigin
    cases horigin
  | some q =>
    have hof := h.child hst hp
    rw [hof.origin] at horigin
    obtain ⟨rfl, hindex⟩ := by simpa using horigin
    obtain ⟨f', hf', hlt', -⟩ := hof.fanOut
    rw [hf] at hf'
    cases hf'
    omega

theorem Wired.step_addChild :
    s.step cfg (.addChild p) = .ok ((s.namedChild p f).added (s.nextChild p f)) := by
  unfold step
  dsimp only
  rw [hf]
  dsimp only
  rw [if_pos hlt]
  simp only [getChildInfo, (h.parent hf).requestId]
  rw [addRequest_eq (by exact h.nextChild_fresh hf hlt)]
  simp only [namedChild, nextChild, (h.parent hf).requestId]

omit hlt in
theorem Wired.nextChild_not_mem : childReqId f.next p ∉ (s.parents p).childRequests := by
  intro hmem
  obtain ⟨i, hi, heq⟩ := (h.parent hf).mem _ hmem
  have hnext := childReqId_inj.mp heq
  omega

theorem Wired.addChild : Wired ((s.namedChild p f).added (s.nextChild p f)) := by
  have hparent := h.parent hf
  have hnot := h.nextChild_not_mem hf
  have hlive : ∀ {i st'},
      ((s.namedChild p f).added (s.nextChild p f)).requestStates.get? i = some st' →
      (i = childReqId f.next p ∧ st' = s.nextChild p f) ∨ s.requestStates.get? i = some st' := by
    intro i st' hi
    rw [added, Dict.get?_set] at hi
    split at hi
    · exact .inl ⟨by assumption, (Option.some.inj hi).symm⟩
    · exact .inr hi
  have htracked : ∀ q, ((s.namedChild p f).added (s.nextChild p f)).parentRequests.contains q ↔
      q = p ∨ s.parentRequests.contains q := fun q => Dict.contains_set _ _ _ _
  refine ⟨?_, ?_, ?_, ?_, ?_⟩
  · intro i st' hi
    obtain ⟨rfl, rfl⟩ | hi := hlive hi
    · rfl
    · exact h.requestId hi
  · intro i st' hi hsingle
    obtain ⟨rfl, rfl⟩ | hi := hlive hi
    · cases hsingle
    · exact h.single hi hsingle
  · intro i st' q hi hchild
    obtain ⟨rfl, rfl⟩ | hi := hlive hi
    · obtain rfl : p = q := Option.some.inj hchild
      refine ⟨hparent.children f.next hlt, ?_, ?_, rfl, ?_, (htracked p).mpr (.inl rfl)⟩
      · simp [added, namedChild]
      · simp [added, namedChild, nextChild, fromNewRequest]
      · refine ⟨{ f with next := f.next + 1 }, by simp [added, namedChild], ?_, rfl⟩
        exact Nat.lt_succ_self _
    · have hof := h.child hi hchild
      obtain ⟨f', hf', hlt', hqueue⟩ := hof.fanOut
      by_cases hqp : q = p
      · subst hqp
        rw [hf] at hf'
        cases hf'
        refine ⟨hof.origin, ?_, ?_, hof.detokenizer, ?_, (htracked q).mpr (.inl rfl)⟩
        · simpa [added, namedChild] using .inr hof.mem
        · simpa [added, namedChild] using hof.outputKind
        · exact ⟨{ f with next := f.next + 1 }, by simp [added, namedChild], hlt'.trans
            (Nat.lt_succ_self _), hqueue⟩
      · refine ⟨hof.origin, ?_, ?_, hof.detokenizer, ⟨f', ?_, hlt', hqueue⟩,
          (htracked q).mpr (.inr hof.tracked)⟩
        · simpa [added, namedChild, hqp] using hof.mem
        · simpa [added, namedChild, hqp] using hof.outputKind
        · simpa [added, namedChild, hqp] using hf'
  · intro q f' hf'
    by_cases hqp : q = p
    · subst hqp
      obtain rfl : { f with next := f.next + 1 } = f' := by simpa [added, namedChild] using hf'
      refine ⟨hparent.origin, ?_, ?_, ?_, ?_, ?_, ?_⟩
      · simpa [added, namedChild] using hparent.requestId
      · simpa [added, namedChild] using hlt
      · simpa [added, namedChild] using hparent.children
      · simpa [added, namedChild, List.insert_of_not_mem hnot] using ⟨hnot, hparent.nodup⟩
      · intro i hi
        simp only [added, namedChild, update_self, List.mem_insert_iff] at hi
        obtain rfl | hi := hi
        · exact ⟨f.next, Nat.lt_succ_self _, rfl⟩
        · obtain ⟨k, hk, rfl⟩ := hparent.mem i hi
          exact ⟨k, hk.trans (Nat.lt_succ_self _), rfl⟩
      · simpa [added, namedChild] using hparent.aggregator
    · have hf' : s.fanOuts q = some f' := by simpa [added, namedChild, hqp] using hf'
      exact (h.parent hf').grow (fun _ _ ho => ho) (by simp [added, namedChild, hqp])
  · intro q r hr
    rw [added, nextChild, fromNewRequest, Dict.get?_set] at hr
    split at hr
    · rename_i hqp
      subst hqp
      exact ⟨(Option.some.inj hr).symm, _, by simp [added, namedChild]; rfl⟩
    · rename_i hqp
      obtain ⟨rfl, f', hf'⟩ := h.parentRequests hr
      exact ⟨rfl, f', by simpa [added, namedChild, hqp] using hf'⟩

end AddChild

theorem Books.addChild {f : FanOut} (h : Books s) (hf : s.fanOuts p = some f)
    (hlt : f.next < (s.parents p).n) : Books ((s.namedChild p f).added (s.nextChild p f)) where
  wired := h.wired.addChild hf hlt
  listed := by
    have hlisted : Listed (s.namedChild p f) fun _ => False := h.listed
    exact hlisted.added (h.wired.nextChild_fresh hf hlt)
  parentsLive := by
    have hlive : ParentsLive (s.namedChild p f) := h.parentsLive
    exact hlive.added (h.wired.nextChild_fresh hf hlt)

end OutputProcessor

end Vllm.Engine
