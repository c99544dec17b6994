import Vllm.Engine.ProcessorBooks

/-! What aborts do: the requests that are named, and the children of the parents that are named,
are gone, and the others stay. -/
namespace Vllm.Engine
open Multimap RequestState Represents List

namespace OutputProcessor
variable {cfg : ProcessorConfig} {s t u : OutputProcessor} {id p x : ReqId} {st : RequestState}
  {gone : ReqId → Prop} {ids acc : List ReqId}

theorem Shrunk.trans {p p' p'' : ParentRequest} (h : Shrunk p p') (h' : Shrunk p' p'') :
    Shrunk p p'' where
  requestId := h'.requestId.trans h.requestId
  n := h'.n.trans h.n
  outputKind := h'.outputKind.trans h.outputKind
  childRequests := h'.childRequests.trans h.childRequests
  aggregator := h'.aggregator.trans h.aggregator

theorem Shrinks.trans (h : Shrinks s t) (h' : Shrinks t u) : Shrinks s u where
  states := by
    intro i st'' hi
    obtain ⟨st', hst', hsame'⟩ := h'.states hi
    obtain ⟨st, hst, hsame⟩ := h.states hst'
    exact ⟨st, hst, hsame.trans hsame'⟩
  origin := h'.origin.trans h.origin
  fanOuts := h'.fanOuts.trans h.fanOuts
  parents p := (h.parents p).trans (h'.parents p)
  parentRequests hq := h.parentRequests (h'.parentRequests hq)
  connected := h'.connected

/-- An id that is named, or a child of one. -/
def Doomed (s : OutputProcessor) (ids : List ReqId) (i : ReqId) : Prop :=
  i ∈ ids ∨ ∃ p ∈ ids, ∃ j, s.origin i = some (.child p j)

/-- The doomed requests and the named parents are gone. -/
structure Aborted (s t : OutputProcessor) (ids : List ReqId) : Prop where
  shrinks : Shrinks s t
  kept : ∀ i, ¬Doomed s ids i → t.requestStates.get? i = s.requestStates.get? i
  dropped : ∀ i, Doomed s ids i → t.requestStates.get? i = none
  parentRequests : ∀ p,
    t.parentRequests.get? p = if p ∈ ids then none else s.parentRequests.get? p

theorem Aborted.refl (h : Wired s) : Aborted s s [] where
  shrinks := by
    refine ⟨fun hi => ⟨_, hi, Same.refl _⟩, rfl, rfl, fun p => Shrunk.refl _, fun hq => hq, ?_⟩
    intro i st p hi hp
    exact ⟨(h.child hi hp).mem, (h.child hi hp).tracked⟩
  kept i _ := rfl
  dropped i hi := by simp [Doomed] at hi
  parentRequests p := by simp

theorem Aborted.cons (h : Aborted s t [id]) (h' : Aborted t u ids) : Aborted s u (id :: ids) where
  shrinks := h.shrinks.trans h'.shrinks
  kept i hi := by
    have hone : ¬Doomed s [id] i := by
      rintro (hmem | ⟨p, hp, hj⟩)
      · exact hi (.inl (by simpa using .inl (mem_singleton.mp hmem)))
      · exact hi (.inr ⟨p, by simpa using .inl (mem_singleton.mp hp), hj⟩)
    have hrest : ¬Doomed t ids i := by
      rintro (hmem | ⟨p, hp, hj⟩)
      · exact hi (.inl (mem_cons_of_mem _ hmem))
      · rw [h.shrinks.origin] at hj
        exact hi (.inr ⟨p, mem_cons_of_mem _ hp, hj⟩)
    rw [h'.kept i hrest, h.kept i hone]
  dropped i hi := by
    by_cases hrest : Doomed t ids i
    · exact h'.dropped i hrest
    · rw [h'.kept i hrest]
      apply h.dropped i
      obtain hmem | ⟨p, hp, hj⟩ := hi
      · obtain rfl | hmem := mem_cons.mp hmem
        · exact .inl mem_cons_self
        · exact absurd (.inl hmem) hrest
      · obtain rfl | hp := mem_cons.mp hp
        · exact .inr ⟨_, mem_cons_self, hj⟩
        · rw [← h.shrinks.origin] at hj
          exact absurd (.inr ⟨p, hp, hj⟩) hrest
  parentRequests p := by
    rw [h'.parentRequests, h.parentRequests]
    by_cases hp : p ∈ ids
    · simp [hp]
    · simp [hp]

/-- Names that are gone from the external ids and from the requests need not be told. -/
theorem Listed.forget (hl : Listed s fun i => gone i ∨ i ∈ ids)
    (hdead : ∀ i ∈ ids, s.requestStates.get? i = none) : Listed s gone := by
  refine congr hl ?_
  intro x i
  constructor
  · rintro ⟨hlive, hno⟩
    exact ⟨hlive, fun hg => hno (.inl hg)⟩
  · rintro ⟨hlive, hno⟩
    refine ⟨hlive, ?_⟩
    rintro (hg | hmem)
    · exact hno hg
    · obtain ⟨st, hst, -⟩ := hlive
      rw [hdead i hmem] at hst
      cases hst

/-- The first loop over internal ids takes each of them out of its list. -/
theorem collect_internal (hid : ∀ {i st}, s.requestStates.get? i = some st → st.requestId = i)
    (hl : Listed s gone)
    (hnodup : ids.Nodup) (hfree : ∀ i ∈ ids, s.requestStates.contains i → ¬gone i) :
    ∃ d, ids.foldlM (collectId true) (acc, s) = .ok (acc ++ ids, { s with externalReqIds := d }) ∧
      Listed { s with externalReqIds := d } fun i => gone i ∨ i ∈ ids := by
  induction ids generalizing s acc gone with
  | nil => exact ⟨s.externalReqIds, by simp [pure, Except.pure], by simpa using hl⟩
  | cons id ids ih =>
    obtain ⟨hnot, hnodup⟩ := nodup_cons.mp hnodup
    obtain ⟨d, hd, hl'⟩ : ∃ d, collectId true (acc, s) id =
        .ok (acc ++ [id], { s with externalReqIds := d }) ∧
        Listed { s with externalReqIds := d } fun i => gone i ∨ i = id := by
      unfold collectId
      simp only [↓reduceIte]
      cases hst : s.requestStates.get? id with
      | none =>
        refine ⟨s.externalReqIds, rfl, ?_⟩
        refine congr hl ?_
        intro x i
        by_cases hi : i = id
        · simp [LiveAs, hi, hst]
        · simp [hi, LiveAs]
      | some st =>
        have hfree' := hfree id mem_cons_self (by simp [Dict.contains, hst])
        have hmem : st.requestId ∈ s.externalReqIds.getD st.externalReqId [] := by
          rw [hid hst]
          exact hl.mem.mpr ⟨⟨st, hst, rfl⟩, hfree'⟩
        refine ⟨_, by dsimp only; rw [removeExternalId_eq hmem]; rfl, ?_⟩
        refine (remove hl st.externalReqId st.requestId).congr ?_
        intro x i
        rw [hid hst]
        by_cases hi : i = id
        · subst hi
          simp [LiveAs, hst]
          tauto
        · simp [hi, LiveAs]
    obtain ⟨d', hd', hl''⟩ := @ih { s with externalReqIds := d } _ (acc ++ [id]) hid hl' hnodup (by
        rintro i hi hlive (hg | rfl)
        · exact hfree i (mem_cons_of_mem _ hi) hlive hg
        · exact hnot hi)
    refine ⟨d', ?_, ?_⟩
    · rw [foldlM_cons, hd]
      dsimp only [Bind.bind, Except.bind]
      rw [hd', append_assoc, singleton_append]
    · refine congr hl'' ?_
      intro x i
      simp only [mem_cons, or_assoc]

/-- The first loop over external ids gives the listed requests. -/
theorem collect_external (hl : Listed s fun i => i ∈ acc) :
    ∃ d ids', ids.foldlM (collectId false) (acc, s) = .ok (ids', { s with externalReqIds := d }) ∧
      Listed { s with externalReqIds := d } (fun i => i ∈ ids') ∧
      ∀ i, i ∈ ids' ↔ i ∈ acc ∨ ∃ x ∈ ids, s.LiveAs x i := by
  induction ids generalizing s acc with
  | nil => exact ⟨s.externalReqIds, acc, by simp [pure, Except.pure], hl, by simp⟩
  | cons x ids ih =>
    have hmem : ∀ i, i ∈ acc ++ s.externalReqIds.getD x [] ↔ i ∈ acc ∨ s.LiveAs x i := by
      intro i
      rw [mem_append, hl.mem]
      tauto
    obtain ⟨d', ids', hd', hl', hids'⟩ :=
      @ih { s with externalReqIds := s.externalReqIds.erase x }
        (acc ++ s.externalReqIds.getD x []) (by
          refine (erase hl x).congr ?_
          intro y i
          dsimp only
          rw [hmem]
          constructor
          · rintro ⟨⟨hlive, hno⟩, hne⟩
            refine ⟨hlive, ?_⟩
            rintro (hacc | hlive')
            · exact hno hacc
            · exact hne (hlive.unique hlive')
          · rintro ⟨hlive, hno⟩
            refine ⟨⟨hlive, fun hacc => hno (.inl hacc)⟩, ?_⟩
            rintro rfl
            exact hno (.inr hlive))
    refine ⟨d', ids', ?_, hl', ?_⟩
    · rw [foldlM_cons]
      exact hd'
    · intro i
      rw [hids', hmem]
      simp only [mem_cons, exists_eq_or_imp, or_assoc]
      rfl

/-- A request takes its last output, unless it is pooled, queued and streams by intervals. -/
def Ready (cfg : ProcessorConfig) (st : RequestState) : Prop :=
  st.queue ≠ none → cfg.streamInterval ≤ 1 ∨ st.detokenizer.isSome

theorem ChildOf.ready (h : ChildOf s id st p) : Ready cfg st := fun _ => .inr h.detokenizer

variable {abortChildren : List ReqId → OutputProcessor → Raises (List ReqId × OutputProcessor)}

theorem abortId_live (h : Wired s) (hst : s.requestStates.get? id = some st)
    (hready : Ready cfg st) :
    ∃ t, abortId cfg abortChildren (acc, s) id = .ok (acc ++ [id], t) ∧
      t.requestStates = s.requestStates.erase id ∧ t.parentRequests = s.parentRequests ∧
      t.externalReqIds = s.externalReqIds ∧ t.fanOuts = s.fanOuts ∧ t.origin = s.origin ∧
      ∀ p, Shrunk (s.parents p) (t.parents p) ∧
        ∀ i ∈ (s.parents p).childRequests, i ≠ id → i ∈ (t.parents p).childRequests := by
  unfold abortId
  dsimp only
  rw [hst]
  dsimp only
  by_cases hqueue : st.queue = none
  · rw [if_pos hqueue]
    exact ⟨_, rfl, rfl, rfl, rfl, rfl, rfl, fun p => ⟨Shrunk.refl _, fun i hi _ => hi⟩⟩
  · rw [if_neg hqueue]
    have hmake : ∃ r, st.makeRequestOutput (st.parentReq.map s.parents) cfg.streamInterval []
        st.detokenizer.isNone (some .abort) = .ok r := by
      refine exists_makeRequestOutput (.inr (hready hqueue)) rfl ?_
      intro q hq hkind
      obtain ⟨p, hp, rfl⟩ := Option.map_eq_some_iff.mp hq
      exact h.index_lt hst hp hkind
    obtain ⟨⟨st', parent, out⟩, hmake⟩ := hmake
    rw [hmake]
    refine ⟨_, rfl, deliver_requestStates _ _ _ _, deliver_parentRequests _ _ _ _,
      deliver_externalReqIds _ _ _ _, deliver_fanOuts _ _ _ _, deliver_origin _ _ _ _, ?_⟩
    intro p
    cases hp : st.parentReq with
    | none =>
      rw [deliver_parents_single _ st parent out hp]
      exact ⟨Shrunk.refl _, fun i hi _ => hi⟩
    | some q =>
      have hof := h.child hst hp
      rw [hp, Option.map_some, Option.isNone_eq_false_iff.mpr hof.detokenizer] at hmake
      obtain ⟨-, c, -, -, hparent, -⟩ := makeRequestOutput_finishing hmake rfl
        (by rw [h.requestId hst]; exact hof.mem) (h.index_lt hst hp)
      rw [hparent, deliver_parents_child _ st out hp, h.requestId hst]
      by_cases hpq : p = q
      · subst hpq
        rw [Function.update_self]
        refine ⟨Shrunk.finishChild _ _ _, ?_⟩
        intro i hi hne
        rw [finishChild_childRequests]
        exact (mem_erase_of_ne hne).mpr hi
      · rw [Function.update_of_ne hpq]
        exact ⟨Shrunk.refl _, fun i hi _ => hi⟩

theorem Wired.parent_of_origin (h : Wired s) {j : ℕ} (hst : s.requestStates.get? id = some st)
    (horigin : s.origin id = some (.child p j)) : st.parentReq = some p := by
  cases hq : st.parentReq with
  | none =>
    rw [h.single hst hq] at horigin
    cases horigin
  | some q =>
    rw [(h.child hst hq).origin] at horigin
    obtain ⟨rfl, -⟩ := by simpa using horigin
    rfl

theorem abortId_request (h : Wired s) (hl : Listed s gone) (hgone : gone id)
    (hready : ∀ st, s.requestStates.get? id = some st → Ready cfg st)
    (hno : s.parentRequests.get? id = none) :
    ∃ r t, abortId cfg abortChildren (acc, s) id = .ok (r, t) ∧ Aborted s t [id] ∧
      Listed t gone := by
  have hchildless : ∀ i st, s.requestStates.get? i = some st → st.parentReq ≠ some id := by
    intro i st hi hp
    have htracked := (h.child hi hp).tracked
    simp [Dict.contains, hno] at htracked
  have hdoomed : ∀ i st, s.requestStates.get? i = some st → Doomed s [id] i → i = id := by
    rintro i st hi (hmem | ⟨p, hp, j, hj⟩)
    · exact mem_singleton.mp hmem
    · obtain rfl := mem_singleton.mp hp
      exact absurd (h.parent_of_origin hi hj) (hchildless i st hi)
  have hparents : ∀ p, s.parentRequests.get? p =
      if p ∈ [id] then none else s.parentRequests.get? p := by
    intro p
    split
    · rename_i hp
      rw [mem_singleton.mp hp, hno]
    · rfl
  cases hst : s.requestStates.get? id with
  | none =>
    refine ⟨acc, s, ?_, ⟨(Aborted.refl h).shrinks, fun i _ => rfl, ?_, hparents⟩, hl⟩
    · unfold abortId
      dsimp only
      rw [hst]
      rw [hno]
      rfl
    · intro i hi
      by_contra hlive
      obtain ⟨st, hi'⟩ := Option.ne_none_iff_exists'.mp hlive
      rw [hdoomed i st hi' hi, hst] at hi'
      cases hi'
  | some st =>
    obtain ⟨t, hok, hstates, hpr, hext, hfan, horigin, hpar⟩ :=
      @abortId_live cfg s id st acc abortChildren h hst (hready st hst)
    have hget : ∀ i, t.requestStates.get? i =
        if i = id then none else s.requestStates.get? i := by
      intro i
      rw [hstates, Dict.get?_erase]
    refine ⟨_, t, hok, ⟨⟨?_, horigin, hfan, fun p => (hpar p).1, ?_, ?_⟩, ?_, ?_, ?_⟩, ?_⟩
    · intro i st' hi
      rw [hget] at hi
      split at hi
      · cases hi
      · exact ⟨st', hi, Same.refl st'⟩
    · intro p q hq
      rwa [hpr] at hq
    · intro i st' p hi hp
      rw [hget] at hi
      split at hi
      · cases hi
      · rename_i hne
        have hof := h.child hi hp
        exact ⟨(hpar p).2 i hof.mem hne, hpr ▸ hof.tracked⟩
    · intro i hi
      rw [hget, if_neg]
      rintro rfl
      exact hi (.inl mem_cons_self)
    · intro i hi
      rw [hget]
      split
      · rfl
      · rename_i hne
        by_contra hlive
        obtain ⟨st', hi'⟩ := Option.ne_none_iff_exists'.mp hlive
        exact hne (hdoomed i st' hi' hi)
    · rw [hpr]
      exact hparents
    · unfold Listed
      rw [hext]
      refine congr hl ?_
      intro x i
      unfold LiveAs
      rw [hget]
      by_cases hi : i = id
      · simp [hi, hgone]
      · simp [hi]

theorem Ready.same {st' : RequestState} (h : Ready cfg st) (hsame : Same st st') :
    Ready cfg st' := by
  intro hqueue
  rw [hsame.queue] at hqueue
  obtain hinterval | hdet := h hqueue
  · exact .inl hinterval
  · rw [← Option.not_isNone, ← hsame.detokenizer, Option.not_isNone] at hdet
    exact .inr hdet

theorem Shrinks.ready (h : Shrinks s t)
    (hready : ∀ st, s.requestStates.get? id = some st → Ready cfg st) :
    ∀ st, t.requestStates.get? id = some st → Ready cfg st := by
  intro st' hst'
  obtain ⟨st, hst, hsame⟩ := h.states hst'
  exact (hready st hst).same hsame

theorem abortIds_requests (h : Wired s) (hl : Listed s gone) (hgone : ∀ i ∈ ids, gone i)
    (hready : ∀ i ∈ ids, ∀ st, s.requestStates.get? i = some st → Ready cfg st)
    (hno : ∀ i ∈ ids, s.parentRequests.get? i = none) :
    ∃ r t, ids.foldlM (abortId cfg abortChildren) (acc, s) = .ok (r, t) ∧ Aborted s t ids ∧
      Listed t gone := by
  induction ids generalizing s acc with
  | nil => exact ⟨acc, s, rfl, Aborted.refl h, hl⟩
  | cons id ids ih =>
    obtain ⟨r, t, hok, ht, hlt⟩ : ∃ r t, abortId cfg abortChildren (acc, s) id = .ok (r, t) ∧
        Aborted s t [id] ∧ Listed t gone :=
      abortId_request h hl (hgone id mem_cons_self) (hready id mem_cons_self)
        (hno id mem_cons_self)
    obtain ⟨r', u, hok', hu, hlu⟩ := @ih t r (h.shrink ht.shrinks) hlt
      (fun i hi => hgone i (mem_cons_of_mem _ hi))
      (fun i hi => ht.shrinks.ready (hready i (mem_cons_of_mem _ hi)))
      (fun i hi => by
        rw [ht.parentRequests, hno i (mem_cons_of_mem _ hi)]
        split <;> rfl)
    refine ⟨r', u, ?_, ht.cons hu, hlu⟩
    rw [foldlM_cons, hok]
    exact hok'

theorem Aborted.ofUnlisted {d : Dict ReqId (List ReqId)}
    (h : Aborted { s with externalReqIds := d } t ids) : Aborted s t ids :=
  ⟨⟨h.shrinks.states, h.shrinks.origin, h.shrinks.fanOuts, h.shrinks.parents,
    h.shrinks.parentRequests, h.shrinks.connected⟩, h.kept, h.dropped, h.parentRequests⟩

theorem Wired.unlisted (h : Wired s) (d : Dict ReqId (List ReqId)) :
    Wired { s with externalReqIds := d } := by
  refine h.shrink ⟨fun hi => ⟨_, hi, Same.refl _⟩, rfl, rfl, fun p => Shrunk.refl _,
    fun hq => hq, ?_⟩
  intro i st p hi hp
  exact ⟨(h.child hi hp).mem, (h.child hi hp).tracked⟩

theorem abortRequests_requests (h : Wired s) (hl : Listed s gone) (hnodup : ids.Nodup)
    (hfree : ∀ i ∈ ids, s.requestStates.contains i → ¬gone i)
    (hready : ∀ i ∈ ids, ∀ st, s.requestStates.get? i = some st → Ready cfg st)
    (hno : ∀ i ∈ ids, s.parentRequests.get? i = none) (depth : ℕ) :
    ∃ r t, abortRequests cfg (depth + 1) ids true s = .ok (r, t) ∧ Aborted s t ids ∧
      Listed t gone := by
  obtain ⟨d, hd, hl'⟩ := @collect_internal s gone ids [] h.requestId hl hnodup hfree
  obtain ⟨r, t, hok, ht, hlt⟩ := @abortIds_requests cfg { s with externalReqIds := d }
    (fun i => gone i ∨ i ∈ ids) ids [] (fun c s => abortRequests cfg depth c true s)
    (h.unlisted d) hl' (fun i hi => .inr hi) hready hno
  refine ⟨r, t, ?_, ht.ofUnlisted, hlt.forget fun i hi => ht.dropped i (.inl hi)⟩
  rw [abortRequests, hd]
  exact hok

section Children
variable {f : FanOut} (h : Wired s) (hf : s.fanOuts p = some f)
include h hf

theorem Wired.child_origin (hid : id ∈ (s.parents p).childRequests) :
    ∃ j, s.origin id = some (.child p j) := by
  obtain ⟨j, hj, rfl⟩ := (h.parent hf).mem id hid
  exact ⟨j, (h.parent hf).children j (hj.trans_le (h.parent hf).next_le)⟩

theorem Wired.child_not_parent (hid : id ∈ (s.parents p).childRequests) : s.fanOuts id = none := by
  obtain ⟨j, hj⟩ := h.child_origin hf hid
  by_contra hsome
  obtain ⟨f', hf'⟩ := Option.ne_none_iff_exists'.mp hsome
  rw [(h.parent hf').origin] at hj
  cases hj

theorem abort_children (hl : Listed s gone)
    (hfree : ∀ i st, s.requestStates.get? i = some st → st.parentReq = some p → ¬gone i)
    (depth : ℕ) :
    ∃ r t, (if (s.parents p).childRequests = [] then pure ([], s)
        else abortRequests cfg (depth + 1) (s.parents p).childRequests true s) = .ok (r, t) ∧
      Aborted s t (s.parents p).childRequests ∧ Listed t gone := by
  by_cases hnil : (s.parents p).childRequests = []
  · rw [hnil]
    exact ⟨[], s, rfl, Aborted.refl h, hl⟩
  · rw [if_neg hnil]
    refine abortRequests_requests h hl (h.parent hf).nodup ?_ ?_ ?_ depth
    · intro i hi hlive
      obtain ⟨st, hst⟩ := Option.isSome_iff_exists.mp hlive
      obtain ⟨j, hj⟩ := h.child_origin hf hi
      exact hfree i st hst (h.parent_of_origin hst hj)
    · intro i hi st hst
      obtain ⟨j, hj⟩ := h.child_origin hf hi
      exact (h.child hst (h.parent_of_origin hst hj)).ready
    · intro i hi
      by_contra hsome
      obtain ⟨q, hq⟩ := Option.ne_none_iff_exists'.mp hsome
      obtain ⟨-, f', hf'⟩ := h.parentRequests hq
      rw [h.child_not_parent hf hi] at hf'
      cases hf'

end Children

theorem abortId_parent (h : Wired s) (hl : Listed s gone) (hp : s.parentRequests.get? p = some p)
    (hfree : ∀ i st, s.requestStates.get? i = some st → st.parentReq = some p → ¬gone i)
    (depth : ℕ) :
    ∃ r t, abortId cfg (fun c s => abortRequests cfg (depth + 1) c true s) (acc, s) p = .ok (r, t) ∧
      Aborted s t [p] ∧ Listed t gone := by
  obtain ⟨-, f, hf⟩ := h.parentRequests hp
  obtain ⟨r, t, hok, ht, hlt⟩ := @abort_children cfg s p gone f h hf hl hfree depth
  have hdead : ∀ i, s.requestStates.get? i = none → t.requestStates.get? i = none := by
    intro i hi
    by_contra hlive
    obtain ⟨st', hst'⟩ := Option.ne_none_iff_exists'.mp hlive
    obtain ⟨st, hst, -⟩ := ht.shrinks.states hst'
    rw [hi] at hst
    cases hst
  have hchildren : ∀ i j, s.origin i = some (.child p j) → t.requestStates.get? i = none := by
    intro i j hj
    by_cases hlive : s.requestStates.get? i = none
    · exact hdead i hlive
    · obtain ⟨st, hst⟩ := Option.ne_none_iff_exists'.mp hlive
      exact ht.dropped i (.inl (h.child hst (h.parent_of_origin hst hj)).mem)
  refine ⟨acc ++ r, { t with parentRequests := t.parentRequests.erase p }, ?_,
    ⟨⟨ht.shrinks.states, ht.shrinks.origin, ht.shrinks.fanOuts, ht.shrinks.parents, ?_, ?_⟩,
      ?_, ?_, ?_⟩, hlt⟩
  · unfold abortId
    dsimp only
    rw [h.not_live hf]
    rw [hp]
    dsimp only
    split at hok
    · rename_i hnil
      rw [if_pos hnil]
      obtain ⟨rfl, rfl⟩ := by simpa using Raises.pure_eq_ok.mp hok
      rfl
    · rename_i hnil
      rw [if_neg hnil, hok]
      rfl
  · intro q r hr
    rw [Dict.get?_erase] at hr
    split at hr
    · cases hr
    · exact ht.shrinks.parentRequests hr
  · intro i st' q hi hq
    obtain ⟨hmem, htracked⟩ := ht.shrinks.connected hi hq
    refine ⟨hmem, (Dict.contains_erase _ _ _).mpr ⟨?_, htracked⟩⟩
    rintro rfl
    obtain ⟨st, hst, hsame⟩ := ht.shrinks.states hi
    rw [hchildren i _ (h.child hst (hsame.parentReq ▸ hq)).origin] at hi
    cases hi
  · intro i hi
    by_cases hdoomed : Doomed s (s.parents p).childRequests i
    · have hnone : s.requestStates.get? i = none := by
        by_contra hlive
        obtain ⟨st, hst⟩ := Option.ne_none_iff_exists'.mp hlive
        obtain hmem | ⟨q, hq, j, hj⟩ := hdoomed
        · obtain ⟨j, hj⟩ := h.child_origin hf hmem
          exact hi (.inr ⟨p, mem_cons_self, j, hj⟩)
        · obtain ⟨f', hf', -⟩ := (h.child hst (h.parent_of_origin hst hj)).fanOut
          rw [h.child_not_parent hf hq] at hf'
          cases hf'
      exact (hdead i hnone).trans hnone.symm
    · exact ht.kept i hdoomed
  · rintro i (hmem | ⟨q, hq, j, hj⟩)
    · obtain rfl := mem_singleton.mp hmem
      exact hdead i (h.not_live hf)
    · obtain rfl := mem_singleton.mp hq
      exact hchildren i j hj
  · intro q
    rw [Dict.get?_erase, ht.parentRequests]
    by_cases hqp : q = p
    · simp [hqp]
    · simp only [mem_singleton, hqp, ↓reduceIte]
      split
      · rename_i hmem
        by_contra hsome
        obtain ⟨r, hr⟩ := Option.ne_none_iff_exists'.mp (Ne.symm hsome)
        obtain ⟨-, f', hf'⟩ := h.parentRequests hr
        rw [h.child_not_parent hf hmem] at hf'
        cases hf'
      · rfl

/-- The second loop over ids that are gone from the external ids, when no parent comes before a
live child of its own. -/
theorem abortIds_all (h : Wired s) (hl : Listed s gone) (hgone : ∀ i ∈ ids, gone i)
    (hleft : ∀ i, gone i → s.requestStates.contains i → i ∈ ids)
    (hready : ∀ i ∈ ids, ∀ st, s.requestStates.get? i = some st → Ready cfg st)
    (horder : ids.Pairwise fun p c => ∀ st, s.requestStates.get? c = some st →
      st.parentReq ≠ some p) (depth : ℕ) :
    ∃ r t, ids.foldlM (abortId cfg fun c s => abortRequests cfg (depth + 1) c true s) (acc, s) =
      .ok (r, t) ∧ Aborted s t ids ∧ Listed t gone := by
  induction ids generalizing s acc with
  | nil => exact ⟨acc, s, rfl, Aborted.refl h, hl⟩
  | cons id ids ih =>
    obtain ⟨hfirst, horder⟩ := pairwise_cons.mp horder
    obtain ⟨r, t, hok, ht, hlt⟩ : ∃ r t,
        abortId cfg (fun c s => abortRequests cfg (depth + 1) c true s) (acc, s) id = .ok (r, t) ∧
        Aborted s t [id] ∧ Listed t gone := by
      cases hp : s.parentRequests.get? id with
      | none =>
        exact abortId_request h hl (hgone id mem_cons_self) (hready id mem_cons_self) hp
      | some q =>
        obtain ⟨rfl, f, hf⟩ := h.parentRequests hp
        refine abortId_parent h hl hp ?_ depth
        intro i st hst hparent hg
        obtain rfl | hmem := mem_cons.mp (hleft i hg (by simp [Dict.contains, hst]))
        · rw [h.not_live hf] at hst
          cases hst
        · exact hfirst i hmem st hst hparent
    obtain ⟨r', u, hok', hu, hlu⟩ := @ih t r (h.shrink ht.shrinks) hlt
      (fun i hi => hgone i (mem_cons_of_mem _ hi))
      (fun i hg hlive => by
        obtain ⟨st', hst'⟩ := Option.isSome_iff_exists.mp hlive
        obtain ⟨st, hst, -⟩ := ht.shrinks.states hst'
        obtain rfl | hmem := mem_cons.mp (hleft i hg (by simp [Dict.contains, hst]))
        · rw [ht.dropped i (.inl mem_cons_self)] at hst'
          cases hst'
        · exact hmem)
      (fun i hi => ht.shrinks.ready (hready i (mem_cons_of_mem _ hi)))
      (horder.imp fun {p c} hpc st' hst' => by
        obtain ⟨st, hst, hsame⟩ := ht.shrinks.states hst'
        rw [hsame.parentReq]
        exact hpc st hst)
    refine ⟨r', u, ?_, ht.cons hu, hlu⟩
    rw [foldlM_cons, hok]
    exact hok'

end OutputProcessor

end Vllm.Engine
