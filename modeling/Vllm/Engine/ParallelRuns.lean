import Vllm.Engine.ProcessorRuns

/-! Parallel sampling over whole runs: how often a parent is reported finished, and what its final
output lists, while its children are added and end in any order. -/
namespace Vllm.Engine
open RequestState Interleaving Function ParentRequest List

namespace OutputProcessor
variable {cfg : ProcessorConfig} {s t : OutputProcessor} {e : Event} {id p q : ReqId} {f : FanOut}
  {st : RequestState} {c : CompletionOutput}

/-- All children of a parent have been added, and none is outstanding. -/
def Complete (s : OutputProcessor) (p : ReqId) (f : FanOut) : Prop :=
  f.next = (s.parents p).n ∧ (s.parents p).childRequests = []

instance (s : OutputProcessor) (p : ReqId) (f : FanOut) : Decidable (s.Complete p f) :=
  inferInstanceAs (Decidable (_ ∧ _))

/-- What has been reported of a parent, and collected for it. -/
structure FanInv (s : OutputProcessor) (p : ReqId) (f : FanOut) : Prop where
  positive : 0 < (s.parents p).n
  live : ∀ id ∈ (s.parents p).childRequests,
    ∃ st, s.requestStates.get? id = some st ∧ st.parentReq = some p
  reported : f.queue = some p →
    (s.queues p).countP (·.finished) = if s.Complete p f then 1 else 0
  final : (s.parents p).outputKind = .finalOnly → f.queue = some p → s.queues p =
    if s.Complete p f then
      [.completions (s.parents p).externalReqId (s.parents p).outputAggregator true]
    else []
  aggregated : (s.parents p).outputKind = .finalOnly → ∀ i < f.next,
    childReqId i p ∉ (s.parents p).childRequests →
      ∃ c : CompletionOutput, (s.parents p).outputAggregator[i]? = some (some c) ∧ c.index = i ∧
        c.finishReason.isSome

structure FansInv (s : OutputProcessor) : Prop where
  books : Books s
  fan : ∀ {p f}, s.fanOuts p = some f → FanInv s p f
  fanQueue : ∀ {p f q}, s.fanOuts p = some f → f.queue = some q → q = p
  singleQueue : ∀ {id st q}, s.requestStates.get? id = some st → st.parentReq = none →
    st.queue = some q → q = id
  fresh : ∀ {q}, s.origin q = none → s.queues q = []

theorem FansInv.initial : FansInv ({} : OutputProcessor) where
  books := Books.initial
  fan h := by simp at h
  fanQueue h := by simp at h
  singleQueue h := by simp at h
  fresh _ := rfl

theorem FanInv.frame (h : FanInv s p f) (hparents : t.parents p = s.parents p)
    (hqueue : f.queue = some p → t.queues p = s.queues p)
    (hlive : ∀ id st, s.requestStates.get? id = some st → st.parentReq = some p →
      ∃ st', t.requestStates.get? id = some st' ∧ st'.parentReq = some p) : FanInv t p f := by
  have hcomplete : t.Complete p f ↔ s.Complete p f := by rw [Complete, Complete, hparents]
  refine ⟨?_, ?_, ?_, ?_, ?_⟩
  · rw [hparents]
    exact h.positive
  · intro id hid
    rw [hparents] at hid
    obtain ⟨st, hst, hp⟩ := h.live id hid
    exact hlive id st hst hp
  · intro hq
    rw [hqueue hq, h.reported hq]
    simp only [hcomplete]
  · intro hkind hq
    rw [hparents] at hkind ⊢
    rw [hqueue hq, h.final hkind hq]
    simp only [hcomplete]
  · rw [hparents]
    exact h.aggregated

section
variable (h : FansInv s) (hst : s.requestStates.get? id = some st)
include h hst

theorem FansInv.queue_owner (hf : s.fanOuts p = some f) (hq : st.queue = some p) :
    st.parentReq = some p := by
  cases hp : st.parentReq with
  | none =>
    obtain rfl := h.singleQueue hst hp hq
    rw [h.books.wired.not_live hf] at hst
    cases hst
  | some p' =>
    obtain ⟨f', hf', -, hqueue⟩ := (h.books.wired.child hst hp).fanOut
    rw [hqueue] at hq
    rw [h.fanQueue hf' hq]

theorem FansInv.leavesParent (hp : st.parentReq = some p) : LeavesParent s id p := by
  obtain ⟨f, hf, -⟩ := (h.books.wired.child hst hp).fanOut
  by_cases hlast : ∀ i ∈ (s.parents p).childRequests, i = id
  · exact .inr hlast
  · push Not at hlast
    obtain ⟨i, hi, hne⟩ := hlast
    obtain ⟨st', hst', hp'⟩ := (h.fan hf).live i hi
    exact .inl ⟨i, st', hne, hst', hp'⟩

theorem FansInv.queue_origin (hq : st.queue = some q) : s.origin q ≠ none := by
  cases hp : st.parentReq with
  | none =>
    obtain rfl := h.singleQueue hst hp hq
    rw [h.books.wired.single hst hp]
    simp
  | some p =>
    obtain ⟨f, hf, -, hqueue⟩ := (h.books.wired.child hst hp).fanOut
    obtain rfl := h.fanQueue hf (hqueue ▸ hq)
    rw [(h.books.wired.parent hf).origin]
    simp

end

theorem Ran.live_child {i : ReqId} {st' : RequestState} (hr : Ran s t id st)
    (hst : s.requestStates.get? id = some st) (hi : s.requestStates.get? i = some st')
    (hp : st'.parentReq = some p) :
    ∃ st'', t.requestStates.get? i = some st'' ∧ st''.parentReq = some p := by
  obtain ⟨st₁, hsame, hstates⟩ := hr.states
  by_cases heq : i = id
  · subst heq
    rw [hst] at hi
    cases hi
    exact ⟨st₁, by rw [hstates, if_pos rfl], hsame.parentReq.trans hp⟩
  · exact ⟨st', by rw [hstates, if_neg heq, hi], hp⟩

theorem Ran.fan (hr : Ran s t id st) (h : FansInv s) (hst : s.requestStates.get? id = some st)
    (hf : s.fanOuts p = some f) : FanInv t p f := by
  have hfan := h.fan hf
  have hlive := fun i st' (hi : s.requestStates.get? i = some st') (hp : st'.parentReq = some p) =>
    hr.live_child hst hi hp
  by_cases hq : st.queue = some p
  · have hp := h.queue_owner hst hf hq
    have hof := h.books.wired.child hst hp
    have hincomplete : ¬s.Complete p f := by
      rintro ⟨-, hnil⟩
      have hmem := hof.mem
      rw [hnil] at hmem
      cases hmem
    have hincomplete' : ¬t.Complete p f := by
      rw [Complete, hr.parents]
      exact hincomplete
    obtain ⟨out, hqueue, hfinal, hout⟩ := hr.queue p p hp hq
    refine ⟨?_, ?_, ?_, ?_, ?_⟩
    · rw [hr.parents]
      exact hfan.positive
    · intro i hi
      rw [hr.parents] at hi
      obtain ⟨st', hst', hp'⟩ := hfan.live i hi
      exact hlive i st' hst' hp'
    · intro hfq
      have hcount := hfan.reported hfq
      rw [if_neg hincomplete] at hcount
      rw [if_neg hincomplete', hqueue, countP_append, hcount]
      cases out with
      | none => rfl
      | some o => simp [hout o rfl]
    · intro hkind hfq
      rw [hr.parents] at hkind
      rw [if_neg hincomplete', hqueue, hfinal (hof.outputKind.trans hkind), Option.toList_none,
        append_nil, hfan.final hkind hfq, if_neg hincomplete]
    · rw [hr.parents]
      exact hfan.aggregated
  · exact hfan.frame (by rw [hr.parents]) (fun _ => hr.others p hq) hlive

/-- No child leaves its parent without outstanding children while some are still to be added. -/
def InTime (s : OutputProcessor) (id : ReqId) : Prop :=
  ∀ st p f, s.requestStates.get? id = some st → st.parentReq = some p → s.fanOuts p = some f →
    f.next = (s.parents p).n ∨ ∃ i ∈ (s.parents p).childRequests, i ≠ id

theorem Ended.live_child {i : ReqId} {st' : RequestState} (he : Ended s t id st c)
    (hne : i ≠ id) (hi : s.requestStates.get? i = some st') :
    t.requestStates.get? i = some st' := by
  rw [he.states, if_neg hne, hi]

section
variable (he : Ended s t id st c) (h : FansInv s) (hst : s.requestStates.get? id = some st)
include he h hst

theorem Ended.fan_parent (hp : st.parentReq = some p) (hf : s.fanOuts p = some f)
    (htime : InTime s id) : FanInv t p f := by
  have hfan := h.fan hf
  have hof := h.books.wired.child hst hp
  have hparent := h.books.wired.parent hf
  obtain ⟨hindex, hfinished⟩ := he.completion (by simp [hp])
  have hnow : t.parents p = (s.parents p).finishChild id c := by
    rw [he.parents, hp]
    exact update_self _ _ _
  have hqueueEq : st.queue = f.queue := by
    obtain ⟨f', hf', -, hqueue⟩ := hof.fanOut
    rw [hf] at hf'
    rw [hqueue, Option.some.inj hf']
  have hincomplete : ¬s.Complete p f := by
    rintro ⟨-, hnil⟩
    have hmem := hof.mem
    rw [hnil] at hmem
    cases hmem
  have hcomplete : t.Complete p f ↔ (s.parents p).childRequests.erase id = [] := by
    rw [Complete, hnow, finishChild_n, finishChild_childRequests]
    refine and_iff_right_of_imp ?_
    intro hnil
    obtain hnext | ⟨i, hi, hne⟩ := htime st p f hst hp hf
    · exact hnext
    · have hmem := (mem_erase_of_ne hne).mpr hi
      rw [hnil] at hmem
      cases hmem
  refine ⟨?_, ?_, ?_, ?_, ?_⟩
  · rw [hnow, finishChild_n]
    exact hfan.positive
  · intro i hi
    rw [hnow, finishChild_childRequests, hparent.nodup.mem_erase_iff] at hi
    obtain ⟨st', hst', hp'⟩ := hfan.live i hi.2
    exact ⟨st', he.live_child hi.1 hst', hp'⟩
  · intro hq
    have hcount := hfan.reported hq
    rw [if_neg hincomplete] at hcount
    rw [he.queue p p hp (hqueueEq.trans hq), countP_append, hcount, countP_report,
      finishChild_childRequests, Nat.zero_add]
    simp only [hcomplete]
  · intro hkind hq
    rw [hnow, finishChild_outputKind] at hkind
    rw [he.queue p p hp (hqueueEq.trans hq), hfan.final hkind hq, if_neg hincomplete, hnow]
    rw [report, if_pos (by exact hkind), nil_append]
    by_cases hnil : (s.parents p).childRequests.erase id = []
    · rw [if_pos (hcomplete.mpr hnil), if_pos (by exact hnil)]
      rfl
    · rw [if_neg (fun hc => hnil (hcomplete.mp hc)), if_neg (by exact hnil)]
      rfl
  · intro hkind i hi hnot
    rw [hnow, finishChild_outputKind] at hkind
    rw [hnow, finishChild_childRequests, hparent.nodup.mem_erase_iff, not_and_or, not_not] at hnot
    rw [hnow, finishChild, if_pos hkind]
    have hid : id = childReqId st.requestIndex p := by
      obtain ⟨j, hj, rfl⟩ := hparent.mem id hof.mem
      have horigin := hparent.children j (hj.trans_le hparent.next_le)
      rw [hof.origin] at horigin
      obtain rfl : st.requestIndex = j := by simpa using horigin
      rfl
    obtain heq | hnot := hnot
    · obtain rfl : i = st.requestIndex := childReqId_inj.mp (heq.trans hid)
      refine ⟨c, ?_, hindex, hfinished⟩
      rw [hindex]
      exact List.getElem?_set_self (h.books.wired.index_lt hst hp hkind)
    · obtain ⟨c', hc', hci, hcf⟩ := hfan.aggregated hkind i hi hnot
      refine ⟨c', ?_, hci, hcf⟩
      rw [hindex, List.getElem?_set_ne, hc']
      rintro rfl
      rw [← hid] at hnot
      exact hnot hof.mem

theorem Ended.fan (htime : InTime s id) (hf : s.fanOuts p = some f) : FanInv t p f := by
  by_cases hp : st.parentReq = some p
  · exact he.fan_parent h hst hp hf htime
  · refine (h.fan hf).frame ?_ ?_ ?_
    · rw [he.parents]
      cases hq : st.parentReq with
      | none => rfl
      | some q =>
        refine update_of_ne ?_ _ _
        rintro rfl
        exact hp hq
    · intro hq
      apply he.others
      intro hqueue
      exact hp (h.queue_owner hst hf hqueue)
    · intro i st' hi hp'
      refine ⟨st', he.live_child ?_ hi, hp'⟩
      rintro rfl
      rw [hst] at hi
      cases hi
      exact hp hp'

end

/-- A run of additions and outputs, with every child ending in time. -/
def Timely (s : OutputProcessor) : Event → Prop
  | .output o stopString => o.ends stopString = true → InTime s o.requestId
  | .abort _ _ => False
  | _ => True

section
variable (h : FansInv s)
include h

theorem FansInv.add (hid : s.origin st.requestId = none) (hp : st.parentReq = none)
    (hqueue : ∀ q, st.queue = some q → q = st.requestId) :
    FansInv { s.added st with
      origin := update s.origin st.requestId (some .single) } := by
  have hnew := h.books.wired.fresh hid
  have hget : ∀ i, (s.added st).requestStates.get? i =
      if i = st.requestId then some st else s.requestStates.get? i := fun i => Dict.get?_set _ _ _ _
  refine ⟨h.books.add hid hp, ?_, h.fanQueue, ?_, ?_⟩
  · intro p f hf
    refine (h.fan hf).frame rfl (fun _ => rfl) ?_
    intro i st' hi hp'
    refine ⟨st', (hget i).trans ?_, hp'⟩
    rw [if_neg ?_, hi]
    rintro rfl
    rw [hnew] at hi
    cases hi
  · intro i st' q hi hp' hq
    rw [hget] at hi
    split at hi
    · rename_i heq
      cases hi
      rw [heq]
      exact hqueue q hq
    · exact h.singleQueue hi hp' hq
  · intro q hq
    by_cases heq : q = st.requestId
    · rw [heq] at hq
      simp at hq
    · have hq : update s.origin st.requestId (some .single) q = none := hq
      rw [update_of_ne heq] at hq
      exact h.fresh hq

theorem FansInv.newParent {x : ReqId} {n : ℕ} {kind : RequestOutputKind} {queued : Bool}
    (hn : 0 < n) (hp : s.origin p = none) (hchildren : ∀ i < n, s.origin (childReqId i p) = none) :
    FansInv { s with
      parents := update s.parents p (.new p x n kind)
      fanOuts := update s.fanOuts p (some ⟨0, if queued then some p else none⟩)
      origin := s.parentOrigin p n } := by
  refine ⟨h.books.newParent hp hchildren, ?_, ?_, h.singleQueue, ?_⟩
  · intro q f hf
    by_cases hqp : q = p
    · subst hqp
      obtain rfl : ⟨0, if queued then some q else none⟩ = f := by simpa using hf
      have hincomplete : ¬Complete { s with
          parents := update s.parents q (.new q x n kind)
          fanOuts := update s.fanOuts q (some ⟨0, if queued then some q else none⟩)
          origin := s.parentOrigin q n } q ⟨0, if queued then some q else none⟩ := by
        rintro ⟨hzero, -⟩
        simp only [update_self, new] at hzero
        omega
      refine ⟨by simpa [new] using hn, by simp [new], ?_, ?_, by simp⟩
      · intro _
        rw [if_neg hincomplete]
        exact congrArg (List.countP _) (h.fresh hp)
      · intro _ _
        rw [if_neg hincomplete]
        exact h.fresh hp
    · have hf : s.fanOuts q = some f := by simpa [hqp] using hf
      exact (h.fan hf).frame (by simp [hqp]) (fun _ => rfl) fun i st hi hp => ⟨st, hi, hp⟩
  · intro q f r hf hr
    by_cases hqp : q = p
    · subst hqp
      obtain rfl : ⟨0, if queued then some q else none⟩ = f := by simpa using hf
      by_cases hqueued : queued = true
      · rw [if_pos hqueued] at hr
        exact (Option.some.inj hr).symm
      · rw [if_neg hqueued] at hr
        cases hr
    · exact h.fanQueue (by simpa [hqp] using hf) hr
  · intro q hq
    apply h.fresh
    by_contra hsome
    obtain ⟨o, ho⟩ := Option.ne_none_iff_exists'.mp hsome
    have hq : s.parentOrigin p n q = none := hq
    rw [parentOrigin_old s hp hchildren ho] at hq
    cases hq

theorem FansInv.addChild (hf : s.fanOuts p = some f) (hlt : f.next < (s.parents p).n) :
    FansInv ((s.namedChild p f).added (s.nextChild p f)) := by
  have hnew := h.books.wired.nextChild_fresh hf hlt
  have hget : ∀ i, ((s.namedChild p f).added (s.nextChild p f)).requestStates.get? i =
      if i = childReqId f.next p then some (s.nextChild p f) else s.requestStates.get? i :=
    fun i => Dict.get?_set _ _ _ _
  have hkept : ∀ i st, s.requestStates.get? i = some st →
      ((s.namedChild p f).added (s.nextChild p f)).requestStates.get? i = some st := by
    intro i st hi
    rw [hget, if_neg ?_, hi]
    rintro rfl
    rw [hnew] at hi
    cases hi
  refine ⟨h.books.addChild hf hlt, ?_, ?_, ?_, h.fresh⟩
  · intro q f' hf'
    by_cases hqp : q = p
    · subst hqp
      obtain rfl : { f with next := f.next + 1 } = f' := by simpa [added, namedChild] using hf'
      have hfan := h.fan hf
      have hchildren : (((s.namedChild q f).added (s.nextChild q f)).parents q).childRequests =
          (s.parents q).childRequests.insert (childReqId f.next q) := by
        simp [added, namedChild]
      have hother : ((s.namedChild q f).added (s.nextChild q f)).parents q =
          { s.parents q with
            childRequests := (s.parents q).childRequests.insert (childReqId f.next q) } := by
        simp [added, namedChild]
      have hincomplete : ¬s.Complete q f := fun hc => hlt.ne hc.1
      have hincomplete' : ¬Complete ((s.namedChild q f).added (s.nextChild q f)) q
          { f with next := f.next + 1 } := by
        rintro ⟨-, hnil⟩
        have hmem : childReqId f.next q ∈
            (s.parents q).childRequests.insert (childReqId f.next q) := mem_insert_self
        rw [← hchildren, hnil] at hmem
        cases hmem
      refine ⟨?_, ?_, ?_, ?_, ?_⟩
      · rw [hother]
        exact hfan.positive
      · intro i hi
        rw [hchildren, mem_insert_iff] at hi
        obtain rfl | hi := hi
        · exact ⟨s.nextChild q f, by rw [hget, if_pos rfl], rfl⟩
        · obtain ⟨st, hst, hp⟩ := hfan.live i hi
          exact ⟨st, hkept i st hst, hp⟩
      · intro hq
        rw [if_neg hincomplete']
        exact (hfan.reported hq).trans (if_neg hincomplete)
      · intro hkind hq
        rw [hother] at hkind
        rw [if_neg hincomplete']
        exact (hfan.final hkind hq).trans (if_neg hincomplete)
      · intro hkind i hi hnot
        rw [hother] at hkind
        rw [hchildren, mem_insert_iff, not_or] at hnot
        rw [hother]
        refine hfan.aggregated hkind i ?_ hnot.2
        have hne : i ≠ f.next := fun heq => hnot.1 (heq ▸ rfl)
        have hi : i < f.next + 1 := hi
        omega
    · have hf' : s.fanOuts q = some f' := by simpa [added, namedChild, hqp] using hf'
      exact (h.fan hf').frame (by simp [added, namedChild, hqp]) (fun _ => rfl)
        fun i st hi hp => ⟨st, hkept i st hi, hp⟩
  · intro q f' r hf' hr
    by_cases hqp : q = p
    · subst hqp
      obtain rfl : { f with next := f.next + 1 } = f' := by simpa [added, namedChild] using hf'
      exact h.fanQueue hf hr
    · exact h.fanQueue (by simpa [added, namedChild, hqp] using hf') hr
  · intro i st q hi hsingle hq
    rw [hget] at hi
    split at hi
    · cases hi
      cases hsingle
    · exact h.singleQueue hi hsingle hq

theorem FansInv.output {o : EngineCoreOutput} {stopString : Bool}
    (hok : s.processOutput cfg o stopString = .ok t)
    (hwf : ∀ st, s.requestStates.get? o.requestId = some st →
      o.poolingOutput = st.detokenizer.isNone)
    (htime : o.ends stopString = true → InTime s o.requestId) : FansInv t := by
  have hbooks : Books t := by
    refine h.books.output hok hwf ?_
    intro _ st p hst hp
    exact h.leavesParent hst hp
  cases hst : s.requestStates.get? o.requestId with
  | none =>
    rw [processOutput, hst] at hok
    cases hok
    exact h
  | some st =>
    have hfresh : ∀ {q}, (∀ q, st.queue ≠ some q → t.queues q = s.queues q) →
        s.origin q = none → t.queues q = [] := by
      intro q hothers hq
      rw [hothers q fun hqueue => h.queue_origin hst hqueue hq]
      exact h.fresh hq
    cases hends : o.ends stopString with
    | false =>
      have hr := h.books.wired.ran hok hst (hwf st hst) hends
      refine ⟨hbooks, fun hf => hr.fan h hst (hr.fanOuts ▸ hf), ?_, ?_, ?_⟩
      · rw [hr.fanOuts]
        exact h.fanQueue
      · intro i st' q hi hp hq
        obtain ⟨st₁, hst₁, hsame⟩ := (hr.shrinks h.books.wired hst).states hi
        rw [hsame.parentReq] at hp
        rw [hsame.queue] at hq
        exact h.singleQueue hst₁ hp hq
      · rw [hr.origin]
        exact hfresh hr.others
    | true =>
      obtain ⟨c, he⟩ := h.books.wired.ended hok hst (hwf st hst) hends
      refine ⟨hbooks, fun hf => he.fan h hst (htime hends) (he.fanOuts ▸ hf), ?_, ?_, ?_⟩
      · rw [he.fanOuts]
        exact h.fanQueue
      · intro i st' q hi hp hq
        obtain ⟨st₁, hst₁, hsame⟩ := (he.shrinks h.books.wired).states hi
        rw [hsame.parentReq] at hp
        rw [hsame.queue] at hq
        exact h.singleQueue hst₁ hp hq
      · rw [he.origin]
        exact hfresh he.others

theorem FansInv.step (hwf : s.WellFormed e) (htimely : s.Timely e) (hstep : s.step cfg e = .ok t) :
    FansInv t := by
  cases e with
  | add request queued =>
    unfold OutputProcessor.step at hstep
    dsimp only at hstep
    rw [addRequest_eq (h.books.wired.fresh hwf)] at hstep
    cases hstep
    refine @FansInv.add s (fromNewRequest request none 0
      (if queued then some request.requestId else none)) h hwf rfl ?_
    intro q hq
    have hq : (if queued then some request.requestId else none) = some q := hq
    split at hq
    · exact (Option.some.inj hq).symm
    · cases hq
  | newParent requestId externalReqId n outputKind queued =>
    obtain ⟨hn, hp, hchildren⟩ := hwf
    cases hstep
    exact h.newParent (Nat.lt_of_lt_of_le Nat.zero_lt_two hn) hp hchildren
  | addChild p =>
    cases hf : s.fanOuts p with
    | none =>
      unfold OutputProcessor.step at hstep
      dsimp only at hstep
      rw [hf] at hstep
      cases hstep
      exact h
    | some f =>
      by_cases hlt : f.next < (s.parents p).n
      · rw [h.books.wired.step_addChild hf hlt] at hstep
        cases hstep
        exact h.addChild hf hlt
      · unfold OutputProcessor.step at hstep
        dsimp only at hstep
        rw [hf] at hstep
        dsimp only at hstep
        rw [if_neg hlt] at hstep
        cases hstep
        exact h
  | output o stopString => exact h.output hstep hwf htimely
  | abort requestIds internal => exact htimely.elim

end

/-- All children of a parent have been added and have finished. -/
def AllFinished (s : OutputProcessor) (p : ReqId) (f : FanOut) : Prop :=
  f.next = (s.parents p).n ∧ ∀ id st, s.requestStates.get? id = some st → st.parentReq ≠ some p

theorem FansInv.complete_iff (h : FansInv s) (hf : s.fanOuts p = some f) :
    s.Complete p f ↔ s.AllFinished p f := by
  refine and_congr_right fun _ => ?_
  constructor
  · intro hnil id st hst hp
    have hmem := (h.books.wired.child hst hp).mem
    rw [hnil] at hmem
    cases hmem
  · intro hdead
    rw [eq_nil_iff_forall_not_mem]
    intro id hid
    obtain ⟨st, hst, hp⟩ := (h.fan hf).live id hid
    exact hdead id st hst hp

theorem FansInv.completions (h : FansInv s) (hf : s.fanOuts p = some f)
    (hkind : (s.parents p).outputKind = .finalOnly) (hc : s.Complete p f) :
    ∃ cs : List CompletionOutput, (s.parents p).outputAggregator = cs.map some ∧
      cs.map (·.index) = List.range (s.parents p).n ∧ ∀ c ∈ cs, c.finishReason.isSome := by
  have hlen := (h.books.wired.parent hf).aggregator hkind
  have hall : ∀ i < (s.parents p).n, ∃ c : CompletionOutput,
      (s.parents p).outputAggregator[i]? = some (some c) ∧ c.index = i ∧ c.finishReason.isSome := by
    intro i hi
    refine (h.fan hf).aggregated hkind i (hc.1 ▸ hi) ?_
    rw [hc.2]
    exact not_mem_nil
  have hsome : Nonempty CompletionOutput := ⟨⟨0, [], none⟩⟩
  choose! completion hget hindex hfinish using hall
  refine ⟨(List.range (s.parents p).n).map completion, ?_, ?_, ?_⟩
  · apply ext_getElem?
    intro i
    by_cases hi : i < (s.parents p).n
    · rw [hget i hi]
      simp [hi]
    · rw [List.getElem?_eq_none (by omega), List.getElem?_eq_none (by simpa using hi)]
  · rw [map_map]
    refine (map_congr_left ?_).trans (map_id _)
    intro i hi
    exact hindex i (mem_range.mp hi)
  · intro c hcs
    obtain ⟨i, hi, rfl⟩ := mem_map.mp hcs
    exact hfinish i (mem_range.mp hi)

theorem reachable_fansInv
    (h : Reachable (next cfg) (fun s e => s.WellFormed e ∧ s.Timely e) {} s) : FansInv s := by
  refine Reachable.rule FansInv.initial ?_ h
  intro s e t hs hok hstep
  exact hs.step hok.1 hok.2 (next_eq_some.mp hstep)

/-- A queued parent has one finished report if all its children have finished, and none before. In
final-only mode that report is its only one, and lists all completions in order. -/
theorem parallel_sampling_reports
    (h : Reachable (next cfg) (fun s e => s.WellFormed e ∧ s.Timely e) {} s)
    (hf : s.fanOuts p = some f) (hq : f.queue = some p) :
    (s.AllFinished p f → (s.queues p).countP (·.finished) = 1 ∧
      ((s.parents p).outputKind = .finalOnly → ∃ cs : List CompletionOutput,
        s.queues p = [.completions (s.parents p).externalReqId (cs.map some) true] ∧
        cs.map (·.index) = List.range (s.parents p).n ∧ ∀ c ∈ cs, c.finishReason.isSome)) ∧
    (¬s.AllFinished p f → (s.queues p).countP (·.finished) = 0 ∧
      ((s.parents p).outputKind = .finalOnly → s.queues p = [])) := by
  have hinv := reachable_fansInv h
  have hfan := hinv.fan hf
  rw [← hinv.complete_iff hf]
  constructor
  · intro hc
    refine ⟨(hfan.reported hq).trans (if_pos hc), ?_⟩
    intro hkind
    obtain ⟨cs, hcs, hindex, hfinish⟩ := hinv.completions hf hkind hc
    refine ⟨cs, ?_, hindex, hfinish⟩
    rw [← hcs]
    exact (hfan.final hkind hq).trans (if_pos hc)
  · intro hc
    refine ⟨(hfan.reported hq).trans (if_neg hc), ?_⟩
    intro hkind
    exact (hfan.final hkind hq).trans (if_neg hc)

/-- A parent of two children that wants its final output only. -/
def finalOnlyParent : Event := .newParent "p" "x" 2 .finalOnly true

theorem wellFormed_finalOnlyParent : ({} : OutputProcessor).WellFormed finalOnlyParent :=
  ⟨le_rfl, rfl, fun _ _ => rfl⟩

/-- An output for a child of a parent whose children have all been added. -/
theorem childOutput_ok {o : EngineCoreOutput}
    (hchild : (s.requestStates.get? o.requestId).map (fun st =>
      (st.detokenizer.isNone, st.parentReq)) = some (o.poolingOutput, some "p"))
    (hadded : (s.fanOuts "p").map (·.next) = some (s.parents "p").n) (stopString : Bool) :
    s.WellFormed (.output o stopString) ∧ s.Timely (.output o stopString) := by
  constructor
  · intro st hst
    rw [hst] at hchild
    exact (Prod.mk.inj (Option.some.inj hchild)).1.symm
  · intro _ st p f hst hp hf
    rw [hst] at hchild
    obtain rfl : p = "p" :=
      Option.some.inj (hp.symm.trans (Prod.mk.inj (Option.some.inj hchild)).2)
    rw [hf] at hadded
    exact .inl (Option.some.inj hadded)

/-- Both children finish, the second first. -/
theorem parallel_sampling_reports_bothFinished :
    ∃ s : OutputProcessor, Reachable (next {}) (fun s e => s.WellFormed e ∧ s.Timely e) {} s ∧
      ∃ f, s.fanOuts "p" = some f ∧ f.queue = some "p" ∧ s.AllFinished "p" f ∧
        (s.queues "p").countP (·.finished) = 1 ∧ ∃ cs : List CompletionOutput,
          s.queues "p" = [.completions "x" (cs.map some) true] ∧ cs.map (·.index) = [0, 1] ∧
            ∀ c ∈ cs, c.finishReason.isSome := by
  let child (s : OutputProcessor) (id : ReqId) : Bool :=
    (s.requestStates.get? id).map (fun st => (st.detokenizer.isNone, st.parentReq)) =
      some (false, some "p") ∧ (s.fanOuts "p").map (·.next) = some (s.parents "p").n
  obtain ⟨s, hs, hfacts⟩ := Option.bind_eq_some_iff.mp
    (show (run (next {}) {} [finalOnlyParent, .addChild "p", .addChild "p"]).bind (fun s =>
      (next {} s (.output ⟨"1_p", [8], false, some .stop⟩ false)).bind fun t =>
        (next {} t (.output ⟨"0_p", [7], false, some .stop⟩ false)).map fun u =>
          (child s "1_p", child t "0_p", u.fanOuts "p", (u.parents "p").childRequests, decide
            ((u.parents "p").n = 2 ∧ (u.parents "p").outputKind = .finalOnly ∧
              (u.parents "p").externalReqId = "x"))) =
        some (true, true, some ⟨2, some "p"⟩, [], true) by decide +kernel)
  obtain ⟨t, ht, hfacts⟩ := Option.bind_eq_some_iff.mp hfacts
  obtain ⟨u, hu, hfacts⟩ := Option.map_eq_some_iff.mp hfacts
  simp only [child, Prod.mk.injEq, decide_eq_true_eq] at hfacts
  obtain ⟨⟨hone, hadded⟩, ⟨hzero, hadded'⟩, hf, hnil, hn, hkind, hext⟩ := hfacts
  obtain ⟨r, hr, hrun⟩ := run_cons.mp hs
  have hreach : Reachable (next {}) (fun s e => s.WellFormed e ∧ s.Timely e) {} s := by
    refine (Reachable.init.step ⟨wellFormed_finalOnlyParent, trivial⟩ hr).run ?_ hrun
    intro s e he
    simp only [mem_cons, not_mem_nil, or_false, or_self] at he
    obtain rfl := he
    exact ⟨trivial, trivial⟩
  have hreach := (hreach.step (childOutput_ok hone hadded false) ht).step
    (childOutput_ok hzero hadded' false) hu
  have hall : u.AllFinished "p" ⟨2, some "p"⟩ :=
    ((reachable_fansInv hreach).complete_iff hf).mp ⟨hn.symm, hnil⟩
  obtain ⟨hone, hreport⟩ := (parallel_sampling_reports hreach hf rfl).1 hall
  obtain ⟨cs, hqueue, hindex, hfinish⟩ := hreport hkind
  rw [hext] at hqueue
  rw [hn] at hindex
  exact ⟨u, hreach, _, hf, rfl, hall, hone, cs, hqueue, hindex, hfinish⟩

/-- A first child that finishes before the second one is added is reported as the whole request,
with a completion missing. -/
theorem parallel_sampling_reports_early :
    ∃ s : OutputProcessor, Reachable (next {})
      (fun s e => s.WellFormed e ∧ ∀ ids internal, e ≠ .abort ids internal) {} s ∧
      ∃ f, s.fanOuts "p" = some f ∧ f.queue = some "p" ∧ ¬s.AllFinished "p" f ∧
        s.queues "p" = [.completions "x" [some ⟨0, [7], some .stop⟩, none] true] := by
  obtain ⟨s, hs, hlive⟩ := Option.map_eq_some_iff.mp
    (show (run (next {}) {} [finalOnlyParent, .addChild "p"]).map
      (fun s => ((s.requestStates.get? "0_p").map (·.detokenizer.isNone),
        (s.step {} (.output ⟨"0_p", [7], false, some .stop⟩ false)).toOption.map
          fun t => (t.fanOuts "p", (t.parents "p").n, t.queues "p"))) =
        some (some false, some (some ⟨1, some "p"⟩, 2,
          [.completions "x" [some ⟨0, [7], some .stop⟩, none] true])) by decide +kernel)
  obtain ⟨hlive, hnext⟩ := Prod.mk.inj hlive
  obtain ⟨t, ht, hreport⟩ := Option.map_eq_some_iff.mp hnext
  obtain ⟨hf, hreport⟩ := Prod.mk.inj hreport
  obtain ⟨hn, hqueue⟩ := Prod.mk.inj hreport
  obtain ⟨u, hu, hrun⟩ := run_cons.mp hs
  refine ⟨t, .step (Reachable.run (.step .init ⟨wellFormed_finalOnlyParent, ?_⟩ hu) ?_ hrun) ?_ ht,
    _, hf, rfl, ?_, hqueue⟩
  · intro ids internal h
    cases h
  · intro s e he
    obtain rfl := mem_singleton.mp he
    exact ⟨trivial, fun ids internal h => nomatch h⟩
  · refine ⟨?_, fun ids internal h => nomatch h⟩
    intro st hst
    obtain ⟨st', hst', hdet⟩ := Option.map_eq_some_iff.mp hlive
    have heq : s.requestStates.get? "0_p" = some st := hst
    rw [hst'] at heq
    cases heq
    rw [hdet]
  · rintro ⟨hall, -⟩
    rw [hn] at hall
    cases hall

end OutputProcessor

end Vllm.Engine
