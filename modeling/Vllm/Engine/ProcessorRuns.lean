import Vllm.Engine.ProcessorAborts

/-! Runs of the output processor. As long as aborts and stop conditions do not take a parent's last
child behind its back, the books are right in every state and no call fails. -/
namespace Vllm.Engine
open Multimap RequestState Interleaving

namespace OutputProcessor
variable {cfg : ProcessorConfig} {s t : OutputProcessor} {e : Event} {ids : List ReqId}
  {internal : Bool}

/-- What the callers promise: internal ids are new, an output suits its request, and the ids of an
abort are distinct. -/
def WellFormed (s : OutputProcessor) : Event → Prop
  | .add request _ => s.origin request.requestId = none
  | .newParent requestId _ n _ _ =>
    2 ≤ n ∧ s.origin requestId = none ∧ ∀ i < n, s.origin (childReqId i requestId) = none
  | .addChild _ => True
  | .output o _ => ∀ st, s.requestStates.get? o.requestId = some st →
    o.poolingOutput = st.detokenizer.isNone
  | .abort requestIds _ => requestIds.Nodup

/-- A request that an abort names, by its internal or its external id. -/
def Named (ids : List ReqId) (internal : Bool) (id : ReqId) (st : RequestState) : Prop :=
  if internal then id ∈ ids else st.externalReqId ∈ ids

/-- An abort names no parent before a live child of it, no last live children of a parent without
the parent, and no queued pooling request that streams by intervals. -/
structure FineAbort (cfg : ProcessorConfig) (s : OutputProcessor) (ids : List ReqId)
    (internal : Bool) : Prop where
  ready : ∀ id st, s.requestStates.get? id = some st → Named ids internal id st → Ready cfg st
  order : internal = true → ids.Pairwise fun p c => ∀ st, s.requestStates.get? c = some st →
    st.parentReq ≠ some p
  last : ∀ p, s.parentRequests.contains p → (internal = true ∧ p ∈ ids) ∨
    ∃ id st, s.requestStates.get? id = some st ∧ st.parentReq = some p ∧ ¬Named ids internal id st

/-- An output finds no pooling request that streams by intervals, and ends the last live child of
a parent only when no other child is outstanding. -/
structure FineOutput (cfg : ProcessorConfig) (s : OutputProcessor) (o : EngineCoreOutput)
    (stopString : Bool) : Prop where
  ready : ∀ st, s.requestStates.get? o.requestId = some st →
    (o.ends stopString = false ∧ st.outputKind = .finalOnly) ∨ cfg.streamInterval ≤ 1 ∨
      st.detokenizer.isSome
  last : o.ends stopString = true → ∀ st p, s.requestStates.get? o.requestId = some st →
    st.parentReq = some p → LeavesParent s o.requestId p

def Fine (cfg : ProcessorConfig) (s : OutputProcessor) : Event → Prop
  | .output o stopString => FineOutput cfg s o stopString
  | .abort requestIds internal => FineAbort cfg s requestIds internal
  | _ => True

theorem Books.abortIds (h : Books s) {d : Dict ReqId (List ReqId)}
    (hl : Listed { s with externalReqIds := d } fun i => i ∈ ids)
    (hready : ∀ i ∈ ids, ∀ st, s.requestStates.get? i = some st → Ready cfg st)
    (horder : ids.Pairwise fun p c => ∀ st, s.requestStates.get? c = some st →
      st.parentReq ≠ some p)
    (hlast : ∀ p, s.parentRequests.contains p → p ∈ ids ∨
      ∃ id st, s.requestStates.get? id = some st ∧ st.parentReq = some p ∧ id ∉ ids) (depth : ℕ) :
    ∃ r t, ids.foldlM (abortId cfg fun c s => abortRequests cfg (depth + 1) c true s)
      ([], { s with externalReqIds := d }) = .ok (r, t) ∧ Books t := by
  obtain ⟨r, t, hok, ht, hlt⟩ := @abortIds_all cfg { s with externalReqIds := d }
    (fun i => i ∈ ids) ids [] (h.wired.unlisted d) hl (fun i hi => hi) (fun i hi _ => hi) hready
    horder depth
  have ht' : Aborted s t ids := ht.ofUnlisted
  refine ⟨r, t, hok, h.wired.shrink ht'.shrinks, ?_, ?_⟩
  · have hboth : Listed t fun i => False ∨ i ∈ ids := by simpa using hlt
    exact hboth.forget fun i hi => ht'.dropped i (.inl hi)
  · intro p hp
    have hsome : ¬p ∈ ids ∧ s.parentRequests.contains p := by
      rw [Dict.contains, ht'.parentRequests] at hp
      split at hp
      · simp at hp
      · rename_i hnot
        exact ⟨hnot, hp⟩
    obtain ⟨id, st, hst, hparent, hid⟩ := (hlast p hsome.2).resolve_left hsome.1
    refine ⟨id, st, ?_, hparent⟩
    rw [ht'.kept, hst]
    rintro (hmem | ⟨q, hq, j, hj⟩)
    · exact hid hmem
    · rw [(h.wired.child hst hparent).origin] at hj
      obtain ⟨rfl, -⟩ := by simpa using hj
      exact hsome.1 hq

theorem Books.abort (h : Books s) (hnodup : ids.Nodup) (hfine : FineAbort cfg s ids internal)
    (depth : ℕ) : ∃ r t, abortRequests cfg (depth + 2) ids internal s = .ok (r, t) ∧ Books t := by
  rw [abortRequests]
  cases internal with
  | true =>
    obtain ⟨d, hd, hl⟩ := @collect_internal s (fun _ => False) ids [] h.wired.requestId h.listed
      hnodup (fun _ _ _ hfalse => hfalse)
    rw [hd]
    refine h.abortIds (by simpa using hl) (fun i hi st hst => hfine.ready i st hst hi)
      (hfine.order rfl) ?_ depth
    intro p hp
    obtain ⟨-, hmem⟩ | ⟨id, st, hst, hparent, hnot⟩ := hfine.last p hp
    · exact .inl hmem
    · exact .inr ⟨id, st, hst, hparent, hnot⟩
  | false =>
    obtain ⟨d, ids', hd, hl, hmem⟩ := @collect_external s ids [] (by simpa using h.listed)
    have hlive : ∀ i, i ∈ ids' ↔ ∃ x ∈ ids, s.LiveAs x i := by simpa using hmem
    rw [hd]
    refine h.abortIds hl ?_ ?_ ?_ depth
    · intro i hi st hst
      obtain ⟨x, hx, st', hst', rfl⟩ := (hlive i).mp hi
      rw [hst] at hst'
      cases hst'
      exact hfine.ready i st hst hx
    · refine List.pairwise_of_forall_mem_list ?_
      intro p hp c hc st hst hparent
      obtain ⟨x, -, st', hst', -⟩ := (hlive p).mp hp
      obtain ⟨f, hf, -⟩ := (h.wired.child hst hparent).fanOut
      rw [h.wired.not_live hf] at hst'
      cases hst'
    · intro p hp
      obtain ⟨hfalse, -⟩ | ⟨id, st, hst, hparent, hnot⟩ := hfine.last p hp
      · cases hfalse
      · refine .inr ⟨id, st, hst, hparent, ?_⟩
        intro hmem
        obtain ⟨x, hx, st', hst', rfl⟩ := (hlive id).mp hmem
        rw [hst] at hst'
        cases hst'
        exact hnot hx

theorem Books.step (h : Books s) (hwf : s.WellFormed e) (hfine : s.Fine cfg e) :
    ∃ t, s.step cfg e = .ok t ∧ Books t := by
  cases e with
  | add request queued =>
    have hnew := h.wired.fresh hwf
    refine ⟨_, ?_, @Books.add s (fromNewRequest request none 0
      (if queued then some request.requestId else none)) h hwf rfl⟩
    unfold OutputProcessor.step
    dsimp only
    rw [addRequest_eq hnew]
    rfl
  | newParent requestId externalReqId n outputKind queued =>
    exact ⟨_, rfl, h.newParent hwf.2.1 hwf.2.2⟩
  | addChild p =>
    cases hf : s.fanOuts p with
    | none =>
      refine ⟨s, ?_, h⟩
      unfold OutputProcessor.step
      dsimp only
      rw [hf]
      rfl
    | some f =>
      by_cases hlt : f.next < (s.parents p).n
      · exact ⟨_, h.wired.step_addChild hf hlt, h.addChild hf hlt⟩
      · refine ⟨s, ?_, h⟩
        unfold OutputProcessor.step
        dsimp only
        rw [hf]
        exact if_neg hlt
  | output o stopString =>
    cases hst : s.requestStates.get? o.requestId with
    | none =>
      refine ⟨s, ?_, h⟩
      unfold OutputProcessor.step processOutput
      dsimp only
      rw [hst]
      rfl
    | some st =>
      obtain ⟨t, ht⟩ := exists_processOutput h.wired h.listed hst (hwf st hst) (hfine.ready st hst)
      exact ⟨t, ht, h.output ht hwf hfine.last⟩
  | abort requestIds internal =>
    obtain ⟨depth, hdepth⟩ := Nat.exists_eq_add_of_le' cfg.two_le
    obtain ⟨r, t, hok, ht⟩ := h.abort hwf hfine depth
    refine ⟨t, ?_, ht⟩
    unfold OutputProcessor.step
    dsimp only
    rw [hdepth, hok]
    rfl

/-- One event of a run, which ends at a call that fails. -/
def next (cfg : ProcessorConfig) (s : OutputProcessor) (e : Event) : Option OutputProcessor :=
  (s.step cfg e).toOption

theorem next_eq_some : s.next cfg e = some t ↔ s.step cfg e = .ok t := by
  unfold next
  cases s.step cfg e <;> simp [Except.toOption]

theorem reachable_books
    (h : Reachable (next cfg) (fun s e => s.WellFormed e ∧ s.Fine cfg e) {} s) : Books s := by
  refine Reachable.rule Books.initial ?_ h
  intro s e t hs hok hstep
  obtain ⟨t', ht', hbooks⟩ := hs.step hok.1 hok.2
  rw [next_eq_some, ht'] at hstep
  cases hstep
  exact hbooks

/-- The external ids list exactly the live requests, a parent is kept exactly as long as one of its
children lives, and the next call returns. -/
theorem bookkeeping_exact
    (h : Reachable (next cfg) (fun s e => s.WellFormed e ∧ s.Fine cfg e) {} s) :
    (∀ x, s.externalReqIds.get? x ≠ some [] ∧ (s.externalReqIds.getD x []).Nodup ∧
      ∀ id, id ∈ s.externalReqIds.getD x [] ↔
        ∃ st, s.requestStates.get? id = some st ∧ st.externalReqId = x) ∧
    (∀ p, s.parentRequests.contains p ↔
      ∃ id st, s.requestStates.get? id = some st ∧ st.parentReq = some p) ∧
    ∀ e, s.WellFormed e → s.Fine cfg e → ∃ t, s.step cfg e = .ok t := by
  have hbooks := reachable_books h
  refine ⟨?_, ?_, ?_⟩
  · intro x
    refine ⟨fun hnil => hbooks.listed.nonempty hnil rfl, hbooks.listed.nodup x, ?_⟩
    intro id
    rw [hbooks.listed.mem]
    exact and_iff_left (fun hfalse => hfalse)
  · intro p
    refine ⟨hbooks.parentsLive p, ?_⟩
    rintro ⟨id, st, hst, hp⟩
    exact (hbooks.wired.child hst hp).tracked
  · intro e hwf hfine
    obtain ⟨t, ht, -⟩ := hbooks.step hwf hfine
    exact ⟨t, ht⟩

/-- A parent of two children. -/
def twoChildren : Event := .newParent "p" "x" 2 .cumulative true

theorem reachable_twoChildren {ok : OutputProcessor → Event → Prop} {es : List Event}
    (hok : ok {} twoChildren) (hes : ∀ s, ∀ e ∈ es, ok s e)
    (hrun : run (next cfg) {} (twoChildren :: es) = some s) : Reachable (next cfg) ok {} s := by
  obtain ⟨t, ht, hrun⟩ := run_cons.mp hrun
  exact (Reachable.init.step hok ht).run hes hrun

theorem wellFormed_twoChildren : ({} : OutputProcessor).WellFormed twoChildren :=
  ⟨le_rfl, rfl, fun _ _ => rfl⟩

/-- Of three children the first finishes and the second is aborted. -/
theorem bookkeeping_exact_lastChild :
    ∃ s : OutputProcessor,
      Reachable (next {}) (fun s e => s.WellFormed e ∧ s.Fine {} e) {} s ∧
      s.externalReqIds.getD "x" [] = ["2_p"] ∧
      (∃ st, s.requestStates.get? "2_p" = some st ∧ st.externalReqId = "x") ∧
      (s.parentRequests.contains "p" ↔
        ∃ id st, s.requestStates.get? id = some st ∧ st.parentReq = some "p") ∧
      ∃ t, s.step {} (.output ⟨"2_p", [8], false, none⟩ false) = .ok t := by
  let child (s : OutputProcessor) (id : ReqId) : Bool :=
    (s.requestStates.get? id).map (fun st => (st.detokenizer.isNone, st.parentReq)) =
      some (false, some "p")
  obtain ⟨s, hs, hfacts⟩ := Option.bind_eq_some_iff.mp
    (show (run (next {}) {} [.newParent "p" "x" 3 .cumulative true, .addChild "p", .addChild "p",
      .addChild "p"]).bind (fun s =>
        (next {} s (.output ⟨"0_p", [7], false, some .stop⟩ false)).bind fun t =>
          (next {} t (.abort ["1_p"] true)).map fun u => (child s "0_p" && child s "1_p",
            child t "2_p" && child u "2_p", t.parentRequests.keys,
            u.externalReqIds.getD "x" [])) = some (true, true, ["p"], ["2_p"]) by decide +kernel)
  obtain ⟨t, ht, hfacts⟩ := Option.bind_eq_some_iff.mp hfacts
  obtain ⟨u, hu, hfacts⟩ := Option.map_eq_some_iff.mp hfacts
  simp only [child, Prod.mk.injEq, Bool.and_eq_true, decide_eq_true_eq] at hfacts
  obtain ⟨⟨hfirst, hsecond⟩, ⟨hthird, hlive⟩, hkeys, hlist⟩ := hfacts
  have hwell : ∀ {s : OutputProcessor} {o : EngineCoreOutput},
      (s.requestStates.get? o.requestId).map (fun st => (st.detokenizer.isNone, st.parentReq)) =
        some (o.poolingOutput, some "p") → s.WellFormed (.output o false) := by
    intro s o hchild st hst
    rw [hst] at hchild
    exact (Prod.mk.inj (Option.some.inj hchild)).1.symm
  obtain ⟨r, hr, hrun⟩ := run_cons.mp hs
  have hreach : Reachable (next {}) (fun s e => s.WellFormed e ∧ s.Fine {} e) {} s := by
    refine (Reachable.init.step ⟨⟨by decide, rfl, fun _ _ => rfl⟩, trivial⟩ hr).run ?_ hrun
    intro s e he
    simp only [List.mem_cons, List.not_mem_nil, or_false, or_self] at he
    obtain rfl := he
    exact ⟨trivial, trivial⟩
  have hout : s.Fine {} (.output ⟨"0_p", [7], false, some .stop⟩ false) := by
    refine ⟨fun _ _ => .inr (.inl le_rfl), fun _ st p hst hp => .inl ?_⟩
    obtain ⟨st', hst', hsecond⟩ := Option.map_eq_some_iff.mp hsecond
    refine ⟨"1_p", st', by decide, hst', ?_⟩
    rw [hst] at hfirst
    exact (Prod.mk.inj hsecond).2.trans
      ((Prod.mk.inj (Option.some.inj hfirst)).2.symm.trans hp)
  have habort : t.Fine {} (.abort ["1_p"] true) := by
    refine ⟨fun _ _ _ _ _ => .inl le_rfl, fun _ => List.pairwise_singleton _ _, ?_⟩
    intro p hp
    obtain rfl : p = "p" := by simpa [hkeys] using Dict.mem_keys_iff.mpr hp
    obtain ⟨st, hst, hthird⟩ := Option.map_eq_some_iff.mp hthird
    refine .inr ⟨"2_p", st, hst, (Prod.mk.inj hthird).2, ?_⟩
    show "2_p" ∉ ["1_p"]
    decide
  have hnodup : t.WellFormed (.abort ["1_p"] true) := List.nodup_singleton "1_p"
  have hreach := (hreach.step ⟨hwell hfirst, hout⟩ ht).step ⟨hnodup, habort⟩ hu
  obtain ⟨hexternal, hparents, hnext⟩ := bookkeeping_exact hreach
  refine ⟨u, hreach, hlist, ((hexternal "x").2.2 "2_p").mp (hlist ▸ List.mem_singleton_self _),
    hparents "p", hnext _ (hwell hlive) ⟨fun _ _ => .inr (.inl le_rfl), ?_⟩⟩
  intro hends
  cases hends

/-- An abort of the external id leaves the parent, and one of the parent and a child fails. -/
theorem bookkeeping_fails :
    (∃ s : OutputProcessor, Reachable (next {}) WellFormed {} s ∧
      s.parentRequests.contains "p" ∧
      ¬∃ id st, s.requestStates.get? id = some st ∧ st.parentReq = some "p") ∧
    ∃ (s : OutputProcessor) (e : Event), Reachable (next {}) WellFormed {} s ∧ s.WellFormed e ∧
      ¬∃ t, s.step {} e = .ok t := by
  constructor
  · obtain ⟨s, hs, hleft⟩ := Option.map_eq_some_iff.mp
      (show (run (next {}) {} [twoChildren, .addChild "p", .addChild "p", .abort ["x"] false]).map
        (fun s => (s.parentRequests.contains "p", s.requestStates.isEmpty)) = some (true, true) by
          decide +kernel)
    obtain ⟨hkept, hempty⟩ := Prod.mk.inj hleft
    refine ⟨s, reachable_twoChildren wellFormed_twoChildren ?_ hs, hkept, ?_⟩
    · intro s e he
      simp only [List.mem_cons, List.not_mem_nil, or_false] at he
      obtain rfl | rfl | rfl := he
      · trivial
      · trivial
      · exact List.nodup_singleton "x"
    · rintro ⟨id, st, hst, -⟩
      rw [s.requestStates.isEmpty_iff.mp hempty id] at hst
      cases hst
  · obtain ⟨s, hs, hfails⟩ := Option.map_eq_some_iff.mp
      (show (run (next {}) {} [twoChildren, .addChild "p", .addChild "p"]).map
        (fun s => (s.step {} (.abort ["p", "0_p"] true)).isOk) = some false by decide +kernel)
    refine ⟨s, .abort ["p", "0_p"] true, reachable_twoChildren wellFormed_twoChildren ?_ hs, ?_, ?_⟩
    · intro s e he
      simp only [List.mem_cons, List.not_mem_nil, or_false] at he
      obtain rfl | rfl := he
      · trivial
      · trivial
    · show List.Nodup ["p", "0_p"]
      decide
    · rintro ⟨t, ht⟩
      rw [ht] at hfails
      cases hfails

end OutputProcessor

end Vllm.Engine
