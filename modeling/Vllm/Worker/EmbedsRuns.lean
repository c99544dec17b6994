import Vllm.Worker.BatchSlides

/-! The prompt embeddings over whole runs. `remove_request` leaves their map as it is; where every
entry is overwritten when its row is taken, the map follows the requests. -/
namespace Vllm.Worker
open InputBatch

/-- The steps that leave no entry behind: a row with an entry is taken by requests with
embeddings only, and no row with an entry stays vacant. -/
def embedsStep (s : RunnerState) : Event → Prop
  | .add r => r.promptEmbeds.isSome ∨ s.batch.reqPromptEmbeds.get? s.batch.nextRow = none
  | .condense =>
    (∀ p ∈ s.batch.slides, s.batch.reqPromptEmbeds.get? p.2 = none ∨
      (s.batch.reqPromptEmbeds.get? p.1).isSome) ∧
    ∀ e ∈ s.batch.batchUpdateBuilder.removed, s.batch.numReqs ≤ e →
      s.batch.reqPromptEmbeds.get? e = none
  | _ => True

instance (s : RunnerState) (e : Event) : Decidable (embedsStep s e) := by
  refine e.casesOn ?_ ?_ ?_ ?_ ?_ ?_ ?_ <;> intros <;> unfold embedsStep <;> infer_instance

/-- The entry that suits a request. -/
def SuitsEmbeds (r : CachedRequestState) (v : Option PromptEmbeds) : Prop := v = r.promptEmbeds

structure EmbedsInv (s : RunnerState) : Prop where
  rows : RowsSuit s.batch s.ledger s.batch.reqPromptEmbeds.get? SuitsEmbeds
  idle : ∀ i, s.batch.owner i = none → i ∉ s.batch.batchUpdateBuilder.removed →
    s.batch.reqPromptEmbeds.get? i = none
  settled : s.phase = .condensed ∨ s.phase = .refreshed →
    ∀ i, s.batch.owner i = none → s.batch.reqPromptEmbeds.get? i = none

namespace EmbedsInv
variable {s s' : RunnerState}

theorem init (c : BatchConfig) (outputs : Outputs) : EmbedsInv (RunnerState.init c outputs) := by
  refine ⟨?_, fun i _ _ => rfl, fun _ i _ => rfl⟩
  intro i id t hi
  exact absurd hi (by simp [RunnerState.init, BatchConfig.newBatch, owner])

/-- The loop of `condense`. -/
structure EmbedsLoop (s : RunnerState) (c : InputBatch) : Prop where
  rows : RowsSuit c s.ledger c.reqPromptEmbeds.get? SuitsEmbeds
  idle : ∀ i, c.owner i = none → i ∉ c.batchUpdateBuilder.removed →
    c.reqPromptEmbeds.get? i = none
  numReqs : c.numReqs = s.batch.numReqs
  removed : ∀ e ∈ c.batchUpdateBuilder.removed, e ∈ s.batch.batchUpdateBuilder.removed ∧
    c.reqPromptEmbeds.get? e = s.batch.reqPromptEmbeds.get? e

theorem loop_slide {c c' : InputBatch} {id : RequestId} {builder : BatchUpdateBuilder}
    {last empty : ℕ} (hI : EmbedsInv s) (hok : embedsStep s .condense)
    (hP : EmbedsLoop s c) (hb : Sliding c last) (hlast : last ∉ c.batchUpdateBuilder.removed)
    (hpop : c.batchUpdateBuilder.popRemoved = (some empty, builder)) (hlt : empty < last)
    (hslide : (last, empty) ∈ s.batch.slides) (howner : s.batch.owner last = some id)
    (hs : SlidAt { c with batchUpdateBuilder := builder } c' id last empty) :
    EmbedsLoop s c' := by
  have hmem := hb.sorted.mem_pop hpop
  obtain ⟨hperm, -, hsorted, -⟩ := hb.sorted.pop hpop
  have hempty : empty ∈ c.batchUpdateBuilder.removed := by
    rw [hperm.mem_iff]
    exact List.mem_cons_self
  have hbound := hb.bound
  have hin : empty < c.reqIds.length := by omega
  have hremoved : c'.batchUpdateBuilder.removed = builder.removed := hs.removed_eq.1
  have hembeds : ∀ k, c'.reqPromptEmbeds.get? k = if k = last then none
      else if k = empty then
        (c.reqPromptEmbeds.get? last).or (c.reqPromptEmbeds.get? empty)
      else c.reqPromptEmbeds.get? k := by
    intro k
    rw [hs.embeds]
    exact get?_slideDictValue _ hlt.ne k
  have howned : c.owner last = some id := owner_eq_some.mpr hs.owned
  refine ⟨?_, ?_, ?_, ?_⟩
  · refine RowsSuit.slide (S := c.reqPromptEmbeds.get?)
      (b := { c with batchUpdateBuilder := builder }) hP.rows hs hin ?_ ?_
    · intro t ht hsuits
      rw [SuitsEmbeds] at hsuits ⊢
      rw [hembeds, if_neg hlt.ne, if_pos rfl, hsuits]
      cases hr : t.request.promptEmbeds with
      | some e => rfl
      | none =>
        rw [(hP.removed empty hempty).2]
        have hfrom : s.batch.reqPromptEmbeds.get? last = none :=
          (hI.rows last id t howner ht).trans hr
        rcases hok.1 _ hslide with hnone | hsome
        · exact hnone
        · dsimp only at hsome
          rw [hfrom] at hsome
          exact absurd hsome (by simp)
    · intro k hkl hke
      rw [hembeds, if_neg hkl, if_neg hke]
  · intro i hi hnot
    rw [hembeds]
    by_cases hil : i = last
    · rw [if_pos hil]
    · rw [hs.owner_eq hin, Function.update_of_ne hil] at hi
      have hie : i ≠ empty := by
        rintro rfl
        simp at hi
      rw [Function.update_of_ne hie] at hi
      rw [if_neg hil, if_neg hie]
      refine hP.idle i hi fun hcontra => hnot ?_
      rw [hremoved]
      exact (hmem i).mpr ⟨hcontra, hie⟩
  · rw [← hP.numReqs]
    exact hs.numReqs_eq (hb.setBuilder hsorted)
  · intro e he
    rw [hremoved] at he
    obtain ⟨he, hne⟩ := (hmem e).mp he
    have hel : e ≠ last := by
      rintro rfl
      exact hlast he
    rw [hembeds, if_neg hel, if_neg hne]
    exact hP.removed e he

theorem condense {b' : InputBatch} (hI : EmbedsInv s)
    (hok : embedsStep s .condense) (hopen : s.batch.Open) (hc : s.batch.condense = .ok b') :
    RowsSuit b' s.ledger b'.reqPromptEmbeds.get? SuitsEmbeds ∧
      ∀ i, b'.owner i = none → b'.reqPromptEmbeds.get? i = none := by
  have hperm := s.batch.batchUpdateBuilder.perm_ensureRemovedSorted
  have hstart : EmbedsLoop s s.batch.sortRemoved := by
    refine ⟨hI.rows, ?_, rfl, ?_⟩
    · intro i hi hnot
      exact hI.idle i hi fun hcontra => hnot (hperm.mem_iff.mpr hcontra)
    · intro e he
      exact ⟨hperm.mem_iff.mp he, rfl⟩
  refine condense_slides_rule (P := EmbedsLoop s) (Q := fun c =>
    RowsSuit c s.ledger c.reqPromptEmbeds.get? SuitsEmbeds ∧
      ∀ i, c.owner i = none → c.reqPromptEmbeds.get? i = none) hopen hc ?_ hstart ?_ ?_
  · intro hnil
    refine ⟨hI.rows, fun i hi => hI.idle i hi ?_⟩
    rw [← hperm.mem_iff]
    intro hmem
    rw [InputBatch.sortRemoved] at hnil
    dsimp only at hnil
    rw [hnil] at hmem
    exact absurd hmem (by simp)
  · intro c c' id builder last empty hsliding hlast hpop hlt hslide howner hP hs
    exact loop_slide hI hok hP hsliding hlast hpop hlt hslide howner hs
  · intro c hsettled hP
    have hown := hsettled.owner_trimLists
    refine ⟨?_, ?_⟩
    · intro i id t hi ht
      rw [hown] at hi
      exact hP.rows i id t hi ht
    · intro i hi
      rw [hown] at hi
      show c.reqPromptEmbeds.get? i = none
      by_cases hmem : i ∈ c.batchUpdateBuilder.removed
      · obtain ⟨hold, hsame⟩ := hP.removed i hmem
        rw [hsame]
        refine hok.2 i hold ?_
        rw [← hP.numReqs]
        exact hsettled.removed i hmem
      · exact hP.idle i hi hmem

theorem step {e : Event} (hI : EmbedsInv s) (hok : embedsStep s e) (ht : Transition s e s') :
    EmbedsInv s' := by
  cases ht with
  | absent hphase habsent => exact ⟨hI.rows.absent, hI.idle, fun h => absurd h (by simp)⟩
  | remove hphase hopen howner hr =>
    rename_i id i b'
    have hnot : i ∉ s.batch.batchUpdateBuilder.removed := by
      rw [hopen.removed i, owner_eq_some.mp howner]
      simp
    obtain ⟨-, hremoved, -⟩ := hopen.sorted.append hnot hr.builder
    refine ⟨hI.rows.remove howner hr fun k _ => by rw [hr.embeds], ?_, fun h => absurd h (by simp)⟩
    intro k hk hmem
    dsimp only at hk hmem ⊢
    rw [hremoved, List.mem_append, List.mem_singleton, not_or] at hmem
    rw [hr.owner_eq (lt_length_of_owner howner), Function.update_of_ne hmem.2] at hk
    rw [hr.embeds]
    exact hI.idle k hk hmem.1
  | add hphase hopen ha hnew hkind =>
    rename_i r i n b'
    obtain ⟨-, hremoved, -⟩ := ha.removed_iff hopen
    have hembeds : ∀ k, b'.reqPromptEmbeds.get? k =
        if k = i then r.promptEmbeds else s.batch.reqPromptEmbeds.get? k := by
      intro k
      have heq : b'.reqPromptEmbeds = storeSparse s.batch.reqPromptEmbeds i r.promptEmbeds := by
        rw [ha.eq]
        rfl
      rw [heq]
      unfold storeSparse
      cases hr : r.promptEmbeds with
      | some e => simp
      | none =>
        by_cases hk : k = i
        · subst hk
          rw [if_pos rfl, ← ha.nextRow_eq]
          rcases hok with hsome | hnone
          · rw [hr] at hsome
            exact absurd hsome (by simp)
          · exact hnone
        · rw [if_neg hk]
    refine ⟨hI.rows.add hopen ha hnew ?_ fun k hk => ?_, ?_, fun h => absurd h (by simp)⟩
    · rw [SuitsEmbeds, hembeds, if_pos rfl]
    · rw [hembeds, if_neg hk]
    · intro k hk hmem
      dsimp only at hk hmem ⊢
      rw [ha.owner_eq] at hk
      have hki : k ≠ i := by
        rintro rfl
        simp at hk
      rw [Function.update_of_ne hki] at hk
      rw [hembeds, if_neg hki]
      exact hI.idle k hk fun hcontra => hmem ((hremoved k).mpr ⟨hcontra, hki⟩)
  | condense hphase hopen hc =>
    obtain ⟨hrows, hidle⟩ := hI.condense hok hopen hc
    exact ⟨hrows, fun i hi _ => hidle i hi, fun _ => hidle⟩
  | swap hphase hdense hs =>
    rename_i i1 i2 id1 id2 b'
    have hidle : ∀ i, b'.owner i = none → b'.reqPromptEmbeds.get? i = none := by
      intro i hi
      rw [hs.owner_eq, RowArray.swapRow_apply] at hi
      rw [hs.embeds, get?_swapDictValues]
      exact hI.settled (.inl hphase) _ hi
    refine ⟨hI.rows.swap hs fun k => ?_, fun i hi _ => hidle i hi, fun _ => hidle⟩
    rw [hs.embeds]
    exact get?_swapDictValues _ i1 i2 k
  | refresh hphase hdense =>
    have hown := OriginInv.owner_refreshMetadata s.outputs s.batch
    have hembeds : (s.batch.refreshMetadata s.outputs).reqPromptEmbeds =
        s.batch.reqPromptEmbeds := by
      obtain ⟨_, _, _, _, heq, -⟩ := s.batch.refreshMetadata_eq s.outputs
      rw [heq]
    have hidle : ∀ i, (s.batch.refreshMetadata s.outputs).owner i = none →
        (s.batch.refreshMetadata s.outputs).reqPromptEmbeds.get? i = none := by
      intro i hi
      rw [hown] at hi
      rw [hembeds]
      exact hI.settled (.inl hphase) i hi
    refine ⟨hI.rows.same hown (fun id t ht => ⟨t, ht, rfl⟩) ?_, fun i hi _ => hidle i hi,
      fun _ => hidle⟩
    rw [hembeds]
  | write howner hw =>
    refine ⟨hI.rows.same hw.owner_eq (fun id t ht => written_request ht) ?_,
      ?_, ?_⟩
    · rw [hw.embeds]
    · intro i hi hmem
      dsimp only at hi hmem ⊢
      rw [hw.owner_eq] at hi
      rw [hw.builder] at hmem
      rw [hw.embeds]
      exact hI.idle i hi hmem
    · intro hdone i hi
      dsimp only at hi ⊢
      rw [hw.owner_eq] at hi
      rw [hw.embeds]
      refine hI.settled (.inl ?_) i hi
      exact Phase.written_eq_condensed.mp (hdone.resolve_right (Phase.written_ne_refreshed _))
  | setOutput =>
    refine ⟨hI.rows, hI.idle, fun hdone => hI.settled (.inl ?_)⟩
    exact Phase.written_eq_condensed.mp (hdone.resolve_right (Phase.written_ne_refreshed _))

end EmbedsInv

theorem Reachable.embedsInv {c : BatchConfig} {s : RunnerState}
    (h : Reachable c embedsStep s) : EmbedsInv s :=
  h.rule (EmbedsInv.init c) fun _ _ _ _ _ _ hok hI ht => hI.step hok ht

/-- Whenever `condense` is done, the map has exactly the embeddings of the requests, each at the
row of its request. -/
theorem Reachable.embeds_follow {c : BatchConfig} {s : RunnerState}
    (h : Reachable c embedsStep s) (hphase : s.phase = .condensed ∨ s.phase = .refreshed) (i : ℕ)
    (e : PromptEmbeds) : s.batch.reqPromptEmbeds.get? i = some e ↔
      ∃ id t, s.batch.owner i = some id ∧ s.ledger id = some t ∧
        t.request.promptEmbeds = some e := by
  have hI := h.embedsInv
  constructor
  · intro hget
    cases howner : s.batch.owner i with
    | none =>
      rw [hI.settled hphase i howner] at hget
      exact absurd hget (by simp)
    | some id =>
      obtain ⟨t, ht, -⟩ := h.runInv.follows.shows i id howner
      exact ⟨id, t, rfl, ht, (hI.rows i id t howner ht).symm.trans hget⟩
  · rintro ⟨id, t, howner, ht, hr⟩
    exact (hI.rows i id t howner ht).trans hr

def embedsRequest (id : RequestId) (embeds : PromptEmbeds) : CachedRequestState :=
  { reqId := id, promptTokenIds := none, promptEmbeds := some embeds, samplingParams := some {}
    blockIds := [[id]], outputTokenIds := id }

/-- The embeddings of the last request slide into the row of one that had some, too. -/
def embedsSlide : List Event :=
  [.add (embedsRequest 1 [[1]]), .add (sampledRequest 2 [5] {}),
    .add (embedsRequest 3 [[3], [4]]), .condense, .refresh, .remove 1, .condense, .swap 0 1]

theorem embeds_follow_embedsSlide :
    ∃ s, Reachable smallBatch embedsStep s ∧ s.batch.reqIds = [some 2, some 3] ∧
      ∃ id t, s.batch.owner 1 = some id ∧ s.ledger id = some t ∧
        t.request.promptEmbeds = some [[3], [4]] := by
  obtain ⟨s, hrun, hfacts⟩ := Raises.exists_ok
    (show (((RunnerState.init smallBatch fun _ => []).run embedsStep embedsSlide).toOption.map
      fun s => (decide (s.phase = .condensed ∧ s.batch.reqIds = [some 2, some 3] ∧
        s.batch.reqPromptEmbeds.get? 1 = some [[3], [4]]))) = some true by decide +kernel)
  obtain ⟨hphase, hids, hget⟩ := of_decide_eq_true hfacts
  have hreach : Reachable smallBatch embedsStep s := (Reachable.init _).run hrun
  exact ⟨s, hreach, hids, (hreach.embeds_follow (.inl hphase) 1 _).mp hget⟩

/-- A request with tokens takes the row of one that had embeddings. -/
def embedsLeft : List Event :=
  [.add (embedsRequest 1 [[1]]), .condense, .refresh, .remove 1,
    .add (sampledRequest 2 [5] {}), .condense]

theorem exists_embeds_not_follow :
    ∃ s, Reachable smallBatch anyStep s ∧ s.phase = .condensed ∧ s.batch.reqIds = [some 2] ∧
      ¬∀ i e, s.batch.reqPromptEmbeds.get? i = some e ↔
        ∃ id t, s.batch.owner i = some id ∧ s.ledger id = some t ∧
          t.request.promptEmbeds = some e := by
  obtain ⟨s, hrun, hfacts⟩ := Raises.exists_ok
    (show (((RunnerState.init smallBatch fun _ => []).run anyStep embedsLeft).toOption.map
      fun s => (decide (s.phase = .condensed ∧ s.batch.reqIds = [some 2] ∧
        s.batch.reqPromptEmbeds.get? 0 = some [[1]] ∧
        (s.ledger 2).map (·.request) = some (sampledRequest 2 [5] {})))) =
        some true by decide +kernel)
  obtain ⟨hphase, hids, hget, hledger⟩ := of_decide_eq_true hfacts
  refine ⟨s, (Reachable.init _).run hrun, hphase, hids, fun hfollow => ?_⟩
  obtain ⟨id, t, howner, ht, hembeds⟩ := (hfollow 0 [[1]]).mp hget
  rw [owner, hids] at howner
  obtain rfl : 2 = id := Option.some.inj howner
  rw [ht, Option.map_some, Option.some.injEq] at hledger
  rw [hledger] at hembeds
  exact absurd hembeds (by decide)

end Vllm.Worker
