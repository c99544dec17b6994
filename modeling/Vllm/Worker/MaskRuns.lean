import Vllm.Worker.ProcessorRuns
import Vllm.Worker.BatchSlides

/-! The masks of allowed tokens over whole runs. An exchange through views leaves the second row in
both places, and a moved row keeps its mask; without either the masks follow the requests. -/
namespace Vllm.Worker
open InputBatch

/-- The mask of row `i`; as long as the tensor is not allocated nothing is masked. -/
def InputBatch.maskRow (b : InputBatch) (i : ℕ) : List Bool :=
  match b.allowedTokenIdsMask with
  | some mask => mask i
  | none => clearMask b.vocabSize

/-- The mask of a request: true outside of its allowed tokens, if it has any. -/
def CachedRequestState.maskRow (vocabSize : ℕ) (r : CachedRequestState) : List Bool :=
  match r.params.allowedTokenIds with
  | some (t :: ts) => allowedMask vocabSize (t :: ts)
  | _ => clearMask vocabSize

/-- The steps that the masks survive: rows with different masks are not exchanged, and a request
without allowed tokens gets a row whose mask is clear. -/
def maskStep (s : RunnerState) : Event → Prop
  | .add r => r.params.allowedTokenIds.getD [] ≠ [] ∨
      s.batch.maskRow s.batch.nextRow = clearMask s.batch.vocabSize
  | .swap i1 i2 => s.batch.maskRow i1 = s.batch.maskRow i2
  | _ => True

instance (s : RunnerState) (e : Event) : Decidable (maskStep s e) := by
  refine e.casesOn ?_ ?_ ?_ ?_ ?_ ?_ ?_ <;> intros <;> unfold maskStep <;> infer_instance

structure MaskInv (s : RunnerState) : Prop where
  rows : RowsSuit s.batch s.ledger s.batch.maskRow
    fun r v => v = r.maskRow s.batch.vocabSize
  quiet : s.batch.isPoolingModel = true → s.batch.allowedTokenIdsMask = none

namespace MaskInv
variable {b b' : InputBatch}

theorem maskRow_of_none (h : b.allowedTokenIdsMask = none) (i : ℕ) :
    b.maskRow i = clearMask b.vocabSize := by
  rw [maskRow, h]

theorem maskRow_congr (hmask : b'.allowedTokenIdsMask = b.allowedTokenIdsMask)
    (hvocab : b'.vocabSize = b.vocabSize) : b'.maskRow = b.maskRow := by
  funext i
  rw [maskRow, maskRow, hmask, hvocab]

theorem maskRow_map {f : (ℕ → List Bool) → ℕ → List Bool} {i j : ℕ}
    (hmask : b'.allowedTokenIdsMask = b.allowedTokenIdsMask.map f)
    (hvocab : b'.vocabSize = b.vocabSize)
    (hf : ∀ mask, b.allowedTokenIdsMask = some mask → f mask i = mask j) :
    b'.maskRow i = b.maskRow j := by
  rw [maskRow, maskRow, hmask, hvocab]
  cases hm : b.allowedTokenIdsMask with
  | none => rfl
  | some mask => exact hf mask hm

theorem maskRow_remove {id : RequestId} {i k : ℕ} (hr : RemovedAt b b' id i) (hk : k ≠ i) :
    b'.maskRow k = b.maskRow k := by
  have hmask := hr.mask
  split at hmask
  · rw [maskRow_congr hmask hr.setup.vocabSize]
  · exact maskRow_map hmask hr.setup.vocabSize fun mask _ => Function.update_of_ne hk _ _

theorem mask_add {outputs : Outputs} {r : CachedRequestState} {i n : ℕ}
    (ha : AddedAt outputs b b' r i n) : b'.allowedTokenIdsMask =
      r.samplingParams.elim b.allowedTokenIdsMask (b.storeMask i) := by
  rw [ha.eq]
  unfold storeRequest
  cases r.samplingParams <;> rfl

theorem maskRow_add {outputs : Outputs} {r : CachedRequestState} {i n k : ℕ}
    (ha : AddedAt outputs b b' r i n) :
    b'.maskRow k = if k = i ∧ r.params.allowedTokenIds.getD [] ≠ []
      then r.maskRow b.vocabSize else b.maskRow k := by
  have hvocab := ha.setup.vocabSize
  have hmask := mask_add ha
  rw [CachedRequestState.maskRow, CachedRequestState.params]
  cases hparams : r.samplingParams with
  | none =>
    rw [hparams] at hmask
    rw [maskRow_congr hmask hvocab]
    simp
  | some params =>
    rw [hparams, Option.elim_some] at hmask
    unfold storeMask at hmask
    rw [Option.getD_some]
    split at hmask
    · rename_i t ts hallowed
      rw [hallowed, maskRow, hmask]
      by_cases hk : k = i
      · simp [hk]
      · rw [if_neg fun h => hk h.1, maskRow]
        dsimp only
        rw [Function.update_of_ne hk]
        cases b.allowedTokenIdsMask <;> rfl
    · rename_i hnone
      rw [maskRow_congr hmask hvocab, if_neg]
      rintro ⟨-, hne⟩
      cases hallowed : params.allowedTokenIds with
      | none =>
        rw [hallowed] at hne
        exact hne rfl
      | some ids =>
        cases ids with
        | nil =>
          rw [hallowed] at hne
          exact hne rfl
        | cons t ts => exact hnone t ts hallowed

theorem maskRow_slide {id : RequestId} {last empty : ℕ} (hs : SlidAt b b' id last empty)
    (hquiet : b.isPoolingModel = true → b.allowedTokenIdsMask = none) :
    b'.maskRow empty = b.maskRow last ∧ ∀ k, k ≠ empty → b'.maskRow k = b.maskRow k := by
  have hmask := hs.mask
  have hvocab := hs.setup.vocabSize
  split at hmask
  · rename_i hp
    rw [maskRow_congr hmask hvocab]
    exact ⟨by rw [maskRow_of_none (hquiet hp), maskRow_of_none (hquiet hp)], fun k _ => rfl⟩
  · exact ⟨maskRow_map hmask hvocab fun mask _ => Function.update_self _ _ _,
      fun k hk => maskRow_map hmask hvocab fun mask _ => Function.update_of_ne hk _ _⟩

theorem maskRow_swap {id1 id2 : RequestId} {i1 i2 : ℕ} (hs : SwappedAt b b' id1 id2 i1 i2)
    (hsame : b.maskRow i1 = b.maskRow i2) (k : ℕ) :
    b'.maskRow k = b.maskRow (Equiv.swap i1 i2 k) := by
  have hmask := hs.mask
  have hvocab := hs.setup.vocabSize
  have hswap : b.maskRow (Equiv.swap i1 i2 k) = b.maskRow k := by
    by_cases h1 : k = i1
    · rw [h1, Equiv.swap_apply_left, hsame]
    · by_cases h2 : k = i2
      · rw [h2, Equiv.swap_apply_right, hsame]
      · rw [Equiv.swap_apply_of_ne_of_ne h1 h2]
  rw [hswap]
  split at hmask
  · rw [maskRow_congr hmask hvocab]
  · refine maskRow_map hmask hvocab fun mask hm => ?_
    rw [maskRow, maskRow, hm] at hsame
    dsimp only at hsame
    unfold assignViews
    simp only [Function.update_apply]
    by_cases h2 : k = i2
    · simp [h2]
    · by_cases h1 : k = i1
      · simp [h1, hsame]
      · simp [h1, h2]

theorem init (c : BatchConfig) (outputs : Outputs) : MaskInv (RunnerState.init c outputs) := by
  refine ⟨?_, fun _ => rfl⟩
  intro i id t hi
  exact absurd hi (by simp [RunnerState.init, BatchConfig.newBatch, owner])

/-- The loop of `condense`. -/
structure MaskLoop (s : RunnerState) (c : InputBatch) : Prop where
  rows : RowsSuit c s.ledger c.maskRow fun r v => v = r.maskRow s.batch.vocabSize
  quiet : c.isPoolingModel = true → c.allowedTokenIdsMask = none
  vocabSize : c.vocabSize = s.batch.vocabSize
  kind : c.isPoolingModel = s.batch.isPoolingModel

theorem condense {s : RunnerState} (hI : MaskInv s) (hopen : s.batch.Open)
    (hc : s.batch.condense = .ok b') : MaskLoop s b' := by
  have hstart : MaskLoop s s.batch.sortRemoved := ⟨hI.rows, hI.quiet, rfl, rfl⟩
  refine condense_slides_rule (P := MaskLoop s) (Q := MaskLoop s) hopen hc (fun _ => hstart)
    hstart ?_ ?_
  · intro c c' id builder last empty hsliding _ _ hlt _ _ hP hs
    have hbound := hsliding.bound
    obtain ⟨hempty, hother⟩ := maskRow_slide hs hP.quiet
    refine ⟨?_, ?_, hs.setup.vocabSize.trans hP.vocabSize, hs.setup.isPoolingModel.trans hP.kind⟩
    · refine RowsSuit.slide (S := c.maskRow) (b := { c with batchUpdateBuilder := builder })
        hP.rows hs (show empty < c.reqIds.length by omega) ?_ fun k _ hke => hother k hke
      intro t _ hsuits
      rw [hempty]
      exact hsuits
    · intro hp
      have hold := hs.setup.isPoolingModel.symm.trans hp
      have hmask := hs.mask
      rw [hold, if_pos rfl] at hmask
      exact hmask.trans (hP.quiet hold)
  · intro c hsettled hP
    refine ⟨?_, hP.quiet, hP.vocabSize, hP.kind⟩
    intro i id t hi ht
    rw [hsettled.owner_trimLists] at hi
    exact hP.rows i id t hi ht

theorem same {s s' : RunnerState} (hI : MaskInv s) (howner : s'.batch.owner = s.batch.owner)
    (hmask : s'.batch.allowedTokenIdsMask = s.batch.allowedTokenIdsMask)
    (hvocab : s'.batch.vocabSize = s.batch.vocabSize)
    (hkind : s'.batch.isPoolingModel = s.batch.isPoolingModel)
    (hledger : ∀ id t', s'.ledger id = some t' →
      ∃ t, s.ledger id = some t ∧ t.request = t'.request) : MaskInv s' := by
  refine ⟨?_, fun hp => hmask.trans (hI.quiet (hkind.symm.trans hp))⟩
  rw [hvocab]
  exact hI.rows.same howner hledger (maskRow_congr hmask hvocab)

theorem step {s s' : RunnerState} {e : Event} (hI : MaskInv s) (hok : maskStep s e)
    (ht : Transition s e s') : MaskInv s' := by
  cases ht with
  | absent hphase habsent => exact ⟨hI.rows.absent, hI.quiet⟩
  | remove hphase hopen howner hr =>
    refine ⟨?_, fun hp => ?_⟩
    · dsimp only
      rw [hr.setup.vocabSize]
      exact hI.rows.remove howner hr fun k hk => maskRow_remove hr hk
    · have hold := hr.setup.isPoolingModel.symm.trans hp
      have hmask := hr.mask
      rw [hold, if_pos rfl] at hmask
      exact hmask.trans (hI.quiet hold)
  | add hphase hopen ha hnew hkind =>
    rename_i r i n b'
    refine ⟨?_, fun hp => ?_⟩
    · dsimp only
      rw [ha.setup.vocabSize]
      refine hI.rows.add hopen ha hnew ?_ fun k hk => ?_
      · rw [maskRow_add ha]
        split
        · rfl
        · rename_i hno
          have hnone : r.params.allowedTokenIds.getD [] = [] := by
            by_contra hne
            exact hno ⟨rfl, hne⟩
          have hclear : r.maskRow s.batch.vocabSize = clearMask s.batch.vocabSize := by
            rw [CachedRequestState.maskRow]
            split
            · rename_i t ts hallowed
              rw [hallowed] at hnone
              exact absurd hnone (by simp)
            · rfl
          rw [hclear, ← ha.nextRow_eq]
          exact hok.resolve_left (not_not.mpr hnone)
      · rw [maskRow_add ha, if_neg fun h => hk h.1]
    · have hold := ha.setup.isPoolingModel.symm.trans hp
      have hmask := mask_add ha
      have hnone : r.samplingParams = none := by
        rw [hold] at hkind
        exact Option.not_isSome_iff_eq_none.mp (by simp [hkind])
      rw [hnone] at hmask
      exact hmask.trans (hI.quiet hold)
  | condense hphase hopen hc =>
    have hP := hI.condense hopen hc
    refine ⟨?_, hP.quiet⟩
    dsimp only
    rw [hP.vocabSize]
    exact hP.rows
  | swap hphase hdense hs =>
    refine ⟨?_, fun hp => ?_⟩
    · dsimp only
      rw [hs.setup.vocabSize]
      exact hI.rows.swap hs (maskRow_swap hs hok)
    · have hold := hs.setup.isPoolingModel.symm.trans hp
      have hmask := hs.mask
      rw [hold, if_pos rfl] at hmask
      exact hmask.trans (hI.quiet hold)
  | refresh hphase hdense =>
    obtain ⟨_, _, _, _, heq, -⟩ := s.batch.refreshMetadata_eq s.outputs
    refine hI.same (OriginInv.owner_refreshMetadata s.outputs s.batch) ?_ ?_ ?_
      fun id t ht => ⟨t, ht, rfl⟩
    · dsimp only
      rw [heq]
    · dsimp only
      rw [heq]
    · dsimp only
      rw [heq]
  | write howner hw =>
    exact hI.same hw.owner_eq hw.mask hw.setup.vocabSize hw.setup.isPoolingModel
      fun id t ht => written_request ht
  | setOutput => exact hI.same rfl rfl rfl rfl fun id t ht => ⟨t, ht, rfl⟩

end MaskInv

theorem Reachable.maskInv {c : BatchConfig} {s : RunnerState} (h : Reachable c maskStep s) :
    MaskInv s :=
  h.rule (MaskInv.init c) fun _ _ _ _ _ _ hok hI ht => hI.step hok ht

/-- In every state of a run of such steps the mask of each row is the mask of its request; as long
as the tensor is not allocated no request has allowed tokens. -/
theorem Reachable.masks_follow {c : BatchConfig} {s : RunnerState} (h : Reachable c maskStep s)
    {i : ℕ} {id : RequestId} (howner : s.batch.owner i = some id) :
    ∃ t, s.ledger id = some t ∧ s.batch.maskRow i = t.request.maskRow s.batch.vocabSize := by
  obtain ⟨t, ht, -⟩ := h.runInv.follows.shows i id howner
  exact ⟨t, ht, h.maskInv.rows i id t howner ht⟩

/-- A request with allowed tokens slides into the row of one without, and moves no more. -/
def maskedRequests : List Event :=
  [.add (sampledRequest 1 [7] {}), .add (sampledRequest 2 [5] {}),
    .add (sampledRequest 3 [4] { allowedTokenIds := some [0, 2] }), .condense, .swap 0 1, .refresh,
    .remove 2, .condense]

theorem masks_follow_maskedRequests :
    ∃ s, Reachable smallBatch maskStep s ∧ s.batch.owner 0 = some 3 ∧
      ∃ t, s.ledger 3 = some t ∧ s.batch.maskRow 0 = t.request.maskRow s.batch.vocabSize ∧
        t.request.maskRow s.batch.vocabSize =
          [false, true, false, true, true, true, true, true, true, true] := by
  obtain ⟨s, hrun, hfacts⟩ := Raises.exists_ok
    (show (((RunnerState.init smallBatch fun _ => []).run maskStep maskedRequests).toOption.map
      fun s => (decide (s.batch.owner 0 = some 3 ∧ s.batch.maskRow 0 =
        [false, true, false, true, true, true, true, true, true, true]))) =
        some true by decide +kernel)
  obtain ⟨howner, hmask⟩ := of_decide_eq_true hfacts
  have hreach : Reachable smallBatch maskStep s := (Reachable.init _).run hrun
  obtain ⟨t, ht, hfollow⟩ := hreach.masks_follow howner
  exact ⟨s, hreach, howner, t, ht, hfollow, hfollow.symm.trans hmask⟩

/-- Requests with different masks are exchanged. -/
def maskSwap : List Event :=
  [.add (sampledRequest 1 [7] { allowedTokenIds := some [0] }), .add (sampledRequest 2 [5] {}),
    .condense, .swap 0 1]

/-- A request without allowed tokens gets the row that `condense` has moved another one from. -/
def maskLeft : List Event :=
  [.add (sampledRequest 1 [7] {}), .add (sampledRequest 2 [5] { allowedTokenIds := some [0] }),
    .condense, .refresh, .remove 1, .condense, .refresh, .add (sampledRequest 3 [4] {}), .condense]

theorem exists_masks_not_follow :
    (∃ s, Reachable smallBatch anyStep s ∧ s.phase = .condensed ∧ s.batch.owner 1 = some 1 ∧
      ¬∃ t, s.ledger 1 = some t ∧ s.batch.maskRow 1 = t.request.maskRow s.batch.vocabSize) ∧
    ∃ s, Reachable smallBatch anyStep s ∧ s.phase = .condensed ∧ s.batch.owner 1 = some 3 ∧
      ¬∃ t, s.ledger 3 = some t ∧ s.batch.maskRow 1 = t.request.maskRow s.batch.vocabSize := by
  constructor
  · obtain ⟨s, hrun, hfacts⟩ := Raises.exists_ok
      (show (((RunnerState.init smallBatch fun _ => []).run anyStep maskSwap).toOption.map
        fun s => (decide (s.phase = .condensed ∧ s.batch.owner 1 = some 1 ∧
          s.batch.maskRow 1 = clearMask 10 ∧ s.batch.vocabSize = 10 ∧
          (s.ledger 1).map (·.request) =
            some (sampledRequest 1 [7] { allowedTokenIds := some [0] })))) =
          some true by decide +kernel)
    obtain ⟨hphase, howner, hmask, hvocab, hledger⟩ := of_decide_eq_true hfacts
    refine ⟨s, (Reachable.init _).run hrun, hphase, howner, ?_⟩
    rintro ⟨t, ht, hfollow⟩
    rw [ht, Option.map_some, Option.some.injEq] at hledger
    rw [hmask, hvocab, hledger] at hfollow
    exact absurd hfollow (by decide)
  · obtain ⟨s, hrun, hfacts⟩ := Raises.exists_ok
      (show (((RunnerState.init smallBatch fun _ => []).run anyStep maskLeft).toOption.map
        fun s => (decide (s.phase = .condensed ∧ s.batch.owner 1 = some 3 ∧
          s.batch.maskRow 1 = allowedMask 10 [0] ∧ s.batch.vocabSize = 10 ∧
          (s.ledger 3).map (·.request) = some (sampledRequest 3 [4] {})))) =
          some true by decide +kernel)
    obtain ⟨hphase, howner, hmask, hvocab, hledger⟩ := of_decide_eq_true hfacts
    refine ⟨s, (Reachable.init _).run hrun, hphase, howner, ?_⟩
    rintro ⟨t, ht, hfollow⟩
    rw [ht, Option.map_some, Option.some.injEq] at hledger
    rw [hmask, hvocab, hledger] at hfollow
    exact absurd hfollow (by decide)

end Vllm.Worker
