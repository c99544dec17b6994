import Vllm.Worker.LogitsProcs

/-! The logits processors apply the records of a step one kind after the other: what they keep
per row is what `SlotUpdate.applyRecords` makes of it, and the min-p processor counts its
non-zero rows. -/
namespace Vllm.Worker
open SlotUpdate Function Float32 List

section Dicts
variable {T : Type}

/-- The added records as contents for the rows they fill. -/
def filledBy {α : Type} (new : AddedRequest → α) (added : List AddedRequest) : List (ℕ × α) :=
  added.map fun a => (a.index, new a)

theorem addDictStep_get? (newState : AddedRequest → Option T) (s : Bool × Dict ℕ T)
    (a : AddedRequest) :
    (addDictStep newState s a).2.get? = update s.2.get? a.index (newState a) := by
  funext k
  unfold addDictStep
  cases newState a with
  | some state | none => simp [update_apply]

theorem foldl_addDictStep (newState : AddedRequest → Option T) (added : List AddedRequest)
    (s : Bool × Dict ℕ T) :
    (added.foldl (addDictStep newState) s).2.get? = fill s.2.get? (filledBy newState added) := by
  induction added generalizing s with
  | nil => rfl
  | cons a added ih =>
    rw [foldl_cons, ih, addDictStep_get?]
    rfl

theorem foldl_removeDictStep (removed : List ℕ) (s : Bool × Dict ℕ T) :
    (removed.foldl removeDictStep s).2.get? = clear none s.2.get? removed := by
  induction removed generalizing s with
  | nil =>
    funext k
    simp [clear]
  | cons i removed ih =>
    rw [foldl_cons, ih]
    funext k
    simp only [clear, removeDictStep, Dict.get?_erase, mem_cons]
    by_cases hr : k ∈ removed
    · simp [hr]
    · by_cases hk : k = i <;> simp [hr, hk]

/-- A move takes a row's content elsewhere, except for exchanges. -/
def Proper (m : SlotUpdate.Moved) : Prop := m.2.2 = .unidirectional → m.1 ≠ m.2.1

theorem moveDictStep_get? (s : Bool × Dict ℕ T) {m : SlotUpdate.Moved} (hm : Proper m) :
    (moveDictStep s m).2.get? = move none s.2.get? m := by
  obtain ⟨a, b, direct⟩ := m
  funext k
  unfold moveDictStep
  cases direct with
  | unidirectional =>
    have hab : a ≠ b := hm rfl
    cases ha : s.2.get? a <;> cases hb : (s.2.erase a).get? b <;>
      by_cases hka : k = a <;> by_cases hkb : k = b <;>
      simp_all [move]
  | swap =>
    rw [move, RowArray.swapRow]
    by_cases hab : a = b
    · subst hab
      cases ha : s.2.get? a <;> by_cases hka : k = a <;> simp_all
    · cases ha : s.2.get? a <;> cases hb : s.2.get? b <;>
        by_cases hka : k = a <;> by_cases hkb : k = b <;>
        simp_all [Ne.symm hab]

theorem foldl_moveDictStep {moved : List SlotUpdate.Moved} (hm : ∀ m ∈ moved, Proper m)
    (s : Bool × Dict ℕ T) :
    (moved.foldl moveDictStep s).2.get? = applyMoves none s.2.get? moved := by
  induction moved generalizing s with
  | nil => rfl
  | cons m moved ih =>
    rw [foldl_cons, ih fun m' hm' => hm m' (mem_cons_of_mem m hm'),
      moveDictStep_get? s (hm m mem_cons_self)]
    rfl

theorem processDictUpdates_get? (reqEntries : Dict ℕ T) (u : BatchUpdate)
    (newState : AddedRequest → Option T) (hm : ∀ m ∈ u.moved, Proper m) :
    (processDictUpdates reqEntries (some u) newState).2.get? =
      applyRecords none reqEntries.get? (filledBy newState u.added) u.removed u.moved := by
  rw [applyRecords, ← foldl_addDictStep newState u.added (false, reqEntries), processDictUpdates]
  split
  · rename_i hempty
    have hnone : (u.added.foldl (addDictStep newState) (false, reqEntries)).2.get? =
        fun _ => none := funext ((Dict.isEmpty_iff _).mp hempty)
    rw [hnone, applyMoves_clear_const]
  · rw [foldl_moveDictStep hm, foldl_removeDictStep]

end Dicts

namespace MinPLogitsProcessor

/-- The count is the number of rows that hold a non-zero value. -/
def CountsRows (p : MinPLogitsProcessor) : Prop :=
  ∃ F : Finset ℕ, (∀ i, i ∈ F ↔ p.minPCpu i ≠ 0) ∧ p.minPCount = F.card

theorem exists_support_update {S : ℕ → ℚ} {F : Finset ℕ} (hF : ∀ i, i ∈ F ↔ S i ≠ 0) (i : ℕ)
    (v : ℚ) : ∃ F' : Finset ℕ, (∀ k, k ∈ F' ↔ update S i v k ≠ 0) ∧
      (F'.card : ℤ) = F.card + (if v ≠ 0 then 1 else 0) - (if S i ≠ 0 then 1 else 0) := by
  by_cases hv : v = 0
  · refine ⟨F.erase i, ?_, ?_⟩
    · intro k
      rw [Finset.mem_erase, hF, update_apply]
      split <;> simp_all
    · rw [if_neg (not_not.mpr hv)]
      by_cases hi : S i = 0
      · rw [Finset.erase_eq_of_notMem (by rw [hF]; exact not_not.mpr hi), if_neg (not_not.mpr hi)]
        omega
      · have hmem : i ∈ F := (hF i).mpr hi
        have hcard := Finset.card_erase_add_one hmem
        rw [if_pos hi]
        omega
  · refine ⟨insert i F, ?_, ?_⟩
    · intro k
      rw [Finset.mem_insert, hF, update_apply]
      split <;> simp_all
    · rw [if_pos hv]
      by_cases hi : S i = 0
      · rw [Finset.card_insert_of_notMem (by rw [hF]; exact not_not.mpr hi),
          if_neg (not_not.mpr hi)]
        push_cast
        omega
      · have hmem : i ∈ F := (hF i).mpr hi
        rw [Finset.insert_eq_of_mem hmem, if_pos hi]
        omega

theorem addStep_minPCpu (s : MinPLogitsProcessor × Bool) (a : AddedRequest) :
    (addStep s a).1.minPCpu =
      update s.1.minPCpu a.index (ofRat a.params.minP) := by
  unfold addStep
  dsimp only
  split
  · rfl
  · rename_i hsame
    rw [← not_not.mp hsame, update_eq_self]

variable {s : MinPLogitsProcessor × Bool} {p : MinPLogitsProcessor}

theorem addStep_countsRows {a : AddedRequest} (hs : s.1.CountsRows)
    (ha : ofRat a.params.minP = 0 → a.params.minP = 0) :
    (addStep s a).1.CountsRows := by
  obtain ⟨F, hF, hcount⟩ := hs
  unfold addStep
  dsimp only
  split
  · obtain ⟨F', hF', hcard⟩ := exists_support_update hF a.index (ofRat a.params.minP)
    refine ⟨F', hF', ?_⟩
    rw [hcard, hcount]
    by_cases hnew : a.params.minP = 0
    · by_cases hold : s.1.minPCpu a.index = 0 <;> simp [hnew, hold, ofRat_zero]
    · have hne : ofRat a.params.minP ≠ 0 := fun h => hnew (ha h)
      by_cases hold : s.1.minPCpu a.index = 0 <;> simp [hnew, hne, hold]
  · exact ⟨F, hF, hcount⟩

theorem removeStep_minPCpu (p : MinPLogitsProcessor) (i : ℕ) :
    (removeStep p i).minPCpu = update p.minPCpu i 0 := by
  unfold removeStep
  split
  · rfl
  · rename_i hzero
    rw [← not_not.mp hzero, update_eq_self]

theorem removeStep_countsRows (hp : p.CountsRows) (i : ℕ) : (removeStep p i).CountsRows := by
  obtain ⟨F, hF, hcount⟩ := hp
  unfold removeStep
  split
  · rename_i hi
    obtain ⟨F', hF', hcard⟩ := exists_support_update hF i 0
    refine ⟨F', hF', ?_⟩
    rw [hcard, hcount, if_pos hi]
    simp
  · exact ⟨F, hF, hcount⟩

theorem moveStep_minPCpu (s : MinPLogitsProcessor × Bool) (m : SlotUpdate.Moved) :
    (moveStep s m).1.minPCpu = move 0 s.1.minPCpu m := by
  obtain ⟨a, b, direct⟩ := m
  funext k
  unfold moveStep
  cases direct with
  | unidirectional =>
    by_cases ha : s.1.minPCpu a = 0 <;> by_cases hab : s.1.minPCpu a = s.1.minPCpu b <;>
      by_cases hka : k = a <;> by_cases hkb : k = b <;> simp_all [move]
  | swap =>
    rw [move, RowArray.swapRow]
    by_cases hab : s.1.minPCpu a = s.1.minPCpu b <;> by_cases hka : k = a <;>
      by_cases hkb : k = b <;> by_cases he : a = b <;> simp_all

theorem moveStep_countsRows {m : SlotUpdate.Moved} (hs : s.1.CountsRows) (hm : Proper m) :
    (moveStep s m).1.CountsRows := by
  obtain ⟨F, hF, hcount⟩ := hs
  have hcpu := moveStep_minPCpu s m
  obtain ⟨a, b, direct⟩ := m
  obtain ⟨F1, hF1, hcard1⟩ := exists_support_update hF b (s.1.minPCpu a)
  cases direct with
  | unidirectional =>
    have hab : a ≠ b := hm rfl
    obtain ⟨F2, hF2, hcard2⟩ := exists_support_update hF1 a 0
    refine ⟨F2, fun k => by rw [hcpu]; exact hF2 k, ?_⟩
    rw [update_of_ne hab] at hcard2
    have hcnt : (moveStep s (a, b, .unidirectional)).1.minPCount =
        if s.1.minPCpu b ≠ 0 then s.1.minPCount - 1 else s.1.minPCount := rfl
    rw [hcnt, hcard2, hcard1, hcount, if_neg (not_not.mpr rfl)]
    split <;> ring
  | swap =>
    have hcnt : (moveStep s (a, b, .swap)).1.minPCount = s.1.minPCount := rfl
    by_cases hab : a = b
    · subst hab
      refine ⟨F, fun k => ?_, by rw [hcnt, hcount]⟩
      rw [hcpu, move, RowArray.swapRow_apply, Equiv.swap_self]
      exact hF k
    · obtain ⟨F2, hF2, hcard2⟩ := exists_support_update hF1 a (s.1.minPCpu b)
      refine ⟨F2, fun k => ?_, ?_⟩
      · rw [hcpu, move, RowArray.swapRow, update_comm hab]
        exact hF2 k
      · rw [update_of_ne hab] at hcard2
        rw [hcnt, hcount, hcard2, hcard1]
        ring

section Folds
variable {added : List AddedRequest} {moved : List SlotUpdate.Moved}

variable {s : MinPLogitsProcessor × Bool}

theorem foldl_addStep (hs : s.1.CountsRows)
    (hadd : ∀ a ∈ added, ofRat a.params.minP = 0 → a.params.minP = 0) :
    (added.foldl addStep s).1.minPCpu =
        fill s.1.minPCpu (filledBy (fun a => ofRat a.params.minP) added) ∧
      (added.foldl addStep s).1.CountsRows := by
  induction added generalizing s with
  | nil => exact ⟨rfl, hs⟩
  | cons a added ih =>
    obtain ⟨hcpu, hcounts⟩ := ih (addStep_countsRows hs (hadd a mem_cons_self))
      fun a' ha' => hadd a' (mem_cons_of_mem a ha')
    refine ⟨?_, hcounts⟩
    rw [foldl_cons, hcpu, addStep_minPCpu]
    rfl

theorem foldl_removeStep (removed : List ℕ) {p : MinPLogitsProcessor} (hp : p.CountsRows) :
    (removed.foldl removeStep p).minPCpu = clear 0 p.minPCpu removed ∧
      (removed.foldl removeStep p).CountsRows := by
  induction removed generalizing p with
  | nil =>
    refine ⟨?_, hp⟩
    funext k
    simp [clear]
  | cons i removed ih =>
    obtain ⟨hcpu, hcounts⟩ := ih (removeStep_countsRows hp i)
    refine ⟨?_, hcounts⟩
    rw [foldl_cons, hcpu, removeStep_minPCpu]
    funext k
    by_cases hr : k ∈ removed
    · simp [clear, hr]
    · by_cases hk : k = i <;> simp [clear, hr, hk]

theorem foldl_moveStep (hs : s.1.CountsRows) (hm : ∀ m ∈ moved, Proper m) :
    (moved.foldl moveStep s).1.minPCpu = applyMoves 0 s.1.minPCpu moved ∧
      (moved.foldl moveStep s).1.CountsRows := by
  induction moved generalizing s with
  | nil => exact ⟨rfl, hs⟩
  | cons m moved ih =>
    obtain ⟨hcpu, hcounts⟩ := ih (moveStep_countsRows hs (hm m mem_cons_self))
      fun m' hm' => hm m' (mem_cons_of_mem m hm')
    refine ⟨?_, hcounts⟩
    rw [foldl_cons, hcpu, moveStep_minPCpu]
    rfl

end Folds

theorem updateState_spec (hp : p.CountsRows) (u : BatchUpdate)
    (hadd : ∀ a ∈ u.added, ofRat a.params.minP = 0 → a.params.minP = 0)
    (hm : ∀ m ∈ u.moved, Proper m) :
    (p.updateState (some u)).minPCpu = applyRecords 0 p.minPCpu
        (filledBy (fun a => ofRat a.params.minP) u.added) u.removed u.moved ∧
      (p.updateState (some u)).CountsRows := by
  obtain ⟨hfill, hcounts⟩ := foldl_addStep (s := (p, false)) hp hadd
  have hcopy : ∀ q : MinPLogitsProcessor, ∀ c : Prop, ∀ _ : Decidable c, ∀ values : List ℚ,
      (if c then { q with minP := values } else q).minPCpu = q.minPCpu ∧
        ((if c then { q with minP := values } else q).CountsRows ↔ q.CountsRows) := by
    intro q c _ values
    split
    · exact ⟨rfl, Iff.rfl⟩
    · exact ⟨rfl, Iff.rfl⟩
  unfold updateState
  dsimp only
  rw [(hcopy _ _ _ _).1, (hcopy _ _ _ _).2, applyRecords, ← hfill]
  split
  · obtain ⟨hclear, hcounts1⟩ := foldl_removeStep u.removed hcounts
    rw [← hclear]
    exact foldl_moveStep (s := (_, _)) hcounts1 hm
  · rename_i hzero
    refine ⟨?_, hcounts⟩
    obtain ⟨F, hF, hcount⟩ := hcounts
    have hnone : (u.added.foldl addStep (p, false)).1.minPCpu = fun _ => 0 := by
      funext k
      by_contra hk
      have hpos := Finset.card_pos.mpr ⟨k, (hF k).mpr hk⟩
      rw [hcount] at hzero
      omega
    rw [hnone, applyMoves_clear_const]

end MinPLogitsProcessor

namespace MinTokensLogitsProcessor

theorem get?_dropAttained (outputs : Outputs) (minToks : Dict ℕ MinTokensEntry) (i : ℕ) :
    (dropAttained outputs minToks).get? i =
      (minToks.get? i).filter fun e => (outputs e.outTokIds).length < e.minTokens := by
  ext e
  rw [← Dict.mem_entries_iff, dropAttained, mem_filter, Dict.mem_entries_iff,
    Option.filter_eq_some_iff]

end MinTokensLogitsProcessor

/-- The records that a step hands over, if there are any. -/
def HandedOver (batchUpdate : Option BatchUpdate) (builder : BatchUpdateBuilder) : Prop :=
  batchUpdate = none ∧ builder.removed = [] ∧ builder.added = [] ∧ builder.moved = [] ∨
    ∃ n, batchUpdate = some
      { batchSize := n, removed := builder.removed, added := builder.added, moved := builder.moved }

/-- The records of a step applied to what is kept per row. -/
def BatchUpdateBuilder.applied {α : Type} (builder : BatchUpdateBuilder) (d : α) (S : ℕ → α)
    (new : AddedRequest → α) : ℕ → α :=
  applyRecords d S (filledBy new builder.added) builder.removed builder.moved

variable {builder : BatchUpdateBuilder}

theorem BatchUpdateBuilder.applied_nil {α : Type} (hremoved : builder.removed = [])
    (hadded : builder.added = []) (hmoved : builder.moved = []) (d : α) (S : ℕ → α)
    (new : AddedRequest → α) : builder.applied d S new = S := by
  rw [applied, hremoved, hadded, hmoved]
  funext k
  simp [applyRecords, applyMoves, clear, fill, filledBy]

variable {batchUpdate : Option BatchUpdate}

theorem processDictUpdates_handedOver {T : Type} (h : HandedOver batchUpdate builder)
    (hm : ∀ m ∈ builder.moved, Proper m) (reqEntries : Dict ℕ T)
    (newState : AddedRequest → Option T) :
    (processDictUpdates reqEntries batchUpdate newState).2.get? =
      builder.applied none reqEntries.get? newState := by
  rcases h with ⟨rfl, hremoved, hadded, hmoved⟩ | ⟨n, rfl⟩
  · rw [BatchUpdateBuilder.applied_nil hremoved hadded hmoved]
    rfl
  · exact processDictUpdates_get? reqEntries _ newState hm

/-- All processors apply the records of the step; the min-tokens processor then drops the
entries of requests that have attained their minimum. -/
theorem LogitsProcessors.updateState_spec {p : LogitsProcessors} (outputs : Outputs)
    (h : HandedOver batchUpdate builder) (hm : ∀ m ∈ builder.moved, Proper m)
    (hp : p.minP.CountsRows)
    (hadd : ∀ a ∈ builder.added, ofRat a.params.minP = 0 → a.params.minP = 0) :
    (p.updateState outputs batchUpdate).minP.CountsRows ∧
    (p.updateState outputs batchUpdate).minP.minPCpu =
      builder.applied 0 p.minP.minPCpu (fun a => ofRat a.params.minP) ∧
    (p.updateState outputs batchUpdate).logitBias.biases.get? =
      builder.applied none p.logitBias.biases.get? LogitBiasLogitsProcessor.newState ∧
    ∀ i, (p.updateState outputs batchUpdate).minTokens.minToks.get? i =
      (builder.applied none p.minTokens.minToks.get?
        (MinTokensLogitsProcessor.addRequest outputs) i).filter
          fun e => (outputs e.outTokIds).length < e.minTokens := by
  have hminP : (p.minP.updateState batchUpdate).CountsRows ∧
      (p.minP.updateState batchUpdate).minPCpu =
        builder.applied 0 p.minP.minPCpu (fun a => ofRat a.params.minP) := by
    rcases h with ⟨rfl, hremoved, hadded, hmoved⟩ | ⟨n, rfl⟩
    · rw [BatchUpdateBuilder.applied_nil hremoved hadded hmoved]
      exact ⟨hp, rfl⟩
    · exact (MinPLogitsProcessor.updateState_spec hp _ hadd hm).symm
  refine ⟨hminP.1, hminP.2, ?_, ?_⟩
  · rw [← processDictUpdates_handedOver h hm]
    unfold updateState LogitBiasLogitsProcessor.updateState
    dsimp only
    split <;> rfl
  · intro i
    rw [← processDictUpdates_handedOver h hm, ← MinTokensLogitsProcessor.get?_dropAttained]
    unfold updateState MinTokensLogitsProcessor.updateState
    dsimp only
    split <;> rfl

end Vllm.Worker
