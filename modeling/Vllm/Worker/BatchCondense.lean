import Vllm.Worker.BatchIndex

/-! `condense` and `swap_states` on the level of ids: the loop moves the last requests into the
lowest vacated rows until no hole is left, and exchanging two rows keeps the batch dense. -/
namespace Vllm.Worker
open Function RowArray List

theorem countP_le_succ (l : List ℕ) (n : ℕ) :
    l.countP (· ≤ n + 1) = l.countP (· ≤ n) + l.count (n + 1) := by
  induction l with
  | nil => rfl
  | cons a l ih =>
    rw [countP_cons, countP_cons, count_cons, ih]
    by_cases h1 : a = n + 1
    · subst h1
      simp
      omega
    · by_cases h2 : a ≤ n
      · have h3 : a ≤ n + 1 := by omega
        simp only [decide_eq_true_eq, beq_iff_eq, if_pos h2, if_pos h3, if_neg h1]
        omega
      · have h3 : ¬ a ≤ n + 1 := by omega
        simp only [decide_eq_true_eq, beq_iff_eq, if_neg h2, if_neg h3, if_neg h1]
        omega

namespace InputBatch
variable {b b' : InputBatch}

/-- The batch inside the loop of `condense`: no request is above row `last`, and the holes up
to there are among the rows still to be filled. -/
structure Sliding (b : InputBatch) (last : ℕ) : Prop extends Indexed b where
  bound : last < b.reqIds.length
  free : ∀ i ∈ b.batchUpdateBuilder.removed, b.owner i = none
  hole : ∀ i ≤ last, b.owner i = none → i ∈ b.batchUpdateBuilder.removed
  above : ∀ i, last < i → b.owner i = none
  count : b.numReqs + b.batchUpdateBuilder.removed.countP (· ≤ last) = last + 1

/-- The loop is done: the requests are exactly in the first rows. -/
structure Settled (b : InputBatch) : Prop extends Indexed b where
  bound : b.numReqs ≤ b.reqIds.length
  filled : ∀ i < b.numReqs, ∃ id, b.owner i = some id
  above : ∀ i, b.numReqs ≤ i → b.owner i = none
  removed : ∀ i ∈ b.batchUpdateBuilder.removed, b.numReqs ≤ i

namespace Sliding
variable {last : ℕ}

theorem lower (h : Sliding b (last + 1)) (hmem : last + 1 ∈ b.batchUpdateBuilder.removed) :
    Sliding b last := by
  refine ⟨h.toIndexed, by have := h.bound; omega, h.free, ?_, ?_, ?_⟩
  · intro i hi
    exact h.hole i (by omega)
  · intro i hi
    by_cases heq : i = last + 1
    · subst heq
      exact h.free _ hmem
    · exact h.above i (by omega)
  · have hcount := h.count
    rw [countP_le_succ, count_eq_one_of_mem h.sorted.nodup hmem] at hcount
    omega

theorem lastFilled_some {l : ℕ} (h : Sliding b last)
    (hl : lastFilled b.batchUpdateBuilder.removed last = some l) :
    Sliding b l ∧ l ≤ last ∧ l ∉ b.batchUpdateBuilder.removed := by
  induction last with
  | zero =>
    unfold lastFilled at hl
    split at hl
    · exact absurd hl (by simp)
    · rename_i hnot
      cases hl
      exact ⟨h, le_rfl, hnot⟩
  | succ last ih =>
    unfold lastFilled at hl
    split at hl
    · rename_i hmem
      obtain ⟨hs, hle, hnot⟩ := ih (h.lower hmem) hl
      exact ⟨hs, by omega, hnot⟩
    · rename_i hnot
      cases hl
      exact ⟨h, le_rfl, hnot⟩

theorem lastFilled_none (h : Sliding b last)
    (hl : lastFilled b.batchUpdateBuilder.removed last = none) : b.numReqs = 0 := by
  induction last with
  | zero =>
    unfold lastFilled at hl
    split at hl
    · rename_i hmem
      have hpos : 0 < b.batchUpdateBuilder.removed.countP (· ≤ 0) :=
        countP_pos_iff.mpr ⟨0, hmem, by simp⟩
      have := h.count
      omega
    · exact absurd hl (by simp)
  | succ last ih =>
    unfold lastFilled at hl
    split at hl
    · rename_i hmem
      exact ih (h.lower hmem) hl
    · exact absurd hl (by simp)

/-- No row up to `last` is left to be filled. -/
theorem settled (h : Sliding b last) (hr : ∀ i ∈ b.batchUpdateBuilder.removed, last < i) :
    Settled b := by
  have hzero : b.batchUpdateBuilder.removed.countP (· ≤ last) = 0 := by
    rw [countP_eq_zero]
    intro i hi
    have := hr i hi
    simpa using this
  have hcount := h.count
  rw [hzero] at hcount
  have hbound := h.bound
  refine ⟨h.toIndexed, by omega, ?_, ?_, ?_⟩
  · intro i hi
    cases howner : b.owner i with
    | some id => exact ⟨id, rfl⟩
    | none =>
      have := hr i (h.hole i (by omega) howner)
      omega
  · intro i hi
    exact h.above i (by omega)
  · intro i hi
    have := hr i hi
    omega

end Sliding

section Slide
variable {id : RequestId} {last empty : ℕ}

section
variable (h : SlidAt b b' id last empty)
include h

theorem SlidAt.owner_eq (hlt : empty < b.reqIds.length) :
    b'.owner = update (update b.owner empty (some id)) last none := by
  have hlast := (List.getElem?_eq_some_iff.mp h.owned).1
  funext k
  rw [owner, h.reqIds, join_getElem?_set _ none (by simpa using hlast)]
  congr 1
  funext j
  exact join_getElem?_set _ _ hlt j

theorem SlidAt.numReqs_eq (hb : b.Indexed) : b'.numReqs = b.numReqs := by
  rw [numReqs, h.reqIdToIndex, Dict.size_set, if_pos (hb.contains (owner_eq_some.mpr h.owned)),
    numReqs]

theorem SlidAt.removed_eq :
    b'.batchUpdateBuilder.removed = b.batchUpdateBuilder.removed ∧
      (b.batchUpdateBuilder.Sorted → b'.batchUpdateBuilder.Sorted) := by
  rw [h.builder]
  split
  · exact ⟨rfl, fun hs => hs⟩
  · exact ⟨rfl, fun hs => ⟨hs.nodup, hs.descending⟩⟩

theorem SlidAt.keepsIndexed (hb : b.Indexed) (hne : empty ≠ last) (hlt : empty < b.reqIds.length)
    (hfree : b.owner empty = none) :
    b'.Indexed := by
  have hown := h.owner_eq hlt
  have howned : b.owner last = some id := owner_eq_some.mpr h.owned
  refine ⟨?_, ?_, ?_, ?_, h.removed_eq.2 hb.sorted⟩
  · rw [h.outputLists, h.reqIds]
    simpa using hb.lenOutputs
  · rw [h.spec, h.reqIds]
    simpa using hb.lenSpec
  · intro id' k
    rw [h.reqIdToIndex, hown, Dict.get?_set]
    by_cases hid : id' = id
    · subst hid
      simp only [↓reduceIte, Option.some.injEq]
      by_cases hk : k = last
      · subst hk
        simp [hne]
      · rw [update_of_ne hk]
        by_cases hke : k = empty
        · subst hke
          simp
        · rw [update_of_ne hke]
          refine iff_of_false (Ne.symm hke) fun hcontra => hk ?_
          exact hb.owner_inj hcontra howned
    · rw [if_neg hid, hb.index]
      by_cases hk : k = last
      · subst hk
        rw [howned, update_self]
        simp [Ne.symm hid]
      · rw [update_of_ne hk]
        by_cases hke : k = empty
        · subst hke
          rw [update_self, hfree]
          simp [Ne.symm hid]
        · rw [update_of_ne hke]
  · intro k hk
    have hspecLast := hb.lt_specTokenIds howned
    have hspecEmpty : empty < b.specTokenIds.length := lt_of_lt_of_le hlt hb.lenSpec
    rw [specAt, h.spec, getD_set _ _ _ (by simpa using hspecEmpty)]
    rw [hown] at hk
    by_cases hke : k = empty
    · subst hke
      rw [update_of_ne hne, update_self] at hk
      exact absurd hk (by simp)
    · rw [update_of_ne hke, getD_set _ _ _ hspecLast]
      by_cases hkl : k = last
      · subst hkl
        rw [update_self]
      · rw [update_of_ne hkl]
        rw [update_of_ne hkl, update_of_ne hke] at hk
        exact hb.specIdle k hk

end

/-- One round of the loop. -/
theorem Sliding.slide {builder : BatchUpdateBuilder} (hb : Sliding b last)
    (hlast : last ∉ b.batchUpdateBuilder.removed)
    (hpop : b.batchUpdateBuilder.popRemoved = (some empty, builder)) (hlt : empty < last)
    (h : SlidAt { b with batchUpdateBuilder := builder } b' id last empty) :
    Sliding b' (last - 1) := by
  obtain ⟨hperm, hgt, hsorted, -⟩ := hb.sorted.pop hpop
  have hmem := hb.sorted.mem_pop hpop
  have hindexed : Indexed { b with batchUpdateBuilder := builder } := hb.setBuilder hsorted
  have hempty : empty ∈ b.batchUpdateBuilder.removed := by
    rw [hperm.mem_iff]
    exact mem_cons_self
  have hbound := hb.bound
  have hltlen : empty < b.reqIds.length := by omega
  have hown := h.owner_eq hltlen
  have hremoved : b'.batchUpdateBuilder.removed = builder.removed := h.removed_eq.1
  have hlen : b'.reqIds.length = b.reqIds.length := by
    rw [h.reqIds]
    simp
  refine ⟨h.keepsIndexed hindexed (by omega) hltlen (hb.free _ hempty), by omega, ?_, ?_, ?_, ?_⟩
  · intro i hi
    rw [hremoved, hmem] at hi
    rw [hown]
    by_cases hil : i = last
    · subst hil
      simp
    · rw [update_of_ne hil, update_of_ne hi.2]
      exact hb.free i hi.1
  · intro i hi hnone
    rw [hown, update_of_ne (by omega)] at hnone
    rw [hremoved, hmem]
    have hie : i ≠ empty := by
      rintro rfl
      simp at hnone
    rw [update_of_ne hie] at hnone
    exact ⟨hb.hole i (by omega) hnone, hie⟩
  · intro i hi
    rw [hown]
    by_cases hil : i = last
    · subst hil
      simp
    · rw [update_of_ne hil, update_of_ne (by omega)]
      exact hb.above i (by omega)
  · have hcount := hb.count
    rw [hperm.countP_eq, countP_cons_of_pos (by simpa using hlt.le)] at hcount
    have hnumReqs : b'.numReqs = b.numReqs := h.numReqs_eq hindexed
    have hlast' : last ∉ builder.removed := by
      rw [hmem]
      exact fun hcontra => hlast hcontra.1
    obtain ⟨l, rfl⟩ : ∃ l, last = l + 1 := ⟨last - 1, by omega⟩
    rw [countP_le_succ, count_eq_zero_of_not_mem hlast'] at hcount
    rw [hremoved, hnumReqs, Nat.add_sub_cancel]
    omega

end Slide

/-- The slides of `condense`, as pairs of the row left and the row filled, in their order. -/
def slidePairs : ℕ → BatchUpdateBuilder → ℕ → List (ℕ × ℕ)
  | 0, _, _ => []
  | rounds + 1, builder, last =>
    match lastFilled builder.removed last, builder.popRemoved with
    | some last, (some empty, builder) =>
      if empty ≥ last then [] else (last, empty) :: slidePairs rounds builder (last - 1)
    | _, _ => []

theorem condenseLoop_invariant {P : InputBatch → ℕ → Prop} {rounds last : ℕ}
    (hstep : ∀ (b b' : InputBatch) (id : RequestId) (builder : BatchUpdateBuilder)
      (last empty : ℕ), Sliding b last → last ∉ b.batchUpdateBuilder.removed →
      b.batchUpdateBuilder.popRemoved = (some empty, builder) → empty < last → P b last →
      SlidAt { b with batchUpdateBuilder := builder } b' id last empty → P b' (last - 1))
    (hlower : ∀ (b : InputBatch) (last l : ℕ),
      lastFilled b.batchUpdateBuilder.removed last = some l → P b last → P b l)
    (hsliding : Sliding b last) (hreqs : b.numReqs ≠ 0)
    (hrounds : rounds = b.batchUpdateBuilder.removed.length) (hP : P b last)
    (h : condenseLoop rounds b last = .ok b') :
    ∃ last', Settled b' ∧ P b' last' ∧ b'.numReqs = b.numReqs := by
  induction rounds generalizing b last with
  | zero =>
    obtain rfl := Raises.pure_eq_ok.mp h
    have hnil : b.batchUpdateBuilder.removed = [] := length_eq_zero_iff.mp hrounds.symm
    exact ⟨last, hsliding.settled (by simp [hnil]), hP, rfl⟩
  | succ rounds ih =>
    unfold condenseLoop at h
    split at h
    · rename_i hempty
      rw [List.isEmpty_iff] at hempty
      rw [hempty] at hrounds
      exact absurd hrounds (by simp)
    · split at h
      · rename_i l empty builder hl hpop
        obtain ⟨hs, hle, hnot⟩ := hsliding.lastFilled_some hl
        obtain ⟨hperm, hgt, hsorted, -⟩ := hsliding.sorted.pop hpop
        have hP' := hlower b last l hl hP
        split at h
        · rename_i hge
          obtain rfl := Raises.pure_eq_ok.mp h
          have habove : ∀ i ∈ b.batchUpdateBuilder.removed, l < i := by
            intro i hi
            have hne : i ≠ l := by
              rintro rfl
              exact hnot hi
            rw [hperm.mem_iff, mem_cons] at hi
            rcases hi with rfl | hi
            · omega
            · have := hgt i hi
              omega
          exact ⟨l, hs.settled habove, hP', rfl⟩
        · rename_i hlt
          obtain ⟨b1, hslide, h⟩ := Raises.of_bind h
          obtain ⟨id, hslid⟩ := slide_eq_ok hslide
          have hs1 := hs.slide hnot hpop (not_le.mp hlt) hslid
          have hnum : b1.numReqs = b.numReqs := hslid.numReqs_eq (hs.setBuilder hsorted)
          have hlen : rounds = b1.batchUpdateBuilder.removed.length := by
            rw [hslid.removed_eq.1]
            rw [hperm.length_eq, length_cons] at hrounds
            exact Nat.succ.inj hrounds
          obtain ⟨last', hsettled, hP1, hnum'⟩ := ih hs1 (by rw [hnum]; exact hreqs) hlen
            (hstep b b1 id builder l empty hs hnot hpop (not_le.mp hlt) hP' hslid) h
          exact ⟨last', hsettled, hP1, hnum'.trans hnum⟩
      · rename_i hno
        exfalso
        cases hl : lastFilled b.batchUpdateBuilder.removed last with
        | none => exact hreqs (hsliding.lastFilled_none hl)
        | some l =>
          cases hpop : b.batchUpdateBuilder.popRemoved with
          | mk popped builder =>
            cases popped with
            | none =>
              have hnil := (BatchUpdateBuilder.popRemoved_eq_none hpop).1
              rw [hnil] at hrounds
              exact absurd hrounds (by simp)
            | some empty => exact hno l empty builder hl hpop

theorem Open.sortRemoved (hb : b.Open) : b.sortRemoved.Open := by
  have hperm := b.batchUpdateBuilder.perm_ensureRemovedSorted
  refine ⟨hb.setBuilder hb.sorted.ensure, ?_, ?_⟩
  · intro i
    rw [InputBatch.sortRemoved, hperm.mem_iff]
    exact hb.removed i
  · rw [InputBatch.sortRemoved, hperm.length_eq]
    exact hb.count

theorem Open.sliding (hb : b.Open) (hr : b.batchUpdateBuilder.removed ≠ []) :
    Sliding b (b.numReqs + b.batchUpdateBuilder.removed.length - 1) := by
  have hcount := hb.count
  have hpos : 0 < b.batchUpdateBuilder.removed.length := length_pos_iff.mpr hr
  refine ⟨hb.toIndexed, by omega, ?_, ?_, ?_, ?_⟩
  · intro i hi
    rw [owner, (hb.removed i).mp hi]
    rfl
  · intro i hi hnone
    rw [hb.removed, List.getElem?_eq_getElem (by omega)]
    rw [owner, List.getElem?_eq_getElem (by omega)] at hnone
    exact congrArg some hnone
  · intro i hi
    rw [owner, List.getElem?_eq_none (by omega)]
    rfl
  · have hall : b.batchUpdateBuilder.removed.countP
        (· ≤ b.numReqs + b.batchUpdateBuilder.removed.length - 1) =
          b.batchUpdateBuilder.removed.length := by
      rw [countP_eq_length]
      intro i hi
      have hlt := (List.getElem?_eq_some_iff.mp ((hb.removed i).mp hi)).1
      simp only [decide_eq_true_eq]
      omega
    omega

/-- Nothing is vacated: the batch has no holes as it is. -/
theorem Open.dense (hb : b.Open) (hr : b.batchUpdateBuilder.removed = []) : b.Dense := by
  have hcount := hb.count
  rw [hr, length_nil, add_zero] at hcount
  refine ⟨hb.toIndexed, hcount.symm, ?_, by simp [hr]⟩
  intro i hi
  cases howner : b.owner i with
  | some id => exact ⟨id, rfl⟩
  | none =>
    have hlt : i < b.reqIds.length := by omega
    have hmem : i ∈ b.batchUpdateBuilder.removed := by
      rw [hb.removed, List.getElem?_eq_getElem hlt]
      rw [owner, List.getElem?_eq_getElem hlt] at howner
      exact congrArg some howner
    rw [hr] at hmem
    exact absurd hmem (by simp)

theorem Settled.owner_trimLists (hb : Settled b) : (b.trimLists b.numReqs).owner = b.owner := by
  funext i
  rw [owner, trimLists, List.getElem?_take]
  split
  · rfl
  · rename_i hge
    rw [hb.above i (by omega)]
    rfl

theorem Settled.specAt_trimLists (hb : Settled b) (i : ℕ) :
    (b.trimLists b.numReqs).specAt i = b.specAt i := by
  rw [specAt, trimLists, getD_eq_getElem?_getD, List.getElem?_take]
  split
  · rw [specAt, getD_eq_getElem?_getD]
  · rename_i hge
    rw [hb.specIdle i (hb.above i (by omega))]
    rfl

theorem Settled.dense (hb : Settled b) : (b.trimLists b.numReqs).Dense := by
  have hown := hb.owner_trimLists
  have hbound := hb.bound
  have hout := hb.lenOutputs
  have hspec := hb.lenSpec
  refine ⟨⟨?_, ?_, ?_, ?_, hb.sorted⟩, ?_, ?_, hb.removed⟩
  · simp only [trimLists, length_take]
    omega
  · simp only [trimLists, length_take]
    omega
  · intro id i
    rw [hown]
    exact hb.index id i
  · intro i hi
    rw [hown] at hi
    rw [hb.specAt_trimLists]
    exact hb.specIdle i hi
  · rw [trimLists, length_take, min_eq_left hbound]
    rfl
  · intro i hi
    rw [hown]
    exact hb.filled i hi

/-- What `condense` does, as a rule: `P` is kept by its slides, and gives `Q` once the lists
have been trimmed. -/
theorem condense_rule {P : InputBatch → ℕ → Prop} {Q : InputBatch → Prop} (hb : b.Open)
    (h : b.condense = .ok b')
    (hnone : b.sortRemoved.batchUpdateBuilder.removed = [] → b.sortRemoved.Dense →
      Q b.sortRemoved)
    (hstart : b.sortRemoved.batchUpdateBuilder.removed ≠ [] →
      P b.sortRemoved (b.numReqs + b.sortRemoved.batchUpdateBuilder.removed.length - 1))
    (hstep : ∀ (b b' : InputBatch) (id : RequestId) (builder : BatchUpdateBuilder)
      (last empty : ℕ), Sliding b last → last ∉ b.batchUpdateBuilder.removed →
      b.batchUpdateBuilder.popRemoved = (some empty, builder) → empty < last → P b last →
      SlidAt { b with batchUpdateBuilder := builder } b' id last empty → P b' (last - 1))
    (hlower : ∀ (b : InputBatch) (last l : ℕ),
      lastFilled b.batchUpdateBuilder.removed last = some l → P b last → P b l)
    (htrim : ∀ (b : InputBatch) (last : ℕ), Settled b → P b last → Q (b.trimLists b.numReqs)) :
    Q b' ∧ b'.Dense ∧ b'.numReqs = b.numReqs := by
  have hsorted := hb.sortRemoved
  unfold condense at h
  dsimp only at h
  split at h
  · rename_i hempty
    cases h
    have hnil := isEmpty_iff.mp hempty
    exact ⟨hnone hnil (hsorted.dense hnil), hsorted.dense hnil, rfl⟩
  · rename_i hempty
    have hne : b.sortRemoved.batchUpdateBuilder.removed ≠ [] :=
      fun hcontra => hempty (isEmpty_iff.mpr hcontra)
    have hsliding := hsorted.sliding hne
    split at h
    · rename_i hzero
      cases h
      have hzero' : b.sortRemoved.numReqs = 0 := hzero
      have hsettled : Settled b.sortRemoved := by
        refine ⟨hsorted.toIndexed, by omega, by omega, ?_, by omega⟩
        intro i _
        cases howner : b.sortRemoved.owner i with
        | none => rfl
        | some id =>
          have hsize : b.sortRemoved.reqIdToIndex.isEmpty = true := by
            rw [Dict.isEmpty, List.isEmpty_iff]
            exact length_eq_zero_iff.mp hzero'
          have hget := (hsorted.index id i).mpr howner
          rw [(Dict.isEmpty_iff _).mp hsize id] at hget
          exact absurd hget (by simp)
      have hdense := hsettled.dense
      have hQ := htrim _ _ hsettled (hstart hne)
      rw [hzero'] at hdense hQ
      exact ⟨hQ, hdense, rfl⟩
    · rename_i hpos
      obtain ⟨c, hloop, h⟩ := Raises.of_bind h
      cases h
      obtain ⟨last', hsettled, hPc, hnum⟩ :=
        condenseLoop_invariant hstep hlower hsliding hpos rfl (hstart hne) hloop
      have hnum' : c.numReqs = b.numReqs := hnum
      rw [← hnum']
      exact ⟨htrim c last' hsettled hPc, hsettled.dense, rfl⟩

section Swap
variable {id1 id2 : RequestId} {i1 i2 : ℕ}

section
variable (h : SwappedAt b b' id1 id2 i1 i2)
include h

theorem SwappedAt.owner_eq : b'.owner = swapRow b.owner i1 i2 := by
  have h1 := (List.getElem?_eq_some_iff.mp h.owned1).1
  have h2 := (List.getElem?_eq_some_iff.mp h.owned2).1
  have hown1 : b.owner i1 = some id1 := owner_eq_some.mpr h.owned1
  have hown2 : b.owner i2 = some id2 := owner_eq_some.mpr h.owned2
  funext k
  rw [owner, h.reqIds, join_getElem?_set _ _ (by simpa using h2), swapRow, hown1, hown2]
  congr 1
  funext j
  exact join_getElem?_set _ _ h1 j

theorem SwappedAt.specAt_eq (hb : b.Indexed) : b'.specAt = swapRow b.specAt i1 i2 := by
  have h1 := hb.lt_specTokenIds (owner_eq_some.mpr h.owned1)
  have h2 := hb.lt_specTokenIds (owner_eq_some.mpr h.owned2)
  funext k
  rw [specAt, h.spec, getD_set _ _ _ (by simpa using h2), swapRow]
  congr 1
  funext j
  exact getD_set _ _ _ h1 j

theorem SwappedAt.index_eq (hb : b.Indexed) (id : RequestId) :
    b'.reqIdToIndex.get? id = (b.reqIdToIndex.get? id).map (Equiv.swap i1 i2) := by
  have hget1 := (hb.index id1 i1).mpr (owner_eq_some.mpr h.owned1)
  have hget2 := (hb.index id2 i2).mpr (owner_eq_some.mpr h.owned2)
  rw [h.reqIdToIndex, Dict.get?_set, Dict.get?_set, Dict.getD, Dict.getD, hget1, hget2]
  by_cases hid2 : id = id2
  · subst hid2
    simp [hget2]
  · by_cases hid1 : id = id1
    · subst hid1
      simp [hid2, hget1]
    · rw [if_neg hid2, if_neg hid1]
      cases hget : b.reqIdToIndex.get? id with
      | none => rfl
      | some k =>
        have hown := (hb.index id k).mp hget
        have hk1 : k ≠ i1 := by
          rintro rfl
          rw [(hb.index id1 k).mp hget1] at hown
          exact hid1 (Option.some.inj hown).symm
        have hk2 : k ≠ i2 := by
          rintro rfl
          rw [(hb.index id2 k).mp hget2] at hown
          exact hid2 (Option.some.inj hown).symm
        rw [Option.map_some, Equiv.swap_apply_of_ne_of_ne hk1 hk2]

theorem SwappedAt.numReqs_eq (hb : b.Indexed) : b'.numReqs = b.numReqs := by
  have hin1 := hb.contains (owner_eq_some.mpr h.owned1)
  have hin2 := hb.contains (owner_eq_some.mpr h.owned2)
  have hin : (b.reqIdToIndex.set id1 (b.reqIdToIndex.getD id2 0)).contains id2 = true := by
    rw [Dict.contains_set]
    exact .inr hin2
  rw [numReqs, h.reqIdToIndex, Dict.size_set, if_pos hin, Dict.size_set, if_pos hin1, numReqs]

theorem SwappedAt.removed_eq :
    b'.batchUpdateBuilder.removed = b.batchUpdateBuilder.removed ∧
      (b.batchUpdateBuilder.Sorted → b'.batchUpdateBuilder.Sorted) := by
  rw [h.builder]
  split
  · exact ⟨rfl, fun hs => hs⟩
  · exact ⟨rfl, fun hs => ⟨hs.nodup, hs.descending⟩⟩

theorem SwappedAt.keepsDense (hb : b.Dense) : b'.Dense := by
  have hown := h.owner_eq
  have hnum := h.numReqs_eq hb.toIndexed
  have hlen : b'.reqIds.length = b.reqIds.length := by
    rw [h.reqIds]
    simp
  have hlt : ∀ {i : ℕ} {id : RequestId}, b.owner i = some id → i < b.numReqs := by
    intro i id howner
    rw [← hb.length]
    exact lt_length_of_owner howner
  have hlt1 := hlt (owner_eq_some.mpr h.owned1)
  have hlt2 := hlt (owner_eq_some.mpr h.owned2)
  refine ⟨⟨?_, ?_, ?_, ?_, h.removed_eq.2 hb.sorted⟩, ?_, ?_, ?_⟩
  · rw [h.outputLists, hlen]
    simpa using hb.lenOutputs
  · rw [h.spec, hlen]
    simpa using hb.lenSpec
  · intro id k
    rw [h.index_eq hb.toIndexed, hown, swapRow_apply, ← hb.index]
    constructor
    · intro hmap
      obtain ⟨j, hj, rfl⟩ := Option.map_eq_some_iff.mp hmap
      rw [Equiv.swap_apply_self]
      exact hj
    · intro hget
      rw [hget, Option.map_some, Equiv.swap_apply_self]
  · intro k hk
    rw [hown, swapRow_apply] at hk
    rw [h.specAt_eq hb.toIndexed, swapRow_apply]
    exact hb.specIdle _ hk
  · rw [hlen, hnum]
    exact hb.length
  · intro k hk
    rw [hown, swapRow_apply]
    refine hb.filled _ ?_
    rw [hnum] at hk
    by_cases hk1 : k = i1
    · subst hk1
      rwa [Equiv.swap_apply_left]
    · by_cases hk2 : k = i2
      · subst hk2
        rwa [Equiv.swap_apply_right]
      · rwa [Equiv.swap_apply_of_ne_of_ne hk1 hk2]
  · intro k hk
    rw [h.removed_eq.1] at hk
    rw [hnum]
    exact hb.removed k hk

end

end Swap

end InputBatch

end Vllm.Worker
