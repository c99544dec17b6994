import Vllm.Worker.BatchEffects

/-! Which request owns which row: the lists of ids and the map from ids to rows stay inverse to
each other, vacated rows are the recorded ones, and `condense` leaves no hole. -/
namespace Vllm.Worker
open Function BatchConfig List

theorem join_getElem?_set {α : Type} (l : List (Option α)) {i : ℕ} (v : Option α)
    (hi : i < l.length) (k : ℕ) :
    ((l.set i v)[k]?).join = update (fun k => (l[k]?).join) i v k := by
  rw [List.getElem?_set]
  by_cases hk : k = i
  · subst hk
    simp [hi]
  · simp [hk, Ne.symm hk]

theorem getD_set {α : Type} (l : List α) {i : ℕ} (v d : α) (hi : i < l.length) (k : ℕ) :
    (l.set i v).getD k d = update (fun k => l.getD k d) i v k := by
  rw [getD_eq_getElem?_getD, List.getElem?_set]
  by_cases hk : k = i
  · subst hk
    simp [hi]
  · simp [hk, Ne.symm hk]

namespace InputBatch
variable {b b' : InputBatch}

/-- The request at row `i`. -/
def owner (b : InputBatch) (i : ℕ) : Option RequestId := (b.reqIds[i]?).join

theorem owner_eq_some {i : ℕ} {id : RequestId} :
    b.owner i = some id ↔ b.reqIds[i]? = some (some id) := by
  simp [owner, Option.join_eq_some_iff]

theorem lt_length_of_owner {i : ℕ} {id : RequestId} (h : b.owner i = some id) :
    i < b.reqIds.length := by
  rw [owner_eq_some] at h
  exact (List.getElem?_eq_some_iff.mp h).1

/-- Ids and rows are inverse to each other; drafts are kept for owned rows only. -/
structure Indexed (b : InputBatch) : Prop where
  lenOutputs : b.reqOutputTokenIds.length = b.reqIds.length
  lenSpec : b.reqIds.length ≤ b.specTokenIds.length
  index : ∀ id i, b.reqIdToIndex.get? id = some i ↔ b.owner i = some id
  specIdle : ∀ i, b.owner i = none → b.specAt i = []
  sorted : b.batchUpdateBuilder.Sorted

/-- A batch in the middle of a step: the vacated rows are the recorded ones. -/
structure Open (b : InputBatch) : Prop extends Indexed b where
  removed : ∀ i, i ∈ b.batchUpdateBuilder.removed ↔ b.reqIds[i]? = some none
  count : b.numReqs + b.batchUpdateBuilder.removed.length = b.reqIds.length

/-- A batch without holes. -/
structure Dense (b : InputBatch) : Prop extends Indexed b where
  length : b.reqIds.length = b.numReqs
  filled : ∀ i < b.numReqs, ∃ id, b.owner i = some id
  removed : ∀ i ∈ b.batchUpdateBuilder.removed, b.numReqs ≤ i

namespace Indexed

theorem owner_inj (h : Indexed b) {i j : ℕ} {id : RequestId} (hi : b.owner i = some id)
    (hj : b.owner j = some id) : i = j := by
  have hi := (h.index id i).mpr hi
  have hj := (h.index id j).mpr hj
  rw [hi] at hj
  exact Option.some.inj hj

theorem contains (h : Indexed b) {i : ℕ} {id : RequestId} (hi : b.owner i = some id) :
    b.reqIdToIndex.contains id = true := by
  simp [Dict.contains, (h.index id i).mpr hi]

theorem lt_specTokenIds (h : Indexed b) {i : ℕ} {id : RequestId} (hi : b.owner i = some id) :
    i < b.specTokenIds.length :=
  lt_of_lt_of_le (lt_length_of_owner hi) h.lenSpec

theorem setBuilder (h : Indexed b) {builder : BatchUpdateBuilder} (hs : builder.Sorted) :
    Indexed { b with batchUpdateBuilder := builder } :=
  ⟨h.lenOutputs, h.lenSpec, h.index, h.specIdle, hs⟩

end Indexed

theorem Dense.owner_none (h : Dense b) {i : ℕ} (hi : b.numReqs ≤ i) : b.owner i = none := by
  rw [owner, List.getElem?_eq_none (by rw [h.length]; exact hi)]
  rfl

theorem newBatch_open (c : BatchConfig) : c.newBatch.Open := by
  have hspec : ∀ i, c.newBatch.specAt i = [] := by
    intro i
    rw [specAt, newBatch, getD_eq_getElem?_getD, List.getElem?_replicate]
    split <;> rfl
  refine ⟨⟨rfl, by simp [newBatch], ?_, fun i _ => hspec i, ⟨?_, ?_⟩⟩, ?_, rfl⟩
  · intro id i
    simp [newBatch, owner]
  · simp [newBatch]
  · simp [newBatch]
  · intro i
    simp [newBatch]

section Remove
variable {id : RequestId} {i : ℕ}

theorem RemovedAt.owner_eq (h : RemovedAt b b' id i) (hi : i < b.reqIds.length) :
    b'.owner = update b.owner i none := by
  funext k
  rw [owner, h.reqIds, join_getElem?_set b.reqIds none hi]
  rfl

theorem RemovedAt.keepsOpen (h : RemovedAt b b' id i) (hb : b.Open) (howner : b.owner i = some id) :
    b'.Open := by
  have hlt := lt_length_of_owner howner
  have hown := h.owner_eq hlt
  have hnot : i ∉ b.batchUpdateBuilder.removed := by
    rw [hb.removed i, owner_eq_some.mp howner]
    simp
  obtain ⟨hsorted, hremoved, -⟩ := hb.sorted.append hnot h.builder
  refine ⟨⟨?_, ?_, ?_, ?_, hsorted⟩, ?_, ?_⟩
  · rw [h.outputLists, h.reqIds, length_set, length_set]
    exact hb.lenOutputs
  · rw [h.spec, h.reqIds, length_set, length_set]
    exact hb.lenSpec
  · intro id' k
    rw [h.reqIdToIndex, hown, Dict.get?_erase]
    by_cases hk : k = i
    · subst hk
      rw [update_self]
      constructor
      · intro hget
        split at hget
        · exact absurd hget (by simp)
        · rename_i hne
          rw [hb.index, howner] at hget
          exact absurd (Option.some.inj hget).symm hne
      · intro hcontra
        exact absurd hcontra (by simp)
    · rw [update_of_ne hk, ← hb.index]
      by_cases hid : id' = id
      · subst hid
        simp only [↓reduceIte, reduceCtorEq, false_iff]
        intro hget
        exact hk (hb.owner_inj ((hb.index _ _).mp hget) howner)
      · simp [hid]
  · intro k hk
    rw [hown] at hk
    rw [specAt, h.spec, getD_set _ _ _ (hb.lt_specTokenIds howner)]
    by_cases hki : k = i
    · subst hki
      rw [update_self]
    · rw [update_of_ne hki] at hk ⊢
      exact hb.specIdle k hk
  · intro k
    rw [hremoved, h.reqIds, List.getElem?_set, mem_append, mem_singleton]
    by_cases hk : i = k
    · subst hk
      simp [hlt]
    · simp only [hk, ↓reduceIte, hb.removed k, or_iff_left_iff_imp]
      intro hki
      exact absurd hki.symm hk
  · rw [hremoved, h.reqIds, length_set, length_append, length_singleton, numReqs,
      h.reqIdToIndex, ← hb.count, numReqs]
    have := b.reqIdToIndex.size_erase (hb.contains howner)
    omega

end Remove

section Add
variable {outputs : Outputs} {r : CachedRequestState} {i n : ℕ}

section
variable (h : AddedAt outputs b b' r i n)
include h

theorem AddedAt.reqIds_eq : b'.reqIds =
    if i = b.reqIds.length then b.reqIds ++ [some r.reqId]
    else b.reqIds.set i (some r.reqId) := by
  rw [h.eq]
  rfl

theorem AddedAt.outputs_eq : b'.reqOutputTokenIds =
    if i = b.reqIds.length then b.reqOutputTokenIds ++ [some r.outputTokenIds]
    else b.reqOutputTokenIds.set i (some r.outputTokenIds) := by
  rw [h.eq]
  rfl

theorem AddedAt.spec_eq : b'.specTokenIds =
    if i = b.reqIds.length then b.specTokenIds ++ [[]] else b.specTokenIds.set i [] := by
  rw [h.eq]
  rfl

theorem AddedAt.reqIdToIndex_eq : b'.reqIdToIndex = b.reqIdToIndex.set r.reqId i := by
  rw [h.eq]
  rfl

end

theorem join_getElem?_store {α : Type} {l : List (Option α)} {i : ℕ} {v : Option α}
    (hi : i ≤ l.length) (k : ℕ) :
    ((if i = l.length then l ++ [v] else l.set i v)[k]?).join =
      update (fun k => (l[k]?).join) i v k := by
  split
  · rename_i hl
    subst hl
    by_cases hk : k = l.length
    · subst hk
      simp
    · rw [update_of_ne hk, List.getElem?_append]
      split
      · rfl
      · rename_i hge
        have hout : l.length < k := by omega
        rw [List.getElem?_eq_none (by simp; omega), List.getElem?_eq_none (by omega)]
  · rename_i hl
    exact join_getElem?_set l v (by omega) k

section
variable (h : AddedAt outputs b b' r i n)
include h

theorem AddedAt.owner_eq : b'.owner = update b.owner i (some r.reqId) := by
  funext k
  rw [owner, h.reqIds_eq, join_getElem?_store h.le]
  rfl

theorem AddedAt.free (hb : b.Open) : b.owner i = none := by
  obtain ⟨v, ⟨hslot⟩, -⟩ := h.builder
  rcases hslot with hpop | ⟨hnil, hi, -⟩
  · have hmem : i ∈ b.batchUpdateBuilder.removed := by
      rw [(hb.sorted.pop hpop).1.mem_iff]
      exact mem_cons_self
    rw [owner, (hb.removed i).mp hmem]
    rfl
  · have hcount := hb.count
    rw [hnil] at hcount
    rw [owner, List.getElem?_eq_none (by rw [hi, ← hcount]; simp)]
    rfl

theorem AddedAt.removed_iff (hb : b.Open) :
    b'.batchUpdateBuilder.Sorted ∧
      (∀ k, k ∈ b'.batchUpdateBuilder.removed ↔ k ∈ b.batchUpdateBuilder.removed ∧ k ≠ i) ∧
      b'.batchUpdateBuilder.moved = b.batchUpdateBuilder.moved ∧
      b'.batchUpdateBuilder.added = b.batchUpdateBuilder.added ++ addedRecord i r ∧
      (i < b.reqIds.length ∧
          b'.batchUpdateBuilder.removed.length + 1 = b.batchUpdateBuilder.removed.length ∨
        i = b.reqIds.length ∧ b'.batchUpdateBuilder.removed = [] ∧
          b.batchUpdateBuilder.removed = []) := by
  obtain ⟨v, ⟨hslot⟩, hbuilder⟩ := h.builder
  rw [hbuilder]
  rcases hslot with hpop | ⟨hnil, hi, rfl⟩
  · obtain ⟨hperm, hlt, hsorted, hadded, hmoved, -⟩ := hb.sorted.pop hpop
    have hmem : i ∈ b.batchUpdateBuilder.removed := by
      rw [hperm.mem_iff]
      exact mem_cons_self
    have hleft := hb.sorted.mem_pop hpop
    refine ⟨⟨hsorted.nodup, hsorted.descending⟩, fun k => hleft k, hmoved,
      by rw [hadded], .inl ⟨?_, ?_⟩⟩
    · exact (List.getElem?_eq_some_iff.mp ((hb.removed i).mp hmem)).1
    · rw [hperm.length_eq, length_cons]
  · have hcount := hb.count
    rw [hnil] at hcount
    refine ⟨⟨hb.sorted.nodup, hb.sorted.descending⟩, ?_, rfl, rfl, .inr ⟨?_, hnil, hnil⟩⟩
    · intro k
      simp [hnil]
    · rw [hi, ← hcount, length_nil, add_zero]

theorem AddedAt.keepsOpen (hb : b.Open) (hnew : b.reqIdToIndex.get? r.reqId = none) : b'.Open := by
  have hown := h.owner_eq
  have hfree := h.free hb
  obtain ⟨hsorted, hremoved, -, -, hlen⟩ := h.removed_iff hb
  have hlengths : b'.reqIds.length = if i = b.reqIds.length then b.reqIds.length + 1
      else b.reqIds.length := by
    rw [h.reqIds_eq]
    split <;> simp
  refine ⟨⟨?_, ?_, ?_, ?_, hsorted⟩, ?_, ?_⟩
  · rw [h.outputs_eq, hlengths]
    split <;> simp [hb.lenOutputs]
  · rw [h.spec_eq, hlengths]
    have := hb.lenSpec
    split <;> simp [this]
  · intro id k
    rw [h.reqIdToIndex_eq, hown, Dict.get?_set]
    by_cases hk : k = i
    · subst hk
      rw [update_self]
      by_cases hid : id = r.reqId
      · simp [hid]
      · simp only [hid, ↓reduceIte, Option.some.injEq, Ne.symm hid, iff_false, hb.index, hfree]
        simp
    · rw [update_of_ne hk, ← hb.index]
      by_cases hid : id = r.reqId
      · subst hid
        simp [hnew, Ne.symm hk]
      · simp [hid]
  · intro k hk
    rw [hown] at hk
    have hki : k ≠ i := by
      rintro rfl
      simp at hk
    rw [update_of_ne hki] at hk
    rw [specAt, h.spec_eq]
    have hold := hb.specIdle k hk
    rw [specAt, getD_eq_getElem?_getD] at hold
    rw [getD_eq_getElem?_getD]
    split
    · rw [List.getElem?_append]
      split
      · exact hold
      · rw [List.getElem?_singleton]
        split <;> rfl
    · rw [List.getElem?_set_ne hki.symm]
      exact hold
  · intro k
    rw [hremoved k, h.reqIds_eq, hb.removed k]
    split
    · rename_i hi
      rw [List.getElem?_append]
      split
      · simp only [and_iff_left_iff_imp]
        intro _
        omega
      · rename_i hge
        rw [List.getElem?_eq_none (by omega), List.getElem?_singleton]
        split <;> simp
    · by_cases hk : k = i
      · subst hk
        rw [List.getElem?_set]
        simp only [ne_eq, not_true_eq_false, and_false, ↓reduceIte, false_iff]
        split <;> simp
      · rw [List.getElem?_set_ne (Ne.symm hk)]
        simp [hk]
  · have hcount := hb.count
    have hsize : b'.numReqs = b.numReqs + 1 := by
      rw [numReqs, h.reqIdToIndex_eq, Dict.size_set, numReqs]
      simp [Dict.contains, hnew]
    rw [hsize, hlengths]
    rcases hlen with ⟨hlt, hlen⟩ | ⟨heq, hnil, hnil'⟩
    · rw [if_neg (by omega)]
      omega
    · rw [if_pos heq, hnil]
      rw [hnil'] at hcount
      simp only [length_nil] at hcount ⊢
      omega

end

end Add

end InputBatch

end Vllm.Worker
