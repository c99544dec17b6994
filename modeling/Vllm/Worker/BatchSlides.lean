import Vllm.Worker.BatchOrigins

/-! Which rows `condense` moves where, told in advance from the vacated rows, and the rule for
`condense` that speaks of these slides. What is kept per row of the batch and suits the row's
request: how this is kept when requests are removed, added, slid and exchanged, for any kind of
content. -/
namespace Vllm.Worker

theorem slidePairs_congr (rounds last : ℕ) {u v : BatchUpdateBuilder}
    (hremoved : u.removed = v.removed) (hsorted : u.isRemovedSorted = v.isRemovedSorted) :
    InputBatch.slidePairs rounds u last = InputBatch.slidePairs rounds v last := by
  induction rounds generalizing last u v with
  | zero => rfl
  | succ rounds ih =>
    have hpop : u.popRemoved.1 = v.popRemoved.1 ∧
        u.popRemoved.2.removed = v.popRemoved.2.removed ∧
        u.popRemoved.2.isRemovedSorted = v.popRemoved.2.isRemovedSorted := by
      unfold BatchUpdateBuilder.popRemoved BatchUpdateBuilder.ensureRemovedSorted
      rw [hremoved, hsorted]
      split
      · exact ⟨rfl, hremoved, hsorted⟩
      · split
        · exact ⟨by simp [hremoved], by simp [hremoved], hsorted⟩
        · exact ⟨rfl, rfl, rfl⟩
    obtain ⟨hfst, hrem, hsort⟩ := hpop
    unfold InputBatch.slidePairs
    rw [hremoved]
    cases hu : u.popRemoved with
    | mk eu u' =>
      cases hv : v.popRemoved with
      | mk ev v' =>
        rw [hu, hv] at hfst hrem hsort
        dsimp only at hfst hrem hsort
        subst hfst
        cases InputBatch.lastFilled v.removed last with
        | none => rfl
        | some l =>
          cases eu with
          | none => rfl
          | some empty =>
            dsimp only
            rw [ih (l - 1) hrem hsort]

namespace InputBatch
variable {b b' : InputBatch}

variable {last : ℕ} {removed : List ℕ} {builder : BatchUpdateBuilder}

theorem lastFilled_idem {l : ℕ} (h : lastFilled removed last = some l) :
    lastFilled removed l = some l := by
  induction last with
  | zero =>
    unfold lastFilled at h
    split at h
    · exact absurd h (by simp)
    · rename_i hnot
      cases h
      rw [lastFilled, if_neg hnot]
  | succ last ih =>
    unfold lastFilled at h
    split at h
    · exact ih h
    · rename_i hnot
      cases h
      rw [lastFilled, if_neg hnot]

theorem lastFilled_le {l : ℕ} (h : lastFilled removed last = some l) : l ≤ last := by
  induction last with
  | zero =>
    unfold lastFilled at h
    split at h
    · exact absurd h (by simp)
    · exact (Option.some.inj h).ge
  | succ last ih =>
    unfold lastFilled at h
    split at h
    · exact (ih h).trans (Nat.le_succ last)
    · exact (Option.some.inj h).ge

theorem lastFilled_of_not_mem (h : last ∉ removed) : lastFilled removed last = some last := by
  cases last with
  | zero | succ last => rw [lastFilled, if_neg h]

theorem slidePairs_lower (rounds : ℕ) {l : ℕ} (h : lastFilled builder.removed last = some l) :
    slidePairs rounds builder l = slidePairs rounds builder last := by
  cases rounds with
  | zero => rfl
  | succ rounds =>
    unfold slidePairs
    rw [h, lastFilled_idem h]

theorem slidePairs_step (rounds : ℕ) {builder' : BatchUpdateBuilder} {empty : ℕ}
    (hlast : last ∉ builder.removed) (hpop : builder.popRemoved = (some empty, builder'))
    (hlt : empty < last) :
    slidePairs (rounds + 1) builder last =
      (last, empty) :: slidePairs rounds builder' (last - 1) := by
  rw [slidePairs, lastFilled_of_not_mem hlast, hpop]
  dsimp only
  rw [if_neg (not_le.mpr hlt)]

/-- The slides that `condense` would make. -/
def slides (b : InputBatch) : List (ℕ × ℕ) :=
  slidePairs b.batchUpdateBuilder.removed.length b.batchUpdateBuilder.ensureRemovedSorted
    (b.numReqs + b.batchUpdateBuilder.removed.length - 1)

/-- The loop of `condense` on its way: the slides still to come are slides of the whole, and the
rows above the next hole are as they were. -/
structure OnTheWay (b c : InputBatch) (last : ℕ) : Prop where
  slides : ∀ p ∈ slidePairs c.batchUpdateBuilder.removed.length c.batchUpdateBuilder last,
    p ∈ b.slides
  owners : ∀ k ≤ last, (∃ e ∈ c.batchUpdateBuilder.removed, e < k) → c.owner k = b.owner k

theorem OnTheWay.slide {c c' : InputBatch} {id : RequestId} {empty : ℕ} (h : OnTheWay b c last)
    (hb : Sliding c last) (hlast : last ∉ c.batchUpdateBuilder.removed)
    (hpop : c.batchUpdateBuilder.popRemoved = (some empty, builder)) (hlt : empty < last)
    (hs : SlidAt { c with batchUpdateBuilder := builder } c' id last empty) :
    (last, empty) ∈ b.slides ∧ b.owner last = some id ∧ OnTheWay b c' (last - 1) := by
  obtain ⟨hperm, hgt, -⟩ := hb.sorted.pop hpop
  have hmem := hb.sorted.mem_pop hpop
  have hempty : empty ∈ c.batchUpdateBuilder.removed := by
    rw [hperm.mem_iff]
    exact List.mem_cons_self
  have hstep : slidePairs c.batchUpdateBuilder.removed.length c.batchUpdateBuilder last =
      (last, empty) :: slidePairs builder.removed.length builder (last - 1) := by
    rw [hperm.length_eq, List.length_cons]
    exact slidePairs_step _ hlast hpop hlt
  have hbound := hb.bound
  have hremoved : c'.batchUpdateBuilder.removed = builder.removed := hs.removed_eq.1
  have hflag : c'.batchUpdateBuilder.isRemovedSorted = builder.isRemovedSorted := by
    rw [hs.builder]
    split <;> rfl
  have howned : c.owner last = some id := owner_eq_some.mpr hs.owned
  refine ⟨?_, ?_, ?_, ?_⟩
  · apply h.slides
    rw [hstep]
    exact List.mem_cons_self
  · rw [← h.owners last le_rfl ⟨empty, hempty, hlt⟩]
    exact howned
  · intro p hp
    apply h.slides
    rw [hstep]
    rw [hremoved, slidePairs_congr _ _ hremoved hflag] at hp
    exact List.mem_cons_of_mem _ hp
  · rintro k hk ⟨e, he, hek⟩
    rw [hremoved] at he
    obtain ⟨he', hne⟩ := (hmem e).mp he
    have hlow := hgt e he
    rw [hs.owner_eq (show empty < c.reqIds.length by omega),
      Function.update_of_ne (by omega), Function.update_of_ne (by omega)]
    exact h.owners k (by omega) ⟨e, he', hek⟩

/-- The rule for `condense` in which each slide is one of those told in advance, and moves the
request that had the row before. -/
theorem condense_slides_rule {P Q : InputBatch → Prop} (hb : b.Open) (h : b.condense = .ok b')
    (hnone : b.sortRemoved.batchUpdateBuilder.removed = [] → Q b.sortRemoved)
    (hstart : P b.sortRemoved)
    (hstep : ∀ (c c' : InputBatch) (id : RequestId) (builder : BatchUpdateBuilder)
      (last empty : ℕ), Sliding c last → last ∉ c.batchUpdateBuilder.removed →
      c.batchUpdateBuilder.popRemoved = (some empty, builder) → empty < last →
      (last, empty) ∈ b.slides → b.owner last = some id → P c →
      SlidAt { c with batchUpdateBuilder := builder } c' id last empty → P c')
    (htrim : ∀ c : InputBatch, Settled c → P c → Q (c.trimLists c.numReqs)) : Q b' := by
  refine (condense_rule (P := fun c last => OnTheWay b c last ∧ P c) (Q := Q) hb h
    (fun hnil _ => hnone hnil) ?_ ?_ ?_ ?_).1
  · intro _
    refine ⟨⟨?_, fun k _ _ => rfl⟩, hstart⟩
    intro p hp
    rw [slides, ← b.batchUpdateBuilder.perm_ensureRemovedSorted.length_eq]
    exact hp
  · intro c c' id builder last empty hsliding hlast hpop hlt hP hs
    obtain ⟨hmem, howner, hway⟩ := hP.1.slide hsliding hlast hpop hlt hs
    exact ⟨hway, hstep c c' id builder last empty hsliding hlast hpop hlt hmem howner hP.2 hs⟩
  · intro c last l hl hP
    refine ⟨⟨?_, ?_⟩, hP.2⟩
    · rw [slidePairs_lower _ hl]
      exact hP.1.slides
    · intro k hk he
      exact hP.1.owners k (hk.trans (lastFilled_le hl)) he
  · intro c last hsettled hP
    exact htrim c hsettled hP.2

end InputBatch

open InputBatch Function

variable {α : Type}

/-- Every row of a request has content that suits it. -/
def RowsSuit (b : InputBatch) (ledger : RequestId → Option Tracked) (S : ℕ → α)
    (R : CachedRequestState → α → Prop) : Prop :=
  ∀ i id t, b.owner i = some id → ledger id = some t → R t.request (S i)

/-- The row that the next request gets. -/
def InputBatch.nextRow (b : InputBatch) : ℕ := b.batchUpdateBuilder.popRemoved.1.getD b.numReqs

theorem InputBatch.AddedAt.nextRow_eq {outputs : Outputs} {b b' : InputBatch}
    {r : CachedRequestState} {i n : ℕ} (ha : AddedAt outputs b b' r i n) : b.nextRow = i := by
  obtain ⟨v, ⟨hslot⟩, -⟩ := ha.builder
  rw [InputBatch.nextRow]
  rcases hslot with hpop | ⟨hnil, hi, -⟩
  · rw [hpop, Option.getD_some]
  · rw [BatchUpdateBuilder.popRemoved, hnil]
    exact hi.symm

namespace RowsSuit
variable {b b' : InputBatch} {ledger : RequestId → Option Tracked} {S S' : ℕ → α}
  {R : CachedRequestState → α → Prop} {id : RequestId} {i : ℕ}

section
variable (h : RowsSuit b ledger S R)
include h

theorem remove (howner : b.owner i = some id) (hr : RemovedAt b b' id i)
    (hS : ∀ k, k ≠ i → S' k = S k) :
    RowsSuit b' (update ledger id none) S' R := by
  intro k id' t hk ht
  rw [hr.owner_eq (lt_length_of_owner howner)] at hk
  have hki : k ≠ i := by
    rintro rfl
    simp at hk
  rw [hS k hki]
  exact h k id' t (of_update_none hk) (of_update_none ht)

theorem absent : RowsSuit b (update ledger id none) S R := by
  intro k id' t hk ht
  exact h k id' t hk (of_update_none ht)

theorem add {outputs : Outputs} {r : CachedRequestState} {row : RequestRow} {n : ℕ} (hb : b.Open)
    (ha : AddedAt outputs b b' r i n) (hnew : b.reqIdToIndex.get? r.reqId = none)
    (hrow : R r (S' i)) (hS : ∀ k, k ≠ i → S' k = S k) :
    RowsSuit b' (update ledger r.reqId (some ⟨r, row⟩)) S' R := by
  intro k id t hk ht
  rw [ha.owner_eq] at hk
  by_cases hki : k = i
  · subst hki
    rw [update_self] at hk
    cases hk
    rw [update_self] at ht
    cases ht
    exact hrow
  · rw [update_of_ne hki] at hk
    have hid : id ≠ r.reqId := by
      rintro rfl
      rw [(hb.index _ _).mpr hk] at hnew
      exact absurd hnew (by simp)
    rw [update_of_ne hid] at ht
    rw [hS k hki]
    exact h k id t hk ht

theorem slide {last empty : ℕ} (hs : SlidAt b b' id last empty) (hlt : empty < b.reqIds.length)
    (hmoved : ∀ t, ledger id = some t → R t.request (S last) → R t.request (S' empty))
    (hS : ∀ k, k ≠ last → k ≠ empty → S' k = S k) : RowsSuit b' ledger S' R := by
  intro k id' t hk ht
  rw [hs.owner_eq hlt] at hk
  have hkl : k ≠ last := by
    rintro rfl
    simp at hk
  rw [update_of_ne hkl] at hk
  by_cases hke : k = empty
  · subst hke
    rw [update_self] at hk
    cases hk
    exact hmoved t ht (h last id t (owner_eq_some.mpr hs.owned) ht)
  · rw [update_of_ne hke] at hk
    rw [hS k hkl hke]
    exact h k id' t hk ht

theorem swap {id1 id2 : RequestId} {i1 i2 : ℕ} (hs : SwappedAt b b' id1 id2 i1 i2)
    (hS : ∀ k, S' k = S (Equiv.swap i1 i2 k)) :
    RowsSuit b' ledger S' R := by
  intro k id t hk ht
  rw [hs.owner_eq, RowArray.swapRow_apply] at hk
  rw [hS]
  exact h _ id t hk ht

theorem same {ledger' : RequestId → Option Tracked} (howner : b'.owner = b.owner)
    (hledger : ∀ id t', ledger' id = some t' → ∃ t, ledger id = some t ∧ t.request = t'.request)
    (hS : S' = S) : RowsSuit b' ledger' S' R := by
  intro k id t' hk ht'
  rw [howner] at hk
  obtain ⟨t, ht, hreq⟩ := hledger id t' ht'
  rw [hS, ← hreq]
  exact h k id t hk ht

end

end RowsSuit

theorem written_request {ledger : RequestId → Option Tracked} {id id' : RequestId}
    {tables : MultiGroupBlockTable} {w : RowWrite} {t' : Tracked}
    (ht' : update ledger id ((ledger id).map fun t =>
      { t with row := t.row.write tables w }) id' = some t') :
    ∃ t, ledger id' = some t ∧ t.request = t'.request := by
  by_cases hid : id' = id
  · subst hid
    rw [update_self, Option.map_eq_some_iff] at ht'
    obtain ⟨t, ht, rfl⟩ := ht'
    exact ⟨t, ht, rfl⟩
  · rw [update_of_ne hid] at ht'
    exact ⟨t', ht', rfl⟩

end Vllm.Worker
