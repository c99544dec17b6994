import Vllm.Worker.BatchOrigins

/-! What `sync_batch` does per row: the entries it creates, and the moves, which agree with moving
the contents of rows only where the row that is moved has an entry or the other one has none. -/
namespace Vllm.Worker
open SlotUpdate List
namespace ThinkingBudgetStateHolder

/-- Both number and word the next entry in the same way. -/
def SameMaker (h h' : ThinkingBudgetStateHolder) : Prop :=
  h.thinkStartTokenIds = h'.thinkStartTokenIds ∧ h.thinkEndTokenIds = h'.thinkEndTokenIds ∧
    h.created = h'.created

variable {h h' : ThinkingBudgetStateHolder} {added : List AddedRequest} {k : ℕ}
  {S : ℕ → Option BudgetEntry} {e : BudgetEntry}

theorem SameMaker.entry_eq (hs : SameMaker h h') (promptTokIds : Option (List TokenId)) (budget : ℤ)
    (outputTokIds : ListRef) :
    h.initStateEntry promptTokIds budget outputTokIds =
      h'.initStateEntry promptTokIds budget outputTokIds := by
  obtain ⟨hstart, hend, hcreated⟩ := hs
  unfold initStateEntry
  rw [hstart, hend, hcreated]

theorem SameMaker.addState (hs : SameMaker h h') (a : AddedRequest) :
    SameMaker (h.addState a) (h'.addState a) := by
  obtain ⟨hstart, hend, hcreated⟩ := hs
  unfold ThinkingBudgetStateHolder.addState
  split
  · exact ⟨hstart, hend, congrArg (· + 1) hcreated⟩
  · exact ⟨hstart, hend, hcreated⟩

theorem SameMaker.foldl_addState (hs : SameMaker h h') (added : List AddedRequest) :
    SameMaker (added.foldl ThinkingBudgetStateHolder.addState h)
      (added.foldl ThinkingBudgetStateHolder.addState h') := by
  induction added generalizing h h' with
  | nil => exact hs
  | cons a added ih => exact ih (hs.addState a)

theorem foldl_removeState (removed : List ℕ) (h : ThinkingBudgetStateHolder) :
    SameMaker (removed.foldl removeState h) h ∧
      (removed.foldl removeState h).state.get? = clear none h.state.get? removed := by
  induction removed generalizing h with
  | nil =>
    refine ⟨⟨rfl, rfl, rfl⟩, ?_⟩
    funext k
    simp [clear]
  | cons i removed ih =>
    obtain ⟨hmaker, hget⟩ := ih (h.removeState i)
    refine ⟨hmaker, ?_⟩
    rw [foldl_cons, hget]
    funext k
    by_cases hr : k ∈ removed
    · simp [clear, hr]
    · by_cases hk : k = i <;> simp [clear, removeState, hr, hk]

/-- The entry that `sync_batch` creates for the added record at position `k`. -/
def createdEntry (h : ThinkingBudgetStateHolder) (added : List AddedRequest) (k : ℕ) :
    Option BudgetEntry :=
  added[k]?.bind fun a => a.params.thinkingTokenBudget.map fun budget =>
    ((added.take k).foldl addState h).initStateEntry a.promptTokIds budget a.outputTokIds

/-- The entries of the added records, for the rows they fill. -/
def createdEntries (h : ThinkingBudgetStateHolder) (added : List AddedRequest) :
    List (ℕ × Option BudgetEntry) :=
  added.mapIdx fun k a => (a.index, h.createdEntry added k)

theorem SameMaker.createdEntries_eq (hs : SameMaker h h') (added : List AddedRequest) :
    h.createdEntries added = h'.createdEntries added := by
  unfold createdEntries createdEntry
  congr 1
  funext k a
  congr 2
  funext a
  congr 1
  funext budget
  exact (hs.foldl_addState (added.take k)).entry_eq _ _ _

theorem createdEntry_append_of_lt (h : ThinkingBudgetStateHolder) (a : AddedRequest)
    (hk : k < added.length) :
    h.createdEntry (added ++ [a]) k = h.createdEntry added k := by
  rw [createdEntry, createdEntry, List.getElem?_append_left hk, take_append_of_le_length hk.le]

theorem createdEntry_append_length (h : ThinkingBudgetStateHolder) (added : List AddedRequest)
    (a : AddedRequest) : h.createdEntry (added ++ [a]) added.length =
      a.params.thinkingTokenBudget.map fun budget =>
        (added.foldl addState h).initStateEntry a.promptTokIds budget a.outputTokIds := by
  simp [createdEntry]

theorem createdEntries_append (h : ThinkingBudgetStateHolder) (added : List AddedRequest)
    (a : AddedRequest) : h.createdEntries (added ++ [a]) =
      h.createdEntries added ++ [(a.index, a.params.thinkingTokenBudget.map fun budget =>
        (added.foldl addState h).initStateEntry a.promptTokIds budget a.outputTokIds)] := by
  unfold createdEntries
  rw [mapIdx_append]
  congr 1
  · refine mapIdx_eq_mapIdx_iff.mpr fun k hk => ?_
    rw [createdEntry_append_of_lt h a hk]
  · simp only [mapIdx_cons, mapIdx_nil, Nat.zero_add]
    rw [createdEntry_append_length]

theorem foldl_addState_get? (h : ThinkingBudgetStateHolder) (added : List AddedRequest) :
    (added.foldl addState h).state.get? = fill h.state.get? (h.createdEntries added) := by
  induction added using List.reverseRecOn with
  | nil => rfl
  | append_singleton added a ih =>
    rw [foldl_append, createdEntries_append, fill_append, ← ih]
    funext k
    simp only [foldl_cons, foldl_nil, addState]
    cases a.params.thinkingTokenBudget with
    | none => simp [Function.update_apply]
    | some budget => simp [Function.update_apply]

/-- One move of `sync_batch`, on the level of rows. -/
def moveRows (S : ℕ → Option BudgetEntry) : SlotUpdate.Moved → ℕ → Option BudgetEntry
  | (i1, i2, .swap) =>
    let S' := if (S i1).isSome then Function.update S i2 (S i1) else S
    if (S i2).isSome then Function.update S' i1 (S i2) else S'
  | (i1, i2, .unidirectional) =>
    let popped := Function.update S i1 none
    if (S i1).isSome then Function.update popped i2 (S i1) else popped

theorem moveState_get? (h : ThinkingBudgetStateHolder) (m : SlotUpdate.Moved) :
    (h.moveState m).state.get? = moveRows h.state.get? m := by
  obtain ⟨i1, i2, direction⟩ := m
  funext k
  unfold moveState moveRows
  cases direction with
  | swap =>
    cases h1 : h.state.get? i1 <;> cases h2 : h.state.get? i2 <;>
      by_cases hk1 : k = i1 <;> by_cases hk2 : k = i2 <;> simp_all
  | unidirectional =>
    cases h1 : h.state.get? i1 <;> by_cases hk1 : k = i1 <;> by_cases hk2 : k = i2 <;> simp_all

theorem foldl_moveState_get? (h : ThinkingBudgetStateHolder) (moved : List SlotUpdate.Moved) :
    (moved.foldl moveState h).state.get? = moved.foldl moveRows h.state.get? := by
  induction moved generalizing h with
  | nil => rfl
  | cons m moved ih => rw [foldl_cons, foldl_cons, ih, moveState_get?]

theorem moveRows_swap {i1 i2 : ℕ} (h : (S i1).isSome = (S i2).isSome) :
    moveRows S (i1, i2, .swap) = move none S (i1, i2, .swap) := by
  rw [move, RowArray.swapRow, moveRows]
  funext k
  cases h1 : S i1 <;> cases h2 : S i2 <;> by_cases hk1 : k = i1 <;> by_cases hk2 : k = i2 <;>
    simp_all

theorem moveRows_unidirectional {i1 i2 : ℕ} (hne : i1 ≠ i2) (h : (S i1).isSome ∨ S i2 = none) :
    moveRows S (i1, i2, .unidirectional) = move none S (i1, i2, .unidirectional) := by
  rw [move, moveRows]
  funext k
  cases h1 : S i1 <;> by_cases hk1 : k = i1 <;> by_cases hk2 : k = i2 <;> simp_all

variable {T : ℕ → Option BudgetEntry} {moved : List SlotUpdate.Moved}

theorem moveRows_congr {e : ℕ} {m : SlotUpdate.Moved} (ha : m.1 ≠ e) (hb : m.2.1 ≠ e)
    (h : ∀ k, k ≠ e → S k = T k) :
    (∀ k, k ≠ e → moveRows S m k = moveRows T m k) ∧ moveRows S m e = S e := by
  obtain ⟨i1, i2, direction⟩ := m
  have h1 := h i1 ha
  have h2 := h i2 hb
  have ha' : e ≠ i1 := Ne.symm ha
  have hb' : e ≠ i2 := Ne.symm hb
  constructor
  · intro k hk
    cases direction with
    | swap =>
      simp only [moveRows, h1, h2]
      split <;> split <;> simp only [Function.update_apply, h k hk]
    | unidirectional =>
      simp only [moveRows, h1]
      split <;> simp only [Function.update_apply, h k hk]
  · cases direction with
    | swap =>
      simp only [moveRows]
      split <;> split <;> simp [ha', hb']
    | unidirectional =>
      simp only [moveRows]
      split <;> simp [ha', hb']

theorem foldl_moveRows_congr {e : ℕ} (hmoved : Untouched moved e) (h : ∀ k, k ≠ e → S k = T k) :
    (∀ k, k ≠ e → moved.foldl moveRows S k = moved.foldl moveRows T k) ∧
      moved.foldl moveRows S e = S e := by
  induction moved generalizing S T with
  | nil => exact ⟨h, rfl⟩
  | cons m moved ih =>
    obtain ⟨ha, hb⟩ := hmoved m mem_cons_self
    obtain ⟨hstep, hself⟩ := moveRows_congr ha hb h
    obtain ⟨hrest, hrestSelf⟩ := ih (fun m' hm' => hmoved m' (mem_cons_of_mem m hm')) hstep
    exact ⟨hrest, hrestSelf.trans hself⟩

/-- The entries of the rows after the records of a step. -/
def syncedRows (S : ℕ → Option BudgetEntry) (created : List (ℕ × Option BudgetEntry))
    (removed : List ℕ) (moved : List SlotUpdate.Moved) : ℕ → Option BudgetEntry :=
  moved.foldl moveRows (clear none (fill S created) removed)

theorem syncBatch_get? (h : ThinkingBudgetStateHolder) (u : BatchUpdate)
    (hfresh : ∀ a ∈ u.added, a.index ∉ u.removed) :
    (h.syncBatch u).state.get? =
      syncedRows h.state.get? (h.createdEntries u.added) u.removed u.moved := by
  obtain ⟨hmaker, hclear⟩ := foldl_removeState u.removed h
  rw [syncBatch, foldl_moveState_get?, foldl_addState_get?, hclear, hmaker.createdEntries_eq,
    syncedRows, fill_clear]
  intro e he
  obtain ⟨k, hk, rfl⟩ := mem_mapIdx.mp he
  exact hfresh _ (getElem_mem hk)

/-- A slide that `sync_batch` follows; the row that it fills is not emptied any more. -/
theorem syncedRows_slide {created : List (ℕ × Option BudgetEntry)} {removed removed' : List ℕ}
    {last empty : ℕ} (hne : last ≠ empty) (hmem : ∀ k, k ∈ removed' ↔ k ∈ removed ∧ k ≠ empty)
    (hmoved : Untouched moved empty) (hfresh : ∀ e ∈ created, e.1 ≠ empty)
    (hsync : syncedRows S created removed moved = applyRecords none S created removed moved)
    (hok : (applyRecords none S created removed moved last).isSome ∨ S empty = none) :
    syncedRows S created removed' (moved ++ [(last, empty, .unidirectional)]) =
      applyRecords none S created removed' (moved ++ [(last, empty, .unidirectional)]) := by
  have hclear : ∀ k, k ≠ empty → clear none (fill S created) removed' k =
      clear none (fill S created) removed k := by
    intro k hk
    simp only [clear, hmem k, ne_eq, hk, not_false_eq_true, and_true]
  obtain ⟨hsame, hself⟩ := foldl_moveRows_congr hmoved hclear
  have hvacant : clear none (fill S created) removed' empty = S empty := by
    rw [clear, if_neg fun h => ((hmem empty).mp h).2 rfl]
    exact fill_of_not_mem hfresh
  rw [syncedRows, applyRecords_slide none S created hne hmem hmoved, ← hsync, foldl_append]
  have hmove := moveRows_unidirectional (S := moved.foldl moveRows
    (clear none (fill S created) removed')) hne (by
      rw [hsame last hne, hself, hvacant]
      rw [← hsync] at hok
      exact hok)
  rw [foldl_cons, foldl_nil, hmove, syncedRows]
  funext k
  simp only [move, Function.update_apply]
  by_cases hkl : k = last
  · simp [hkl]
  · by_cases hke : k = empty
    · simp [hke, hne.symm, hsame last hne]
    · simp [hkl, hke, hsame k hke]

theorem initStateEntry_serial (h : ThinkingBudgetStateHolder)
    (promptTokIds : Option (List TokenId)) (budget : ℤ) (outputTokIds : ListRef) :
    (h.initStateEntry promptTokIds budget outputTokIds).serial = h.created := by
  unfold initStateEntry
  split
  · rfl
  · dsimp only
    split <;> rfl

theorem created_addState (h : ThinkingBudgetStateHolder) (a : AddedRequest) :
    (h.addState a).created =
      h.created + if a.params.thinkingTokenBudget.isSome then 1 else 0 := by
  unfold addState
  split
  · rename_i hbudget
    rw [hbudget]
    rfl
  · rename_i hbudget
    rw [hbudget]
    rfl

theorem created_le_foldl (h : ThinkingBudgetStateHolder) (added : List AddedRequest) :
    h.created ≤ (added.foldl addState h).created := by
  induction added generalizing h with
  | nil => exact le_rfl
  | cons a added ih =>
    have hstep := created_addState h a
    exact le_trans (by omega) (ih (h.addState a))

theorem created_take_le (h : ThinkingBudgetStateHolder) (added : List AddedRequest) {l : ℕ}
    (hkl : k ≤ l) :
    ((added.take k).foldl addState h).created ≤ ((added.take l).foldl addState h).created := by
  have htake : added.take l = added.take k ++ (added.drop k).take (l - k) := by
    rw [← take_add, Nat.add_sub_cancel' hkl]
  rw [htake, foldl_append]
  exact created_le_foldl _ _

theorem createdEntry_serial (he : h.createdEntry added k = some e) :
    e.serial = ((added.take k).foldl addState h).created ∧
      ((added.take (k + 1)).foldl addState h).created = e.serial + 1 := by
  obtain ⟨a, ha, he⟩ := Option.bind_eq_some_iff.mp he
  obtain ⟨budget, hbudget, rfl⟩ := Option.map_eq_some_iff.mp he
  rw [initStateEntry_serial]
  refine ⟨rfl, ?_⟩
  rw [take_add_one, ha, Option.toList_some, foldl_append, foldl_cons,
    foldl_nil, created_addState, hbudget]
  rfl

theorem createdEntry_inj {l : ℕ} {e' : BudgetEntry} (he : h.createdEntry added k = some e)
    (he' : h.createdEntry added l = some e') (hserial : e.serial = e'.serial) : k = l := by
  obtain ⟨hk, hk1⟩ := createdEntry_serial he
  obtain ⟨hl, hl1⟩ := createdEntry_serial he'
  rcases lt_trichotomy k l with hlt | heq | hlt
  · have := created_take_le h added (show k + 1 ≤ l from hlt)
    omega
  · exact heq
  · have := created_take_le h added (show l + 1 ≤ k from hlt)
    omega

theorem createdEntry_bounds (he : h.createdEntry added k = some e) :
    h.created ≤ e.serial ∧ e.serial < (added.foldl addState h).created := by
  obtain ⟨hk, hk1⟩ := createdEntry_serial he
  have hle := created_le_foldl h (added.take k)
  have hlt : k < added.length := by
    obtain ⟨a, ha, -⟩ := Option.bind_eq_some_iff.mp he
    exact (List.getElem?_eq_some_iff.mp ha).1
  have hall := created_take_le h added (show k + 1 ≤ added.length from hlt)
  rw [take_length] at hall
  omega

theorem created_moveState (moved : List SlotUpdate.Moved) (h : ThinkingBudgetStateHolder) :
    (moved.foldl moveState h).created = h.created := by
  induction moved generalizing h with
  | nil => rfl
  | cons m moved ih =>
    rw [foldl_cons, ih]
    obtain ⟨i1, i2, direction⟩ := m
    unfold moveState
    cases direction with
    | swap => rfl
    | unidirectional =>
      dsimp only
      split <;> rfl

theorem syncBatch_created (h : ThinkingBudgetStateHolder) (u : BatchUpdate) :
    (h.syncBatch u).created = (u.added.foldl addState h).created := by
  rw [syncBatch, created_moveState]
  exact ((foldl_removeState u.removed h).1.foldl_addState u.added).2.2

end ThinkingBudgetStateHolder

end Vllm.Worker
