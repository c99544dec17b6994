import Mathlib.Data.Finset.Sort
import Mathlib.Tactic

/-! Sorted arrays: the distinct values of a list in order, with the places where they first occur,
and the runs of equal keys of a list that is sorted by its keys. -/
namespace SortedRuns
variable {κ β : Type} [LinearOrder κ]

/-- The distinct values of a list in ascending order (`np.unique`). -/
def unique (l : List κ) : List κ := l.toFinset.sort (· ≤ ·)

@[simp] theorem mem_unique {l : List κ} {k : κ} : k ∈ unique l ↔ k ∈ l := by
  rw [unique, Finset.mem_sort, List.mem_toFinset]

theorem sortedLT_unique (l : List κ) : (unique l).SortedLT := Finset.sortedLT_sort _

/-- The distinct values of a list with the index of their first occurrences
(`np.unique(..., return_index=True)`). -/
def uniqueIndex (l : List κ) : List (κ × ℕ) := (unique l).map fun k => (k, l.idxOf k)

/-- The maximal runs of one key. -/
def runs : List (κ × β) → List (κ × List β)
  | [] => []
  | (k, b) :: l =>
    match runs l with
    | [] => [(k, [b])]
    | (k', bs) :: rest => if k = k' then (k, b :: bs) :: rest else (k, [b]) :: (k', bs) :: rest

theorem runs_eq_nil {l : List (κ × β)} : runs l = [] ↔ l = [] := by
  cases l with
  | nil => simp [runs]
  | cons e l =>
    obtain ⟨k, b⟩ := e
    refine ⟨?_, by simp⟩
    rw [runs]
    split
    · simp
    · split
      · simp
      · simp

/-- The keys of the runs of a sorted list ascend, and the run of a key has all its values. -/
theorem runs_sorted {l : List (κ × β)} (h : (l.map Prod.fst).Pairwise (· ≤ ·)) :
    ((runs l).map Prod.fst).Pairwise (· < ·) ∧
      (∀ k, k ∈ (runs l).map Prod.fst ↔ k ∈ l.map Prod.fst) ∧
      ∀ k bs, (k, bs) ∈ runs l → bs = (l.filter fun e => e.1 = k).map Prod.snd := by
  induction l with
  | nil => simp [runs]
  | cons e l ih =>
    obtain ⟨k, b⟩ := e
    rw [List.map_cons, List.pairwise_cons] at h
    obtain ⟨hfirst, htail⟩ := h
    obtain ⟨hkeys, hmem, hruns⟩ := ih htail
    have hle : ∀ k' bs, (k', bs) ∈ runs l → k ≤ k' := by
      intro k' bs hrun
      exact hfirst k' ((hmem k').mp (List.mem_map.mpr ⟨_, hrun, rfl⟩))
    have hother : ∀ k' bs, k ≠ k' → (k', bs) ∈ runs l →
        bs = (((k, b) :: l).filter fun e => e.1 = k').map Prod.snd := by
      intro k' bs hne hrun
      rw [List.filter_cons_of_neg (by simpa using hne)]
      exact hruns k' bs hrun
    have hnew : (∀ k' ∈ l.map Prod.fst, k ≠ k') → (l.filter fun e => e.1 = k) = [] := by
      intro hno
      rw [List.filter_eq_nil_iff]
      intro e he
      simpa using (hno e.1 (List.mem_map.mpr ⟨e, he, rfl⟩)).symm
    rw [runs]
    cases hl : runs l with
    | nil =>
      rw [runs_eq_nil] at hl
      subst hl
      simp
    | cons run rest =>
      obtain ⟨k', bs⟩ := run
      rw [hl] at hkeys hmem hruns hother hle
      rw [List.map_cons, List.pairwise_cons] at hkeys
      dsimp only
      by_cases heq : k = k'
      · subst heq
        rw [if_pos rfl]
        refine ⟨List.pairwise_cons.mpr hkeys, ?_, ?_⟩
        · intro x
          constructor
          · intro hx
            exact List.mem_cons_of_mem _ ((hmem x).mp hx)
          · intro hx
            obtain rfl | hx := List.mem_cons.mp hx
            · exact List.mem_cons_self
            · exact (hmem x).mpr hx
        · intro x xs hx
          obtain hx | hx := List.mem_cons.mp hx
          · obtain ⟨rfl, rfl⟩ := Prod.mk.inj hx
            rw [List.filter_cons_of_pos (by simp), List.map_cons, ← hruns x bs List.mem_cons_self]
          · refine hother x xs ?_ (List.mem_cons_of_mem _ hx)
            exact (hkeys.1 x (List.mem_map.mpr ⟨_, hx, rfl⟩)).ne
      · rw [if_neg heq]
        have hlt : ∀ x ∈ l.map Prod.fst, k < x := by
          intro x hx
          obtain ⟨⟨x, xs⟩, hrun, rfl⟩ := List.mem_map.mp ((hmem x).mpr hx)
          obtain hrun | hrun := List.mem_cons.mp hrun
          · obtain ⟨rfl, rfl⟩ := Prod.mk.inj hrun
            exact lt_of_le_of_ne (hle x xs List.mem_cons_self) heq
          · exact lt_of_le_of_lt (hle k' bs List.mem_cons_self)
              (hkeys.1 x (List.mem_map.mpr ⟨_, hrun, rfl⟩))
        refine ⟨?_, ?_, ?_⟩
        · refine List.pairwise_cons.mpr ⟨?_, List.pairwise_cons.mpr hkeys⟩
          intro x hx
          exact hlt x ((hmem x).mp hx)
        · intro x
          rw [List.map_cons, List.mem_cons, hmem, List.map_cons, List.mem_cons]
        · intro x xs hx
          obtain hx | hx := List.mem_cons.mp hx
          · cases hx
            rw [List.filter_cons_of_pos (by simp), hnew fun y hy => (hlt y hy).ne]
            rfl
          · refine hother x xs ?_ hx
            rintro rfl
            exact lt_irrefl _ (hlt _ ((hmem _).mp (List.mem_map.mpr ⟨_, hx, rfl⟩)))

end SortedRuns
