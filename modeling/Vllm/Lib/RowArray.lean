import Mathlib.Logic.Equiv.Basic
import Mathlib.Data.List.Basic
import Mathlib.Tactic

/-! Arrays as functions of the row index: exchanging two rows, writing and copying parts of
a row, and what is known of a row after such writes. -/
namespace RowArray
variable {α : Type*}

/-- `a[i], a[j] = a[j], a[i]` -/
def swapRow (a : ℕ → α) (i j : ℕ) : ℕ → α :=
  Function.update (Function.update a i (a j)) j (a i)

theorem swapRow_apply (a : ℕ → α) (i j k : ℕ) : swapRow a i j k = a (Equiv.swap i j k) := by
  by_cases hj : k = j
  · subst hj
    rw [swapRow, Function.update_self, Equiv.swap_apply_right]
  · rw [swapRow, Function.update_of_ne hj]
    by_cases hi : k = i
    · subst hi
      rw [Function.update_self, Equiv.swap_apply_left]
    · rw [Function.update_of_ne hi, Equiv.swap_apply_of_ne_of_ne hi hj]

/-- `row[start : start + len(vals)] = vals` -/
def writeAt (row : ℕ → α) (start : ℕ) (vals : List α) : ℕ → α :=
  fun p => if start ≤ p then (vals[p - start]?).getD (row p) else row p

/-- `row[start : stop] = v` -/
def fillRange (row : ℕ → α) (start stop : ℕ) (v : α) : ℕ → α :=
  fun p => if start ≤ p ∧ p < stop then v else row p

/-- `dst[:n] = src[:n]` -/
def copyFirst (n : ℕ) (src dst : ℕ → α) : ℕ → α := fun p => if p < n then src p else dst p

/-- The first `n` entries of a row. -/
def firstEntries (n : ℕ) (row : ℕ → α) : List α := (List.range n).map row

@[simp] theorem length_firstEntries (n : ℕ) (row : ℕ → α) : (firstEntries n row).length = n := by
  simp [firstEntries]

theorem firstEntries_congr {n : ℕ} {row row' : ℕ → α} (h : ∀ p < n, row p = row' p) :
    firstEntries n row = firstEntries n row' := by
  refine List.map_congr_left fun p hp => ?_
  exact h p (List.mem_range.mp hp)

theorem firstEntries_copyFirst (n : ℕ) (src dst : ℕ → α) :
    firstEntries n (copyFirst n src dst) = firstEntries n src :=
  firstEntries_congr fun _ hp => if_pos hp

/-- Writing behind the first `n` entries extends them. -/
theorem firstEntries_writeAt (row : ℕ → α) (n : ℕ) (vals : List α) :
    firstEntries (n + vals.length) (writeAt row n vals) = firstEntries n row ++ vals := by
  refine List.ext_getElem (by simp) ?_
  intro p h1 h2
  simp only [firstEntries, List.getElem_map, List.getElem_range, writeAt]
  by_cases hp : n ≤ p
  · rw [if_pos hp, List.getElem_append_right (by simpa using hp)]
    have hlen : p - n < vals.length := by
      simp only [length_firstEntries] at h1
      omega
    simp [List.getElem?_eq_getElem hlen]
  · rw [if_neg hp, List.getElem_append_left (by simpa using hp)]
    simp

/-- What is known of a row: some of its first entries. -/
def Known (known : List (Option α)) (row : ℕ → α) : Prop :=
  ∀ p v, known[p]? = some (some v) → row p = v

/-- Knowledge of the first `n` entries: what is known of them, the others unknown. -/
def resize (n : ℕ) (known : List (Option α)) : List (Option α) :=
  known.take n ++ List.replicate (n - known.length) none

/-- Knowledge after `vals` was written at `start`. -/
def overlay (known : List (Option α)) (start : ℕ) (vals : List α) : List (Option α) :=
  known.take start ++ vals.map some ++ known.drop (start + vals.length)

@[simp] theorem length_resize (n : ℕ) (known : List (Option α)) : (resize n known).length = n := by
  simp only [resize, List.length_append, List.length_take, List.length_replicate]
  omega

theorem length_overlay {known : List (Option α)} {start : ℕ} {vals : List α}
    (h : start ≤ known.length) :
    (overlay known start vals).length = max known.length (start + vals.length) := by
  simp only [overlay, List.length_append, List.length_take, List.length_map, List.length_drop]
  omega

theorem getElem?_resize_eq_some {n p : ℕ} {known : List (Option α)} {v : α}
    (h : (resize n known)[p]? = some (some v)) : known[p]? = some (some v) := by
  rw [resize, List.getElem?_append] at h
  split at h
  · rw [List.getElem?_take] at h
    split at h
    · exact h
    · simp at h
  · rw [List.getElem?_replicate] at h
    split at h <;> simp at h

namespace Known
variable {known : List (Option α)} {row src dst : ℕ → α}

theorem nil (row : ℕ → α) : Known [] row := by
  intro p v h
  simp at h

theorem replicate_none (n : ℕ) (row : ℕ → α) : Known (List.replicate n none) row := by
  intro p v h
  rw [List.getElem?_replicate] at h
  split at h <;> simp at h

theorem resize (h : Known known row) (n : ℕ) : Known (resize n known) row :=
  fun p v hp => h p v (getElem?_resize_eq_some hp)

theorem take (h : Known known row) (n : ℕ) : Known (known.take n) row := by
  intro p v hp
  rw [List.getElem?_take] at hp
  split at hp
  · exact h p v hp
  · simp at hp

theorem writeAt {start : ℕ} (h : Known known row) (hstart : start ≤ known.length)
    (vals : List α) : Known (overlay known start vals) (writeAt row start vals) := by
  intro p v hp
  rw [overlay, List.append_assoc, List.getElem?_append, List.length_take, min_eq_left hstart] at hp
  split at hp
  · rename_i hlt
    rw [List.getElem?_take_of_lt hlt] at hp
    rw [RowArray.writeAt, if_neg (by omega)]
    exact h p v hp
  · rename_i hge
    rw [RowArray.writeAt, if_pos (by omega)]
    rw [List.getElem?_append, List.length_map] at hp
    split at hp
    · rename_i hlt
      simp only [List.getElem?_map, List.getElem?_eq_getElem hlt, Option.map_some,
        Option.some.injEq] at hp
      simp [List.getElem?_eq_getElem hlt, hp]
    · rename_i hge'
      rw [List.getElem?_drop] at hp
      rw [List.getElem?_eq_none (by omega), Option.getD_none]
      refine h p v ?_
      rwa [show start + vals.length + (p - start - vals.length) = p by omega] at hp

end Known

end RowArray
