import Mathlib.Data.List.Basic
import Mathlib.Tactic

/-! Borders of the prefixes of a list: prefixes that come again at the end. The longest border of a
prefix, found by falling back from border to border. -/
namespace Borders
variable {α : Type} {t : List α} {i v w : ℕ}

/-- The first `v` entries come again as the last of the first `i`. -/
def Border (t : List α) (i v : ℕ) : Prop := v ≤ i ∧ ∀ j < v, t[j]? = t[i - v + j]?

theorem Border.zero (t : List α) (i : ℕ) : Border t i 0 :=
  ⟨Nat.zero_le i, fun j hj => absurd hj (Nat.not_lt_zero j)⟩

/-- A border grows by one if the next entries agree. -/
theorem border_succ : Border t (i + 1) (v + 1) ↔ Border t i v ∧ t[v]? = t[i]? := by
  unfold Border
  rw [Nat.add_le_add_iff_right, Nat.add_sub_add_right]
  constructor
  · rintro ⟨hle, h⟩
    refine ⟨⟨hle, fun j hj => h j (Nat.lt_succ_of_lt hj)⟩, ?_⟩
    have hlast := h v (Nat.lt_succ_self v)
    rwa [Nat.sub_add_cancel hle] at hlast
  · rintro ⟨⟨hle, h⟩, hlast⟩
    refine ⟨hle, fun j hj => ?_⟩
    rcases Nat.lt_succ_iff_lt_or_eq.mp hj with hj | rfl
    · exact h j hj
    · rw [hlast, Nat.sub_add_cancel hle]

theorem Border.trans_iff (h : Border t i v) (hw : w ≤ v) : Border t i w ↔ Border t v w := by
  have hshift : ∀ j < w, t[v - w + j]? = t[i - w + j]? := by
    intro j hj
    rw [h.2 (v - w + j) (by omega)]
    congr 1
    have := h.1
    omega
  constructor
  · rintro ⟨-, hborder⟩
    exact ⟨hw, fun j hj => (hborder j hj).trans (hshift j hj).symm⟩
  · rintro ⟨-, hborder⟩
    exact ⟨hw.trans h.1, fun j hj => (hborder j hj).trans (hshift j hj)⟩

/-- The longest border of the first `i` that is shorter than `i`. -/
structure Longest (t : List α) (i v : ℕ) : Prop where
  border : Border t i v
  proper : v < i
  longest : ∀ w, w < i → Border t i w → w ≤ v

/-- The longest border of the longest one comes next. -/
theorem Border.fallback (h : Border t i v) (hnext : Longest t v w) :
    Border t i w ∧ ∀ u, u < v → Border t i u → u ≤ w := by
  constructor
  · exact (h.trans_iff hnext.proper.le).mpr hnext.border
  · intro u hu hborder
    exact hnext.longest u hu ((h.trans_iff hu.le).mp hborder)

end Borders
