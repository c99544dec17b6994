import Mathlib.Data.Int.Log
import Mathlib.Data.Rat.Floor
import Mathlib.Tactic

/-! Storing a number in a single-precision array: the nearest binary32 value, ties to even,
and which numbers it takes to zero. The range above the largest finite value is left out. -/
namespace Float32

def roundHalfEven (q : ℚ) : ℤ :=
  if q - ⌊q⌋ < 1 / 2 then ⌊q⌋
  else if 1 / 2 < q - ⌊q⌋ then ⌊q⌋ + 1
  else if ⌊q⌋ % 2 = 0 then ⌊q⌋
  else ⌊q⌋ + 1

/-- The exponent of the last place: 23 below the leading one, and −149 among the subnormals. -/
def lastPlace (q : ℚ) : ℤ := max (Int.log 2 |q|) (-126) - 23

def ofRat (q : ℚ) : ℚ := roundHalfEven (q / 2 ^ lastPlace q) * 2 ^ lastPlace q

theorem roundHalfEven_eq_zero_iff {q : ℚ} : roundHalfEven q = 0 ↔ |q| ≤ 1 / 2 := by
  have hfloor := Int.floor_le q
  have hlt := Int.lt_floor_add_one q
  rw [abs_le]
  constructor
  · intro h
    unfold roundHalfEven at h
    split at h
    · rename_i hr
      rw [h] at hr hfloor
      push_cast at hr hfloor
      constructor <;> linarith
    · split at h
      · rename_i hr
        have hq : ⌊q⌋ = -1 := by omega
        rw [hq] at hr hlt
        push_cast at hr hlt
        constructor <;> linarith
      · rename_i hr1 hr2
        have hr : q - ⌊q⌋ = 1 / 2 := le_antisymm (not_lt.mp hr2) (not_lt.mp hr1)
        split at h
        · rw [h] at hr
          push_cast at hr
          constructor <;> linarith
        · have hq : ⌊q⌋ = -1 := by omega
          rw [hq] at hr
          push_cast at hr
          constructor <;> linarith
  · rintro ⟨hlo, hhi⟩
    by_cases hq : 0 ≤ q
    · have h0 : ⌊q⌋ = 0 := Int.floor_eq_zero_iff.mpr ⟨hq, by linarith⟩
      unfold roundHalfEven
      rw [h0]
      push_cast
      rw [if_neg (show ¬ (1 / 2 : ℚ) < q - 0 by linarith)]
      simp
    · have h1 : ⌊q⌋ = -1 := by
        rw [Int.floor_eq_iff]
        push_cast
        constructor <;> linarith
      unfold roundHalfEven
      rw [h1]
      push_cast
      rw [if_neg (show ¬ q - -1 < 1 / 2 by linarith)]
      simp

/-- Only numbers up to half of the smallest subnormal are stored as zero. -/
theorem ofRat_eq_zero_iff {q : ℚ} : ofRat q = 0 ↔ |q| ≤ 2 ^ (-150 : ℤ) := by
  have hpos : (0 : ℚ) < 2 ^ lastPlace q := zpow_pos (by norm_num) _
  have hhalf : ofRat q = 0 ↔ |q| ≤ 2 ^ (lastPlace q - 1) := by
    rw [ofRat, mul_eq_zero, or_iff_left hpos.ne', Int.cast_eq_zero, roundHalfEven_eq_zero_iff,
      abs_div, abs_of_pos hpos, div_le_iff₀ hpos, zpow_sub_one₀ (by norm_num)]
    ring_nf
  rw [hhalf]
  by_cases hq : q = 0
  · subst hq
    simp only [abs_zero]
    exact ⟨fun _ => by positivity, fun _ => by positivity⟩
  have habs : 0 < |q| := abs_pos.mpr hq
  have hlog : (2 : ℚ) ^ Int.log 2 |q| ≤ |q| := by
    have := Int.zpow_log_le_self (b := 2) (by norm_num) habs
    exact_mod_cast this
  by_cases hsub : Int.log 2 |q| ≤ -126
  · have hlast : lastPlace q - 1 = -150 := by
      rw [lastPlace, max_eq_right hsub]
      norm_num
    rw [hlast]
  · have hnot : ∀ k : ℤ, k < Int.log 2 |q| → ¬ |q| ≤ 2 ^ k := by
      intro k hk hle
      have hlt : (2 : ℚ) ^ k < 2 ^ Int.log 2 |q| := zpow_lt_zpow_right₀ (by norm_num) hk
      linarith
    have hlast : lastPlace q - 1 < Int.log 2 |q| := by
      rw [lastPlace, max_eq_left (by omega)]
      omega
    exact iff_of_false (hnot _ hlast) (hnot _ (by omega))

@[simp] theorem ofRat_zero : ofRat 0 = 0 := ofRat_eq_zero_iff.mpr (by simp)

end Float32
