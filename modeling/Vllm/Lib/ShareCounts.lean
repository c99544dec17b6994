import Mathlib.Tactic

/-! Integer shares of divisible loads. Giving one more share at a time to the load that is largest
per share reaches the least possible maximum per share. -/
namespace ShareCounts
variable {ι K : Type*} [Field K] [LinearOrder K]
variable {load : ι → K} {cnt other : ι → ℕ}

/-- No load per share exceeds what a load with several shares had before its last one. -/
def Greedy (load : ι → K) (cnt : ι → ℕ) : Prop :=
  ∀ j, 2 ≤ cnt j → ∀ i, load i / cnt i ≤ load j / ((cnt j - 1 : ℕ) : K)

/-- The maximum per share under `cnt` is at most the one under `other`. -/
def MaxLe (load : ι → K) (cnt other : ι → ℕ) : Prop :=
  ∀ i, ∃ j, load i / cnt i ≤ load j / other j

theorem greedy_one (load : ι → K) : Greedy load fun _ => 1 :=
  fun _ htwo => absurd htwo (by simp)

variable [IsStrictOrderedRing K]

theorem div_le_div_of_count {a : K} (ha : 0 ≤ a) {m n : ℕ} (hm : 1 ≤ m) (hmn : m ≤ n) :
    a / n ≤ a / m := by
  have hpos : (0 : K) < m := by exact_mod_cast hm
  have hle : (m : K) ≤ n := by exact_mod_cast hmn
  exact div_le_div_of_nonneg_left ha hpos hle

/-- One more share for the load that is largest per share. -/
theorem Greedy.increment [DecidableEq ι] (h : Greedy load cnt) (hload : ∀ i, 0 ≤ load i)
    (hcnt : ∀ i, 1 ≤ cnt i) {m : ι} (hmax : ∀ i, load i / cnt i ≤ load m / cnt m) :
    Greedy load (Function.update cnt m (cnt m + 1)) := by
  have hless : ∀ i, load i / (Function.update cnt m (cnt m + 1) i : ℕ) ≤ load i / cnt i := by
    intro i
    apply div_le_div_of_count (hload i) (hcnt i)
    by_cases him : i = m
    · rw [him, Function.update_self]
      exact Nat.le_succ _
    · rw [Function.update_of_ne him]
  intro j htwo i
  apply (hless i).trans
  by_cases hjm : j = m
  · rw [hjm, Function.update_self, Nat.add_sub_cancel]
    exact hmax i
  · rw [Function.update_of_ne hjm] at htwo ⊢
    exact h j htwo i

/-- Shares with the same total cannot all be fewer where one is more. -/
theorem exists_fewer [Fintype ι] (hsum : ∑ i, cnt i = ∑ i, other i) {e : ι}
    (he : cnt e < other e) : ∃ j, other j < cnt j := by
  by_contra hnone
  push Not at hnone
  have hlt : ∑ i, cnt i < ∑ i, other i :=
    Finset.sum_lt_sum (fun i _ => hnone i) ⟨e, Finset.mem_univ e, he⟩
  omega

/-- The exchange argument: where another distribution gives a load more shares, it gives one with
several shares fewer, and that one was the largest before its last share. -/
theorem Greedy.maxLe [Fintype ι] (h : Greedy load cnt) (hload : ∀ i, 0 ≤ load i)
    (hother : ∀ i, 1 ≤ other i) (hsum : ∑ i, cnt i = ∑ i, other i) : MaxLe load cnt other := by
  intro e
  rcases Nat.lt_or_ge (cnt e) (other e) with hmore | hless
  · rcases exists_fewer hsum hmore with ⟨j, hj⟩
    have htwo : 2 ≤ cnt j := by
      have := hother j
      omega
    have hlast : other j ≤ cnt j - 1 := by omega
    use j
    calc load e / cnt e ≤ load j / ((cnt j - 1 : ℕ) : K) := h j htwo e
      _ ≤ load j / other j := div_le_div_of_count (hload j) (hother j) hlast
  · exact ⟨e, div_le_div_of_count (hload e) (hother e) hless⟩

end ShareCounts
