import Mathlib.Tactic

/-! A scan from right to left for a run of `c` marked positions with a permitted end. It finds the
rightmost one, where a run that reaches position 0 may be shorter. -/
namespace RightmostRun

/-- The `c` positions up to `e`, or all of them if there are fewer, are marked. -/
def Run (marked : ℕ → Bool) (c e : ℕ) : Prop := ∀ j, e + 1 - c ≤ j → j ≤ e → marked j = true

/-- The rightmost permitted end of a run below `M`. -/
structure Best (marked ends : ℕ → Bool) (c M e : ℕ) : Prop where
  lt : e < M
  isEnd : ends e = true
  run : Run marked c e
  rightmost : ∀ e', e < e' → e' < M → ends e' = true → ¬Run marked c e'

/-- The scan at position `i` with a run of `num` positions from `i` on: the number of positions up
to the end of the run, and whether the run is full. -/
def scan (marked ends : ℕ → Bool) (c : ℕ) : ℕ → ℕ → ℕ × Bool
  | 0, num => (num, false)
  | i + 1, num =>
    if marked i then
      if num = 0 ∧ ends i = false then scan marked ends c i 0
      else if num + 1 ≥ c then (i + (num + 1), true)
      else scan marked ends c i (num + 1)
    else scan marked ends c i 0

variable {marked ends : ℕ → Bool} {c M i num e : ℕ}

theorem Best.unique {e' : ℕ} (h : Best marked ends c M e) (h' : Best marked ends c M e') :
    e = e' := by
  rcases lt_trichotomy e e' with hlt | heq | hgt
  · exact absurd h'.run (h.rightmost e' hlt h'.lt h'.isEnd)
  · exact heq
  · exact absurd h.run (h'.rightmost e hgt h.lt h.isEnd)

/-- What holds when the scan has come down to `i` with a run of `num` positions. -/
structure Scanned (marked ends : ℕ → Bool) (c M i num : ℕ) : Prop where
  filled : ∀ j, i ≤ j → j < i + num → marked j = true
  short : num < c
  le : i + num ≤ M
  lastEnd : 0 < num → ends (i + num - 1) = true
  none : ∀ e, i + num ≤ e → e < M → ends e = true → ¬Run marked c e

theorem Scanned.miss (h : Scanned marked ends c M (i + 1) num) (hmiss : marked i = false) :
    Scanned marked ends c M i 0 := by
  have hshort := h.short
  have hle := h.le
  refine ⟨fun j hj hj' => absurd hj' (by omega), by omega, by omega, fun h0 => absurd h0 (by omega),
    fun e he heM hend hrun => ?_⟩
  by_cases hright : i + 1 + num ≤ e
  · exact h.none e hright heM hend hrun
  · have hi := hrun i (by omega) (by omega)
    rw [hmiss] at hi
    cases hi

theorem Scanned.skip (h : Scanned marked ends c M (i + 1) 0) (hend : ends i = false) :
    Scanned marked ends c M i 0 := by
  have hshort := h.short
  have hle := h.le
  refine ⟨fun j hj hj' => absurd hj' (by omega), hshort, by omega, fun h0 => absurd h0 (by omega),
    fun e he heM hend' hrun => ?_⟩
  rcases Nat.eq_or_lt_of_le he with rfl | hlt
  · rw [Nat.add_zero, hend] at hend'
    cases hend'
  · exact h.none e (by omega) heM hend' hrun

/-- The run grows by a marked position, where a new run starts at a permitted end. -/
theorem Scanned.grow (h : Scanned marked ends c M (i + 1) num) (hi : marked i = true)
    (hend : num = 0 → ends i = true) : (∀ j, i ≤ j → j < i + (num + 1) → marked j = true) ∧
      i + (num + 1) ≤ M ∧ ends (i + num) = true ∧
      ∀ e, i + (num + 1) ≤ e → e < M → ends e = true → ¬Run marked c e := by
  have hle := h.le
  refine ⟨fun j hj hj' => ?_, by omega, ?_, fun e he => h.none e (by omega)⟩
  · rcases Nat.eq_or_lt_of_le hj with rfl | hlt
    · exact hi
    · exact h.filled j hlt (by omega)
  · rcases Nat.eq_zero_or_pos num with rfl | hpos
    · exact hend rfl
    · have hlast := h.lastEnd hpos
      rwa [show i + 1 + num - 1 = i + num by omega] at hlast

/-- The scan stops at the rightmost end of a run, or there is none. -/
theorem Scanned.scan (h : Scanned marked ends c M i num) :
    (scan marked ends c i num = (0, false) ∧ ∀ e < M, ends e = true → ¬Run marked c e) ∨
      ∃ e, Best marked ends c M e ∧ scan marked ends c i num = (e + 1, decide (c ≤ e + 1)) := by
  induction i generalizing num with
  | zero =>
    rcases Nat.eq_zero_or_pos num with rfl | hpos
    · left
      exact ⟨rfl, fun e he => h.none e (Nat.zero_le _) he⟩
    · right
      have hshort := h.short
      have hle := h.le
      refine ⟨num - 1, ⟨by omega, by simpa using h.lastEnd hpos, fun j _ hj => h.filled j (by omega)
        (by omega), fun e' he' => h.none e' (by omega)⟩, ?_⟩
      rw [RightmostRun.scan, Nat.sub_add_cancel hpos, decide_eq_false (by omega)]
  | succ i ih =>
    rw [RightmostRun.scan]
    cases hi : marked i with
    | false => exact ih (h.miss hi)
    | true =>
      rw [if_pos rfl]
      split_ifs with hskip hfull
      · rcases hskip with ⟨rfl, hend⟩
        exact ih (h.skip hend)
      all_goals
        have hend : num = 0 → ends i = true := by
          intro hzero
          by_contra hne
          exact hskip ⟨hzero, by simpa using hne⟩
        rcases h.grow hi hend with ⟨hmarked, hle, hlast, hnone⟩
        have hshort := h.short
      · right
        refine ⟨i + num, ⟨by omega, hlast, fun j hj hj' => hmarked j (by omega) (by omega),
          fun e' he' => hnone e' (by omega)⟩, ?_⟩
        rw [decide_eq_true (by omega)]
        rfl
      · refine ih ⟨hmarked, by omega, hle, fun _ => ?_, hnone⟩
        rwa [show i + (num + 1) - 1 = i + num by omega]

theorem scan_spec (hc : 0 < c) (M : ℕ) :
    (scan marked ends c M 0 = (0, false) ∧ ∀ e < M, ends e = true → ¬Run marked c e) ∨
      ∃ e, Best marked ends c M e ∧ scan marked ends c M 0 = (e + 1, decide (c ≤ e + 1)) :=
  Scanned.scan ⟨fun j hj hj' => absurd hj' (by omega), hc, le_rfl, fun h0 => absurd h0 (by omega),
    fun e he he' => absurd he' (by omega)⟩

/-- No run at all is asked for: one position is looked for all the same. -/
theorem scan_zero (marked ends : ℕ → Bool) (i num : ℕ) :
    scan marked ends 0 i num = scan marked ends 1 i num := by
  induction i generalizing num with
  | zero => rfl
  | succ i ih =>
    rw [scan, scan, ih 0]
    simp

end RightmostRun
