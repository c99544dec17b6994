import Mathlib.Tactic

/-! Runs of hits in a list: how many entries at its front are hits, and where the last run that is
long enough ends. A run that begins at the front may be shorter. -/
namespace HitRuns
variable {α : Type} (p : α → Bool)

/-- The entries from `a` up to `b` are there and are hits. -/
def Hits (l : List α) (a b : ℕ) : Prop := ∀ i, a ≤ i → i < b → ∃ x, l[i]? = some x ∧ p x = true

/-- The `size` entries before `r` are hits, or all of them if there are fewer. -/
def EndsAt (size : ℕ) (l : List α) (r : ℕ) : Prop := Hits p l (r - size) r

def reach : List α → ℕ
  | [] => 0
  | x :: l => if p x then reach l + 1 else 0

/-- The scan from the end, over the reversed list, with `n` hits in a row so far. -/
def lastEnd (size : ℕ) : List α → ℕ → ℕ
  | [], n => n
  | x :: l, n =>
    if p x then if n + 1 = size then l.length + size else lastEnd size l (n + 1)
    else lastEnd size l 0

variable {p} {l : List α} {a b r size : ℕ}

theorem Hits.mono {a' b' : ℕ} (h : Hits p l a b) (ha : a ≤ a') (hb : b' ≤ b) : Hits p l a' b' :=
  fun i hi hlt => h i (ha.trans hi) (hlt.trans_le hb)

theorem Hits.le_length (h : Hits p l a b) (hab : a < b) : b ≤ l.length := by
  rcases h (b - 1) (by omega) (by omega) with ⟨x, hx, -⟩
  have hlt := (List.getElem?_eq_some_iff.mp hx).1
  omega

theorem hits_reach (l : List α) : Hits p l 0 (reach p l) := by
  induction l with
  | nil => exact fun i _ hi => absurd hi (Nat.not_lt_zero i)
  | cons x l ih =>
    intro i _ hi
    unfold reach at hi
    split_ifs at hi with hx
    · cases i with
      | zero => exact ⟨x, rfl, hx⟩
      | succ i => exact ih i (Nat.zero_le i) (Nat.lt_of_succ_lt_succ hi)
    · exact absurd hi (Nat.not_lt_zero i)

theorem Hits.le_reach (h : Hits p l 0 r) : r ≤ reach p l := by
  induction l generalizing r with
  | nil =>
    by_contra hlt
    rcases h 0 le_rfl (by omega) with ⟨x, hx, -⟩
    cases hx
  | cons x l ih =>
    cases r with
    | zero => exact Nat.zero_le _
    | succ r =>
      rcases h 0 le_rfl (Nat.succ_pos r) with ⟨y, hy, hhit⟩
      cases hy
      have hrest : Hits p l 0 r := fun i _ hi => h (i + 1) (Nat.zero_le _) (by omega)
      unfold reach
      rw [if_pos hhit]
      exact Nat.succ_le_succ (ih hrest)

theorem lastEnd_spec {rest tail : List α} {n : ℕ} (hn : n < size)
    (hl : l = rest.reverse ++ tail) (hhits : Hits p l rest.length (rest.length + n))
    (hlast : ∀ r, rest.length + n < r → ¬EndsAt p size l r) :
    EndsAt p size l (lastEnd p size rest n) ∧
      ∀ r, lastEnd p size rest n < r → ¬EndsAt p size l r := by
  induction rest generalizing n tail with
  | nil =>
    unfold lastEnd
    rw [List.length_nil, zero_add] at hhits hlast
    exact ⟨hhits.mono (Nat.zero_le _) le_rfl, hlast⟩
  | cons x rest ih =>
    rw [List.reverse_cons, List.append_assoc] at hl
    have hx : l[rest.length]? = some x := by
      rw [hl, List.getElem?_append_right (by rw [List.length_reverse]), List.length_reverse,
        Nat.sub_self]
      rfl
    rw [List.length_cons] at hhits hlast
    unfold lastEnd
    by_cases hhit : p x = true
    · have hmore : Hits p l rest.length (rest.length + (n + 1)) := by
        intro i hi hlt
        by_cases heq : i = rest.length
        · exact ⟨x, heq ▸ hx, hhit⟩
        · exact hhits i (by omega) (by omega)
      rw [if_pos hhit]
      by_cases hsize : n + 1 = size
      · rw [if_pos hsize, ← hsize]
        constructor
        · show Hits p l (rest.length + (n + 1) - (n + 1)) (rest.length + (n + 1))
          rwa [Nat.add_sub_cancel]
        · intro r hr
          rw [hsize]
          exact hlast r (by omega)
      · rw [if_neg hsize]
        exact ih (by omega) hl hmore fun r hr => hlast r (by omega)
    · rw [if_neg hhit]
      apply ih (by omega) hl
      · exact fun i hi hlt => absurd hlt (by omega)
      · intro r hr hends
        by_cases hfar : rest.length + 1 + n < r
        · exact hlast r hfar hends
        · rcases hends rest.length (by omega) (by omega) with ⟨y, hy, hyhit⟩
          rw [hx] at hy
          cases hy
          exact hhit hyhit

theorem endsAt_lastEnd (l : List α) (hsize : 0 < size) :
    EndsAt p size l (lastEnd p size l.reverse 0) ∧
      ∀ r, EndsAt p size l r → r ≤ lastEnd p size l.reverse 0 := by
  have hlast : ∀ r, l.reverse.length + 0 < r → ¬EndsAt p size l r := by
    intro r hr hends
    rw [List.length_reverse, add_zero] at hr
    have hle : r ≤ l.length := Hits.le_length hends (by omega)
    omega
  have hrest : l = l.reverse.reverse ++ [] := by simp
  have hspec := lastEnd_spec hsize hrest (fun i hi hlt => absurd hlt (by omega)) hlast
  exact ⟨hspec.1, fun r hr => not_lt.mp fun hlt => hspec.2 r hlt hr⟩

/-- The end of the hits at the front, or of the last run of some size. -/
def hitEnd (p : α → Bool) (l : List α) : Option ℕ → ℕ
  | none => reach p l
  | some size => lastEnd p size l.reverse 0

/-- Where hits must begin that end at `r`. -/
def firstHit (r : ℕ) : Option ℕ → ℕ
  | none => 0
  | some size => r - size

theorem hits_hitEnd (l : List α) {size : Option ℕ} (hsize : ∀ n, size = some n → 0 < n) :
    Hits p l (firstHit (hitEnd p l size) size) (hitEnd p l size) ∧
      ∀ r, Hits p l (firstHit r size) r → r ≤ hitEnd p l size := by
  cases size with
  | none => exact ⟨hits_reach l, fun r hr => hr.le_reach⟩
  | some n => exact endsAt_lastEnd l (hsize n rfl)

theorem Hits.drop_take {s e : ℕ} (h : Hits p ((l.drop s).take e) a b) :
    Hits p l (s + a) (s + b) := by
  intro i hi hlt
  rcases h (i - s) (by omega) (by omega) with ⟨x, hx, hhit⟩
  rw [List.getElem?_take] at hx
  split_ifs at hx
  rw [List.getElem?_drop, Nat.add_sub_cancel' (by omega)] at hx
  exact ⟨x, hx, hhit⟩

theorem Hits.of_drop_take {s e : ℕ} (h : Hits p l (s + a) (s + b)) (hb : b ≤ e) :
    Hits p ((l.drop s).take e) a b := by
  intro i hi hlt
  rcases h (s + i) (by omega) (by omega) with ⟨x, hx, hhit⟩
  refine ⟨x, ?_, hhit⟩
  rw [List.getElem?_take, if_pos (by omega), List.getElem?_drop]
  exact hx

end HitRuns
