import Vllm.Lib.RowArray

/-! State kept per slot and changed only through records, which are applied in one go: first the
filled slots, then the cleared ones, then the moves. -/
namespace SlotUpdate

inductive Direction where
  | unidirectional | swap
  deriving DecidableEq, Repr

abbrev Moved := ℕ × ℕ × Direction

variable {α β : Type*}

def fill (S : ℕ → α) (added : List (ℕ × α)) : ℕ → α :=
  added.foldl (fun S e => Function.update S e.1 e.2) S

def clear (d : α) (S : ℕ → α) (removed : List ℕ) : ℕ → α :=
  fun i => if i ∈ removed then d else S i

def move (d : α) (S : ℕ → α) : Moved → ℕ → α
  | (a, b, .unidirectional) => Function.update (Function.update S b (S a)) a d
  | (a, b, .swap) => RowArray.swapRow S a b

def applyMoves (d : α) (S : ℕ → α) (moved : List Moved) : ℕ → α := moved.foldl (move d) S

/-- The slots after the records `added`, `removed` and `moved`; `d` stands in an empty slot. -/
def applyRecords (d : α) (S : ℕ → α) (added : List (ℕ × α)) (removed : List ℕ)
    (moved : List Moved) : ℕ → α :=
  applyMoves d (clear d (fill S added) removed) moved

/-- No move of the list has slot `i` at either end. -/
def Untouched (moved : List Moved) (i : ℕ) : Prop := ∀ m ∈ moved, m.1 ≠ i ∧ m.2.1 ≠ i

theorem fill_append (S : ℕ → α) (added : List (ℕ × α)) (e : ℕ × α) :
    fill S (added ++ [e]) = Function.update (fill S added) e.1 e.2 := by
  simp [fill]

theorem applyMoves_append (d : α) (S : ℕ → α) (moved : List Moved) (m : Moved) :
    applyMoves d S (moved ++ [m]) = move d (applyMoves d S moved) m := by
  simp [applyMoves]

section
variable (d : α) (S : ℕ → α) (added : List (ℕ × α)) (removed : List ℕ)
include d S added removed

/-- A step that exchanges two slots last. -/
theorem applyRecords_swap (moved : List Moved) (a b : ℕ) :
    applyRecords d S added removed (moved ++ [(a, b, .swap)]) =
      RowArray.swapRow (applyRecords d S added removed moved) a b :=
  applyMoves_append d _ moved (a, b, .swap)

theorem applyRecords_no_moves :
    applyRecords d S added removed [] = clear d (fill S added) removed := rfl

end

theorem fill_of_not_mem {S : ℕ → α} {added : List (ℕ × α)} {i : ℕ}
    (h : ∀ e ∈ added, e.1 ≠ i) : fill S added i = S i := by
  induction added generalizing S with
  | nil => rfl
  | cons e added ih =>
    rw [fill, List.foldl_cons]
    refine (ih fun e' he' => h e' (List.mem_cons_of_mem e he')).trans ?_
    rw [Function.update_of_ne (h e List.mem_cons_self).symm]

/-- Slots that are not cleared may be filled before or after the others are. -/
theorem fill_clear (d : α) (S : ℕ → α) {added : List (ℕ × α)} {removed : List ℕ}
    (h : ∀ e ∈ added, e.1 ∉ removed) :
    fill (clear d S removed) added = clear d (fill S added) removed := by
  induction added generalizing S with
  | nil => rfl
  | cons e added ih =>
    have hstep : Function.update (clear d S removed) e.1 e.2 =
        clear d (Function.update S e.1 e.2) removed := by
      funext k
      by_cases hk : k = e.1
      · subst hk
        simp [clear, h e List.mem_cons_self]
      · simp [clear, hk]
    rw [fill, List.foldl_cons, hstep]
    exact ih (Function.update S e.1 e.2) fun e' he' => h e' (List.mem_cons_of_mem e he')

/-- A slot that is filled leaves the list of the cleared ones. -/
theorem applyRecords_fill (d : α) (S : ℕ → α) (added : List (ℕ × α)) {removed removed' : List ℕ}
    {i : ℕ} (v : α) (hmem : ∀ k, k ∈ removed' ↔ k ∈ removed ∧ k ≠ i) :
    applyRecords d S (added ++ [(i, v)]) removed' [] =
      Function.update (applyRecords d S added removed []) i v := by
  funext k
  simp only [applyRecords_no_moves, clear, fill_append]
  by_cases hk : k = i
  · subst hk
    rw [if_neg (fun h => ((hmem k).mp h).2 rfl), Function.update_self, Function.update_self]
  · rw [Function.update_of_ne hk, Function.update_of_ne hk]
    simp only [clear, hmem k, ne_eq, hk, not_false_eq_true, and_true]

theorem move_congr {d : α} {S T : ℕ → α} {e : ℕ} {m : Moved} (ha : m.1 ≠ e) (hb : m.2.1 ≠ e)
    (h : ∀ k, k ≠ e → S k = T k) : ∀ k, k ≠ e → move d S m k = move d T m k := by
  intro k hk
  obtain ⟨a, b, dir⟩ := m
  cases dir with
  | unidirectional =>
    by_cases hka : k = a
    · subst hka
      simp [move]
    · simp only [move, Function.update_of_ne hka]
      by_cases hkb : k = b
      · subst hkb
        simp [h a ha]
      · simp [hkb, h k hk]
  | swap =>
    simp only [move, RowArray.swapRow_apply]
    refine h _ ?_
    rw [Ne, Equiv.swap_apply_eq_iff, Equiv.swap_apply_of_ne_of_ne (Ne.symm ha) (Ne.symm hb)]
    exact hk

theorem applyMoves_congr {d : α} {S T : ℕ → α} {e : ℕ} {moved : List Moved}
    (hmoved : Untouched moved e) (h : ∀ k, k ≠ e → S k = T k) :
    ∀ k, k ≠ e → applyMoves d S moved k = applyMoves d T moved k := by
  induction moved generalizing S T with
  | nil => exact h
  | cons m rest ih =>
    obtain ⟨ha, hb⟩ := hmoved m List.mem_cons_self
    exact ih (fun m' hm' => hmoved m' (List.mem_cons_of_mem m hm')) (move_congr ha hb h)

/-- A cleared slot into which another one is moved leaves the list of the cleared ones. -/
theorem applyRecords_slide (d : α) (S : ℕ → α) (added : List (ℕ × α))
    {removed removed' : List ℕ} {moved : List Moved} {a e : ℕ} (hne : a ≠ e)
    (hmem : ∀ k, k ∈ removed' ↔ k ∈ removed ∧ k ≠ e) (hmoved : Untouched moved e) :
    applyRecords d S added removed' (moved ++ [(a, e, .unidirectional)]) =
      move d (applyRecords d S added removed moved) (a, e, .unidirectional) := by
  have hclear : ∀ k, k ≠ e → clear d (fill S added) removed' k =
      clear d (fill S added) removed k := by
    intro k hk
    simp only [clear, hmem k, ne_eq, hk, not_false_eq_true, and_true]
  have hsame := applyMoves_congr (d := d) hmoved hclear
  funext k
  rw [applyRecords, applyMoves_append]
  simp only [move, applyRecords]
  by_cases hka : k = a
  · subst hka
    simp
  · rw [Function.update_of_ne hka, Function.update_of_ne hka]
    by_cases hke : k = e
    · subst hke
      simp [hsame a hne]
    · rw [Function.update_of_ne hke, Function.update_of_ne hke]
      exact hsame k hke

theorem move_const (d : α) (m : Moved) : move d (fun _ => d) m = fun _ => d := by
  obtain ⟨a, b, dir⟩ := m
  funext k
  cases dir with
  | unidirectional =>
    simp only [move, Function.update_apply]
    split
    · rfl
    · split <;> rfl
  | swap => simp only [move, RowArray.swapRow_apply]

/-- Clearing and moving slots that are all empty changes nothing. -/
theorem applyMoves_clear_const (d : α) (removed : List ℕ) (moved : List Moved) :
    applyMoves d (clear d (fun _ => d) removed) moved = fun _ => d := by
  have hclear : clear d (fun _ => d) removed = fun _ => d := by
    funext k
    simp [clear]
  rw [hclear]
  induction moved with
  | nil => rfl
  | cons m moved ih =>
    have hstep := move_const d m
    rw [applyMoves, List.foldl_cons, hstep]
    exact ih

theorem move_comp (f : α → β) (d : α) (S : ℕ → α) (m : Moved) (i : ℕ) :
    f (move d S m i) = move (f d) (fun k => f (S k)) m i := by
  obtain ⟨a, b, dir⟩ := m
  cases dir with
  | unidirectional =>
    simp only [move, Function.update_apply]
    split
    · rfl
    · split <;> rfl
  | swap => simp only [move, RowArray.swapRow_apply]

theorem applyMoves_comp (f : α → β) (d : α) (S : ℕ → α) (moved : List Moved) (i : ℕ) :
    f (applyMoves d S moved i) = applyMoves (f d) (fun k => f (S k)) moved i := by
  induction moved generalizing S with
  | nil => rfl
  | cons m rest ih =>
    have hstep : (fun k => f (move d S m k)) = move (f d) (fun k => f (S k)) m :=
      funext fun k => move_comp f d S m k
    have hrest := ih (move d S m)
    rw [hstep] at hrest
    exact hrest

theorem fill_comp (f : α → β) (S : ℕ → α) (added : List (ℕ × α)) (i : ℕ) :
    f (fill S added i) = fill (fun k => f (S k)) (added.map fun e => (e.1, f e.2)) i := by
  induction added generalizing S with
  | nil => rfl
  | cons e rest ih =>
    have hstep : (fun k => f (Function.update S e.1 e.2 k)) =
        Function.update (fun k => f (S k)) e.1 (f e.2) := by
      funext k
      simp only [Function.update_apply]
      split <;> rfl
    have hrest := ih (Function.update S e.1 e.2)
    rw [hstep] at hrest
    exact hrest

/-- The records carry contents around without looking at them. -/
theorem applyRecords_comp (f : α → β) (d : α) (S : ℕ → α) (added : List (ℕ × α))
    (removed : List ℕ) (moved : List Moved) (i : ℕ) :
    f (applyRecords d S added removed moved i) =
      applyRecords (f d) (fun k => f (S k)) (added.map fun e => (e.1, f e.2)) removed moved i := by
  rw [applyRecords, applyMoves_comp f, applyRecords]
  congr 1
  funext k
  simp only [clear]
  split
  · rfl
  · exact fill_comp f S added k

end SlotUpdate
