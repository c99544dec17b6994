import Mathlib.Tactic

/-! Where one list stands in another: the first position from a given one on, and the last one
among the windows of its length. A stream is cut where no occurrence of some tokens is cut in two:
the longest end that may still become a token is held back. -/
namespace Occurrences
variable {α β : Type*}

/-- `sub` stands at position `i` of `s`. -/
def OccursAt (sub s : List α) (i : ℕ) : Prop := sub <+: s.drop i

instance [DecidableEq α] (sub s : List α) (i : ℕ) : Decidable (OccursAt sub s i) :=
  inferInstanceAs (Decidable (sub <+: s.drop i))

variable {i : ℕ} {s sub : List α}

theorem OccursAt.le (h : OccursAt sub s i) (hne : sub ≠ []) : i + sub.length ≤ s.length := by
  have hlen := h.length_le
  have hpos := List.length_pos_iff.mpr hne
  rw [List.length_drop] at hlen
  omega

theorem occursAt_drop {a : ℕ} : OccursAt sub (s.drop a) i ↔ OccursAt sub s (a + i) := by
  rw [OccursAt, OccursAt, List.drop_drop]

/-- An occurrence in a prefix stays one. -/
theorem OccursAt.append (h : OccursAt sub s i) (hi : i ≤ s.length) (t : List α) :
    OccursAt sub (s ++ t) i := by
  rw [OccursAt, List.drop_append_of_le_length hi]
  exact h.trans (List.prefix_append _ _)

theorem OccursAt.of_append {t : List α} (h : OccursAt sub (s ++ t) i)
    (hi : i + sub.length ≤ s.length) : OccursAt sub s i := by
  rw [OccursAt, List.drop_append_of_le_length (by omega)] at h
  exact List.prefix_of_prefix_length_le h (List.prefix_append _ _) (by
    rw [List.length_drop]
    omega)

variable [DecidableEq α]

/-- The first position from `start` on where `sub` stands. -/
def findFrom (s sub : List α) (start : ℕ) : Option ℕ :=
  (List.range' start (s.length + 1 - start)).find? fun i => OccursAt sub s i

theorem findFrom_eq_some {start : ℕ} : findFrom s sub start = some i ↔
    (start ≤ i ∧ i ≤ s.length ∧ OccursAt sub s i) ∧
      ∀ j, start ≤ j → j < i → ¬OccursAt sub s j := by
  rw [findFrom, List.find?_eq_some_iff_getElem]
  simp only [decide_eq_true_eq, List.length_range', List.getElem_range', Nat.one_mul,
    Bool.not_eq_true', decide_eq_false_iff_not]
  constructor
  · rintro ⟨hoccurs, k, hk, rfl, hbefore⟩
    refine ⟨⟨by omega, by omega, hoccurs⟩, fun j hj hlt => ?_⟩
    have hjk := hbefore (j - start) (by omega)
    rwa [Nat.add_sub_cancel' hj] at hjk
  · rintro ⟨⟨hstart, hle, hoccurs⟩, hbefore⟩
    refine ⟨hoccurs, i - start, by omega, by omega, fun j hj => ?_⟩
    exact hbefore (start + j) (by omega) (by omega)

theorem findFrom_eq_none {start : ℕ} : findFrom s sub start = none ↔
    ∀ i, start ≤ i → i ≤ s.length → ¬OccursAt sub s i := by
  rw [findFrom, List.find?_eq_none]
  simp only [List.mem_range', Nat.one_mul, decide_eq_true_eq]
  constructor
  · exact fun h i hstart hle => h i ⟨i - start, by omega, by omega⟩
  · rintro h _ ⟨k, hk, rfl⟩
    exact h _ (by omega) (by omega)

/-- All runs of `n` consecutive entries. -/
def windows (n : ℕ) (l : List α) : List (List α) :=
  (List.range (l.length + 1 - n)).map fun p => (l.drop p).take n

/-- The last position whose entry satisfies `p`. -/
def rposition (p : β → Bool) (l : List β) : Option ℕ :=
  (l.reverse.findIdx? p).map (l.length - 1 - ·)

theorem rposition_eq_some {p : β → Bool} {l : List β} {k : ℕ} : rposition p l = some k ↔
    (∃ x, l[k]? = some x ∧ p x) ∧ ∀ j x, k < j → l[j]? = some x → p x = false := by
  have hrev : ∀ j < l.length, l.reverse[l.length - 1 - j]? = l[j]? := by
    intro j hj
    rw [List.getElem?_reverse (by omega)]
    congr 1
    omega
  simp only [rposition, Option.map_eq_some_iff, List.findIdx?_eq_some_iff_getElem]
  constructor
  · rintro ⟨i, ⟨hi, hp, hbefore⟩, rfl⟩
    rw [List.length_reverse] at hi
    refine ⟨⟨_, ?_, hp⟩, fun j x hj hx => ?_⟩
    · rw [← hrev _ (by omega), ← List.getElem?_eq_getElem]
      congr 1
      omega
    · have hjlt : j < l.length := (List.getElem?_eq_some_iff.mp hx).1
      have hno := hbefore (l.length - 1 - j) (by omega)
      have hget := hrev j hjlt
      rw [hx, List.getElem?_eq_some_iff] at hget
      obtain ⟨hlt, hget⟩ := hget
      rw [hget] at hno
      simpa using hno
  · rintro ⟨⟨x, hx, hp⟩, hafter⟩
    have hk : k < l.length := (List.getElem?_eq_some_iff.mp hx).1
    refine ⟨l.length - 1 - k, ⟨by rw [List.length_reverse]; omega, ?_, ?_⟩, by omega⟩
    · have hget := hrev k hk
      rw [hx, List.getElem?_eq_some_iff] at hget
      obtain ⟨_, hget⟩ := hget
      rw [hget]
      exact hp
    · intro j hj
      rw [Bool.not_eq_true]
      refine hafter (l.length - 1 - j) _ (by omega) ?_
      rw [← hrev _ (by omega), ← List.getElem?_eq_getElem]
      congr 1
      omega

/-- Among the windows of its length, `sub` is found where it last stands. -/
theorem rposition_windows {l : List α} (hne : sub ≠ []) {k : ℕ} :
    rposition (· = sub) (windows sub.length l) = some k ↔
      OccursAt sub l k ∧ ∀ j, k < j → ¬OccursAt sub l j := by
  have hwindow : ∀ j x, (windows sub.length l)[j]? = some x ↔
      j + sub.length ≤ l.length ∧ x = (l.drop j).take sub.length := by
    intro j x
    rw [windows, List.getElem?_map, Option.map_eq_some_iff]
    constructor
    · rintro ⟨i, hi, rfl⟩
      obtain ⟨hlt, rfl⟩ := List.getElem?_eq_some_iff.mp hi
      rw [List.length_range] at hlt
      rw [List.getElem_range]
      exact ⟨by omega, rfl⟩
    · rintro ⟨hj, rfl⟩
      exact ⟨j, List.getElem?_range (by omega), rfl⟩
  have hoccurs : ∀ j, OccursAt sub l j ↔
      j + sub.length ≤ l.length ∧ (l.drop j).take sub.length = sub := by
    intro j
    constructor
    · exact fun h => ⟨h.le hne, (List.prefix_iff_eq_take.mp h).symm⟩
    · exact fun h => List.prefix_iff_eq_take.mpr h.2.symm
  rw [rposition_eq_some]
  simp only [hwindow, decide_eq_true_eq, decide_eq_false_iff_not, hoccurs]
  constructor
  · rintro ⟨⟨x, ⟨hk, rfl⟩, hx⟩, hafter⟩
    exact ⟨⟨hk, hx⟩, fun j hj h => hafter j _ hj ⟨h.1, rfl⟩ h.2⟩
  · rintro ⟨⟨hk, hx⟩, hafter⟩
    refine ⟨⟨_, ⟨hk, rfl⟩, hx⟩, ?_⟩
    rintro j _ hj ⟨hle, rfl⟩ heq
    exact hafter j hj ⟨hle, heq⟩

end Occurrences

namespace Holdback
open Occurrences
variable {α : Type*} {tokens : List (List α)} {d stable held text : List α} {n : ℕ}

/-- An occurrence of `d` begins before entry `n` and ends behind it. -/
def Straddles (d text : List α) (n : ℕ) : Prop :=
  ∃ i, OccursAt d text i ∧ i < n ∧ n < i + d.length

/-- The end `held` of a text is the longest one that is a proper beginning of a token. -/
structure Cut (tokens : List (List α)) (stable held : List α) : Prop where
  begins : held ≠ [] → ∃ d ∈ tokens, held <+: d
  longest : ∀ s, s <:+ stable ++ held → (∃ d ∈ tokens, s <+: d ∧ s ≠ d) → s.length ≤ held.length

/-- No end of a token begins a token. -/
def Apart (tokens : List (List α)) : Prop :=
  ∀ d ∈ tokens, ∀ d' ∈ tokens, ∀ k < d.length, 0 < k → ¬d.drop k <+: d'

instance [DecidableEq α] (tokens : List (List α)) : Decidable (Apart tokens) :=
  inferInstanceAs (Decidable (∀ d ∈ tokens, ∀ d' ∈ tokens, ∀ k < d.length, 0 < k →
    ¬d.drop k <+: d'))

/-- Whatever follows, no token stands across the end of `stable`. -/
def Clean (tokens : List (List α)) (stable held : List α) : Prop :=
  ∀ rest, ∀ d ∈ tokens, ¬Straddles d (stable ++ held ++ rest) stable.length

theorem clean_nil (tokens : List (List α)) (held : List α) : Clean tokens [] held := by
  rintro rest d hd ⟨i, -, hlt, -⟩
  exact absurd hlt (Nat.not_lt_zero i)

theorem prefix_drop_of_append {s t : List α} {k : ℕ} (h : d <+: s ++ t) (hk : k = s.length) :
    d.drop k <+: t := by
  have hdrop := h.drop k
  rwa [hk, List.drop_left, ← hk] at hdrop

/-- A token that stands across the cut would have been held back, or end as another begins. -/
theorem Cut.not_straddles (h : Cut tokens stable held) (hapart : Apart tokens) (rest : List α)
    (hd : d ∈ tokens) : ¬Straddles d (stable ++ held ++ rest) stable.length := by
  rintro ⟨i, hoccurs, hbefore, hbehind⟩
  have hsplit : stable ++ held = stable.take i ++ (stable.drop i ++ held) := by
    rw [← List.append_assoc, List.take_append_drop]
  have hdrop : (stable ++ held ++ rest).drop i = stable.drop i ++ (held ++ rest) := by
    rw [List.append_assoc, List.drop_append_of_le_length hbefore.le]
  have hlen : (stable.drop i).length = stable.length - i := List.length_drop
  unfold OccursAt at hoccurs
  rw [hdrop] at hoccurs
  rcases Nat.lt_or_ge (stable.drop i ++ held).length d.length with hlong | hshort
  · have hprefix : stable.drop i ++ held <+: d := by
      apply List.prefix_of_prefix_length_le _ hoccurs hlong.le
      rw [← List.append_assoc]
      exact List.prefix_append _ _
    have hne : stable.drop i ++ held ≠ d := fun heq => absurd hlong (by rw [heq]; exact lt_irrefl _)
    have hle := h.longest (stable.drop i ++ held) ⟨stable.take i, hsplit.symm⟩ ⟨d, hd, hprefix, hne⟩
    rw [List.length_append] at hle
    omega
  · rw [List.length_append] at hshort
    have hinner : d <+: stable.drop i ++ held := by
      apply List.prefix_of_prefix_length_le hoccurs
      · rw [← List.append_assoc]
        exact List.prefix_append _ _
      · rwa [List.length_append]
    have hrest : d.drop (stable.length - i) <+: held := prefix_drop_of_append hinner hlen.symm
    have hheld : held ≠ [] := by
      intro hnil
      rw [hnil, List.length_nil] at hshort
      omega
    rcases h.begins hheld with ⟨d', hd', hbegins⟩
    exact hapart d hd d' hd' _ (by omega) (by omega) (hrest.trans hbegins)

/-- A part of what follows already shows that nothing stands across. -/
theorem Clean.not_straddles {part rest : List α} (h : Clean tokens stable held)
    (hpart : part <+: held ++ rest) (hd : d ∈ tokens) :
    ¬Straddles d (stable ++ part) stable.length := by
  rintro ⟨i, hoccurs, hbefore, hbehind⟩
  rcases hpart with ⟨more, hmore⟩
  apply h rest d hd
  use i
  constructor
  · rw [List.append_assoc, ← hmore, ← List.append_assoc]
    exact hoccurs.append (by rw [List.length_append]; omega) more
  · exact ⟨hbefore, hbehind⟩

/-- A later cut is clean as well. -/
theorem Clean.step {more : List α} {stable' held' : List α} (h : Clean tokens stable held)
    (hapart : Apart tokens) (hcut : Cut tokens stable' held')
    (hmore : held ++ more = stable' ++ held') : Clean tokens (stable ++ stable') held' := by
  rintro rest d hd ⟨i, hoccurs, hbefore, hbehind⟩
  rw [List.length_append] at hbefore hbehind
  rcases Nat.lt_or_ge i stable.length with hold | hnew
  · apply h (more ++ rest) d hd
    use i
    constructor
    · have htext : stable ++ held ++ (more ++ rest) = stable ++ stable' ++ held' ++ rest := by
        rw [List.append_assoc stable stable', ← hmore]
        simp
      rw [htext]
      exact hoccurs
    · exact ⟨hold, by omega⟩
  · rcases Nat.exists_eq_add_of_le hnew with ⟨j, rfl⟩
    apply hcut.not_straddles hapart rest hd
    use j
    constructor
    · rw [← occursAt_drop, List.append_assoc, List.append_assoc, List.drop_left,
        ← List.append_assoc] at hoccurs
      exact hoccurs
    · exact ⟨by omega, by omega⟩

end Holdback
