import Mathlib.Data.List.Basic
import Mathlib.Data.List.Nodup
import Mathlib.Data.List.Perm.Basic
import Mathlib.Tactic

/-! Loops that a grid of threads shares by striding, and plain writes that the threads
make to one memory in an unspecified order. -/
namespace GridLoop

/-- Division rounded up. -/
def ceilDiv (x y : ℕ) : ℕ := (x + y - 1) / y

/-- The indices of `for (i = start; i < bound; i += stride)`. -/
def stridedLoop (start stride bound : ℕ) : List ℕ :=
  (List.range (ceilDiv (bound - start) stride)).map (start + · * stride)

/-- All the indices that `threads` threads visit, thread by thread. -/
def gridLoop (threads bound : ℕ) : List ℕ :=
  (List.range threads).flatMap fun tid => stridedLoop tid threads bound

variable {x y threads : ℕ}

theorem lt_ceilDiv_iff {k : ℕ} (hy : 0 < y) : k < ceilDiv x y ↔ k * y < x := by
  rw [ceilDiv, Nat.lt_iff_add_one_le, Nat.le_div_iff_mul_le hy, Nat.add_mul]
  omega

theorem le_ceilDiv_mul (hy : 0 < y) : x ≤ ceilDiv x y * y := by
  by_contra h
  exact lt_irrefl _ ((lt_ceilDiv_iff hy).mpr (not_le.mp h))

theorem ceilDiv_mul_lt (hy : 0 < y) : ceilDiv x y * y < x + y := by
  have := Nat.div_mul_le_self (x + y - 1) y
  rw [ceilDiv]
  omega

theorem ceilDiv_le_self (hy : 0 < y) : ceilDiv x y ≤ x := by
  by_contra h
  have hlt := (lt_ceilDiv_iff hy).mp (not_le.mp h)
  have hle := Nat.le_mul_of_pos_right x hy
  omega

theorem mem_stridedLoop {start stride bound i : ℕ} (hs : 0 < stride) :
    i ∈ stridedLoop start stride bound ↔ ∃ k, i = start + k * stride ∧ i < bound := by
  simp only [stridedLoop, List.mem_map, List.mem_range, lt_ceilDiv_iff hs]
  constructor
  · rintro ⟨k, hk, rfl⟩
    exact ⟨k, rfl, by omega⟩
  · rintro ⟨k, rfl, hk⟩
    exact ⟨k, by omega, rfl⟩

theorem mem_gridLoop {bound i : ℕ} (ht : 0 < threads) : i ∈ gridLoop threads bound ↔ i < bound := by
  simp only [gridLoop, List.mem_flatMap, List.mem_range, mem_stridedLoop ht]
  constructor
  · rintro ⟨tid, -, k, -, hi⟩
    exact hi
  · intro hi
    have hdiv := Nat.mod_add_div i threads
    exact ⟨i % threads, Nat.mod_lt i ht, i / threads, by rw [Nat.mul_comm]; omega, hi⟩

theorem nodup_gridLoop (bound : ℕ) (ht : 0 < threads) : (gridLoop threads bound).Nodup := by
  refine List.nodup_flatMap.mpr ⟨fun tid _ => ?_, ?_⟩
  · refine List.nodup_range.map fun a b hab => ?_
    exact Nat.eq_of_mul_eq_mul_right ht (by simpa using hab)
  · refine List.Pairwise.imp_of_mem ?_ List.nodup_range
    intro a b ha hb hab i hia hib
    obtain ⟨k, rfl, -⟩ := (mem_stridedLoop ht).mp hia
    obtain ⟨k', hk', -⟩ := (mem_stridedLoop ht).mp hib
    have hmod := congrArg (· % threads) hk'
    simp only [Nat.add_mul_mod_self_right, Nat.mod_eq_of_lt (List.mem_range.mp ha),
      Nat.mod_eq_of_lt (List.mem_range.mp hb)] at hmod
    exact hab hmod

/-- The grid visits every index once. -/
theorem gridLoop_perm (bound : ℕ) (ht : 0 < threads) :
    (gridLoop threads bound).Perm (List.range bound) := by
  refine (List.perm_ext_iff_of_nodup (nodup_gridLoop bound ht) List.nodup_range).mpr fun i => ?_
  rw [mem_gridLoop ht, List.mem_range]

section Writes
variable {V : Type}

/-- Writes performed one after another. -/
def writeAll (mem : ℕ → V) (writes : List (ℕ × V)) : ℕ → V :=
  writes.foldl (fun mem w => Function.update mem w.1 w.2) mem

theorem writeAll_of_notMem (mem : ℕ → V) {writes : List (ℕ × V)} {c : ℕ}
    (h : ∀ v, (c, v) ∉ writes) : writeAll mem writes c = mem c := by
  induction writes generalizing mem with
  | nil => rfl
  | cons w writes ih =>
    have hne : c ≠ w.1 := fun e => h w.2 (by simp [e])
    have := ih (Function.update mem w.1 w.2) fun v hv => h v (List.mem_cons_of_mem _ hv)
    simpa [writeAll, hne] using this

/-- A cell that is written one value only holds it in the end, whatever the order. -/
theorem writeAll_of_mem {mem : ℕ → V} {writes : List (ℕ × V)} {c : ℕ} {v : V}
    (hmem : (c, v) ∈ writes) (honly : ∀ v', (c, v') ∈ writes → v' = v) :
    writeAll mem writes c = v := by
  induction writes generalizing mem with
  | nil => simp at hmem
  | cons w writes ih =>
    by_cases hrest : ∃ v', (c, v') ∈ writes
    · obtain ⟨v', hv'⟩ := hrest
      obtain rfl := honly v' (List.mem_cons_of_mem _ hv')
      exact ih hv' fun v'' h => honly v'' (List.mem_cons_of_mem _ h)
    · have hw : w = (c, v) := by
        rcases List.mem_cons.mp hmem with h | h
        · exact h.symm
        · exact absurd ⟨v, h⟩ hrest
      have := writeAll_of_notMem (Function.update mem w.1 w.2) fun v' h => hrest ⟨v', h⟩
      simpa [writeAll, hw] using this

/-- The same value written to every visited cell. -/
theorem writeAll_const {mem : ℕ → V} {cells : List ℕ} {v : V} {c : ℕ} (hc : c ∈ cells) :
    writeAll mem (cells.map (·, v)) c = v :=
  writeAll_of_mem (List.mem_map.mpr ⟨c, hc, rfl⟩) fun v' h => by
    obtain ⟨c', -, h⟩ := List.mem_map.mp h
    exact (Prod.mk.inj h).2.symm

/-- A loop that writes some of the cells it visits. -/
theorem foldl_write {A : Type} (key : A → ℕ) (value : A → Option V) (mem : ℕ → V) (l : List A) :
    l.foldl (fun mem a => match value a with
      | some v => Function.update mem (key a) v
      | none => mem) mem = writeAll mem (l.filterMap fun a => (value a).map (key a, ·)) := by
  induction l generalizing mem with
  | nil => rfl
  | cons a l ih =>
    rw [List.foldl_cons, ih]
    cases hv : value a with
    | none => rw [List.filterMap_cons_none (by rw [hv]; rfl)]
    | some v =>
      rw [List.filterMap_cons_some (by rw [hv]; rfl)]
      rfl

/-- A loop that copies cells it does not visit into some of the cells it visits. -/
theorem foldl_copy (source : ℕ → Option ℕ) (mem : ℕ → V) {l : List ℕ}
    (h : ∀ c ∈ l, ∀ c', source c = some c' → c' ∉ l) (x : ℕ) :
    l.foldl (fun mem c => match source c with
      | some c' => Function.update mem c (mem c')
      | none => mem) mem x = if x ∈ l then mem ((source x).getD x) else mem x := by
  induction l generalizing mem with
  | nil => rfl
  | cons c l ih =>
    rw [List.foldl_cons, ih _ fun a ha a' ha' hmem =>
      h a (List.mem_cons_of_mem _ ha) a' ha' (List.mem_cons_of_mem _ hmem)]
    have hother : ∀ y, y ≠ c → (match source c with
        | some c' => Function.update mem c (mem c')
        | none => mem) y = mem y := by
      intro y hy
      cases source c with
      | none => rfl
      | some c' => exact Function.update_of_ne hy _ _
    have hvisited : (match source c with
        | some c' => Function.update mem c (mem c')
        | none => mem) c = mem ((source c).getD c) := by
      cases source c with
      | none => rfl
      | some c' => exact Function.update_self _ _ _
    by_cases hxc : x = c
    · subst hxc
      rw [if_pos List.mem_cons_self]
      split
      · cases hs : source x with
        | none => rfl
        | some c' =>
          refine Function.update_of_ne ?_ _ _
          intro heq
          exact h x List.mem_cons_self c' hs (heq ▸ List.mem_cons_self)
      · exact hvisited
    · rw [hother x hxc]
      by_cases hmem : x ∈ l
      · rw [if_pos hmem, if_pos (List.mem_cons_of_mem _ hmem)]
        apply hother
        intro heq
        cases hs : source x with
        | none =>
          rw [hs] at heq
          exact hxc heq
        | some c' =>
          rw [hs] at heq
          exact h x (List.mem_cons_of_mem _ hmem) c' hs (heq ▸ List.mem_cons_self)
      · rw [if_neg hmem, if_neg (by simp [hxc, hmem])]

end Writes

end GridLoop
