import Vllm.Lib.Dict

/-! A relation kept as a dictionary of nonempty lists: adding a pair, removing one, and dropping
a key. -/
namespace Multimap
variable {κ ν : Type} [DecidableEq κ]

/-- The lists hold the pairs of `R`, each once, and none of them is empty. -/
structure Represents (d : Dict κ (List ν)) (R : κ → ν → Prop) : Prop where
  nonempty : ∀ {k l}, d.get? k = some l → l ≠ []
  nodup : ∀ k, (d.getD k []).Nodup
  mem : ∀ {k v}, v ∈ d.getD k [] ↔ R k v

variable {d : Dict κ (List ν)} {R R' : κ → ν → Prop} {k : κ} {v : ν}

theorem Represents.empty : Represents (Dict.empty : Dict κ (List ν)) fun _ _ => False where
  nonempty h := by simp at h
  nodup k := by simp [Dict.getD]
  mem := by simp [Dict.getD]

theorem Represents.congr (h : Represents d R) (hR : ∀ k v, R k v ↔ R' k v) : Represents d R' where
  nonempty := h.nonempty
  nodup := h.nodup
  mem := h.mem.trans (hR _ _)

theorem getD_set (k x : κ) (l : List ν) :
    (d.set k l).getD x [] = if x = k then l else d.getD x [] := by
  by_cases hx : x = k
  · simp [Dict.getD, hx]
  · simp [Dict.getD, hx]

theorem getD_erase (k x : κ) : (d.erase k).getD x [] = if x = k then [] else d.getD x [] := by
  by_cases hx : x = k
  · simp [Dict.getD, hx]
  · simp [Dict.getD, hx]

theorem Represents.add (h : Represents d R) (hnew : ¬R k v) :
    Represents (d.set k (d.getD k [] ++ [v])) fun x w => R x w ∨ (x = k ∧ w = v) where
  nonempty := by
    intro x l hl
    rw [Dict.get?_set] at hl
    split at hl
    · cases hl
      simp
    · exact h.nonempty hl
  nodup := by
    intro x
    rw [getD_set]
    split
    · refine List.Nodup.append (h.nodup k) (List.nodup_singleton v) ?_
      rw [List.disjoint_singleton]
      exact fun hmem => hnew (h.mem.mp hmem)
    · exact h.nodup x
  mem := by
    intro x w
    rw [getD_set]
    split
    · rename_i hx
      subst hx
      rw [List.mem_append, h.mem, List.mem_singleton]
      simp
    · rename_i hx
      rw [h.mem]
      simp [hx]

/-- Dropping a key drops its pairs. -/
theorem Represents.erase (h : Represents d R) (k : κ) :
    Represents (d.erase k) fun x w => R x w ∧ x ≠ k where
  nonempty := by
    intro x l hl
    rw [Dict.get?_erase] at hl
    split at hl
    · cases hl
    · exact h.nonempty hl
  nodup := by
    intro x
    rw [getD_erase]
    split
    · exact List.nodup_nil
    · exact h.nodup x
  mem := by
    intro x w
    rw [getD_erase]
    split
    · rename_i hx
      simp [hx]
    · rename_i hx
      rw [h.mem]
      simp [hx]

variable [DecidableEq ν]

/-- The dictionary without a pair. -/
def remove (d : Dict κ (List ν)) (k : κ) (v : ν) : Dict κ (List ν) :=
  let rest := (d.getD k []).erase v
  if rest = [] then d.erase k else d.set k rest

theorem getD_remove (k x : κ) (v : ν) :
    (remove d k v).getD x [] = if x = k then (d.getD k []).erase v else d.getD x [] := by
  unfold remove
  by_cases hrest : (d.getD k []).erase v = []
  · rw [if_pos hrest, getD_erase, hrest]
  · rw [if_neg hrest, getD_set]

theorem Represents.remove (h : Represents d R) (k : κ) (v : ν) :
    Represents (remove d k v) fun x w => R x w ∧ ¬(x = k ∧ w = v) where
  nonempty := by
    intro x l hl
    unfold Multimap.remove at hl
    dsimp only at hl
    split at hl
    · rw [Dict.get?_erase] at hl
      split at hl
      · cases hl
      · exact h.nonempty hl
    · rename_i hrest
      rw [Dict.get?_set] at hl
      split at hl
      · cases hl
        exact hrest
      · exact h.nonempty hl
  nodup := by
    intro x
    rw [getD_remove]
    split
    · exact (h.nodup k).erase v
    · exact h.nodup x
  mem := by
    intro x w
    rw [getD_remove]
    split
    · rename_i hx
      subst hx
      rw [(h.nodup x).mem_erase_iff, h.mem]
      simp [and_comm]
    · rename_i hx
      rw [h.mem]
      simp [hx]

end Multimap
