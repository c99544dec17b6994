import Vllm.Lib.Dict
import Mathlib.Data.List.Pairwise

/-! Lists dealt out into groups: by a key, by every `n`-th element, and by column. Each way of
dealing keeps all elements. -/
namespace Grouping
variable {α κ : Type}

section Buckets
variable [DecidableEq κ]

/-- The elements by key, the keys in the order of their first element. -/
def buckets (f : α → κ) (l : List α) : Dict κ (List α) :=
  l.foldl (fun d x => d.set (f x) (d.getD (f x) [] ++ [x])) .empty

theorem flatten_setEntries_perm {k : κ} {x : α} {es : List (κ × List α)}
    (hnodup : (es.map Prod.fst).Nodup) :
    ((Dict.setEntries k ((es.lookup k).getD [] ++ [x]) es).map Prod.snd).flatten.Perm
      ((es.map Prod.snd).flatten ++ [x]) := by
  induction es with
  | nil => simp [Dict.setEntries]
  | cons e es ih =>
    obtain ⟨k', xs⟩ := e
    rw [List.map_cons, List.nodup_cons] at hnodup
    rw [Dict.lookup_pair_cons]
    by_cases hk : k = k'
    · subst hk
      simp only [Dict.setEntries, ↓reduceIte, Option.getD_some, List.map_cons, List.flatten_cons,
        List.append_assoc]
      exact List.Perm.append_left xs List.perm_append_comm
    · simp only [Dict.setEntries, hk, Ne.symm hk, ↓reduceIte, List.map_cons, List.flatten_cons,
        List.append_assoc]
      exact List.Perm.append_left xs (ih hnodup.2)

theorem buckets_perm (f : α → κ) (l : List α) : (buckets f l).values.flatten.Perm l := by
  have hfold : ∀ (l : List α) (d : Dict κ (List α)),
      (l.foldl (fun d x => d.set (f x) (d.getD (f x) [] ++ [x])) d).values.flatten.Perm
        (d.values.flatten ++ l) := by
    intro l
    induction l with
    | nil => simp
    | cons x l ih =>
      intro d
      refine (ih _).trans ?_
      have hset : (d.set (f x) (d.getD (f x) [] ++ [x])).values.flatten.Perm
          (d.values.flatten ++ [x]) := flatten_setEntries_perm d.nodupKeys
      simpa using hset.append_right l
  simpa [buckets, Dict.values, Dict.empty] using hfold l .empty

theorem get?_buckets (f : α → κ) (l : List α) (k : κ) :
    ((buckets f l).get? k).getD [] = l.filter (f · = k) := by
  have hfold : ∀ (l : List α) (d : Dict κ (List α)),
      ((l.foldl (fun d x => d.set (f x) (d.getD (f x) [] ++ [x])) d).get? k).getD [] =
        (d.get? k).getD [] ++ l.filter (f · = k) := by
    intro l
    induction l with
    | nil => simp
    | cons x l ih =>
      intro d
      rw [List.foldl_cons, ih, Dict.get?_set]
      by_cases hx : k = f x
      · subst hx
        simp [Dict.getD]
      · simp [hx, Ne.symm hx]
  simpa [buckets] using hfold l .empty

theorem mem_values_buckets {f : α → κ} {l xs : List α} (h : xs ∈ (buckets f l).values) :
    ∃ k, xs = l.filter (f · = k) := by
  obtain ⟨⟨k, xs'⟩, hmem, rfl⟩ := List.mem_map.mp h
  have hget := (Dict.mem_entries_iff _).mp hmem
  exact ⟨k, by rw [← get?_buckets, hget]; rfl⟩

end Buckets

section Stride

/-- `l[i::n]` -/
def stride (l : List α) (i n : ℕ) : List α :=
  (l.zipIdx.filter fun x => x.2 % n = i).map Prod.fst

theorem sum_range_ite (n k c : ℕ) :
    ((List.range n).map fun i => if k = i then c else 0).sum = if k < n then c else 0 := by
  induction n with
  | zero => simp
  | succ n ih =>
    rw [List.range_succ, List.map_append, List.sum_append, ih]
    by_cases hk : k = n
    · simp [hk]
    · have hlt : k < n + 1 ↔ k < n := by omega
      simp [hk, hlt]

/-- Elements dealt out by a number below `n`. -/
theorem flatMap_filter_perm (f : α → ℕ) {n : ℕ} {l : List α} (h : ∀ x ∈ l, f x < n) :
    ((List.range n).flatMap fun i => l.filter (f · = i)).Perm l := by
  classical
  rw [List.perm_iff_count]
  intro a
  have hcount : ∀ i, (l.filter (f · = i)).count a = if f a = i then l.count a else 0 := by
    intro i
    by_cases hi : f a = i
    · rw [if_pos hi, List.count_filter (by simp [hi])]
    · rw [if_neg hi, List.count_eq_zero]
      simp [hi]
  rw [List.count_flatMap]
  simp only [Function.comp_def, hcount, sum_range_ite]
  by_cases ha : a ∈ l
  · rw [if_pos (h a ha)]
  · simp [List.count_eq_zero_of_not_mem ha]

theorem stride_perm (l : List α) {n : ℕ} (hn : 0 < n) :
    ((List.range n).flatMap fun i => stride l i n).Perm l := by
  have hdealt := flatMap_filter_perm (fun x : α × ℕ => x.2 % n) (n := n) (l := l.zipIdx)
    fun x _ => Nat.mod_lt x.2 hn
  have hmap := hdealt.map Prod.fst
  rw [List.map_flatMap] at hmap
  have hfst : l.zipIdx.map Prod.fst = l := List.zipIdx_map_fst 0 l
  rw [hfst] at hmap
  exact hmap

end Stride

section Columns

/-- The `i`-th column holds the `i`-th elements of the rows that are long enough. -/
def column (rows : List (List α)) (i : ℕ) : List α := rows.filterMap (·[i]?)

/-- The first `m` columns. -/
def columns (m : ℕ) (rows : List (List α)) : List (List α) := (List.range m).map (column rows)

theorem flatMap_getElem?_toList {m : ℕ} {l : List α} (h : l.length ≤ m) :
    ((List.range m).flatMap fun i => l[i]?.toList) = l := by
  induction l generalizing m with
  | nil => simp
  | cons x l ih =>
    obtain ⟨m, rfl⟩ : ∃ m', m = m' + 1 := ⟨m - 1, by simp at h; omega⟩
    rw [List.range_succ_eq_map, List.flatMap_cons, List.flatMap_map]
    simpa using ih (by simpa using h)

variable {rows : List (List α)} {row : List α}

theorem columns_perm {m : ℕ} (h : ∀ row ∈ rows, row.length ≤ m) :
    (columns m rows).flatten.Perm rows.flatten := by
  rw [columns, ← List.flatMap_def]
  induction rows with
  | nil => simp [column]
  | cons row rows ih =>
    have hcons : ∀ i, column (row :: rows) i = row[i]?.toList ++ column rows i := by
      intro i
      unfold column
      cases hi : row[i]? with
      | none => simp [hi]
      | some x => simp [hi]
    rw [show column (row :: rows) = fun i => row[i]?.toList ++ column rows i from funext hcons]
    refine (List.flatMap_append_perm _ _ _).symm.trans ?_
    rw [flatMap_getElem?_toList (h row List.mem_cons_self), List.flatten_cons]
    exact (ih fun r hr => h r (List.mem_cons_of_mem row hr)).append_left row

/-- Two elements of a column come from different rows. -/
theorem column_row_unique (hnodup : rows.flatten.Nodup) {i : ℕ} {x y : α} (hrow : row ∈ rows)
    (hx : x ∈ column rows i) (hy : y ∈ column rows i) (hxrow : x ∈ row) (hyrow : y ∈ row) :
    x = y := by
  have hdisjoint := (List.nodup_flatten.mp hnodup).2
  have : Std.Symm (List.Disjoint (α := α)) := ⟨fun _ _ h _ hx hy => h hy hx⟩
  have hat : ∀ z ∈ column rows i, z ∈ row → row[i]? = some z := by
    intro z hz hzrow
    obtain ⟨row', hrow', hget⟩ := List.mem_filterMap.mp hz
    by_cases heq : row' = row
    · rw [← heq]
      exact hget
    · exact absurd hzrow (hdisjoint.forall hrow' hrow heq (List.mem_of_getElem? hget))
  exact Option.some.inj ((hat x hx hxrow).symm.trans (hat y hy hyrow))

theorem column_append (rows rows' : List (List α)) (i : ℕ) :
    column (rows ++ rows') i = column rows i ++ column rows' i := List.filterMap_append

theorem column_eq_nil {i : ℕ} (h : ∀ row ∈ rows, row.length ≤ i) : column rows i = [] := by
  rw [column, List.filterMap_eq_nil_iff]
  intro row hrow
  exact List.getElem?_eq_none (h row hrow)

theorem column_ne_nil {i : ℕ} (hrow : row ∈ rows) (hi : i < row.length) : column rows i ≠ [] := by
  intro hnil
  rw [column, List.filterMap_eq_nil_iff] at hnil
  exact absurd (List.getElem?_eq_none_iff.mp (hnil row hrow)) (Nat.not_le.mpr hi)

@[simp] theorem length_columns (m : ℕ) (rows : List (List α)) : (columns m rows).length = m := by
  simp [columns]

theorem getElem?_columns (m : ℕ) (rows : List (List α)) (i : ℕ) :
    (columns m rows)[i]? = if i < m then some (column rows i) else none := by
  by_cases hi : i < m
  · simp [columns, hi]
  · simp [columns, hi]

/-- An element is added to the last row: its column grows, or a column is added. -/
theorem columns_snoc {m : ℕ} (x : α)
    (hrows : ∀ row ∈ rows, row.length ≤ m) (hrow : row.length ≤ m) :
    (if row.length = m then columns m (rows ++ [row]) ++ [[]]
      else columns m (rows ++ [row])).modify row.length (· ++ [x]) =
      columns (max m (row.length + 1)) (rows ++ [row ++ [x]]) := by
  have hlast : ∀ i, column [row ++ [x]] i = if i = row.length then [x] else column [row] i := by
    intro i
    unfold column
    obtain hi | rfl | hi := Nat.lt_trichotomy i row.length
    · rw [if_neg (Nat.ne_of_lt hi), List.filterMap_cons, List.filterMap_cons,
        List.getElem?_append_left hi]
    · simp
    · have hnone : row[i]? = none := List.getElem?_eq_none (Nat.le_of_lt hi)
      have hnone' : (row ++ [x])[i]? = none :=
        List.getElem?_eq_none (by rw [List.length_append]; exact hi)
      simp [hnone, hnone', Nat.ne_of_gt hi]
  apply List.ext_getElem?
  intro i
  rw [List.getElem?_modify, getElem?_columns, column_append, hlast]
  by_cases hm : row.length = m
  · rw [if_pos hm, show max m (row.length + 1) = m + 1 by omega]
    obtain hi | rfl | hi := Nat.lt_trichotomy i m
    · rw [List.getElem?_append_left (by simpa using hi), getElem?_columns, if_pos hi,
        if_pos (by omega), if_neg (by omega), column_append]
      simp [show ¬ row.length = i by omega]
    · rw [List.getElem?_append_right (by simp), if_pos (by omega), if_pos hm.symm,
        column_eq_nil hrows]
      simp [hm]
    · rw [if_neg (by omega), List.getElem?_eq_none (by simp; omega)]
      rfl
  · rw [if_neg hm, show max m (row.length + 1) = m by omega, getElem?_columns, column_append]
    by_cases hi : i < m
    · rw [if_pos hi, if_pos hi]
      by_cases hlen : i = row.length
      · subst hlen
        have hnil : column [row] row.length = [] := column_eq_nil (by simp)
        simp [hnil]
      · simp [hlen, Ne.symm hlen]
    · simp [hi]

end Columns

end Grouping
