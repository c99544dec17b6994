import Mathlib.Algebra.GroupWithZero.Nat
import Mathlib.Data.List.Nodup
import Mathlib.Algebra.BigOperators.Group.List.Basic
import Mathlib.Tactic.Push
import Mathlib.Data.Multiset.MapFold
import Mathlib.Data.Multiset.UnionInter

/-! Insertion-ordered dictionaries: assigning to a known key keeps its place, a new
key goes to the end, and iteration follows this order. The entries in any order are a multiset. -/

structure Dict (κ ν : Type*) where
  entries : List (κ × ν)
  nodupKeys : (entries.map Prod.fst).Nodup
  deriving DecidableEq

namespace Dict
variable {κ ν : Type*}

def empty : Dict κ ν := ⟨[], List.nodup_nil⟩

def isEmpty (d : Dict κ ν) : Bool := d.entries.isEmpty

def size (d : Dict κ ν) : ℕ := d.entries.length

def keys (d : Dict κ ν) : List κ := d.entries.map Prod.fst

def values (d : Dict κ ν) : List ν := d.entries.map Prod.snd

/-- Without the first entries. -/
def dropFirst (d : Dict κ ν) (n : ℕ) : Dict κ ν where
  entries := d.entries.drop n
  nodupKeys := d.nodupKeys.sublist ((List.drop_sublist n d.entries).map Prod.fst)

/-- The entries in any order. -/
def bag (d : Dict κ ν) : Multiset (κ × ν) := d.entries

theorem nodup_bag (d : Dict κ ν) : (d.bag.map Prod.fst).Nodup := d.nodupKeys

theorem eq_of_entries {d d' : Dict κ ν} (h : d.entries = d'.entries) : d = d' := by
  cases d
  cases d'
  cases h
  rfl

variable [DecidableEq κ]

def get? (d : Dict κ ν) (k : κ) : Option ν := d.entries.lookup k

def getD (d : Dict κ ν) (k : κ) (default : ν) : ν := (d.get? k).getD default

def contains (d : Dict κ ν) (k : κ) : Bool := (d.get? k).isSome

def setEntries (k : κ) (v : ν) : List (κ × ν) → List (κ × ν)
  | [] => [(k, v)]
  | e :: es => if e.1 = k then (k, v) :: es else e :: setEntries k v es

variable {es : List (κ × ν)} {M : Type}

theorem mem_keys_setEntries {k x : κ} {v : ν} :
    x ∈ (setEntries k v es).map Prod.fst ↔ x = k ∨ x ∈ es.map Prod.fst := by
  induction es with
  | nil => simp [setEntries]
  | cons e es ih =>
    by_cases h : e.1 = k
    · simp [setEntries, h]
    · simp only [setEntries, h, ↓reduceIte, List.map_cons, List.mem_cons, ih]
      tauto

theorem nodup_setEntries {k : κ} {v : ν} (h : (es.map Prod.fst).Nodup) :
    ((setEntries k v es).map Prod.fst).Nodup := by
  induction es with
  | nil => simp [setEntries]
  | cons e es ih =>
    obtain ⟨he, hes⟩ := List.nodup_cons.mp h
    by_cases hk : e.1 = k
    · subst hk
      simpa [setEntries] using h
    · simp only [setEntries, hk, ↓reduceIte, List.map_cons, List.nodup_cons]
      refine ⟨fun hm => ?_, ih hes⟩
      rcases mem_keys_setEntries.mp hm with hm | hm
      · exact hk hm
      · exact he hm

def set (d : Dict κ ν) (k : κ) (v : ν) : Dict κ ν :=
  ⟨setEntries k v d.entries, nodup_setEntries d.nodupKeys⟩

/-- A dictionary from its entries, a later one of the same key in place of an earlier one. -/
def ofList (es : List (κ × ν)) : Dict κ ν := es.foldl (fun d e => d.set e.1 e.2) empty

def erase (d : Dict κ ν) (k : κ) : Dict κ ν where
  entries := d.entries.filter fun e => e.1 ≠ k
  nodupKeys := d.nodupKeys.sublist (List.filter_sublist.map _)

/-- The entry comes last. -/
def moveToEnd (d : Dict κ ν) (k : κ) : Dict κ ν :=
  match d.get? k with
  | none => d
  | some v => (d.erase k).set k v

/-- The same keys in the same order, with new values. -/
def mapValues {μ : Type*} (f : κ → ν → μ) (d : Dict κ ν) : Dict κ μ where
  entries := d.entries.map fun e => (e.1, f e.1 e.2)
  nodupKeys := by
    rw [List.map_map]
    exact d.nodupKeys

@[simp] theorem get?_empty (k : κ) : (empty : Dict κ ν).get? k = none := rfl

theorem lookup_pair_cons (x k : κ) (v : ν) (es : List (κ × ν)) :
    ((k, v) :: es).lookup x = if x = k then some v else es.lookup x := by
  rw [List.lookup_cons]
  by_cases h : x = k
  · simp [h]
  · rw [beq_eq_false_iff_ne.mpr h, if_neg h]

theorem lookup_setEntries (k x : κ) (v : ν) (es : List (κ × ν)) :
    (setEntries k v es).lookup x = if x = k then some v else es.lookup x := by
  induction es with
  | nil => exact lookup_pair_cons x k v []
  | cons e es ih =>
    obtain ⟨e1, e2⟩ := e
    by_cases hk : e1 = k
    · subst hk
      simp only [setEntries, ↓reduceIte, lookup_pair_cons]
      by_cases hx : x = e1 <;> simp [hx]
    · simp only [setEntries, hk, ↓reduceIte, lookup_pair_cons, ih]
      by_cases hx : x = e1
      · simp [hx, hk]
      · simp [hx]

@[simp] theorem get?_set (d : Dict κ ν) (k x : κ) (v : ν) :
    (d.set k v).get? x = if x = k then some v else d.get? x :=
  lookup_setEntries k x v d.entries

theorem setEntries_setEntries (k : κ) (v w : ν) (es : List (κ × ν)) :
    setEntries k w (setEntries k v es) = setEntries k w es := by
  induction es with
  | nil => simp [setEntries]
  | cons e es ih =>
    by_cases he : e.1 = k
    · simp [setEntries, he]
    · simp [setEntries, he, ih]

@[simp] theorem set_set (d : Dict κ ν) (k : κ) (v w : ν) : (d.set k v).set k w = d.set k w := by
  simp only [set, setEntries_setEntries]

theorem setEntries_of_lookup {k : κ} {v : ν} (h : es.lookup k = some v) :
    setEntries k v es = es := by
  induction es with
  | nil => simp at h
  | cons e es ih =>
    obtain ⟨k', v'⟩ := e
    rw [lookup_pair_cons] at h
    by_cases hk : k' = k
    · subst hk
      simp_all [setEntries]
    · rw [if_neg (Ne.symm hk)] at h
      simp [setEntries, hk, ih h]

theorem set_of_get? {d : Dict κ ν} {k : κ} {v : ν} (h : d.get? k = some v) : d.set k v = d := by
  simp only [set, setEntries_of_lookup h]

theorem lookup_filter_ne (k x : κ) (es : List (κ × ν)) :
    (es.filter fun e => e.1 ≠ k).lookup x = if x = k then none else es.lookup x := by
  induction es with
  | nil => simp
  | cons e es ih =>
    obtain ⟨e1, e2⟩ := e
    by_cases hk : e1 = k
    · rw [List.filter_cons_of_neg (by simp [hk]), ih, lookup_pair_cons]
      by_cases hx : x = k <;> simp [hx, hk]
    · rw [List.filter_cons_of_pos (by simp [hk]), lookup_pair_cons, lookup_pair_cons, ih]
      by_cases hx : x = e1
      · simp [hx, hk]
      · simp [hx]

@[simp] theorem get?_mapValues {μ : Type*} (f : κ → ν → μ) (d : Dict κ ν) (k : κ) :
    (d.mapValues f).get? k = (d.get? k).map (f k) := by
  rcases d with ⟨es, hd⟩
  simp only [get?, mapValues]
  clear hd
  induction es with
  | nil => rfl
  | cons e es ih =>
    rw [List.map_cons, lookup_pair_cons, lookup_pair_cons]
    by_cases hk : k = e.1
    · rw [if_pos hk, if_pos hk, hk]
      rfl
    · rw [if_neg hk, if_neg hk, ih]

section
variable (d : Dict κ ν)
include d

@[simp] theorem get?_erase (k x : κ) :
    (d.erase k).get? x = if x = k then none else d.get? x :=
  lookup_filter_ne k x d.entries

theorem mem_entries_iff {k : κ} {v : ν} : (k, v) ∈ d.entries ↔ d.get? k = some v := by
  obtain ⟨es, hd⟩ := d
  simp only [get?]
  induction es with
  | nil => simp
  | cons e es ih =>
    obtain ⟨e1, e2⟩ := e
    obtain ⟨he, hes⟩ := List.nodup_cons.mp hd
    rw [lookup_pair_cons, List.mem_cons, ih hes, Prod.mk.injEq]
    by_cases hk : k = e1
    · subst hk
      have hnone : es.lookup k ≠ some v := by
        intro h
        exact he (List.mem_map.mpr ⟨(k, v), (ih hes).mpr h, rfl⟩)
      simp [hnone, eq_comm]
    · simp [hk]

theorem isEmpty_iff : d.isEmpty = true ↔ ∀ k, d.get? k = none := by
  simp only [isEmpty, List.isEmpty_iff]
  constructor
  · intro h k
    simp [get?, h]
  · intro h
    rw [List.eq_nil_iff_forall_not_mem]
    rintro ⟨k, v⟩ hm
    rw [mem_entries_iff, h k] at hm
    exact absurd hm (by simp)

@[simp] theorem contains_set (k x : κ) (v : ν) :
    (d.set k v).contains x = true ↔ x = k ∨ d.contains x = true := by
  by_cases h : x = k <;> simp [contains, h]

@[simp] theorem contains_erase (k x : κ) :
    (d.erase k).contains x = true ↔ x ≠ k ∧ d.contains x = true := by
  by_cases h : x = k <;> simp [contains, h]

theorem isEmpty_false_iff : d.isEmpty = false ↔ ∃ k, d.contains k = true := by
  constructor
  · intro he
    by_contra hno
    push Not at hno
    have hall : d.isEmpty = true := d.isEmpty_iff.mpr fun k => by simpa [contains] using hno k
    simp [he] at hall
  · rintro ⟨k, hk⟩
    by_contra hne
    have hnone := d.isEmpty_iff.mp (by simpa using hne) k
    simp [contains, hnone] at hk

end

omit [DecidableEq κ] in
theorem size_pos_iff (d : Dict κ ν) : d.size > 0 ↔ d.isEmpty = false := by
  cases h : d.entries <;> simp [size, isEmpty, h]

theorem contains_of_mem_keys {d : Dict κ ν} {k : κ} (h : k ∈ d.keys) : d.contains k = true := by
  obtain ⟨⟨k', v⟩, hmem, rfl⟩ := List.mem_map.mp h
  rw [mem_entries_iff] at hmem
  simp [contains, hmem]

/-- The sum of `f` over the values. -/
def sumValues {M : Type} [AddCommMonoid M] (f : ν → M) (d : Dict κ ν) : M := (d.values.map f).sum

theorem sum_setEntries [AddCommMonoid M] (f : ν → M) (k : κ) (v : ν) (h : (es.map Prod.fst).Nodup) :
    ((setEntries k v es).map fun e => f e.2).sum + ((es.lookup k).map f).getD 0 =
      (es.map fun e => f e.2).sum + f v := by
  induction es with
  | nil => simp [setEntries]
  | cons e es ih =>
    obtain ⟨e1, e2⟩ := e
    obtain ⟨he, hes⟩ := List.nodup_cons.mp h
    by_cases hk : e1 = k
    · subst hk
      simp only [setEntries, ↓reduceIte, List.map_cons, List.sum_cons, lookup_pair_cons,
        Option.map_some, Option.getD_some]
      rw [add_right_comm, add_comm (f v), add_right_comm]
    · have hk' : k ≠ e1 := fun e => hk e.symm
      simp only [setEntries, hk, ↓reduceIte, List.map_cons, List.sum_cons, lookup_pair_cons, hk']
      rw [add_assoc, ih hes, add_assoc]

theorem sumValues_set [AddCommMonoid M] (f : ν → M) (d : Dict κ ν) (k : κ) (v : ν) :
    (d.set k v).sumValues f + ((d.get? k).map f).getD 0 = d.sumValues f + f v := by
  simpa [sumValues, values, set, get?, Function.comp_def] using sum_setEntries f k v d.nodupKeys

theorem sum_filter_ne [AddCommMonoid M] (f : ν → M) (k : κ) (h : (es.map Prod.fst).Nodup) :
    ((es.filter fun e => e.1 ≠ k).map fun e => f e.2).sum + ((es.lookup k).map f).getD 0 =
      (es.map fun e => f e.2).sum := by
  induction es with
  | nil => simp
  | cons e es ih =>
    obtain ⟨e1, e2⟩ := e
    obtain ⟨he, hes⟩ := List.nodup_cons.mp h
    have hrec := ih hes
    by_cases hk : e1 = k
    · subst hk
      have hnone : es.lookup e1 = none := by
        rw [List.lookup_eq_none_iff]
        intro p hp
        exact bne_iff_ne.mpr fun e => he (List.mem_map.mpr ⟨p, hp, e.symm⟩)
      rw [hnone] at hrec
      rw [List.filter_cons_of_neg (by simp)]
      simp only [lookup_pair_cons, ↓reduceIte, List.map_cons, List.sum_cons]
      simp only [Option.map_none, Option.getD_none, add_zero, Option.map_some, Option.getD_some]
        at hrec ⊢
      rw [hrec, add_comm]
    · have hk' : k ≠ e1 := fun e => hk e.symm
      rw [List.filter_cons_of_pos (by simpa using hk)]
      simp only [List.map_cons, List.sum_cons, lookup_pair_cons, hk', ↓reduceIte]
      rw [add_assoc, hrec]

theorem sumValues_erase [AddCommMonoid M] (f : ν → M) (d : Dict κ ν) (k : κ) :
    (d.erase k).sumValues f + ((d.get? k).map f).getD 0 = d.sumValues f := by
  simpa [sumValues, values, erase, get?, Function.comp_def] using sum_filter_ne f k d.nodupKeys

theorem le_sumValues (f : ν → ℕ) (d : Dict κ ν) (k : κ) :
    ((d.get? k).map f).getD 0 ≤ d.sumValues f := by
  have := d.sumValues_erase f k
  omega

/-- Two keys contribute to the sum separately. -/
theorem add_le_sumValues (f : ν → ℕ) (d : Dict κ ν) {k k' : κ} (h : k ≠ k') :
    ((d.get? k).map f).getD 0 + ((d.get? k').map f).getD 0 ≤ d.sumValues f := by
  have h1 := d.sumValues_erase f k
  have h2 := (d.erase k).le_sumValues f k'
  rw [get?_erase, if_neg h.symm] at h2
  omega

theorem keys_setEntries (k : κ) (v : ν) (es : List (κ × ν)) :
    (setEntries k v es).map Prod.fst =
      if k ∈ es.map Prod.fst then es.map Prod.fst else es.map Prod.fst ++ [k] := by
  induction es with
  | nil => simp [setEntries]
  | cons e es ih =>
    obtain ⟨e1, e2⟩ := e
    by_cases hk : e1 = k
    · simp [setEntries, hk]
    · have hk' : k ≠ e1 := fun e => hk e.symm
      simp only [setEntries, hk, ↓reduceIte, List.map_cons, ih, List.mem_cons, hk', false_or]
      split
      · rfl
      · rfl

theorem mem_keys_iff {d : Dict κ ν} {k : κ} : k ∈ d.keys ↔ d.contains k = true := by
  refine ⟨contains_of_mem_keys, ?_⟩
  intro h
  obtain ⟨v, hv⟩ := Option.isSome_iff_exists.mp h
  exact List.mem_map.mpr ⟨(k, v), d.mem_entries_iff.mpr hv, rfl⟩

/-- The sum of `f` over the keys. -/
def sumKeys (f : κ → ℕ) (d : Dict κ ν) : ℕ := (d.keys.map f).sum

omit [DecidableEq κ] in
@[simp] theorem sumKeys_empty (f : κ → ℕ) : (empty : Dict κ ν).sumKeys f = 0 := rfl

theorem sumKeys_set (f : κ → ℕ) (d : Dict κ ν) (k : κ) (v : ν) :
    (d.set k v).sumKeys f = if d.contains k then d.sumKeys f else d.sumKeys f + f k := by
  have hkeys : (d.set k v).keys = if k ∈ d.keys then d.keys else d.keys ++ [k] :=
    keys_setEntries k v d.entries
  unfold sumKeys
  rw [hkeys]
  by_cases hk : k ∈ d.keys
  · rw [if_pos hk, if_pos (mem_keys_iff.mp hk)]
  · rw [if_neg hk, if_neg (fun h => hk (mem_keys_iff.mpr h))]
    simp

theorem sumKeys_erase (f : κ → ℕ) (d : Dict κ ν) {k : κ} (hk : d.contains k = true) :
    (d.erase k).sumKeys f + f k = d.sumKeys f := by
  have hkeys : (d.erase k).keys = d.keys.filter (· ≠ k) := by
    simp [keys, erase, List.filter_map, Function.comp_def]
  have hnodup : d.keys.Nodup := d.nodupKeys
  have hperm : d.keys.Perm (k :: d.keys.filter (· ≠ k)) := by
    have herase : d.keys.erase k = d.keys.filter (· ≠ k) := by
      rw [hnodup.erase_eq_filter]
      apply List.filter_congr
      intro x _
      simp [bne, Bool.beq_eq_decide_eq]
    rw [← herase]
    exact List.perm_cons_erase (mem_keys_iff.mpr hk)
  unfold sumKeys
  rw [hkeys, (hperm.map f).sum_eq, List.map_cons, List.sum_cons, add_comm]

omit [DecidableEq κ] in
theorem size_eq_sumKeys (d : Dict κ ν) : d.size = d.sumKeys fun _ => 1 := by
  simp [size, sumKeys, keys, Function.comp_def]

theorem size_set (d : Dict κ ν) (k : κ) (v : ν) :
    (d.set k v).size = if d.contains k then d.size else d.size + 1 := by
  simp only [size_eq_sumKeys]
  exact sumKeys_set _ d k v

theorem size_erase (d : Dict κ ν) {k : κ} (hk : d.contains k = true) :
    (d.erase k).size + 1 = d.size := by
  simp only [size_eq_sumKeys]
  exact sumKeys_erase _ d hk

/-- Values of at most one sum up to the size exactly when all are one. -/
theorem sumValues_eq_size_iff (f : ν → ℕ) (d : Dict κ ν)
    (hle : ∀ k v, d.get? k = some v → f v ≤ 1) :
    d.sumValues f = d.size ↔ ∀ k v, d.get? k = some v → f v = 1 := by
  have hlist : ∀ l : List ℕ, (∀ n ∈ l, n ≤ 1) →
      l.sum ≤ l.length ∧ (l.sum = l.length ↔ ∀ n ∈ l, n = 1) := by
    intro l hl
    induction l with
    | nil => simp
    | cons n l ih =>
      have hn := hl n (by simp)
      rcases ih fun n hn => hl n (by simp [hn]) with ⟨hsum, hiff⟩
      rw [List.forall_mem_cons, ← hiff, List.sum_cons, List.length_cons]
      constructor <;> omega
  have hvalues : d.sumValues f = ((d.entries.map fun e => f e.2).sum) := by
    rw [sumValues, values, List.map_map]
    rfl
  have hsize : d.size = (d.entries.map fun e => f e.2).length := by
    rw [List.length_map]
    rfl
  rw [hvalues, hsize, (hlist _ _).2]
  · constructor
    · intro h k v hget
      exact h _ (List.mem_map.mpr ⟨(k, v), d.mem_entries_iff.mpr hget, rfl⟩)
    · intro h n hn
      rcases List.mem_map.mp hn with ⟨⟨k, v⟩, hmem, rfl⟩
      exact h k v (d.mem_entries_iff.mp hmem)
  · intro n hn
    rcases List.mem_map.mp hn with ⟨⟨k, v⟩, hmem, rfl⟩
    exact hle k v (d.mem_entries_iff.mp hmem)

theorem setEntries_of_not_mem {k : κ} {v : ν} (h : k ∉ es.map Prod.fst) :
    setEntries k v es = es ++ [(k, v)] := by
  induction es with
  | nil => rfl
  | cons e es ih =>
    rw [List.map_cons, List.mem_cons, not_or] at h
    rw [setEntries, if_neg (Ne.symm h.1), ih h.2, List.cons_append]

/-- Entries with different keys are the entries of the dictionary made from them. -/
theorem entries_ofList (h : (es.map Prod.fst).Nodup) : (ofList es).entries = es := by
  have hfold : ∀ (es : List (κ × ν)) (d : Dict κ ν), ((d.entries ++ es).map Prod.fst).Nodup →
      (es.foldl (fun d e => d.set e.1 e.2) d).entries = d.entries ++ es := by
    intro es
    induction es with
    | nil => simp
    | cons e es ih =>
      intro d hd
      have hnot : e.1 ∉ d.entries.map Prod.fst := by
        intro hmem
        rw [List.map_append, List.nodup_append] at hd
        exact hd.2.2 _ hmem _ (by simp) rfl
      have hset : (d.set e.1 e.2).entries = d.entries ++ [e] := setEntries_of_not_mem hnot
      rw [List.foldl_cons, ih _ (by rw [hset]; simpa using hd), hset, List.append_assoc]
      rfl
  simpa [ofList, empty] using hfold es empty (by simpa [empty] using h)

theorem ofList_entries (d : Dict κ ν) : ofList d.entries = d :=
  eq_of_entries (entries_ofList d.nodupKeys)

section Bag
variable (d : Dict κ ν) {k : κ} {v : ν}

theorem mem_bag : (k, v) ∈ d.bag ↔ d.get? k = some v := d.mem_entries_iff

theorem bag_set_of_none (h : d.get? k = none) : (d.set k v).bag = (k, v) ::ₘ d.bag := by
  have hnot : k ∉ d.entries.map Prod.fst := by
    intro hmem
    have hcontains := contains_of_mem_keys hmem
    unfold contains at hcontains
    rw [h] at hcontains
    cases hcontains
  have hset : (d.set k v).entries = d.entries ++ [(k, v)] := setEntries_of_not_mem hnot
  unfold bag
  rw [hset, ← Multiset.coe_add, Multiset.add_comm]
  rfl

theorem bag_erase (h : d.get? k = some v) : d.bag = (k, v) ::ₘ (d.erase k).bag := by
  rcases d with ⟨es, hnodup⟩
  unfold bag erase
  dsimp only [get?] at h ⊢
  induction es with
  | nil => cases h
  | cons e es ih =>
    rcases List.nodup_cons.mp hnodup with ⟨hnot, hrest⟩
    rw [lookup_pair_cons] at h
    by_cases hk : k = e.1
    · rw [if_pos hk] at h
      have hall : es.filter (fun x => x.1 ≠ k) = es := by
        apply List.filter_eq_self.mpr
        intro x hx
        have hne : x.1 ≠ k := fun heq => hnot (heq.trans hk ▸ List.mem_map_of_mem hx)
        exact decide_eq_true hne
      rw [List.filter_cons_of_neg (by simpa using hk.symm), hall]
      cases h
      rw [hk]
      rfl
    · rw [if_neg hk] at h
      rw [List.filter_cons_of_pos (by simpa using Ne.symm hk), ← Multiset.cons_coe, ih hrest h,
        ← Multiset.cons_coe, Multiset.cons_swap]

theorem bag_set : (d.set k v).bag = (k, v) ::ₘ (d.erase k).bag := by
  have herase : (d.set k v).erase k = d.erase k := by
    apply eq_of_entries
    show (setEntries k v d.entries).filter (fun e => e.1 ≠ k) = d.entries.filter fun e => e.1 ≠ k
    induction d.entries with
    | nil => simp [setEntries]
    | cons e es ih =>
      unfold setEntries
      by_cases hk : e.1 = k
      · simp [hk]
      · rw [if_neg hk, List.filter_cons, List.filter_cons, ih]
  rw [bag_erase _ (by rw [get?_set, if_pos rfl]), herase]

theorem bag_moveToEnd : (d.moveToEnd k).bag = d.bag := by
  unfold moveToEnd
  cases h : d.get? k with
  | none => rfl
  | some v =>
    rw [bag_set_of_none _ (by rw [get?_erase, if_pos rfl]), bag_erase _ h]

end Bag

end Dict
