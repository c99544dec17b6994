import Mathlib.Data.List.Perm.Basic
import Mathlib.Tactic.SplitIfs

/-! Python's `heapq` on lists: the sifts as sequences of swaps. Every operation permutes the
elements it does not add or take away, and keeps the heap order, so that the root is a minimum. The
comparison has to be an order on the elements of the list only. -/
namespace Heapq
variable {α : Type}

section Swaps
variable (lt : α → α → Bool)

def swapAt (heap : List α) (i j : ℕ) : List α :=
  match heap[i]?, heap[j]? with
  | some a, some b => (heap.set i b).set j a
  | _, _ => heap

/-- `_siftdown`: the item at `pos` moves up to its place above `startpos`. -/
def siftdown : ℕ → List α → ℕ → ℕ → List α
  | 0, heap, _, _ => heap
  | fuel + 1, heap, startpos, pos =>
    if pos > startpos then
      match heap[pos]?, heap[(pos - 1) / 2]? with
      | some newitem, some parent =>
        if lt newitem parent then
          siftdown fuel (swapAt heap pos ((pos - 1) / 2)) startpos ((pos - 1) / 2)
        else heap
      | _, _ => heap
    else heap

/-- The smaller child of a position, if it has one. -/
def smallerChild (heap : List α) (pos : ℕ) : Option ℕ :=
  match heap[2 * pos + 1]?, heap[2 * pos + 2]? with
  | none, _ => none
  | some _, none => some (2 * pos + 1)
  | some left, some right => if lt left right then some (2 * pos + 1) else some (2 * pos + 2)

/-- The first loop of `_siftup`: the item at `pos` moves down to a leaf. -/
def moveToLeaf : ℕ → List α → ℕ → List α × ℕ
  | 0, heap, pos => (heap, pos)
  | fuel + 1, heap, pos =>
    match smallerChild lt heap pos with
    | none => (heap, pos)
    | some child => moveToLeaf fuel (swapAt heap pos child) child

def siftup (heap : List α) (pos : ℕ) : List α :=
  let (heap, leaf) := moveToLeaf lt heap.length heap pos
  siftdown lt leaf heap pos leaf

def heappush (heap : List α) (item : α) : List α :=
  siftdown lt heap.length (heap ++ [item]) 0 heap.length

def heappop (heap : List α) : Option (α × List α) :=
  match heap with
  | [] => none
  | [item] => some (item, [])
  | item :: x :: rest =>
    some (item, siftup lt ((x :: rest).getLast (by simp) :: (x :: rest).dropLast) 0)

/-- `heapify`, from the last parent to the root. -/
def heapify (heap : List α) : List α :=
  (List.range (heap.length / 2)).reverse.foldl (fun heap i => siftup lt heap i) heap

/-- The items in the order in which they are popped. -/
def popAll : ℕ → List α → List α
  | 0, _ => []
  | fuel + 1, heap =>
    match heappop lt heap with
    | none => []
    | some (item, heap) => item :: popAll fuel heap

theorem swapAt_perm (heap : List α) (i j : ℕ) : (swapAt heap i j).Perm heap := by
  unfold swapAt
  split
  · next a b hi hj =>
    obtain ⟨hlt, rfl⟩ := List.getElem?_eq_some_iff.mp hi
    obtain ⟨hlt', rfl⟩ := List.getElem?_eq_some_iff.mp hj
    exact List.set_set_perm hlt hlt'
  · exact .refl heap

theorem siftdown_perm (fuel : ℕ) (heap : List α) (startpos pos : ℕ) :
    (siftdown lt fuel heap startpos pos).Perm heap := by
  induction fuel generalizing heap pos with
  | zero => exact .refl heap
  | succ fuel ih =>
    unfold siftdown
    split
    · split
      · split
        · exact (ih _ _).trans (swapAt_perm heap _ _)
        · exact .refl heap
      · exact .refl heap
    · exact .refl heap

theorem moveToLeaf_perm (fuel : ℕ) (heap : List α) (pos : ℕ) :
    (moveToLeaf lt fuel heap pos).1.Perm heap := by
  induction fuel generalizing heap pos with
  | zero => exact .refl heap
  | succ fuel ih =>
    unfold moveToLeaf
    split
    · exact .refl heap
    · exact (ih _ _).trans (swapAt_perm heap _ _)

theorem siftup_perm (heap : List α) (pos : ℕ) : (siftup lt heap pos).Perm heap :=
  (siftdown_perm lt _ _ _ _).trans (moveToLeaf_perm lt _ heap pos)

theorem heappush_perm (heap : List α) (item : α) : (heappush lt heap item).Perm (item :: heap) :=
  (siftdown_perm lt _ _ _ _).trans (List.perm_append_singleton item heap)

/-- A pop takes the root. -/
theorem heappop_perm {heap rest : List α} {item : α} (h : heappop lt heap = some (item, rest)) :
    heap.head? = some item ∧ heap.Perm (item :: rest) := by
  unfold heappop at h
  split at h
  · simp at h
  · obtain ⟨rfl, rfl⟩ := Prod.mk.inj (Option.some.inj h)
    exact ⟨rfl, .refl _⟩
  · next x y rest' =>
    obtain ⟨rfl, rfl⟩ := Prod.mk.inj (Option.some.inj h)
    refine ⟨rfl, List.Perm.cons x ?_⟩
    have hlast : ((y :: rest').dropLast ++ [(y :: rest').getLast (by simp)]) = y :: rest' :=
      List.dropLast_append_getLast _
    have hmove := List.perm_append_singleton ((y :: rest').getLast (by simp)) (y :: rest').dropLast
    rw [hlast] at hmove
    exact hmove.trans (siftup_perm lt _ 0).symm

theorem heapify_perm (heap : List α) : (heapify lt heap).Perm heap := by
  have hfold : ∀ (is : List ℕ) (l : List α),
      (is.foldl (fun heap i => siftup lt heap i) l).Perm l := by
    intro is
    induction is with
    | nil => exact fun l => .refl l
    | cons i is ih => exact fun l => (ih _).trans (siftup_perm lt l i)
  exact hfold _ heap

theorem popAll_perm {fuel : ℕ} {heap : List α} (hfuel : heap.length ≤ fuel) :
    (popAll lt fuel heap).Perm heap := by
  induction fuel generalizing heap with
  | zero =>
    obtain rfl := List.length_eq_zero_iff.mp (Nat.le_zero.mp hfuel)
    exact .refl _
  | succ fuel ih =>
    unfold popAll
    split
    · next hnone =>
      cases heap with
      | nil => exact .refl _
      | cons x rest => cases rest <;> simp [heappop] at hnone
    · next item rest hsome =>
      have hperm := (heappop_perm lt hsome).2
      have hlen := hperm.length_eq
      rw [List.length_cons] at hlen
      exact ((ih (by omega)).cons item).trans hperm.symm

end Swaps

/-- The comparison is a strict weak order on the elements of a list. -/
structure Comparable (lt : α → α → Bool) (l : List α) : Prop where
  asymm : ∀ a ∈ l, ∀ b ∈ l, lt a b = true → lt b a = false
  trans : ∀ a ∈ l, ∀ b ∈ l, ∀ c ∈ l, lt b a = false → lt c b = false → lt c a = false

/-- The item at a position does not come before its parent. -/
def InOrder (lt : α → α → Bool) (heap : List α) (j : ℕ) : Prop :=
  ∀ a b, heap[j]? = some a → heap[(j - 1) / 2]? = some b → lt a b = false

/-- The order holds below the positions from `start` on. -/
def HeapFrom (lt : α → α → Bool) (start : ℕ) (heap : List α) : Prop :=
  ∀ j, 0 < j → start ≤ (j - 1) / 2 → InOrder lt heap j

def IsHeap (lt : α → α → Bool) (heap : List α) : Prop := HeapFrom lt 0 heap

/-- The children of a position do not come before its parent. -/
def Bridged (lt : α → α → Bool) (start : ℕ) (heap : List α) (pos : ℕ) : Prop :=
  start < pos → ∀ j, 0 < j → (j - 1) / 2 = pos → ∀ a b, heap[j]? = some a →
    heap[(pos - 1) / 2]? = some b → lt a b = false

/-- Only the item at `pos` may come before its parent. -/
structure Rising (lt : α → α → Bool) (start : ℕ) (heap : List α) (pos : ℕ) : Prop where
  inOrder : ∀ j, 0 < j → start ≤ (j - 1) / 2 → j ≠ pos → InOrder lt heap j
  bridged : Bridged lt start heap pos

/-- Only the item at `pos` may be out of order, with its parent or its children. -/
structure Sinking (lt : α → α → Bool) (start : ℕ) (heap : List α) (pos : ℕ) : Prop where
  inOrder : ∀ j, 0 < j → start ≤ (j - 1) / 2 → j ≠ pos → (j - 1) / 2 ≠ pos → InOrder lt heap j
  bridged : Bridged lt start heap pos

/-- The positions below `start` in the tree. -/
inductive Below (start : ℕ) : ℕ → Prop
  | refl : Below start start
  | child {pos j : ℕ} (h : Below start pos) (hpos : 0 < j) (hj : (j - 1) / 2 = pos) : Below start j

theorem Below.le {start pos : ℕ} (h : Below start pos) : start ≤ pos := by
  induction h with
  | refl => exact Nat.le_refl start
  | child _ hpos hj ih => omega

theorem Below.parent {start pos : ℕ} (h : Below start pos) (hlt : start < pos) :
    Below start ((pos - 1) / 2) := by
  cases h with
  | refl => omega
  | child h hpos hj => exact hj ▸ h

theorem Below.zero (pos : ℕ) : Below 0 pos := by
  induction pos using Nat.strongRecOn with
  | ind pos ih =>
    cases pos with
    | zero => exact .refl
    | succ n => exact .child (ih ((n + 1 - 1) / 2) (by omega)) (Nat.succ_pos n) rfl

section Order
variable {lt : α → α → Bool} {heap heap' : List α} {start pos : ℕ} {x : α}

theorem Comparable.perm (h : Comparable lt heap) (hperm : heap'.Perm heap) :
    Comparable lt heap' where
  asymm a ha b hb := h.asymm a (hperm.mem_iff.mp ha) b (hperm.mem_iff.mp hb)
  trans a ha b hb c hc :=
    h.trans a (hperm.mem_iff.mp ha) b (hperm.mem_iff.mp hb) c (hperm.mem_iff.mp hc)

theorem Comparable.sublist (h : Comparable lt heap) (hsub : heap'.Sublist heap) :
    Comparable lt heap' where
  asymm a ha b hb := h.asymm a (hsub.subset ha) b (hsub.subset hb)
  trans a ha b hb c hc := h.trans a (hsub.subset ha) b (hsub.subset hb) c (hsub.subset hc)

theorem Comparable.irrefl (h : Comparable lt heap) {a : α} (ha : a ∈ heap) : lt a a = false := by
  cases hlt : lt a a with
  | false => rfl
  | true => exact hlt ▸ h.asymm a ha a ha hlt

theorem getElem?_swapAt {i j : ℕ} (hi : i < heap.length) (hj : j < heap.length) (k : ℕ) :
    (swapAt heap i j)[k]? = if k = j then heap[i]? else if k = i then heap[j]? else heap[k]? := by
  unfold swapAt
  simp only [List.getElem?_eq_getElem hi, List.getElem?_eq_getElem hj, List.getElem?_set,
    List.length_set, hi, hj, ↓reduceIte, eq_comm (a := k)]

/-- The root of a heap is a minimum. -/
theorem IsHeap.root_le (h : IsHeap lt heap) (hlt : Comparable lt heap) (hroot : heap.head? = some x)
    {y : α} (hy : y ∈ heap) : lt y x = false := by
  have hx : x ∈ heap := List.mem_of_head? hroot
  obtain ⟨i, hi⟩ := List.mem_iff_getElem?.mp hy
  induction i using Nat.strongRecOn generalizing y with
  | ind i ih =>
    by_cases hzero : i = 0
    · rw [hzero, ← List.head?_eq_getElem?, hroot] at hi
      rw [← Option.some.inj hi]
      exact hlt.irrefl hx
    · have hparent : (i - 1) / 2 < heap.length := by
        have := (List.getElem?_eq_some_iff.mp hi).1
        omega
      have hget := List.getElem?_eq_getElem hparent
      have hmem := List.mem_of_getElem? hget
      exact hlt.trans x hx _ hmem y hy (ih _ (by omega) hmem hget)
        (h i (by omega) (Nat.zero_le _) y _ hi hget)

/-- A comparison that agrees on the elements makes the same heaps. -/
theorem IsHeap.congr {lt' : α → α → Bool} (h : IsHeap lt heap)
    (hsame : ∀ a ∈ heap, ∀ b ∈ heap, lt' a b = lt a b) : IsHeap lt' heap := by
  intro j hpos hstart a b ha hb
  rw [hsame a (List.mem_of_getElem? ha) b (List.mem_of_getElem? hb)]
  exact h j hpos hstart a b ha hb

/-- A swap with the parent lets the item rise. -/
theorem Rising.swap (h : Rising lt start heap pos) (hlt : Comparable lt heap) {item parent : α}
    (hbelow : Below start pos) (hpos : start < pos) (hitem : heap[pos]? = some item)
    (hparent : heap[(pos - 1) / 2]? = some parent) (hless : lt item parent = true) :
    Rising lt start (swapAt heap pos ((pos - 1) / 2)) ((pos - 1) / 2) := by
  have hp := (List.getElem?_eq_some_iff.mp hitem).1
  have hq := (List.getElem?_eq_some_iff.mp hparent).1
  have hle := (hbelow.parent hpos).le
  have hmem := List.mem_of_getElem? hitem
  have hmem' := List.mem_of_getElem? hparent
  have hswap := getElem?_swapAt hp hq
  have hless' := hlt.asymm item hmem parent hmem' hless
  constructor
  · intro j hj hstart hne a b ha hb
    rw [hswap] at ha hb
    rw [if_neg hne] at ha
    by_cases hjp : j = pos
    · rw [if_pos hjp, hparent] at ha
      rw [hjp, if_pos rfl, hitem] at hb
      rw [← Option.some.inj ha, ← Option.some.inj hb]
      exact hless'
    rw [if_neg hjp] at ha
    by_cases hsibling : (j - 1) / 2 = (pos - 1) / 2
    · rw [if_pos hsibling, hitem] at hb
      rw [← Option.some.inj hb]
      exact hlt.trans item hmem parent hmem' a (List.mem_of_getElem? ha) hless'
        (h.inOrder j hj hstart hjp a parent ha (hsibling ▸ hparent))
    rw [if_neg hsibling] at hb
    by_cases hchild : (j - 1) / 2 = pos
    · rw [if_pos hchild] at hb
      exact h.bridged hpos j hj hchild a b ha hb
    · rw [if_neg hchild] at hb
      exact h.inOrder j hj hstart hjp a b ha hb
  · intro hstart j hj hjq a b ha hb
    have hgrand : ((pos - 1) / 2 - 1) / 2 ≠ (pos - 1) / 2 := by omega
    have hgrand' : ((pos - 1) / 2 - 1) / 2 ≠ pos := by omega
    rw [hswap, if_neg hgrand, if_neg hgrand'] at hb
    have hup : lt parent b = false :=
      h.inOrder ((pos - 1) / 2) (by omega)
        ((hbelow.parent hpos).parent hstart).le (by omega) parent b hparent hb
    rw [hswap, if_neg (by omega)] at ha
    by_cases hjp : j = pos
    · rw [if_pos hjp, hparent] at ha
      rw [← Option.some.inj ha]
      exact hup
    · rw [if_neg hjp] at ha
      exact hlt.trans b (List.mem_of_getElem? hb) parent hmem' a (List.mem_of_getElem? ha) hup
        (h.inOrder j hj (hjq ▸ hle) hjp a parent ha (hjq ▸ hparent))

/-- `_siftdown` brings the one item that is out of order to its place. -/
theorem Rising.siftdown (fuel : ℕ) (h : Rising lt start heap pos) (hlt : Comparable lt heap)
    (hbelow : Below start pos) (hfuel : pos ≤ fuel) :
    HeapFrom lt start (siftdown lt fuel heap start pos) := by
  have hdone : ∀ {heap : List α} {pos : ℕ}, Rising lt start heap pos →
      (start < pos → InOrder lt heap pos) → Below start pos → HeapFrom lt start heap := by
    intro heap pos h hpos hbelow j hj hstart
    by_cases hne : j = pos
    · subst hne
      exact hpos (by omega)
    · exact h.inOrder j hj hstart hne
  induction fuel generalizing heap pos with
  | zero =>
    have := hbelow.le
    exact hdone h (by omega) hbelow
  | succ fuel ih =>
    unfold Heapq.siftdown
    split
    · next hpos =>
      split
      · next item parent hitem hparent =>
        split
        · next hless =>
          refine ih (h.swap hlt hbelow hpos hitem hparent hless) ?_ (hbelow.parent hpos) (by omega)
          exact hlt.perm (swapAt_perm heap _ _)
        · next hless =>
          refine hdone h (fun _ a b ha hb => ?_) hbelow
          rw [← Option.some.inj (hitem.symm.trans ha), ← Option.some.inj (hparent.symm.trans hb)]
          simpa using hless
      · next hnone =>
        refine hdone h (fun _ a b ha hb => ?_) hbelow
        exact absurd hb (hnone a b ha)
    · next hpos => exact hdone h (by omega) hbelow

/-- A swap with the smaller child lets the item sink. -/
theorem Sinking.swap (h : Sinking lt start heap pos) (hlt : Comparable lt heap) {child : ℕ}
    (hbelow : Below start pos) (hchild : smallerChild lt heap pos = some child) :
    (child - 1) / 2 = pos ∧ 0 < child ∧ child < heap.length ∧
      Sinking lt start (swapAt heap pos child) child := by
  obtain ⟨hcpos, hparent, hc, hsmallest⟩ : 0 < child ∧ (child - 1) / 2 = pos ∧
      child < heap.length ∧ ∀ j, 0 < j → (j - 1) / 2 = pos → ∀ a b, heap[j]? = some a →
        heap[child]? = some b → lt a b = false := by
    unfold smallerChild at hchild
    split at hchild
    · simp at hchild
    · next left hleft hright =>
      cases hchild
      have hlength := (List.getElem?_eq_some_iff.mp hleft).1
      refine ⟨by omega, by omega, hlength, ?_⟩
      intro j hj hjp a b ha hb
      obtain rfl | rfl : j = 2 * pos + 1 ∨ j = 2 * pos + 2 := by omega
      · rw [Option.some.inj (ha.symm.trans hb)]
        exact hlt.irrefl (List.mem_of_getElem? hb)
      · simp [hright] at ha
    · next left right hleft hright =>
      have hl := List.mem_of_getElem? hleft
      have hr := List.mem_of_getElem? hright
      split at hchild
      · next hless =>
        cases hchild
        refine ⟨by omega, by omega, (List.getElem?_eq_some_iff.mp hleft).1, ?_⟩
        intro j hj hjp a b ha hb
        rw [← Option.some.inj (hleft.symm.trans hb)]
        obtain rfl | rfl : j = 2 * pos + 1 ∨ j = 2 * pos + 2 := by omega
        · rw [← Option.some.inj (hleft.symm.trans ha)]
          exact hlt.irrefl hl
        · rw [← Option.some.inj (hright.symm.trans ha)]
          exact hlt.asymm left hl right hr hless
      · next hless =>
        cases hchild
        refine ⟨by omega, by omega, (List.getElem?_eq_some_iff.mp hright).1, ?_⟩
        intro j hj hjp a b ha hb
        rw [← Option.some.inj (hright.symm.trans hb)]
        obtain rfl | rfl : j = 2 * pos + 1 ∨ j = 2 * pos + 2 := by omega
        · rw [← Option.some.inj (hleft.symm.trans ha)]
          simpa using hless
        · rw [← Option.some.inj (hright.symm.trans ha)]
          exact hlt.irrefl hr
  refine ⟨hparent, hcpos, hc, ?_⟩
  have hswap := getElem?_swapAt (show pos < heap.length by omega) hc
  constructor
  · intro j hj hstart hne hnp a b ha hb
    rw [hswap, if_neg hne] at ha
    rw [hswap, if_neg hnp] at hb
    by_cases hjp : j = pos
    · subst hjp
      rw [if_pos rfl] at ha
      rw [if_neg (by omega)] at hb
      exact h.bridged (by omega) child hcpos hparent a b ha hb
    rw [if_neg hjp] at ha
    by_cases hsibling : (j - 1) / 2 = pos
    · rw [if_pos hsibling] at hb
      exact hsmallest j hj hsibling a b ha hb
    · rw [if_neg hsibling] at hb
      exact h.inOrder j hj hstart hjp hsibling a b ha hb
  · intro _ j hj hjc a b ha hb
    rw [hparent, hswap, if_neg (by omega), if_pos rfl] at hb
    rw [hswap, if_neg (by omega), if_neg (by omega)] at ha
    exact h.inOrder j hj (by omega) (by omega) (by omega) a b ha (hjc ▸ hb)

/-- The first loop of `_siftup` ends at a leaf. -/
theorem Sinking.moveToLeaf (fuel : ℕ) (h : Sinking lt start heap pos) (hlt : Comparable lt heap)
    (hbelow : Below start pos) (hfuel : heap.length ≤ fuel + pos) :
    Below start (moveToLeaf lt fuel heap pos).2 ∧
      Rising lt start (moveToLeaf lt fuel heap pos).1 (moveToLeaf lt fuel heap pos).2 := by
  have hleaf : ∀ {heap : List α} {pos : ℕ}, Sinking lt start heap pos →
      heap.length ≤ 2 * pos + 1 → Rising lt start heap pos := by
    intro heap pos h hlength
    refine ⟨?_, h.bridged⟩
    intro j hj hstart hne a b ha hb
    by_cases hchild : (j - 1) / 2 = pos
    · have := (List.getElem?_eq_some_iff.mp ha).1
      omega
    · exact h.inOrder j hj hstart hne hchild a b ha hb
  induction fuel generalizing heap pos with
  | zero =>
    have hrise := hleaf h (by omega)
    exact ⟨hbelow, hrise⟩
  | succ fuel ih =>
    unfold Heapq.moveToLeaf
    split
    · next hnone =>
      refine ⟨hbelow, hleaf h ?_⟩
      unfold smallerChild at hnone
      split at hnone
      · next hleft => exact List.getElem?_eq_none_iff.mp hleft
      · simp at hnone
      · split at hnone <;> simp at hnone
    · next child hchild =>
      obtain ⟨hparent, hcpos, hc, hsink⟩ := h.swap hlt hbelow hchild
      have hperm := swapAt_perm heap pos child
      refine ih hsink (hlt.perm hperm) (.child hbelow hcpos hparent) ?_
      rw [hperm.length_eq]
      omega

/-- `_siftup` puts one more position in order. -/
theorem HeapFrom.siftup (h : HeapFrom lt (start + 1) heap) (hlt : Comparable lt heap) :
    HeapFrom lt start (siftup lt heap start) := by
  have hsink : Sinking lt start heap start := by
    refine ⟨?_, fun hlt => absurd hlt (Nat.lt_irrefl start)⟩
    intro j hj hstart _ hne
    exact h j hj (by omega)
  obtain ⟨hbelow, hrise⟩ := hsink.moveToLeaf heap.length hlt .refl (by omega)
  exact hrise.siftdown _ (hlt.perm (moveToLeaf_perm lt heap.length heap start)) hbelow
    (Nat.le_refl _)

theorem IsHeap.heappush (h : IsHeap lt heap) (hlt : Comparable lt (x :: heap)) :
    IsHeap lt (heappush lt heap x) := by
  refine Rising.siftdown heap.length ⟨?_, ?_⟩
    (hlt.perm (List.perm_append_singleton x heap)) (.zero _) (Nat.le_refl _)
  · intro j hj hstart hne a b ha hb
    have hlength := (List.getElem?_eq_some_iff.mp ha).1
    rw [List.length_append, List.length_singleton] at hlength
    rw [List.getElem?_append_left (by omega)] at ha hb
    exact h j hj hstart a b ha hb
  · intro _ j hj hjp a b ha
    have hlength := (List.getElem?_eq_some_iff.mp ha).1
    rw [List.length_append, List.length_singleton] at hlength
    omega

theorem IsHeap.heappop {rest : List α} (h : IsHeap lt heap) (hlt : Comparable lt heap)
    (hpop : heappop lt heap = some (x, rest)) : IsHeap lt rest := by
  unfold Heapq.heappop at hpop
  split at hpop
  · simp at hpop
  · obtain ⟨-, rfl⟩ := Prod.mk.inj (Option.some.inj hpop)
    intro j _ _ a b ha
    simp at ha
  · next item y l =>
    obtain ⟨rfl, rfl⟩ := Prod.mk.inj (Option.some.inj hpop)
    have hlast := List.dropLast_append_getLast (l := y :: l) (by simp)
    have hperm : ((y :: l).getLast (by simp) :: (y :: l).dropLast).Perm (y :: l) := by
      conv_rhs => rw [← hlast]
      exact (List.perm_append_singleton _ _).symm
    refine HeapFrom.siftup ?_ ((hlt.sublist (List.sublist_cons_self item _)).perm hperm)
    intro j hj hstart a b ha hb
    have hget : ∀ k c, 0 < k → ((y :: l).getLast (by simp) :: (y :: l).dropLast)[k]? = some c →
        (item :: y :: l)[k]? = some c := by
      intro k c hk hc
      obtain ⟨k, rfl⟩ := Nat.exists_eq_succ_of_ne_zero (Nat.pos_iff_ne_zero.mp hk)
      rw [Nat.succ_eq_add_one, List.getElem?_cons_succ] at hc ⊢
      have hk := (List.getElem?_eq_some_iff.mp hc).1
      rw [← hlast, List.getElem?_append_left hk]
      exact hc
    exact h j hj (Nat.zero_le _) a b (hget j a hj ha) (hget _ b (by omega) hb)

theorem isHeap_heapify (hlt : Comparable lt heap) : IsHeap lt (heapify lt heap) := by
  have hfold : ∀ (n : ℕ) (l : List α), Comparable lt l → HeapFrom lt n l →
      HeapFrom lt 0 ((List.range n).reverse.foldl (fun heap i => siftup lt heap i) l) := by
    intro n
    induction n with
    | zero => exact fun l _ h => h
    | succ n ih =>
      intro l hl h
      rw [List.range_succ, List.reverse_append, List.reverse_singleton, List.singleton_append,
        List.foldl_cons]
      exact ih _ (hl.perm (siftup_perm lt l n)) (h.siftup hl)
  refine hfold _ heap hlt ?_
  intro j hj hstart a b ha
  have hlength := (List.getElem?_eq_some_iff.mp ha).1
  omega

end Order

end Heapq
