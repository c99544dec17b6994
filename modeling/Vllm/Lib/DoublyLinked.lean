import Mathlib.Data.List.Chain
import Mathlib.Data.List.Nodup

/-! Intrusive doubly linked lists between two sentinels. A pointer store holds the
two links of every node; `Spine` says that the store represents a given list. -/
namespace DoublyLinked

inductive Node (α : Type*) where
  | head | tail | elem (a : α)
  deriving DecidableEq

structure Links (α : Type*) where
  prev : Node α → Option (Node α)
  next : Node α → Option (Node α)

variable {α : Type*}

namespace Links

def empty : Links α := ⟨fun _ => none, fun _ => none⟩

variable [DecidableEq α]

/-- Make `y` the successor of `x`: the two pointer writes every insertion consists of. -/
def join (lk : Links α) (x y : Node α) : Links α where
  prev := Function.update lk.prev y (some x)
  next := Function.update lk.next x (some y)

/-- Clear both links of a node. -/
def isolate (lk : Links α) (x : Node α) : Links α where
  prev := Function.update lk.prev x none
  next := Function.update lk.next x none

/-- Link every node of a list to the one after it, starting behind `x`; the last
node reached is returned with the store. -/
def joinAll (lk : Links α) (x : Node α) : List α → Links α × Node α
  | [] => (lk, x)
  | a :: as => joinAll (lk.join x (.elem a)) (.elem a) as

def isolateAll (lk : Links α) (as : List α) : Links α :=
  as.foldl (fun lk a => lk.isolate (.elem a)) lk

/-- Walk along `next`, clearing every element passed; `none` if a sentinel or a
missing link is met too early. -/
def detach (lk : Links α) : Option (Node α) → ℕ → Option (List α × Links α × Option (Node α))
  | x, 0 => some ([], lk, x)
  | some (.elem a), k + 1 =>
      (detach (lk.isolate (.elem a)) (lk.next (.elem a)) k).map fun r => (a :: r.1, r.2)
  | _, _ + 1 => none

end Links

/-- Consecutive nodes point at each other. -/
def Seg (lk : Links α) (xs : List (Node α)) : Prop :=
  xs.IsChain fun x y => lk.next x = some y ∧ lk.prev y = some x

/-- The nodes of a list between the two sentinels. -/
def nodes (l : List α) : List (Node α) := .head :: l.map .elem ++ [.tail]

/-- The store represents `l`: the sentinels enclose it, no element repeats, and
whatever lies outside has no links. -/
structure Spine (lk : Links α) (l : List α) : Prop where
  seg : Seg lk (nodes l)
  nodup : l.Nodup
  detached : ∀ a ∉ l, lk.next (.elem a) = none ∧ lk.prev (.elem a) = none
  last : lk.next .tail = none

variable {l bs : List α} {lk : Links α} {A B : List (Node α)} {x y : Node α}

theorem nodes_nodup (h : l.Nodup) : (nodes l).Nodup := by
  have hm : (l.map Node.elem).Nodup := h.map fun a b hab => by simpa using hab
  simp [nodes, List.nodup_append, hm]

theorem elem_mem_nodes {a : α} : Node.elem a ∈ nodes l ↔ a ∈ l := by
  simp [nodes]

variable {xs : List (Node α)}

/-- A segment survives writes to nodes outside it. -/
theorem Seg.congr {lk' : Links α} (h : Seg lk xs) (hn : ∀ x ∈ xs.dropLast, lk'.next x = lk.next x)
    (hp : ∀ x ∈ xs.tail, lk'.prev x = lk.prev x) :
    Seg lk' xs := by
  induction xs with
  | nil => exact List.IsChain.nil
  | cons x xs ih =>
    cases xs with
    | nil => exact List.IsChain.singleton x
    | cons y ys =>
      obtain ⟨⟨h1, h2⟩, hrest⟩ := List.isChain_cons_cons.mp h
      refine List.isChain_cons_cons.mpr ⟨⟨?_, ?_⟩, ih hrest ?_ ?_⟩
      · rw [hn x (by simp), h1]
      · rw [hp y (by simp), h2]
      · intro z hz
        exact hn z (by simp only [List.dropLast_cons_cons, List.mem_cons]; exact .inr hz)
      · intro z hz
        exact hp z (by simp only [List.tail_cons, List.mem_cons] at hz ⊢; exact .inr hz)

/-- Both sides of a split of a segment are segments. -/
theorem Seg.split (h : Seg lk (A ++ x :: B)) : Seg lk (A ++ [x]) ∧ Seg lk (x :: B) :=
  List.isChain_split.mp h

/-- The links of the two ends of a split. -/
theorem Seg.link (h : Seg lk (A ++ x :: y :: B)) : lk.next x = some y ∧ lk.prev y = some x :=
  (List.isChain_append_cons_cons.mp h).2.1

theorem Seg.tail (h : Seg lk (A ++ x :: y :: B)) : Seg lk (y :: B) :=
  (List.isChain_append_cons_cons.mp h).2.2

/-- The nodes that are met along a link, at most `k` of them. -/
def follow (link : Node α → Option (Node α)) : ℕ → Node α → List (Node α)
  | 0, _ => []
  | k + 1, x =>
    match link x with
    | none => []
    | some y => y :: follow link k y

theorem Seg.follow_next (h : Seg lk (x :: xs)) : follow lk.next xs.length x = xs := by
  induction xs generalizing x with
  | nil => rfl
  | cons y ys ih =>
    rcases List.isChain_cons_cons.mp h with ⟨⟨hnext, -⟩, hrest⟩
    simp only [List.length_cons, follow, hnext, ih hrest]

theorem Seg.follow_prev (h : Seg lk (xs ++ [x])) : follow lk.prev xs.length x = xs.reverse := by
  induction xs using List.reverseRecOn generalizing x with
  | nil => rfl
  | append_singleton ys y ih =>
    rw [List.append_assoc] at h
    simp only [List.length_append, List.length_singleton, follow, h.link.2, ih h.split.1,
      List.reverse_append, List.reverse_singleton, List.singleton_append]

/-- Along both links the list is met, once from each sentinel to the other. -/
theorem Spine.follow (h : Spine lk l) :
    DoublyLinked.follow lk.next (l.length + 1) .head = l.map .elem ++ [.tail] ∧
      DoublyLinked.follow lk.prev (l.length + 1) .tail = l.reverse.map .elem ++ [.head] := by
  have hseg : Seg lk (.head :: (l.map .elem ++ [.tail])) := h.seg
  have hback : Seg lk ((.head :: l.map .elem) ++ [.tail]) := h.seg
  constructor
  · simpa using hseg.follow_next
  · simpa using hback.follow_prev

variable [DecidableEq α]

theorem Seg.isolate (h : Seg lk xs) (hx : x ∉ xs) : Seg (lk.isolate x) xs := by
  refine h.congr ?_ ?_
  · intro z hz
    have : z ≠ x := fun e => hx (e ▸ List.dropLast_subset _ hz)
    simp [Links.isolate, this]
  · intro z hz
    have : z ≠ x := fun e => hx (e ▸ List.mem_of_mem_tail hz)
    simp [Links.isolate, this]

/-- Two disjoint segments become one when the end of the first is joined to the
start of the second. -/
theorem Seg.join (hA : Seg lk (A ++ [x])) (hB : Seg lk (y :: B)) (hd : (A ++ x :: y :: B).Nodup) :
    Seg (lk.join x y) (A ++ x :: y :: B) := by
  obtain ⟨-, hxB, hAx⟩ := List.nodup_append.mp hd
  obtain ⟨hx, hyB⟩ := List.nodup_cons.mp hxB
  have hA' : Seg (lk.join x y) (A ++ [x]) := by
    refine hA.congr ?_ ?_
    · intro z hz
      rw [List.dropLast_concat] at hz
      have : z ≠ x := hAx z hz x (by simp)
      simp [Links.join, this]
    · intro z hz
      have hne : z ≠ y := by
        have hz' : z ∈ A ∨ z = x := by simpa using List.mem_of_mem_tail hz
        rcases hz' with hz' | rfl
        · exact hAx z hz' y (by simp)
        · exact fun e => hx (by simp [e])
      simp [Links.join, hne]
  have hB' : Seg (lk.join x y) (y :: B) := by
    refine hB.congr ?_ ?_
    · intro z hz
      have : z ≠ x := fun e => hx (e ▸ List.dropLast_subset _ hz)
      simp [Links.join, this]
    · intro z hz
      have : z ≠ y := fun e => (List.nodup_cons.mp hyB).1 (e ▸ hz)
      simp [Links.join, this]
  exact List.isChain_append_cons_cons.mpr ⟨hA', by simp [Links.join], hB'⟩

theorem Links.joinAll_next (lk : Links α) (x z : Node α) (bs : List α) (hx : z ≠ x)
    (hb : z ∉ bs.map Node.elem) : (lk.joinAll x bs).1.next z = lk.next z := by
  induction bs generalizing lk x with
  | nil => rfl
  | cons b bs ih =>
    simp only [List.map_cons, List.mem_cons, not_or] at hb
    rw [Links.joinAll, ih _ _ hb.1 hb.2]
    simp [Links.join, hx]

theorem Links.joinAll_prev (lk : Links α) (x z : Node α) (bs : List α)
    (hb : z ∉ bs.map Node.elem) : (lk.joinAll x bs).1.prev z = lk.prev z := by
  induction bs generalizing lk x with
  | nil => rfl
  | cons b bs ih =>
    simp only [List.map_cons, List.mem_cons, not_or] at hb
    rw [Links.joinAll, ih _ _ hb.2]
    simp [Links.join, hb.1]

/-- Linking a list behind `x` extends the segment that ends in `x`. -/
theorem Links.joinAll_seg (lk : Links α) (x : Node α) (bs : List α) (P : List (Node α))
    (h : Seg lk (P ++ [x])) (hd : (P ++ x :: bs.map Node.elem).Nodup) :
    ∃ Q, P ++ x :: bs.map Node.elem = Q ++ [(lk.joinAll x bs).2] ∧
      Seg (lk.joinAll x bs).1 (Q ++ [(lk.joinAll x bs).2]) := by
  induction bs generalizing lk x P with
  | nil => exact ⟨P, rfl, h⟩
  | cons b bs ih =>
    have hd' : ((P ++ [x]) ++ .elem b :: bs.map Node.elem).Nodup := by simpa using hd
    have hj : Seg (lk.join x (.elem b)) ((P ++ [x]) ++ [.elem b]) := by
      have hs : (P ++ x :: .elem b :: []).Nodup := by
        refine hd.sublist ?_
        simp
      simpa using h.join (List.IsChain.singleton _) hs
    obtain ⟨Q, hQ, hseg⟩ := ih _ _ _ hj hd'
    exact ⟨Q, by simpa [Links.joinAll] using hQ, hseg⟩

/-- Writes outside `x` and the inserted nodes leave a segment alone. -/
theorem Seg.joinAll {S : List (Node α)} (h : Seg lk S) (x : Node α) (bs : List α) (hx : x ∉ S)
    (hb : ∀ b ∈ bs, Node.elem b ∉ S) :
    Seg (lk.joinAll x bs).1 S := by
  have hmem : ∀ z ∈ S, z ∉ bs.map Node.elem := by
    intro z hz hmap
    obtain ⟨b, hbs, rfl⟩ := List.mem_map.mp hmap
    exact hb b hbs hz
  refine h.congr ?_ ?_
  · intro z hz
    have hz := List.dropLast_subset _ hz
    exact Links.joinAll_next _ _ _ _ (fun e => hx (e ▸ hz)) (hmem z hz)
  · intro z hz
    exact Links.joinAll_prev _ _ _ _ (hmem z (List.mem_of_mem_tail hz))

omit [DecidableEq α] in
theorem front_eq_concat (A : List α) :
    ∃ P p, (Node.head :: A.map Node.elem : List (Node α)) = P ++ [p] :=
  ⟨_, _, (List.dropLast_concat_getLast (List.cons_ne_nil _ _)).symm⟩

omit [DecidableEq α] in
theorem back_eq_cons (B : List α) :
    ∃ n N, (B.map Node.elem ++ [Node.tail] : List (Node α)) = n :: N := by
  cases B with
  | nil | cons b B => exact ⟨_, _, rfl⟩

/-- Unlinking an element removes it from the represented list. -/
theorem Spine.unlink {A B : List α} {a : α} (h : Spine lk (A ++ a :: B)) :
    ∃ p n, lk.prev (.elem a) = some p ∧ lk.next (.elem a) = some n ∧
      Spine ((lk.join p n).isolate (.elem a)) (A ++ B) := by
  obtain ⟨P, p, hp⟩ := front_eq_concat A
  obtain ⟨n, N, hn⟩ := back_eq_cons B
  have hnodes : nodes (A ++ a :: B) = (P ++ [p]) ++ .elem a :: n :: N := by
    simp only [nodes, List.map_append, List.map_cons, ← hp, ← hn, List.cons_append,
      List.append_assoc]
  have hnodes' : nodes (A ++ B) = P ++ p :: n :: N := by
    calc nodes (A ++ B)
        = (.head :: A.map .elem) ++ (B.map .elem ++ [.tail]) := by simp [nodes]
      _ = P ++ p :: n :: N := by rw [hp, hn]; simp
  have hseg := h.seg
  rw [hnodes] at hseg
  have hnd := nodes_nodup h.nodup
  rw [hnodes] at hnd
  have ha : Node.elem a ∉ P ++ p :: n :: N := by
    rw [← hnodes', elem_mem_nodes]
    intro hm
    have := (List.nodup_middle.mp h.nodup)
    exact (List.nodup_cons.mp this).1 hm
  have hlinks : Seg lk (P ++ p :: .elem a :: n :: N) := by simpa using hseg
  have hleft : Seg lk (P ++ [p]) := hlinks.split.1
  have hright : Seg lk (n :: N) := (Seg.split hseg).2.tail (A := [])
  have hnd' : (P ++ p :: n :: N).Nodup := by
    refine hnd.sublist ?_
    simp
  refine ⟨p, n, hlinks.link.2, hseg.link.1, ⟨?_, ?_, ?_, ?_⟩⟩
  · rw [hnodes']
    exact (hleft.join hright hnd').isolate ha
  · exact h.nodup.sublist (by simp)
  · intro b hb
    by_cases hab : b = a
    · subst hab; simp [Links.isolate]
    · have hpb : Node.elem b ≠ p := by
        rintro rfl
        exact hb (elem_mem_nodes.mp (by rw [hnodes']; simp))
      have hnb : Node.elem b ≠ n := by
        rintro rfl
        exact hb (elem_mem_nodes.mp (by rw [hnodes']; simp))
      have hout : b ∉ A ++ a :: B := by
        simp only [List.mem_append, List.mem_cons, not_or] at hb ⊢
        exact ⟨hb.1, hab, hb.2⟩
      have hold := h.detached b hout
      simp [Links.isolate, Links.join, hab, hpb, hnb, hold]
  · have htail : Node.tail ≠ p := by
      intro e
      have hm : Node.tail ∈ (Node.head :: A.map Node.elem : List (Node α)) := by
        rw [hp, ← e]; simp
      simp at hm
    simp [Links.isolate, Links.join, htail, h.last]

theorem Links.isolateAll_links (lk : Links α) (as : List α) (z : Node α) :
    (lk.isolateAll as).next z = (if z ∈ as.map Node.elem then none else lk.next z) ∧
      (lk.isolateAll as).prev z = if z ∈ as.map Node.elem then none else lk.prev z := by
  induction as generalizing lk with
  | nil => simp [Links.isolateAll]
  | cons a as ih =>
    have := ih (lk.isolate (.elem a))
    simp only [Links.isolateAll, List.foldl_cons] at this ⊢
    rw [this.1, this.2]
    by_cases hz : z = .elem a <;> simp [hz, Links.isolate]

theorem Links.detach_seg (lk : Links α) (A : List α) (n : Node α) (N : List (Node α))
    (h : Seg lk (A.map Node.elem ++ n :: N)) (hd : (A.map Node.elem ++ n :: N).Nodup) :
    lk.detach (A.map Node.elem ++ [n]).head? A.length = some (A, lk.isolateAll A, some n) := by
  induction A generalizing lk with
  | nil => rfl
  | cons a A ih =>
    have hd' := (List.nodup_cons.mp hd)
    have htail : Seg (lk.isolate (.elem a)) (A.map Node.elem ++ n :: N) :=
      Seg.isolate (List.IsChain.tail h) hd'.1
    have hnext : lk.next (.elem a) = (A.map Node.elem ++ [n]).head? := by
      cases A with
      | nil => exact (Seg.link (A := []) h).1
      | cons b A => exact (Seg.link (A := []) h).1
    have hrec := ih _ htail hd'.2
    simp only [List.map_cons, List.cons_append, List.head?_cons, List.length_cons,
      Links.detach, hnext, hrec, Option.map_some]
    rfl

/-- Detaching a prefix and joining the head to the rest represents the rest. -/
theorem Spine.detach {A B : List α} (h : Spine lk (A ++ B)) :
    ∃ n, lk.detach (lk.next .head) A.length = some (A, lk.isolateAll A, some n) ∧
      Spine ((lk.isolateAll A).join .head n) B := by
  obtain ⟨n, N, hn⟩ := back_eq_cons B
  have hnodes : nodes (A ++ B) = .head :: (A.map .elem ++ n :: N) := by
    simp [nodes, ← hn]
  have hnB : nodes B = .head :: n :: N := by simp [nodes, ← hn]
  have hseg := h.seg
  rw [hnodes] at hseg
  have hnd := nodes_nodup h.nodup
  rw [hnodes] at hnd
  have hhead : lk.next .head = (A.map Node.elem ++ [n]).head? := by
    cases A with
    | nil => exact (Seg.link (A := []) hseg).1
    | cons a A => exact (Seg.link (A := []) hseg).1
  have hnd' := List.nodup_cons.mp hnd
  have hin : ∀ z ∈ n :: N, z ∉ A.map Node.elem := by
    intro z hz hA
    exact (List.nodup_append.mp hnd'.2).2.2 z hA z hz rfl
  refine ⟨n, ?_, ⟨?_, ?_, ?_, ?_⟩⟩
  · rw [hhead]
    exact Links.detach_seg lk A n N (List.IsChain.tail hseg) hnd'.2
  · have hrest : Seg lk (n :: N) := (Seg.split (A := .head :: A.map .elem) hseg).2
    have hiso : Seg (lk.isolateAll A) (n :: N) := by
      refine hrest.congr ?_ ?_
      · intro z hz
        simp [Links.isolateAll_links, hin z (List.dropLast_subset _ hz)]
      · intro z hz
        simp [Links.isolateAll_links, hin z (List.mem_of_mem_tail hz)]
    rw [hnB]
    refine Seg.join (A := []) (List.IsChain.singleton _) hiso ?_
    rw [List.nil_append, ← hnB]
    exact nodes_nodup (h.nodup.sublist (by simp))
  · exact h.nodup.sublist (by simp)
  · intro b hb
    have hbn : Node.elem b ≠ n := by
      rintro rfl
      exact hb (elem_mem_nodes.mp (by rw [hnB]; simp))
    by_cases hbA : b ∈ A
    · simp [Links.join, Links.isolateAll_links, hbn, hbA]
    · have hold := h.detached b (by simp [hb, hbA])
      simp [Links.join, Links.isolateAll_links, hbn, hbA, hold]
  · simp [Links.join, Links.isolateAll_links, h.last]

/-- Linking fresh elements between the last node and the tail appends them. -/
theorem Spine.pushBack (h : Spine lk l) (hd : (l ++ bs).Nodup) :
    ∃ p, lk.prev .tail = some p ∧
      Spine ((lk.joinAll p bs).1.join (lk.joinAll p bs).2 .tail) (l ++ bs) := by
  obtain ⟨P, p, hp⟩ := front_eq_concat l
  have hnodes : nodes l = P ++ p :: [.tail] := by
    calc nodes l = (.head :: l.map .elem) ++ [.tail] := rfl
      _ = P ++ p :: [.tail] := by rw [hp]; simp
  have hseg := h.seg
  rw [hnodes] at hseg
  have hfull : (P ++ p :: bs.map Node.elem) ++ [.tail] = nodes (l ++ bs) := by
    calc (P ++ p :: bs.map Node.elem) ++ [.tail]
        = (P ++ [p]) ++ bs.map .elem ++ [.tail] := by simp
      _ = nodes (l ++ bs) := by rw [← hp]; simp [nodes]
  have hnd : ((P ++ p :: bs.map Node.elem) ++ [Node.tail]).Nodup := hfull ▸ nodes_nodup hd
  have htail : Node.tail ∉ P ++ p :: bs.map Node.elem :=
    fun hm => (List.nodup_append.mp hnd).2.2 _ hm _ (List.mem_singleton_self _) rfl
  obtain ⟨Q, hQ, hQseg⟩ := Links.joinAll_seg lk p bs P hseg.split.1 (List.nodup_append.mp hnd).1
  have hptail : Node.tail ≠ p := by
    rintro rfl
    exact htail (by simp)
  have hqtail : Node.tail ≠ (lk.joinAll p bs).2 := fun e => htail (by rw [hQ, e]; simp)
  have hfresh : ∀ b ∉ l ++ bs, Node.elem b ≠ p ∧ Node.elem b ≠ (lk.joinAll p bs).2 := by
    intro b hb
    constructor
    · rintro rfl
      exact hb (elem_mem_nodes.mp (by rw [← hfull]; simp))
    · intro e
      exact hb (elem_mem_nodes.mp (by rw [← hfull, hQ, e]; simp))
  refine ⟨p, hseg.link.2, ⟨?_, hd, ?_, ?_⟩⟩
  · rw [← hfull, hQ, List.append_assoc]
    refine Seg.join (B := []) hQseg (List.IsChain.singleton _) ?_
    rw [hQ, List.append_assoc] at hnd
    exact hnd
  · intro b hb
    obtain ⟨hbp, hbq⟩ := hfresh b hb
    have hold := h.detached b (fun hm => hb (List.mem_append_left _ hm))
    have hbs : Node.elem b ∉ bs.map Node.elem := by
      simpa using fun hm => hb (List.mem_append_right _ hm)
    simp [Links.join, hbq, Links.joinAll_next _ _ _ _ hbp hbs, Links.joinAll_prev _ _ _ _ hbs, hold]
  · simp [Links.join, hqtail, Links.joinAll_next _ _ _ _ hptail (by simp), h.last]

/-- Linking fresh elements between the head and the first node prepends them. -/
theorem Spine.pushFront (h : Spine lk l) (hd : (bs ++ l).Nodup) :
    ∃ f, lk.next .head = some f ∧
      Spine ((lk.joinAll .head bs).1.join (lk.joinAll .head bs).2 f) (bs ++ l) := by
  obtain ⟨f, F, hf⟩ := back_eq_cons l
  have hnodes : nodes l = .head :: f :: F := by simp [nodes, ← hf]
  have hseg := h.seg
  rw [hnodes] at hseg
  have hfull : (.head :: bs.map Node.elem) ++ f :: F = nodes (bs ++ l) := by
    simp [nodes, ← hf]
  have hnd : ((.head :: bs.map Node.elem) ++ f :: F).Nodup := hfull ▸ nodes_nodup hd
  obtain ⟨-, -, hdisj⟩ := List.nodup_append.mp hnd
  obtain ⟨Q, hQ, hQseg⟩ := Links.joinAll_seg lk .head bs [] (List.IsChain.singleton _)
    (List.nodup_append.mp hnd).1
  rw [List.nil_append] at hQ
  have hrest : Seg (lk.joinAll .head bs).1 (f :: F) := by
    refine Seg.joinAll (List.IsChain.tail hseg) _ _ ?_ ?_
    · exact fun hm => hdisj .head (by simp) .head hm rfl
    · exact fun b hb hm => hdisj (.elem b) (by simp [hb]) _ hm rfl
  have hqmem : (lk.joinAll .head bs).2 ∈ (.head :: bs.map Node.elem : List (Node α)) := by
    rw [hQ]; simp
  refine ⟨f, (Seg.link (A := []) hseg).1, ⟨?_, hd, ?_, ?_⟩⟩
  · rw [← hfull, hQ, List.append_assoc]
    refine Seg.join hQseg hrest ?_
    rw [hQ, List.append_assoc] at hnd
    exact hnd
  · intro b hb
    have hold := h.detached b (fun hm => hb (List.mem_append_right _ hm))
    have hbs : Node.elem b ∉ bs.map Node.elem := by
      simpa using fun hm => hb (List.mem_append_left _ hm)
    have hbq : Node.elem b ≠ (lk.joinAll .head bs).2 := by
      intro e
      rw [← e] at hqmem
      simp only [List.mem_cons, reduceCtorEq, false_or] at hqmem
      exact hbs hqmem
    have hbf : Node.elem b ≠ f := by
      rintro rfl
      exact hb (elem_mem_nodes.mp (by rw [← hfull]; simp))
    have hnext := Links.joinAll_next lk .head (.elem b) bs (by simp) hbs
    simp [Links.join, hbq, hbf, hnext, Links.joinAll_prev _ _ _ _ hbs, hold]
  · have hqt : Node.tail ≠ (lk.joinAll .head bs).2 := by
      intro e
      rw [← e] at hqmem
      simp at hqmem
    have hnext := Links.joinAll_next lk .head .tail bs (by simp) (by simp)
    simp [Links.join, hqt, hnext, h.last]

/-- Linking a list behind the head and closing it with the tail represents the list. -/
theorem Spine.ofList (hd : bs.Nodup) :
    Spine ((Links.empty.joinAll .head bs).1.join (Links.empty.joinAll .head bs).2 .tail) bs := by
  have hnd : ((Node.head :: bs.map Node.elem) ++ [Node.tail]).Nodup := nodes_nodup hd
  obtain ⟨Q, hQ, hQseg⟩ := Links.joinAll_seg Links.empty .head bs [] (List.IsChain.singleton _)
    (List.nodup_append.mp hnd).1
  rw [List.nil_append] at hQ
  have hlast : (Links.empty.joinAll .head bs).2 ∈ (.head :: bs.map Node.elem : List (Node α)) := by
    rw [hQ]; simp
  refine ⟨?_, hd, ?_, ?_⟩
  · rw [nodes, hQ, List.append_assoc]
    refine Seg.join (B := []) hQseg (List.IsChain.singleton _) ?_
    rw [hQ, List.append_assoc] at hnd
    exact hnd
  · intro b hb
    have hbs : Node.elem b ∉ bs.map Node.elem := by simpa using hb
    have hbl : Node.elem b ≠ (Links.empty.joinAll .head bs).2 := by
      intro e
      rw [← e] at hlast
      simp only [List.mem_cons, reduceCtorEq, false_or] at hlast
      exact hbs hlast
    have hnext : (Links.empty.joinAll .head bs).1.next (.elem b) = none :=
      Links.joinAll_next Links.empty .head (.elem b) bs (by simp) hbs
    have hprev : (Links.empty.joinAll .head bs).1.prev (.elem b) = none :=
      Links.joinAll_prev Links.empty .head (.elem b) bs hbs
    simp [Links.join, hbl, hnext, hprev]
  · have htl : Node.tail ≠ (Links.empty.joinAll .head bs).2 := by
      intro e
      rw [← e] at hlast
      simp at hlast
    have hnext : (Links.empty.joinAll .head bs).1.next .tail = none :=
      Links.joinAll_next Links.empty .head .tail bs (by simp) (by simp)
    simp [Links.join, htl, hnext]

end DoublyLinked
