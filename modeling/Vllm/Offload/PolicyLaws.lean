import Vllm.Offload.CachePolicy
import Mathlib.Data.Multiset.Basic

/-! A cache policy as a finite map: what its operations do to the blocks it holds, whatever their
order. -/
namespace Vllm
open Multiset Dict
variable {P : Type}

/-- No key twice. -/
def DistinctKeys (blocks : Multiset CacheEntry) : Prop := (blocks.map Prod.fst).Nodup

theorem DistinctKeys.of_cons {e : CacheEntry} {blocks : Multiset CacheEntry}
    (h : DistinctKeys (e ::ₘ blocks)) :
    e.1 ∉ blocks.map Prod.fst ∧ DistinctKeys blocks := by
  unfold DistinctKeys at h
  rw [map_cons] at h
  exact nodup_cons.mp h

theorem DistinctKeys.of_add {s t : Multiset CacheEntry} (h : DistinctKeys (s + t)) :
    DistinctKeys s ∧ DistinctKeys t ∧ Disjoint (s.map Prod.fst) (t.map Prod.fst) := by
  unfold DistinctKeys at h
  rw [map_add] at h
  exact nodup_add.mp h

/-- The laws of a policy that holds `held p` in state `p`. -/
structure CachePolicy.Lawful (c : CachePolicy P) (held : P → Multiset CacheEntry) : Prop where
  get : ∀ {p k b}, DistinctKeys (held p) → (c.get p k = some b ↔ (k, b) ∈ held p)
  insert : ∀ {p k b}, DistinctKeys (held p) → c.get p k = none →
    held (c.insert p k b) = (k, b) ::ₘ held p
  remove : ∀ {p k b}, DistinctKeys (held p) → (k, b) ∈ held p →
    ∃ p', c.remove p k = .ok p' ∧ held p = (k, b) ::ₘ held p'
  touch : ∀ {p ks}, DistinctKeys (held p) → held (c.touch p ks) = held p
  evict : ∀ {p n isProtected victims}, DistinctKeys (held p) →
    (c.evict p n isProtected).1 = some victims → victims.length = n ∧
      (∀ e ∈ victims, Evictable isProtected e) ∧
      held p = victims + held (c.evict p n isProtected).2
  evict_none : ∀ {p n isProtected}, (c.evict p n isProtected).1 = none →
    (c.evict p n isProtected).2 = p
  clear : ∀ {p}, held (c.clear p) = 0
  setRefCnt : ∀ {p k b n}, DistinctKeys (held p) → (k, b) ∈ held p →
    ∃ rest, held p = (k, b) ::ₘ rest ∧
      held (c.setRefCnt p k n) = (k, { b with refCnt := n }) ::ₘ rest

namespace CachePolicy.Lawful
variable {c : CachePolicy P} {held : P → Multiset CacheEntry} {p : P} {k k' : OffloadKey}
  {b : BlockStatus} {n : ℤ}

section
variable (h : c.Lawful held) (hd : DistinctKeys (held p))
include h hd

theorem distinct_setRefCnt (hb : (k, b) ∈ held p) : DistinctKeys (held (c.setRefCnt p k n)) := by
  rcases h.setRefCnt hd hb with ⟨rest, hold, hnew⟩
  rw [hold] at hd
  rw [hnew]
  unfold DistinctKeys at hd ⊢
  rwa [map_cons] at hd ⊢

theorem get_setRefCnt (hb : (k, b) ∈ held p) :
    c.get (c.setRefCnt p k n) k' =
      if k' = k then some { b with refCnt := n } else c.get p k' := by
  apply Option.ext
  intro b'
  rw [h.get (h.distinct_setRefCnt hd hb)]
  rcases h.setRefCnt (n := n) hd hb with ⟨rest, hold, hnew⟩
  rw [hold] at hd
  rw [hnew, mem_cons, Prod.mk.injEq]
  by_cases hk : k' = k
  · rw [if_pos hk, hk, Option.some.injEq]
    constructor
    · rintro (⟨-, heq⟩ | hmem)
      · exact heq.symm
      · exact absurd (mem_map_of_mem Prod.fst hmem) hd.of_cons.1
    · exact fun heq => Or.inl ⟨rfl, heq.symm⟩
  · rw [if_neg hk, h.get (hold ▸ hd), hold, mem_cons, Prod.mk.injEq]
    simp only [hk, false_and, false_or]

theorem distinct_insert (hk : c.get p k = none) : DistinctKeys (held (c.insert p k b)) := by
  rw [h.insert hd hk]
  unfold DistinctKeys
  rw [map_cons, nodup_cons]
  refine ⟨fun hmem => ?_, hd⟩
  rcases mem_map.mp hmem with ⟨⟨k', b'⟩, hheld, heq⟩
  cases heq
  rw [(h.get hd).mpr hheld] at hk
  cases hk

theorem get_insert (hk : c.get p k = none) :
    c.get (c.insert p k b) k' = if k' = k then some b else c.get p k' := by
  apply Option.ext
  intro b'
  rw [h.get (h.distinct_insert hd hk), h.insert hd hk, mem_cons, Prod.mk.injEq]
  by_cases hk' : k' = k
  · rw [if_pos hk', hk', Option.some.injEq]
    constructor
    · rintro (⟨-, heq⟩ | hmem)
      · exact heq.symm
      · rw [(h.get hd).mpr hmem] at hk
        cases hk
    · exact fun heq => Or.inl ⟨rfl, heq.symm⟩
  · rw [if_neg hk', h.get hd]
    simp only [hk', false_and, false_or]

theorem get_remove {p' : P} (hp' : held p = (k, b) ::ₘ held p') :
    c.get p' k' = if k' = k then none else c.get p k' := by
  have hboth := hp' ▸ hd
  apply Option.ext
  intro b'
  rw [h.get hboth.of_cons.2]
  by_cases hk : k' = k
  · rw [if_pos hk, hk]
    refine iff_of_false (fun hmem => ?_) (fun heq => nomatch heq)
    exact hboth.of_cons.1 (mem_map.mpr ⟨(k, b'), hmem, rfl⟩)
  · rw [if_neg hk, h.get hd, hp', mem_cons, Prod.mk.injEq]
    simp only [hk, false_and, false_or]

end

end CachePolicy.Lawful

variable {blocks : Dict OffloadKey BlockStatus}

theorem bag_writeRefCnt {k : OffloadKey} {b : BlockStatus} (h : blocks.get? k = some b) (n : ℤ) :
    blocks.bag = (k, b) ::ₘ (blocks.erase k).bag ∧
      (writeRefCnt blocks k n).bag = (k, { b with refCnt := n }) ::ₘ (blocks.erase k).bag := by
  constructor
  · exact blocks.bag_erase h
  · unfold writeRefCnt
    rw [h]
    exact blocks.bag_set

theorem bag_foldl_erase {victims : List CacheEntry}
    (hmem : ∀ e ∈ victims, blocks.get? e.1 = some e.2) (hkeys : (victims.map Prod.fst).Nodup) :
    blocks.bag = victims + (victims.foldl (fun b e => b.erase e.1) blocks).bag := by
  induction victims generalizing blocks with
  | nil => exact (zero_add _).symm
  | cons e victims ih =>
    rcases List.nodup_cons.mp hkeys with ⟨hnot, hrest⟩
    have hsame : ∀ e' ∈ victims, (blocks.erase e.1).get? e'.1 = some e'.2 := by
      intro e' he'
      have hne : e'.1 ≠ e.1 := fun heq => hnot (heq ▸ List.mem_map_of_mem he')
      rw [Dict.get?_erase, if_neg hne]
      exact hmem e' (List.mem_cons_of_mem e he')
    rw [List.foldl_cons, blocks.bag_erase (hmem e List.mem_cons_self), ih hsame hrest,
      ← cons_coe, cons_add]

namespace LRUCachePolicy
variable {p : LRUCachePolicy} {n : ℕ} {isProtected : List OffloadKey}

theorem bag_touch {ks : List OffloadKey} {blocks : Dict OffloadKey BlockStatus} :
    (ks.foldl (fun blocks key => blocks.moveToEnd key) blocks).bag = blocks.bag := by
  induction ks generalizing blocks with
  | nil => rfl
  | cons k ks ih => rw [List.foldl_cons, ih, blocks.bag_moveToEnd]

/-- The blocks that may be evicted, oldest first. -/
def evictable (p : LRUCachePolicy) (isProtected : List OffloadKey) : List CacheEntry :=
  p.blocks.entries.filter (Evictable isProtected ·)

theorem evict_eq : p.evict n isProtected =
    if (p.evictable isProtected).length < n then (none, p)
    else (some ((p.evictable isProtected).take n),
      { blocks := ((p.evictable isProtected).take n).foldl (fun b e => b.erase e.1) p.blocks }) := by
  unfold evict evictable
  dsimp only
  by_cases hn : n = 0
  · rw [if_pos hn, hn, List.take_zero]
    rfl
  · rw [if_neg hn, List.length_take]
    by_cases hlt : (p.blocks.entries.filter (Evictable isProtected ·)).length < n
    · rw [if_pos hlt, if_pos (by omega)]
    · rw [if_neg hlt, if_neg (by omega)]

theorem bag_evict (p : LRUCachePolicy) (n : ℕ) (isProtected : List OffloadKey) :
    p.blocks.bag = (p.evictable isProtected).take n +
      (((p.evictable isProtected).take n).foldl (fun b e => b.erase e.1) p.blocks).bag := by
  have hsub : ((p.evictable isProtected).take n).Sublist p.blocks.entries :=
    (List.take_sublist n _).trans List.filter_sublist
  apply bag_foldl_erase
  · intro e he
    exact p.blocks.mem_entries_iff.mp (hsub.subset he)
  · exact p.blocks.nodupKeys.sublist (hsub.map Prod.fst)

theorem lawful : policy.Lawful fun p => p.blocks.bag where
  get _ := (mem_bag _).symm
  insert _ hnone := bag_set_of_none _ hnone
  remove := by
    intro p k b _ hmem
    have hget := p.blocks.mem_bag.mp hmem
    have hcontains : p.blocks.contains k = true := by
      unfold Dict.contains
      rw [hget]
      rfl
    exact ⟨_, if_pos hcontains, p.blocks.bag_erase hget⟩
  touch _ := bag_touch
  evict := by
    intro p n isProtected victims _ hsome
    show victims.length = n ∧ _ ∧ p.blocks.bag = victims + (p.evict n isProtected).2.blocks.bag
    change (p.evict n isProtected).1 = some victims at hsome
    rw [evict_eq] at hsome ⊢
    by_cases hlt : (p.evictable isProtected).length < n
    · rw [if_pos hlt] at hsome
      cases hsome
    · rw [if_neg hlt] at hsome ⊢
      cases hsome
      refine ⟨?_, ?_, p.bag_evict n isProtected⟩
      · rw [List.length_take]
        omega
      · intro e he
        exact of_decide_eq_true (List.mem_filter.mp (List.mem_of_mem_take he)).2
  evict_none := by
    intro p n isProtected hnone
    show (p.evict n isProtected).2 = p
    change (p.evict n isProtected).1 = none at hnone
    rw [evict_eq] at hnone ⊢
    by_cases hlt : (p.evictable isProtected).length < n
    · rw [if_pos hlt]
    · rw [if_neg hlt] at hnone
      cases hnone
  clear := rfl
  setRefCnt := by
    intro p k b n _ hmem
    exact ⟨_, bag_writeRefCnt (p.blocks.mem_bag.mp hmem) n⟩

end LRUCachePolicy

namespace ARCCachePolicy
variable {p : ARCCachePolicy} {k : OffloadKey} {b : BlockStatus} {n : ℕ}
  {isProtected : List OffloadKey}

def held (p : ARCCachePolicy) : Multiset CacheEntry := p.t1.bag + p.t2.bag

/-- A key of one list is not in the other. -/
theorem t2_eq_none (h : DistinctKeys p.held) (hget : p.t1.get? k = some b) :
    p.t2.get? k = none := by
  cases h2 : p.t2.get? k with
  | none => rfl
  | some b' =>
    have hdisjoint := h.of_add.2.2
    have h1 := mem_map_of_mem Prod.fst (p.t1.mem_bag.mpr hget)
    have h2 := mem_map_of_mem Prod.fst (p.t2.mem_bag.mpr h2)
    exact absurd h2 (disjoint_left.mp hdisjoint h1)

theorem get_iff (h : DistinctKeys p.held) : p.get k = some b ↔ (k, b) ∈ p.held := by
  unfold held get
  rw [mem_add, mem_bag, mem_bag]
  cases h1 : p.t1.get? k with
  | none => simp
  | some b' =>
    rw [t2_eq_none h h1]
    simp

theorem contains_t1 : p.t1.contains k = true ↔ ∃ b, p.t1.get? k = some b :=
  Option.isSome_iff_exists

theorem held_touchKey (h : DistinctKeys p.held) (round : ℚ → ℚ) :
    (touchKey round p k).held = p.held := by
  unfold touchKey
  cases h1 : p.t1.get? k with
  | some block =>
    dsimp only
    by_cases hready : block.isReady
    · rw [if_pos hready]
      unfold held
      rw [bag_set_of_none _ (t2_eq_none h h1), p.t1.bag_erase h1, cons_add, add_cons]
    · rw [if_neg hready]
      unfold held
      rw [bag_moveToEnd]
  | none =>
    split_ifs
    · unfold held
      rw [bag_moveToEnd]
    all_goals rfl

theorem held_touch (h : DistinctKeys p.held) (round : ℚ → ℚ) {ks : List OffloadKey} :
    (p.touch round ks).held = p.held := by
  unfold touch
  induction ks.reverse generalizing p with
  | nil => rfl
  | cons k ks ih =>
    have hkey := held_touchKey (k := k) h round
    rw [List.foldl_cons, ih (hkey ▸ h), hkey]

/-- What a candidate names is in the list it comes from. -/
def From (p : ARCCachePolicy) (c : Candidate) : Prop :=
  (if c.2 then p.t1 else p.t2).get? c.1.1 = some c.1.2

theorem held_evictCandidate {c : Candidate} (h : p.From c) :
    p.held = c.1 ::ₘ (p.evictCandidate c).held := by
  unfold From at h
  unfold evictCandidate
  by_cases hc : c.2 = true
  · rw [if_pos hc] at h ⊢
    unfold held
    rw [p.t1.bag_erase h, cons_add]
  · rw [if_neg hc] at h ⊢
    unfold held
    rw [p.t2.bag_erase h, add_cons]

theorem From.evictCandidate {c c' : Candidate} (h : p.From c') (hne : c'.1.1 ≠ c.1.1) :
    (p.evictCandidate c).From c' := by
  unfold From at h ⊢
  unfold ARCCachePolicy.evictCandidate
  by_cases hc : c.2 = true <;> by_cases hc' : c'.2 = true <;>
    simp_all [Dict.get?_erase]

theorem held_foldl_evictCandidate {cs : List Candidate} (hfrom : ∀ c ∈ cs, p.From c)
    (hkeys : (cs.map fun c => c.1.1).Nodup) :
    p.held = cs.map Prod.fst + (cs.foldl evictCandidate p).held := by
  induction cs generalizing p with
  | nil => exact (zero_add _).symm
  | cons c cs ih =>
    rcases List.nodup_cons.mp hkeys with ⟨hnot, hrest⟩
    have hsame : ∀ c' ∈ cs, (p.evictCandidate c).From c' := by
      intro c' hc'
      apply (hfrom c' (List.mem_cons_of_mem c hc')).evictCandidate
      exact fun heq => hnot (List.mem_map.mpr ⟨c', hc', heq⟩)
    rw [List.foldl_cons, held_evictCandidate (hfrom c List.mem_cons_self), ih hsame hrest,
      List.map_cons, ← cons_coe, cons_add]

variable {selected : List OffloadKey}

theorem nextCandidate_spec {v : ℤ} {c : Candidate}
    (h : p.nextCandidate isProtected selected v = some c) :
    Evictable isProtected c.1 ∧ c.1.1 ∉ selected ∧ p.From c := by
  have hfound : ∀ {blocks : Dict OffloadKey BlockStatus} {e : CacheEntry},
      blocks.entries.find? (fun e => Evictable isProtected e ∧ e.1 ∉ selected) = some e →
      Evictable isProtected e ∧ e.1 ∉ selected ∧ blocks.get? e.1 = some e.2 := by
    intro blocks e he
    have hfree : Evictable isProtected e ∧ e.1 ∉ selected := by
      simpa using List.find?_some he
    exact ⟨hfree.1, hfree.2, blocks.mem_entries_iff.mp (List.mem_of_find?_eq_some he)⟩
  unfold nextCandidate at h
  dsimp only at h
  split at h
  · rename_i e he
    cases h
    split_ifs at he
    exact hfound he
  · rcases Option.map_eq_some_iff.mp h with ⟨e, he, rfl⟩
    exact hfound he

theorem candidates_spec {v : ℤ} {cs : List Candidate}
    (h : p.candidates isProtected n selected v = some cs) :
    cs.length = n ∧ (∀ c ∈ cs, Evictable isProtected c.1 ∧ c.1.1 ∉ selected ∧ p.From c) ∧
      (cs.map fun c => c.1.1).Nodup := by
  induction n generalizing selected v cs with
  | zero =>
    cases h
    exact ⟨rfl, fun c hc => absurd hc List.not_mem_nil, List.nodup_nil⟩
  | succ n ih =>
    unfold candidates at h
    cases hnext : p.nextCandidate isProtected selected v with
    | none =>
      rw [hnext] at h
      cases h
    | some c =>
      rw [hnext] at h
      rcases Option.map_eq_some_iff.mp h with ⟨rest, hrest, rfl⟩
      rcases ih hrest with ⟨hlen, hall, hkeys⟩
      refine ⟨congrArg Nat.succ hlen, ?_, ?_⟩
      · intro c' hc'
        rcases List.mem_cons.mp hc' with rfl | hc'
        · exact nextCandidate_spec hnext
        · rcases hall c' hc' with ⟨hev, hnot, hfrom⟩
          exact ⟨hev, fun hmem => hnot (List.mem_cons_of_mem _ hmem), hfrom⟩
      · rw [List.map_cons, List.nodup_cons]
        refine ⟨fun hmem => ?_, hkeys⟩
        rcases List.mem_map.mp hmem with ⟨c', hc', heq⟩
        exact (hall c' hc').2.1 (heq ▸ List.mem_cons_self)

theorem evict_some {victims : List CacheEntry} (h : (p.evict n isProtected).1 = some victims) :
    victims.length = n ∧ (∀ e ∈ victims, Evictable isProtected e) ∧
      p.held = victims + (p.evict n isProtected).2.held := by
  unfold evict at h ⊢
  by_cases hn : n = 0
  · rw [if_pos hn] at h ⊢
    cases h
    exact ⟨hn.symm, fun e he => absurd he List.not_mem_nil, (zero_add _).symm⟩
  · rw [if_neg hn] at h ⊢
    cases hcs : p.candidates isProtected n [] p.t1.size with
    | none =>
      rw [hcs] at h
      cases h
    | some cs =>
      rw [hcs] at h
      cases h
      rcases candidates_spec hcs with ⟨hlen, hall, hkeys⟩
      refine ⟨(List.length_map _).trans hlen, ?_, ?_⟩
      · intro e he
        rcases List.mem_map.mp he with ⟨c, hc, rfl⟩
        exact (hall c hc).1
      · exact held_foldl_evictCandidate (fun c hc => (hall c hc).2.2) hkeys

theorem evict_none (h : (p.evict n isProtected).1 = none) : (p.evict n isProtected).2 = p := by
  unfold evict at h ⊢
  by_cases hn : n = 0
  · rw [if_pos hn] at h
    cases h
  · rw [if_neg hn] at h ⊢
    cases hcs : p.candidates isProtected n [] p.t1.size with
    | none => rfl
    | some cs =>
      rw [hcs] at h
      cases h

theorem lawful (round : ℚ → ℚ) : (policy round).Lawful held where
  get := get_iff
  insert := by
    intro p k b _ hnone
    have h1 : p.t1.get? k = none := (Option.or_eq_none_iff.mp hnone).1
    show (p.t1.set k b).bag + p.t2.bag = (k, b) ::ₘ (p.t1.bag + p.t2.bag)
    rw [bag_set_of_none _ h1, cons_add]
  remove := by
    intro p k b h hmem
    refine ⟨_, rfl, ?_⟩
    have hget := (get_iff h).mpr hmem
    unfold get at hget
    unfold remove held
    cases h1 : p.t1.get? k with
    | some b' =>
      rw [h1] at hget
      cases hget
      rw [if_pos (contains_t1.mpr ⟨b, h1⟩), p.t1.bag_erase h1, cons_add]
    | none =>
      rw [h1] at hget
      have hnot : ¬p.t1.contains k = true := by
        rw [contains_t1, h1]
        rintro ⟨b', hb'⟩
        cases hb'
      rw [if_neg hnot, p.t2.bag_erase hget, add_cons]
  touch h := held_touch h round
  evict _ := evict_some
  evict_none := evict_none
  clear := rfl
  setRefCnt := by
    intro p k b n h hmem
    have hget := (get_iff h).mpr hmem
    unfold get at hget
    show ∃ rest, p.held = _ ∧ (p.setRefCnt k n).held = _
    unfold setRefCnt held
    cases h1 : p.t1.get? k with
    | some b' =>
      rw [h1] at hget
      cases hget
      rcases bag_writeRefCnt h1 n with ⟨hold, hnew⟩
      refine ⟨(p.t1.erase k).bag + p.t2.bag, ?_, ?_⟩
      · rw [hold, cons_add]
      · rw [if_pos (contains_t1.mpr ⟨b, h1⟩), hnew, cons_add]
    | none =>
      rw [h1] at hget
      have hnot : ¬p.t1.contains k = true := by
        rw [contains_t1, h1]
        rintro ⟨b', hb'⟩
        cases hb'
      rcases bag_writeRefCnt hget n with ⟨hold, hnew⟩
      refine ⟨p.t1.bag + (p.t2.erase k).bag, ?_, ?_⟩
      · rw [hold, add_cons]
      · rw [if_neg hnot, hnew, add_cons]

end ARCCachePolicy

end Vllm
