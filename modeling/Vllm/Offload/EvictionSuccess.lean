import Vllm.Offload.PolicyLaws

/-! When `evict` finds what it is asked for: always under the LRU policy, and under the ARC policy
unless it would have to come back from `t2` to `t1`. -/
namespace Vllm
open Multiset
variable {P : Type} {n : ℕ} {isProtected : List OffloadKey}

/-- What the callers of a policy do: a key is inserted if it is not there and removed if it is, and
the references to a block are counted in its status. -/
inductive CachePolicy.Reachable (c : CachePolicy P) (init : P) : P → Prop
  | init : Reachable c init init
  | insert {p k b} : Reachable c init p → c.get p k = none → Reachable c init (c.insert p k b)
  | remove {p k b p'} : Reachable c init p → c.get p k = some b → c.remove p k = .ok p' →
      Reachable c init p'
  | touch {p ks} : Reachable c init p → Reachable c init (c.touch p ks)
  | evict {p n isProtected} : Reachable c init p → Reachable c init (c.evict p n isProtected).2
  | clear {p} : Reachable c init p → Reachable c init (c.clear p)
  | setRefCnt {p k b n} : Reachable c init p → c.get p k = some b →
      Reachable c init (c.setRefCnt p k n)

/-- `n` blocks that may be evicted, and only these, are gone. -/
structure CachePolicy.Evicts (c : CachePolicy P) (p : P) (n : ℕ) (isProtected : List OffloadKey)
    (victims : List CacheEntry) (p' : P) : Prop where
  length_eq : victims.length = n
  distinct : (victims.map Prod.fst).Nodup
  evictable : ∀ e ∈ victims, c.get p e.1 = some e.2 ∧ Evictable isProtected e
  removed : ∀ k, c.get p' k = if k ∈ victims.map Prod.fst then none else c.get p k

/-- If there are `n` blocks that may be evicted then `n` are, and else nothing changes. -/
def CachePolicy.EvictsIfPossible (c : CachePolicy P) (held : P → Multiset CacheEntry) (p : P)
    (n : ℕ) (isProtected : List OffloadKey) : Prop :=
  if n ≤ (held p).countP (Evictable isProtected) then
    ∃ victims p', c.evict p n isProtected = (some victims, p') ∧
      c.Evicts p n isProtected victims p'
  else c.evict p n isProtected = (none, p)

namespace CachePolicy.Lawful
variable {c : CachePolicy P} {held : P → Multiset CacheEntry} {p : P}

section
variable (h : c.Lawful held)
include h

theorem distinctKeys {init : P} (hinit : held init = 0) (hp : c.Reachable init p) :
    DistinctKeys (held p) := by
  induction hp with
  | init =>
    rw [hinit]
    exact nodup_zero
  | insert _ hnone ih => exact h.distinct_insert ih hnone
  | remove _ hsome hremove ih =>
    rcases h.remove ih ((h.get ih).mp hsome) with ⟨p', hp', heq⟩
    rw [hp'] at hremove
    cases hremove
    exact (heq ▸ ih).of_cons.2
  | touch _ ih =>
    rw [h.touch ih]
    exact ih
  | @evict p n isProtected _ ih =>
    cases hvictims : (c.evict p n isProtected).1 with
    | none =>
      rw [h.evict_none hvictims]
      exact ih
    | some victims => exact ((h.evict ih hvictims).2.2 ▸ ih).of_add.2.1
  | clear =>
    rw [h.clear]
    exact nodup_zero
  | setRefCnt _ hsome ih => exact h.distinct_setRefCnt ih ((h.get ih).mp hsome)

theorem evicts (hdistinct : DistinctKeys (held p)) {victims : List CacheEntry}
    (hsome : (c.evict p n isProtected).1 = some victims) :
    c.Evicts p n isProtected victims (c.evict p n isProtected).2 := by
  rcases h.evict hdistinct hsome with ⟨hlen, hall, hheld⟩
  have hboth := hheld ▸ hdistinct
  rcases hboth.of_add with ⟨hvictims, hrest, hdisjoint⟩
  constructor
  · exact hlen
  · exact coe_nodup.mp hvictims
  · intro e he
    refine ⟨(h.get hdistinct).mpr ?_, hall e he⟩
    rw [hheld]
    exact mem_add.mpr (Or.inl he)
  · intro k
    apply Option.ext
    intro b
    rw [h.get hrest]
    by_cases hk : k ∈ victims.map Prod.fst
    · rw [if_pos hk]
      constructor
      · intro hmem
        have hkey := mem_map_of_mem Prod.fst hmem
        exact absurd hkey (disjoint_left.mp hdisjoint (mem_coe.mpr hk))
      · intro hnone
        cases hnone
    · rw [if_neg hk, h.get hdistinct, hheld, mem_add]
      constructor
      · exact Or.inr
      · rintro (hmem | hmem)
        · exact absurd (List.mem_map_of_mem (mem_coe.mp hmem)) hk
        · exact hmem

theorem le_countP (hdistinct : DistinctKeys (held p)) {victims : List CacheEntry}
    (hsome : (c.evict p n isProtected).1 = some victims) :
    n ≤ (held p).countP (Evictable isProtected) := by
  rcases h.evict hdistinct hsome with ⟨hlen, hall, hheld⟩
  have hcount : countP (Evictable isProtected) (victims : Multiset CacheEntry) = n := by
    rw [← hlen, ← coe_card]
    exact countP_eq_card.mpr hall
  rw [hheld, countP_add, hcount]
  exact Nat.le_add_right n _

theorem evictsIfPossible_iff (hdistinct : DistinctKeys (held p)) :
    c.EvictsIfPossible held p n isProtected ↔
      (n ≤ (held p).countP (Evictable isProtected) →
        (c.evict p n isProtected).1.isSome = true) := by
  unfold EvictsIfPossible
  by_cases hle : n ≤ (held p).countP (Evictable isProtected)
  · rw [if_pos hle]
    constructor
    · rintro ⟨victims, p', heq, -⟩ _
      rw [heq]
      rfl
    · intro hsome
      rcases Option.isSome_iff_exists.mp (hsome hle) with ⟨victims, hvictims⟩
      exact ⟨victims, _, Prod.ext hvictims rfl, h.evicts hdistinct hvictims⟩
  · rw [if_neg hle]
    refine iff_of_true ?_ (fun hle' => absurd hle' hle)
    cases hvictims : (c.evict p n isProtected).1 with
    | none => exact Prod.ext hvictims (h.evict_none hvictims)
    | some victims => exact absurd (h.le_countP hdistinct hvictims) hle

end

end CachePolicy.Lawful

namespace LRUCachePolicy

theorem evict_isSome (p : LRUCachePolicy) (hle : n ≤ p.blocks.bag.countP (Evictable isProtected)) :
    (p.evict n isProtected).1.isSome = true := by
  have hcount : p.blocks.bag.countP (Evictable isProtected) =
      (p.evictable isProtected).length := by
    unfold Dict.bag evictable
    rw [coe_countP, List.countP_eq_length_filter]
  rw [evict_eq, if_neg (by omega)]
  rfl

end LRUCachePolicy

namespace ARCCachePolicy
variable {p : ARCCachePolicy} {selected : List OffloadKey} {v : ℤ}

/-- The blocks of a list that may still be selected. -/
def freeCount (blocks : Dict OffloadKey BlockStatus) (isProtected selected : List OffloadKey) : ℕ :=
  blocks.bag.countP fun e => Evictable isProtected e ∧ e.1 ∉ selected

variable {blocks : Dict OffloadKey BlockStatus}

theorem find?_eq_none_iff :
    blocks.entries.find? (fun e => Evictable isProtected e ∧ e.1 ∉ selected) = none ↔
      freeCount blocks isProtected selected = 0 := by
  unfold freeCount
  rw [countP_eq_zero, List.find?_eq_none]
  unfold Dict.bag
  simp only [decide_eq_true_eq, mem_coe]

theorem freeCount_cons_self {e : CacheEntry} (hget : blocks.get? e.1 = some e.2)
    (hfree : Evictable isProtected e ∧ e.1 ∉ selected) :
    freeCount blocks isProtected (e.1 :: selected) + 1 = freeCount blocks isProtected selected := by
  have hdistinct : DistinctKeys blocks.bag := blocks.nodup_bag
  unfold freeCount
  rw [blocks.bag_erase hget] at hdistinct ⊢
  rw [countP_cons, countP_cons, if_pos hfree, if_neg (by simp), Nat.add_zero]
  congr 1
  apply countP_congr rfl
  intro e' he'
  have hne : e'.1 ≠ e.1 := by
    intro heq
    have hkey := mem_map_of_mem Prod.fst he'
    rw [heq] at hkey
    exact hdistinct.of_cons.1 hkey
  simp [hne]

theorem freeCount_cons_other {k : OffloadKey} (isProtected selected : List OffloadKey)
    (hget : blocks.get? k = none) :
    freeCount blocks isProtected (k :: selected) = freeCount blocks isProtected selected := by
  unfold freeCount
  apply countP_congr rfl
  intro e' he'
  have hne : e'.1 ≠ k := by
    rintro rfl
    rw [blocks.mem_bag.mp he'] at hget
    cases hget
  simp [hne]

/-- As many candidates as the simulated size of `t1` stays at the target, and all of `t2`. -/
theorem candidates_isSome_iff (h : DistinctKeys p.held) :
    (p.candidates isProtected n selected v).isSome = true ↔
      n ≤ min (freeCount p.t1 isProtected selected) (v + 1 - p.intTarget).toNat +
        freeCount p.t2 isProtected selected := by
  induction n generalizing selected v with
  | zero => exact iff_of_true rfl (Nat.zero_le _)
  | succ n ih =>
    have hstep : ∀ c : Candidate, p.nextCandidate isProtected selected v = some c →
        ((p.candidates isProtected (n + 1) selected v).isSome = true ↔
          (p.candidates isProtected n (c.1.1 :: selected)
            (if c.2 then v - 1 else v)).isSome = true) := by
      intro c hc
      rw [candidates, hc]
      exact Eq.to_iff (congrArg (· = true) Option.isSome_map)
    by_cases htarget : p.intTarget ≤ v ∧ freeCount p.t1 isProtected selected ≠ 0
    · have hfind := mt find?_eq_none_iff.mp htarget.2
      rcases Option.ne_none_iff_exists'.mp hfind with ⟨e, he⟩
      have hnext : p.nextCandidate isProtected selected v = some (e, true) := by
        unfold nextCandidate
        dsimp only
        rw [if_pos htarget.1, he]
      rcases nextCandidate_spec hnext with ⟨hev, hnot, hfrom⟩
      have hget : p.t1.get? e.1 = some e.2 := hfrom
      have h1 := freeCount_cons_self hget ⟨hev, hnot⟩
      have h2 := freeCount_cons_other isProtected selected (t2_eq_none h hget)
      rw [hstep _ hnext, ih]
      dsimp only
      rw [if_pos rfl, h2]
      omega
    · have hnone : (if p.intTarget ≤ v then p.t1.entries.find?
          (fun e => Evictable isProtected e ∧ e.1 ∉ selected) else none) = none := by
        by_cases hle : p.intTarget ≤ v
        · rw [if_pos hle]
          exact find?_eq_none_iff.mpr (not_not.mp fun hne => htarget ⟨hle, hne⟩)
        · exact if_neg hle
      cases he : p.t2.entries.find? (fun e => Evictable isProtected e ∧ e.1 ∉ selected) with
      | none =>
        have hnext : p.nextCandidate isProtected selected v = none := by
          unfold nextCandidate
          dsimp only
          rw [hnone, he]
          rfl
        have h2 := find?_eq_none_iff.mp he
        rw [candidates, hnext, h2]
        refine iff_of_false Bool.false_ne_true ?_
        omega
      | some e =>
        have hnext : p.nextCandidate isProtected selected v = some (e, false) := by
          unfold nextCandidate
          dsimp only
          rw [hnone, he]
          rfl
        rcases nextCandidate_spec hnext with ⟨hev, hnot, hfrom⟩
        have hget : p.t2.get? e.1 = some e.2 := hfrom
        have h2 := freeCount_cons_self hget ⟨hev, hnot⟩
        have hother : p.t1.get? e.1 = none := by
          cases h1 : p.t1.get? e.1 with
          | none => rfl
          | some b =>
            rw [t2_eq_none h h1] at hget
            cases hget
        have h1 := freeCount_cons_other isProtected selected hother
        rw [hstep _ hnext, ih]
        dsimp only
        rw [if_neg Bool.false_ne_true, h1]
        omega

theorem evict_isSome_iff (h : DistinctKeys p.held) :
    (p.evict n isProtected).1.isSome = true ↔
      n ≤ min (p.t1.bag.countP (Evictable isProtected)) (p.t1.size + 1 - p.intTarget).toNat +
        p.t2.bag.countP (Evictable isProtected) := by
  have hcount : ∀ blocks : Dict OffloadKey BlockStatus,
      freeCount blocks isProtected [] = blocks.bag.countP (Evictable isProtected) := by
    intro blocks
    unfold freeCount
    simp
  rw [← hcount, ← hcount, ← candidates_isSome_iff h]
  unfold evict
  by_cases hn : n = 0
  · rw [if_pos hn, hn]
    exact iff_of_true rfl rfl
  · rw [if_neg hn]
    cases p.candidates isProtected n [] p.t1.size <;> rfl

end ARCCachePolicy

/-- Blocks of `t1` are not evicted any more once its simulated size is below the target. -/
theorem evict_ifPossible (round : ℚ → ℚ) (cacheCapacity n : ℕ) (isProtected : List OffloadKey) :
    (∀ p, LRUCachePolicy.policy.Reachable {} p →
      LRUCachePolicy.policy.EvictsIfPossible (fun p => p.blocks.bag) p n isProtected) ∧
    (∀ p, (ARCCachePolicy.policy round).Reachable { cacheCapacity } p →
      ((ARCCachePolicy.policy round).EvictsIfPossible ARCCachePolicy.held p n isProtected ↔
        let free1 := p.t1.bag.countP (Evictable isProtected)
        let free2 := p.t2.bag.countP (Evictable isProtected)
        free1 + free2 < n ∨ n ≤ min free1 (p.t1.size + 1 - p.intTarget).toNat + free2)) := by
  constructor
  · intro p hp
    have hdistinct := LRUCachePolicy.lawful.distinctKeys rfl hp
    exact (LRUCachePolicy.lawful.evictsIfPossible_iff hdistinct).mpr p.evict_isSome
  · intro p hp
    have hlawful := ARCCachePolicy.lawful round
    have hdistinct := hlawful.distinctKeys rfl hp
    have hcount : p.held.countP (Evictable isProtected) =
        p.t1.bag.countP (Evictable isProtected) + p.t2.bag.countP (Evictable isProtected) :=
      countP_add _ _ _
    rw [hlawful.evictsIfPossible_iff hdistinct, hcount]
    change (_ → (p.evict n isProtected).1.isSome = true) ↔ _
    rw [ARCCachePolicy.evict_isSome_iff hdistinct]
    omega

section GhostHits

/-- The key of a block with this hash in the only group. -/
def soloKey (hash : UInt8) : OffloadKey := ⟨[hash], 0⟩

/-- Two blocks, one evicted; its key comes up twice, so the target is above the one that is left. -/
def raisedTarget : ARCCachePolicy :=
  let c := ARCCachePolicy.policy id
  let p := c.insert { cacheCapacity := 2 } (soloKey 1) ⟨0, 0⟩
  let p := c.insert p (soloKey 2) ⟨1, 0⟩
  let p := (c.evict p 1 []).2
  c.touch p [soloKey 1, soloKey 1]

theorem raisedTarget_reachable :
    (ARCCachePolicy.policy id).Reachable { cacheCapacity := 2 } raisedTarget :=
  ((CachePolicy.Reachable.init.insert rfl).insert (by decide)).evict.touch

/-- The block that is left is free, but it is in `t1` and is not evicted. -/
theorem evict_fails_below_target :
    ¬∀ p, (ARCCachePolicy.policy id).Reachable { cacheCapacity := 2 } p →
      ∀ n isProtected,
        (ARCCachePolicy.policy id).EvictsIfPossible ARCCachePolicy.held p n isProtected := by
  intro h
  have hone := h raisedTarget raisedTarget_reachable 1 []
  have hcount : raisedTarget.held.countP (Evictable []) = 1 := by decide +kernel
  have hnone : (raisedTarget.evict 1 []).1.isSome = false := by decide +kernel
  unfold CachePolicy.EvictsIfPossible at hone
  rw [if_pos hcount.ge] at hone
  rcases hone with ⟨victims, p', heq, -⟩
  have hsome : (raisedTarget.evict 1 []).1 = some victims := congrArg Prod.fst heq
  rw [hsome] at hnone
  cases hnone

theorem evict_ifPossible_raisedTarget :
    LRUCachePolicy.policy.EvictsIfPossible (fun p => p.blocks.bag) {} 1 [] ∧
      ¬(ARCCachePolicy.policy id).EvictsIfPossible ARCCachePolicy.held raisedTarget 1 [] := by
  rcases evict_ifPossible id 2 1 [] with ⟨hlru, harc⟩
  constructor
  · exact hlru {} .init
  · rw [harc raisedTarget raisedTarget_reachable]
    decide +kernel

end GhostHits

end Vllm
