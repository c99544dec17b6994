import Vllm.Offload.EvictionSuccess
import Mathlib.Data.Multiset.Range

/-! The blocks of the CPU pool: who has each of them, and what its reference count counts. -/
namespace Vllm
open Multiset
namespace CPUOffloadingManager
variable {P : Type} {c : CachePolicy P} {held : P → Multiset CacheEntry}
  {m : CPUOffloadingManager P} {pending loads : Multiset OffloadKey} {hand : Multiset ℕ}
  {k : OffloadKey} {b : BlockStatus}

/-- The ids that have never been handed out. -/
def neverAllocated (m : CPUOffloadingManager P) : List ℕ :=
  List.range' m.numAllocatedBlocks (m.numBlocks - m.numAllocatedBlocks)

/-- The ids of the blocks that the policy holds. -/
def heldIds (held : P → Multiset CacheEntry) (m : CPUOffloadingManager P) : Multiset ℕ :=
  (held m.policy).map fun e => e.2.blockId

/-- The keys that the policy holds. -/
def heldKeys (held : P → Multiset CacheEntry) (m : CPUOffloadingManager P) :
    Multiset OffloadKey :=
  (held m.policy).map Prod.fst

/-- The stores of `pending` and the loads of `loads` are outstanding, and the ids of `hand` are
about to be given to a key or back. -/
structure PoolInv (held : P → Multiset CacheEntry) (m : CPUOffloadingManager P)
    (pending loads : Multiset OffloadKey) (hand : Multiset ℕ) : Prop where
  distinct : DistinctKeys (held m.policy)
  partition : m.heldIds held + m.freeList + m.neverAllocated + hand = Multiset.range m.numBlocks
  allocated_le : m.numAllocatedBlocks ≤ m.numBlocks
  refCnt : ∀ k b, (k, b) ∈ held m.policy →
    b.refCnt = if k ∈ pending then -1 else (loads.count k : ℤ)
  pendingHeld : ∀ k ∈ pending, k ∈ m.heldKeys held
  loadsHeld : ∀ k ∈ loads, k ∉ pending ∧ k ∈ m.heldKeys held
  nodup : pending.Nodup

/-- The id of the block of a key. -/
def idOf (c : CachePolicy P) (m : CPUOffloadingManager P) (k : OffloadKey) : Option ℕ :=
  (c.get m.policy k).map fun b => b.blockId

theorem mem_heldKeys : k ∈ m.heldKeys held ↔ ∃ b, (k, b) ∈ held m.policy := by
  unfold heldKeys
  rw [mem_map]
  constructor
  · rintro ⟨⟨k', b⟩, hmem, rfl⟩
    exact ⟨b, hmem⟩
  · rintro ⟨b, hmem⟩
    exact ⟨(k, b), hmem, rfl⟩

theorem answer_eq_true_iff :
    m.answer c k = some true ↔ ∃ b, c.get m.policy k = some b ∧ b.isReady := by
  unfold answer
  cases c.get m.policy k with
  | none => simp
  | some b => by_cases hready : b.isReady <;> simp [hready]

namespace PoolInv

section
variable (h : PoolInv held m pending loads hand)
include h

theorem congr {m' : CPUOffloadingManager P} (hpolicy : m'.policy = m.policy)
    (hfree : m'.freeList = m.freeList) (halloc : m'.numAllocatedBlocks = m.numAllocatedBlocks)
    (hnum : m'.numBlocks = m.numBlocks) :
    PoolInv held m' pending loads hand := by
  rcases m with ⟨numBlocks, policy, allocated, free, _, _, _, _, _⟩
  rcases m' with ⟨numBlocks', policy', allocated', free', _, _, _, _, _⟩
  dsimp only at hpolicy hfree halloc hnum
  rw [hpolicy, hfree, halloc, hnum]
  exact ⟨h.distinct, h.partition, h.allocated_le, h.refCnt, h.pendingHeld, h.loadsHeld, h.nodup⟩

theorem get_iff (hc : c.Lawful held) :
    c.get m.policy k = some b ↔ (k, b) ∈ held m.policy := hc.get h.distinct

theorem not_held (hc : c.Lawful held) (hnone : c.get m.policy k = none) :
    k ∉ pending ∧ k ∉ loads := by
  have hnot : k ∉ m.heldKeys held := by
    intro hmem
    rcases mem_heldKeys.mp hmem with ⟨b, hb⟩
    rw [(h.get_iff hc).mpr hb] at hnone
    cases hnone
  exact ⟨fun hp => hnot (h.pendingHeld k hp), fun hl => hnot (h.loadsHeld k hl).2⟩

/-- A block is being written exactly while its store is pending. -/
theorem refCnt_neg_iff (hb : (k, b) ∈ held m.policy) : ¬b.isReady ↔ k ∈ pending := by
  have href := h.refCnt k b hb
  unfold BlockStatus.isReady
  split_ifs at href with hp
  · exact iff_of_true (by omega) hp
  · exact iff_of_false (by omega) hp

theorem free_of_refCnt (hb : (k, b) ∈ held m.policy) (hzero : b.refCnt = 0) :
    k ∉ pending ∧ k ∉ loads := by
  have href := h.refCnt k b hb
  split_ifs at href with hp
  · omega
  · refine ⟨hp, fun hl => ?_⟩
    have hcount := count_pos.mpr hl
    omega

theorem setRefCnt (hc : c.Lawful held) (hb : (k, b) ∈ held m.policy)
    {pending' loads' : Multiset OffloadKey} {n : ℤ}
    (hn : n = if k ∈ pending' then -1 else (loads'.count k : ℤ))
    (hpending : ∀ k' ≠ k, k' ∈ pending' ↔ k' ∈ pending)
    (hloads : ∀ k' ≠ k, loads'.count k' = loads.count k') (hnodup : pending'.Nodup)
    (hself : k ∈ loads' → k ∉ pending') :
    PoolInv held { m with policy := c.setRefCnt m.policy k n } pending' loads' hand := by
  rcases hc.setRefCnt (n := n) h.distinct hb with ⟨rest, hold, hnew⟩
  have hkeys : heldKeys held { m with policy := c.setRefCnt m.policy k n } = m.heldKeys held := by
    unfold heldKeys
    rw [hold, hnew, map_cons, map_cons]
  have hids : heldIds held { m with policy := c.setRefCnt m.policy k n } = m.heldIds held := by
    unfold heldIds
    rw [hold, hnew, map_cons, map_cons]
  have hk : k ∈ m.heldKeys held := mem_heldKeys.mpr ⟨b, hb⟩
  constructor
  · exact hc.distinct_setRefCnt h.distinct hb
  · rw [hids]
    exact h.partition
  · exact h.allocated_le
  · intro k' b' hb'
    change (k', b') ∈ held (c.setRefCnt m.policy k n) at hb'
    rw [hnew, mem_cons, Prod.mk.injEq] at hb'
    rcases hb' with ⟨rfl, rfl⟩ | hrest
    · exact hn
    · have hne : k' ≠ k := by
        rintro rfl
        have hd := h.distinct
        rw [hold] at hd
        exact hd.of_cons.1 (mem_map.mpr ⟨(k', b'), hrest, rfl⟩)
      have href := h.refCnt k' b' (hold ▸ mem_cons_of_mem hrest)
      rw [href, hloads k' hne]
      exact if_congr (hpending k' hne).symm rfl rfl
  · intro k' hk'
    rw [hkeys]
    by_cases heq : k' = k
    · exact heq ▸ hk
    · exact h.pendingHeld k' ((hpending k' heq).mp hk')
  · intro k' hk'
    rw [hkeys]
    by_cases heq : k' = k
    · rw [heq] at hk' ⊢
      exact ⟨hself hk', hk⟩
    · have hold' : k' ∈ loads := by
        rw [← count_pos, ← hloads k' heq]
        exact count_pos.mpr hk'
      rcases h.loadsHeld k' hold' with ⟨hnot, hheld⟩
      exact ⟨fun hp => hnot ((hpending k' heq).mp hp), hheld⟩
  · exact hnodup

theorem load (hc : c.Lawful held) (hb : (k, b) ∈ held m.policy) (hready : b.isReady) :
    PoolInv held { m with policy := c.setRefCnt m.policy k (b.refCnt + 1) } pending
      (k ::ₘ loads) hand := by
  have hnot : k ∉ pending := fun hp => (h.refCnt_neg_iff hb).mpr hp hready
  have href := h.refCnt k b hb
  rw [if_neg hnot] at href
  refine h.setRefCnt hc hb ?_ (fun _ _ => Iff.rfl) (fun k' hne => ?_) h.nodup (fun _ => hnot)
  · rw [if_neg hnot, count_cons_self, href]
    push_cast
    rfl
  · exact count_cons_of_ne hne loads

end

theorem unload (h : PoolInv held m pending (k ::ₘ loads) hand) (hc : c.Lawful held) :
    ∃ b, c.get m.policy k = some b ∧ 0 < b.refCnt ∧
      PoolInv held { m with policy := c.setRefCnt m.policy k (b.refCnt - 1) } pending loads
        hand := by
  rcases h.loadsHeld k (mem_cons_self k loads) with ⟨hnot, hheld⟩
  rcases mem_heldKeys.mp hheld with ⟨b, hb⟩
  have href := h.refCnt k b hb
  rw [if_neg hnot, count_cons_self] at href
  refine ⟨b, (h.get_iff hc).mpr hb, by omega, ?_⟩
  refine h.setRefCnt hc hb ?_ (fun _ _ => Iff.rfl) (fun k' hne => ?_) h.nodup (fun _ => hnot)
  · rw [if_neg hnot, href]
    omega
  · exact (count_cons_of_ne hne loads).symm

section
variable (h : PoolInv held m (k ::ₘ pending) loads hand) (hc : c.Lawful held)
include h hc

theorem pending_block :
    ∃ b, c.get m.policy k = some b ∧ (k, b) ∈ held m.policy ∧ ¬b.isReady ∧ k ∉ pending ∧
      pending.Nodup ∧ k ∉ loads := by
  have hk := mem_cons_self k pending
  rcases mem_heldKeys.mp (h.pendingHeld k hk) with ⟨b, hb⟩
  rcases nodup_cons.mp h.nodup with ⟨hnot, hnodup⟩
  exact ⟨b, (h.get_iff hc).mpr hb, hb, (h.refCnt_neg_iff hb).mpr hk, hnot, hnodup,
    fun hl => (h.loadsHeld k hl).1 hk⟩

theorem stored : PoolInv held { m with policy := c.setRefCnt m.policy k 0 } pending loads hand := by
  rcases h.pending_block hc with ⟨b, -, hb, -, hnot, hnodup, hloads⟩
  refine h.setRefCnt hc hb ?_ (fun k' hne => ?_) (fun _ _ => rfl) hnodup (fun _ => hnot)
  · rw [if_neg hnot, count_eq_zero_of_notMem hloads]
    rfl
  · rw [mem_cons, or_iff_right hne]

end

theorem free {id : ℕ} (h : PoolInv held m pending loads (id ::ₘ hand)) :
    PoolInv held { m with freeList := m.freeList ++ [id] } pending loads hand := by
  refine ⟨h.distinct, ?_, h.allocated_le, h.refCnt, h.pendingHeld, h.loadsHeld, h.nodup⟩
  have hpart := h.partition
  show m.heldIds held + ((m.freeList ++ [id] : List ℕ) : Multiset ℕ) + m.neverAllocated + hand = _
  rw [← hpart, ← coe_add, coe_singleton, ← singleton_add id hand]
  abel

theorem take {victims : Multiset CacheEntry} {p : P}
    (h : PoolInv held m pending loads hand) (pending' : Multiset OffloadKey)
    (hheld : held m.policy = victims + held p)
    (hgone : ∀ k b, (k, b) ∈ victims → k ∉ pending' ∧ k ∉ loads)
    (hsub : ∀ k ∈ pending', k ∈ pending)
    (hstay : ∀ k b, (k, b) ∈ held p → k ∈ pending → k ∈ pending') (hnodup : pending'.Nodup) :
    PoolInv held { m with policy := p } pending' loads
      (victims.map (fun e => e.2.blockId) + hand) := by
  have hkept : ∀ k ∈ m.heldKeys held, k ∈ pending' ∨ k ∈ loads →
      k ∈ heldKeys held { m with policy := p } := by
    intro k hk hused
    rcases mem_heldKeys.mp hk with ⟨b, hb⟩
    rw [hheld, mem_add] at hb
    rcases hb with hb | hb
    · rcases hgone k b hb with ⟨hp, hl⟩
      exact absurd hused (not_or.mpr ⟨hp, hl⟩)
    · exact mem_heldKeys.mpr ⟨b, hb⟩
  constructor
  · exact (hheld ▸ h.distinct).of_add.2.1
  · have hpart := h.partition
    unfold heldIds at hpart ⊢
    rw [hheld, map_add] at hpart
    show (held p).map (fun e => e.2.blockId) + m.freeList + m.neverAllocated + _ = _
    rw [← hpart]
    abel
  · exact h.allocated_le
  · intro k b hb
    rw [h.refCnt k b (hheld ▸ mem_add.mpr (Or.inr hb))]
    exact if_congr ⟨hstay k b hb, hsub k⟩ rfl rfl
  · exact fun k hk => hkept k (h.pendingHeld k (hsub k hk)) (Or.inl hk)
  · intro k hk
    rcases h.loadsHeld k hk with ⟨hnot, hheld⟩
    exact ⟨fun hp => hnot (hsub k hp), hkept k hheld (Or.inr hk)⟩
  · exact hnodup

theorem dropped (h : PoolInv held m (k ::ₘ pending) loads hand) (hc : c.Lawful held) :
    ∃ b p, c.get m.policy k = some b ∧ ¬b.isReady ∧ c.remove m.policy k = .ok p ∧
      (∀ k', c.get p k' = if k' = k then none else c.get m.policy k') ∧
      PoolInv held ({ m with policy := p }.freeBlock b) pending loads hand := by
  rcases h.pending_block hc with ⟨b, hget, hb, hready, hnot, hnodup, hloads⟩
  rcases hc.remove h.distinct hb with ⟨p, hp, hheld⟩
  refine ⟨b, p, hget, hready, hp, fun k' => hc.get_remove h.distinct hheld, ?_⟩
  have hsingle : held m.policy = {(k, b)} + held p := hheld
  have htaken := h.take pending hsingle (fun k' b' hmem => ?_)
    (fun k' hk' => mem_cons_of_mem hk')
    (fun k' b' hb' hk' => ?_) hnodup
  · rw [map_singleton, singleton_add] at htaken
    exact htaken.free
  · cases mem_singleton.mp hmem
    exact ⟨hnot, hloads⟩
  · rcases mem_cons.mp hk' with rfl | hk'
    · have hd := h.distinct
      rw [hheld] at hd
      exact absurd (mem_map.mpr ⟨(k', b'), hb', rfl⟩) hd.of_cons.1
    · exact hk'

theorem freeAll {victims : List CacheEntry}
    (h : PoolInv held m pending loads (victims.map (fun e => e.2.blockId) + hand)) :
    PoolInv held (victims.foldl (fun m e => m.freeBlock e.2) m) pending loads hand := by
  induction victims generalizing m with
  | nil =>
    rw [List.map_nil, coe_nil, zero_add] at h
    exact h
  | cons e victims ih =>
    apply ih
    rw [List.map_cons, ← cons_coe, cons_add] at h
    exact h.free

theorem freeAll_fields (m : CPUOffloadingManager P) (victims : List CacheEntry) :
    (victims.foldl (fun m e => m.freeBlock e.2) m).policy = m.policy ∧
      (victims.foldl (fun m e => m.freeBlock e.2) m).counts = m.counts ∧
      (victims.foldl (fun m e => m.freeBlock e.2) m).getNumFreeBlocks =
        m.getNumFreeBlocks + victims.length := by
  induction victims generalizing m with
  | nil => exact ⟨rfl, rfl, (add_zero _).symm⟩
  | cons e victims ih =>
    rw [List.foldl_cons]
    rcases ih (m.freeBlock e.2) with ⟨hp, hc, hf⟩
    refine ⟨hp, hc, ?_⟩
    rw [hf]
    unfold freeBlock getNumFreeBlocks
    rw [List.length_append, List.length_singleton, List.length_cons]
    push_cast
    ring

theorem insert {id : ℕ} (h : PoolInv held m pending loads (id ::ₘ hand)) (hc : c.Lawful held)
    (hk : c.get m.policy k = none) :
    PoolInv held { m with policy := c.insert m.policy k { blockId := id } } (k ::ₘ pending) loads
      hand := by
  rcases h.not_held hc hk with ⟨hpending, hloads⟩
  have hheld := hc.insert (b := { blockId := id }) h.distinct hk
  have hkeys : heldKeys held { m with policy := c.insert m.policy k { blockId := id } } =
      k ::ₘ m.heldKeys held := by
    unfold heldKeys
    rw [hheld, map_cons]
  constructor
  · exact hc.distinct_insert h.distinct hk
  · have hpart := h.partition
    show (held (c.insert m.policy k { blockId := id })).map (fun e => e.2.blockId) + m.freeList +
      m.neverAllocated + hand = _
    unfold heldIds at hpart
    rw [hheld, map_cons, ← hpart, ← singleton_add, ← singleton_add id]
    abel
  · exact h.allocated_le
  · intro k' b' hb'
    change (k', b') ∈ held (c.insert m.policy k { blockId := id }) at hb'
    rw [hheld, mem_cons, Prod.mk.injEq] at hb'
    rcases hb' with ⟨rfl, rfl⟩ | hb'
    · rw [if_pos (mem_cons_self k' pending)]
    · have hne : k' ≠ k := by
        rintro rfl
        rw [(h.get_iff hc).mpr hb'] at hk
        cases hk
      rw [h.refCnt k' b' hb']
      exact if_congr (by rw [mem_cons, or_iff_right hne]) rfl rfl
  · intro k' hk'
    rw [hkeys]
    rcases mem_cons.mp hk' with rfl | hk'
    · exact mem_cons_self k' _
    · exact mem_cons_of_mem (h.pendingHeld k' hk')
  · intro k' hk'
    rw [hkeys]
    rcases h.loadsHeld k' hk' with ⟨hnot, hheld'⟩
    refine ⟨fun hmem => ?_, mem_cons_of_mem hheld'⟩
    rcases mem_cons.mp hmem with rfl | hmem
    · exact hloads hk'
    · exact hnot hmem
  · exact nodup_cons.mpr ⟨hpending, h.nodup⟩

end PoolInv

theorem requireBlock_eq_ok : m.requireBlock c k = .ok b ↔ c.get m.policy k = some b := by
  unfold requireBlock
  cases c.get m.policy k with
  | none => simp
  | some b' => rw [Raises.pure_eq_ok, Option.some.injEq]

end CPUOffloadingManager
end Vllm
