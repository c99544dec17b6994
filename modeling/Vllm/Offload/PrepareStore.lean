import Vllm.Offload.PoolOperations

/-! `prepare_store` of the CPU manager: room is made and blocks are handed out, or nothing
changes. -/
namespace Vllm
open Multiset
namespace CPUOffloadingManager
variable {P : Type} {c : CachePolicy P} {held : P → Multiset CacheEntry}
  {m m' : CPUOffloadingManager P} {pending loads : Multiset OffloadKey} {hand : Multiset ℕ}
  {k : OffloadKey} {keys : List OffloadKey}

/-- A block that has just been handed out. -/
def newBlock (id : ℕ) : BlockStatus := { blockId := id }

/-- What a successful `prepare_store` has done. -/
structure PreparedStore (c : CachePolicy P) (m m' : CPUOffloadingManager P)
    (keys : List OffloadKey) (out : CPUPrepareStoreOutput) : Prop where
  absent : ∀ k ∈ out.keysToStore, k ∈ keys ∧ c.get m.policy k = none
  nodup : out.keysToStore.Nodup
  complete : m.counts = none → ∀ k ∈ keys, c.get m.policy k = none → k ∈ out.keysToStore
  located : Located c m' out.keysToStore out.storeSpec
  evicted : ∀ k ∈ out.evictedKeys, ∃ b, c.get m.policy k = some b ∧ b.refCnt = 0
  others : ∀ k, k ∉ out.keysToStore →
    c.get m'.policy k = if k ∈ out.evictedKeys then none else c.get m.policy k

/-- What `prepare_store` has done if it found no room. -/
def Unchanged (m m' : CPUOffloadingManager P) : Prop :=
  m'.policy = m.policy ∧ m'.freeList = m.freeList ∧
    m'.numAllocatedBlocks = m.numAllocatedBlocks

namespace PoolInv

variable {n : ℕ}

theorem neverAllocated_split (m : CPUOffloadingManager P)
    (hn : n ≤ m.numBlocks - m.numAllocatedBlocks) :
    m.neverAllocated = List.range' m.numAllocatedBlocks n ++
      List.range' (m.numAllocatedBlocks + n) (m.numBlocks - (m.numAllocatedBlocks + n)) := by
  unfold neverAllocated
  rw [List.range'_append_1]
  congr 1
  omega

theorem allocateBlocks_eq {numFresh : ℕ}
    (hfresh : min n (m.numBlocks - m.numAllocatedBlocks) = numFresh)
    (hreused : n - numFresh ≤ m.freeList.length) :
    m.allocateBlocks n = .ok ((List.range' m.numAllocatedBlocks numFresh ++
      m.freeList.reverse.take (n - numFresh)).map newBlock,
      { m with
        numAllocatedBlocks := m.numAllocatedBlocks + numFresh
        freeList := m.freeList.take (m.freeList.length - (n - numFresh)) }) := by
  have hrequire : Raises.require (n - numFresh ≤ m.freeList.length) = .ok () := if_pos hreused
  unfold allocateBlocks
  dsimp only
  rw [hfresh, hrequire]
  rfl

theorem allocate (h : PoolInv held m pending loads 0) (hroom : (n : ℤ) ≤ m.getNumFreeBlocks) :
    ∃ (ids : List ℕ) (m' : _), m.allocateBlocks n = .ok (ids.map newBlock, m') ∧
      ids.length = n ∧ m'.policy = m.policy ∧ m'.counts = m.counts ∧
      PoolInv held m' pending loads ids := by
  have hle := h.allocated_le
  unfold getNumFreeBlocks at hroom
  generalize hfresh : min n (m.numBlocks - m.numAllocatedBlocks) = numFresh
  have hreused : n - numFresh ≤ m.freeList.length := by omega
  refine ⟨_, _, allocateBlocks_eq hfresh hreused, ?_, rfl, rfl, ?_⟩
  · rw [List.length_append, List.length_range', List.length_take, List.length_reverse]
    omega
  · have hpart := h.partition
    have hsplit := List.take_append_drop (m.freeList.length - (n - numFresh)) m.freeList
    refine ⟨h.distinct, ?_, ?_, h.refCnt, h.pendingHeld, h.loadsHeld, h.nodup⟩
    · rw [neverAllocated_split m (n := numFresh) (by omega), ← hsplit] at hpart
      rw [← hpart, List.take_reverse, ← coe_add, ← coe_add, coe_reverse, ← coe_add]
      unfold neverAllocated heldIds
      abel
    · dsimp only
      omega

theorem insertBlocks {ids : List ℕ} (h : PoolInv held m pending loads (ids + hand))
    (hc : c.Lawful held) (hlen : keys.length = ids.length) (hnodup : keys.Nodup)
    (habsent : ∀ k ∈ keys, c.get m.policy k = none) :
    let m' := m.insertBlocks c keys (ids.map newBlock)
    PoolInv held m' (keys + pending) loads hand ∧ Located c m' keys ids ∧
      ∀ k, k ∉ keys → c.get m'.policy k = c.get m.policy k := by
  induction keys generalizing m ids pending with
  | nil =>
    rw [List.eq_nil_of_length_eq_zero hlen.symm, coe_nil, zero_add] at h
    refine ⟨?_, ?_, fun _ _ => rfl⟩
    · rw [coe_nil, zero_add]
      exact h
    · rw [List.eq_nil_of_length_eq_zero hlen.symm]
      exact .nil
  | cons k keys ih =>
    cases ids with
    | nil => cases hlen
    | cons id ids =>
      rcases List.nodup_cons.mp hnodup with ⟨hnot, hrest⟩
      rw [← cons_coe, cons_add] at h
      have hk := habsent k List.mem_cons_self
      have hget : ∀ k', c.get (c.insert m.policy k (newBlock id)) k' =
          if k' = k then some (newBlock id) else c.get m.policy k' :=
        fun k' => hc.get_insert h.distinct hk
      rcases ih (h.insert hc hk) (Nat.succ.inj hlen) hrest (fun k' hk' => by
        have hne : k' ≠ k := fun heq => hnot (heq ▸ hk')
        exact (hget k').trans ((if_neg hne).trans (habsent k' (List.mem_cons_of_mem k hk'))))
        with ⟨hinv, hloc, hothers⟩
      refine ⟨?_, .cons ?_ hloc, fun k' hk' => ?_⟩
      · rw [← cons_coe, cons_add, ← add_cons]
        exact hinv
      · refine idOf_eq_some.mpr ⟨newBlock id, ?_, rfl⟩
        exact (hothers k hnot).trans ((hget k).trans (if_pos rfl))
      · rw [List.mem_cons, not_or] at hk'
        exact (hothers k' hk'.2).trans ((hget k').trans (if_neg hk'.1))

theorem makeRoom_none {ks : List OffloadKey} (hc : c.Lawful held)
    (hrun : m.makeRoom c ks n = (none, m')) :
    Unchanged m m' ∧ m'.counts = m.counts ∧ m'.numBlocks = m.numBlocks := by
  unfold makeRoom at hrun
  dsimp only at hrun
  split_ifs at hrun
  · cases hevict : (c.evict m.policy (n - m.getNumFreeBlocks).toNat ks).1 with
    | none =>
      rw [hevict] at hrun
      cases hrun
      exact ⟨⟨hc.evict_none hevict, rfl, rfl⟩, rfl, rfl⟩
    | some evicted =>
      rw [hevict] at hrun
      cases hrun
  · cases hrun

section
variable (h : PoolInv held m pending loads 0)
include h

theorem makeRoom_some {ks evictedKeys : List OffloadKey} (hc : c.Lawful held)
    (hrun : m.makeRoom c ks n = (some evictedKeys, m')) :
    PoolInv held m' pending loads 0 ∧ (n : ℤ) ≤ m'.getNumFreeBlocks ∧ m'.counts = m.counts ∧
      (∀ k ∈ evictedKeys, (∃ b, c.get m.policy k = some b ∧ b.refCnt = 0)) ∧
      ∀ k, c.get m'.policy k = if k ∈ evictedKeys then none else c.get m.policy k := by
  unfold makeRoom at hrun
  dsimp only at hrun
  split_ifs at hrun with hroom
  · cases hevict : (c.evict m.policy (n - m.getNumFreeBlocks).toNat ks).1 with
    | none =>
      rw [hevict] at hrun
      cases hrun
    | some evicted =>
      rw [hevict] at hrun
      cases hrun
      rcases hc.evict h.distinct hevict with ⟨hlen, hall, hheld⟩
      have hevicts := hc.evicts h.distinct hevict
      have htaken := h.take pending hheld (fun k b hmem => ?_)
        (fun k hk => hk) (fun k b _ hk => hk) h.nodup
      · rw [map_coe] at htaken
        have hfreed := htaken.freeAll
        rcases freeAll_fields
          { m with policy := (c.evict m.policy (n - m.getNumFreeBlocks).toNat ks).2 } evicted with
          ⟨hp, hcounts, hfree⟩
        have hfree' := hfree.trans (congrArg (m.getNumFreeBlocks + ·) (congrArg Nat.cast hlen))
        refine ⟨hfreed, ?_, hcounts, ?_, ?_⟩
        · rw [hfree']
          omega
        · intro k hk
          rcases List.mem_map.mp hk with ⟨e, he, rfl⟩
          exact ⟨e.2, (hevicts.evictable e he).1, (hevicts.evictable e he).2.1⟩
        · intro k
          rw [hp]
          exact hevicts.removed k
      · refine h.free_of_refCnt (b := b) ?_ (hall (k, b) (mem_coe.mp hmem)).1
        exact hheld ▸ mem_add.mpr (Or.inl hmem)
  · cases hrun
    exact ⟨h, by omega, rfl, fun k hk => absurd hk List.not_mem_nil,
      fun k => (if_neg List.not_mem_nil).symm⟩

theorem storeKeys {keysToStore : List OffloadKey} (ks : List OffloadKey) (hc : c.Lawful held)
    (hnodup : keysToStore.Nodup) (habsent : ∀ k ∈ keysToStore, c.get m.policy k = none) :
    ∃ out m', m.storeKeys c ks keysToStore = .ok (out, m') ∧ m'.counts = m.counts ∧
      match out with
      | none => Unchanged m m' ∧ PoolInv held m' pending loads 0
      | some o => o.keysToStore = keysToStore ∧ Located c m' keysToStore o.storeSpec ∧
        (∀ k ∈ o.evictedKeys, ∃ b, c.get m.policy k = some b ∧ b.refCnt = 0) ∧
        (∀ k, k ∉ keysToStore →
          c.get m'.policy k = if k ∈ o.evictedKeys then none else c.get m.policy k) ∧
        PoolInv held m' (keysToStore + pending) loads 0 := by
  unfold CPUOffloadingManager.storeKeys
  cases hroom : m.makeRoom c ks keysToStore.length with
  | mk evicted m1 =>
    cases evicted with
    | none =>
      rcases makeRoom_none hc hroom with ⟨hsame, hcounts, hnum⟩
      refine ⟨none, m1, rfl, hcounts, hsame, h.congr hsame.1 hsame.2.1 hsame.2.2 hnum⟩
    | some evicted =>
      rcases h.makeRoom_some hc hroom with ⟨hinv, hfree, hcounts, hevicted, hget⟩
      rcases addEvent_fields m1 evicted true with ⟨hp, hcounts', hfree'⟩
      rcases (hinv.addEvent evicted true).allocate (hfree' ▸ hfree) with
        ⟨ids, m2, hrun, hlen, hp', hcounts'', hinv2⟩
      have habsent2 : ∀ k ∈ keysToStore, c.get m2.policy k = none := by
        intro k hk
        rw [hp', hp, hget k, habsent k hk, ite_self]
      have hinv2' : PoolInv held m2 pending loads (ids + 0) := by rwa [add_zero]
      rcases hinv2'.insertBlocks hc hlen.symm hnodup habsent2 with
        ⟨hinv3, hloc, hothers⟩
      have hrequire : Raises.require ((ids.map newBlock).length = keysToStore.length) =
          .ok () := if_pos ((List.length_map _).trans hlen)
      refine ⟨some { keysToStore, storeSpec := ids, evictedKeys := evicted },
        m2.insertBlocks c keysToStore (ids.map newBlock), ?_, ?_, rfl, hloc, hevicted, ?_, hinv3⟩
      · dsimp only
        rw [hrun, Raises.ok_bind]
        rw [hrequire, Raises.ok_bind, List.map_map]
        have hids : ids.map ((fun b : BlockStatus => b.blockId) ∘ newBlock) = ids := List.map_id ids
        rw [hids]
        rfl
      · exact hcounts''.trans (hcounts'.trans hcounts)
      · intro k hk
        exact (hothers k hk).trans ((congrArg (c.get · k) (hp'.trans hp)).trans (hget k))

/-- Of distinct keys, those that are counted and not held get a block, unless there is no room;
blocks with references stay. -/
theorem prepareStore (hc : c.Lawful held) (hnodup : keys.Nodup) :
    ∃ out m', m.prepareStore c keys = .ok (out, m') ∧ m'.counts = m.counts ∧
      match out with
      | none => Unchanged m m' ∧ PoolInv held m' pending loads 0
      | some o => PreparedStore c m m' keys o ∧
        PoolInv held m' (o.keysToStore + pending) loads 0 := by
  have hcounted : (m.countedKeys keys).Sublist keys := by
    unfold countedKeys
    cases m.counts with
    | none => exact List.Sublist.refl _
    | some counts => exact List.filter_sublist
  have hall : m.counts = none → m.countedKeys keys = keys := by
    intro hnone
    unfold countedKeys
    rw [hnone]
  unfold CPUOffloadingManager.prepareStore
  dsimp only
  generalize hkeys : (m.countedKeys keys).filter (fun k => (c.get m.policy k).isNone) = toStore
  have habsent : ∀ k ∈ toStore, k ∈ keys ∧ c.get m.policy k = none := by
    intro k hk
    rw [← hkeys] at hk
    rcases List.mem_filter.mp hk with ⟨hin, hnone⟩
    exact ⟨hcounted.subset hin, Option.isNone_iff_eq_none.mp hnone⟩
  have hcomplete : m.counts = none → ∀ k ∈ keys, c.get m.policy k = none → k ∈ toStore := by
    intro hnone k hk habs
    rw [← hkeys, hall hnone]
    exact List.mem_filter.mpr ⟨hk, Option.isNone_iff_eq_none.mpr habs⟩
  have hdistinct : toStore.Nodup := by
    rw [← hkeys]
    exact (hnodup.sublist hcounted).filter _
  generalize hm1 : ({ m with storesSkippedInCurrentBatch := _ } : CPUOffloadingManager P) = m1
  have hinv : PoolInv held m1 pending loads 0 := by
    rw [← hm1]
    exact h.congr rfl rfl rfl rfl
  have hpolicy : m1.policy = m.policy := by rw [← hm1]
  have hcounts : m1.counts = m.counts := by rw [← hm1]
  by_cases hempty : toStore = []
  · rw [if_pos hempty]
    refine ⟨_, m1, rfl, hcounts, ⟨?_, List.nodup_nil, ?_, .nil, ?_, ?_⟩, ?_⟩
    · exact fun k hk => absurd hk List.not_mem_nil
    · exact fun hnone k hk habs => hempty ▸ hcomplete hnone k hk habs
    · exact fun k hk => absurd hk List.not_mem_nil
    · intro k _
      rw [if_neg List.not_mem_nil, hpolicy]
    · rw [coe_nil, zero_add]
      exact hinv
  · rw [if_neg hempty]
    rcases hinv.storeKeys (m.countedKeys keys) hc hdistinct
      (fun k hk => hpolicy ▸ (habsent k hk).2) with ⟨out, m', hrun, hcounts', hout⟩
    refine ⟨out, m', hrun, hcounts'.trans hcounts, ?_⟩
    cases out with
    | none =>
      rcases hout with ⟨⟨hp, hf, ha⟩, hinv'⟩
      exact ⟨⟨hp.trans hpolicy, hf.trans (by rw [← hm1]), ha.trans (by rw [← hm1])⟩, hinv'⟩
    | some o =>
      rcases hout with ⟨hstore, hloc, hevicted, hothers, hinv'⟩
      rw [hpolicy] at hevicted hothers
      refine ⟨⟨?_, ?_, ?_, ?_, hevicted, ?_⟩, ?_⟩
      · exact fun k hk => habsent k (hstore ▸ hk)
      · exact hstore ▸ hdistinct
      · exact fun hnone k hk habs => hstore ▸ hcomplete hnone k hk habs
      · exact hstore ▸ hloc
      · exact fun k hk => hothers k (hstore ▸ hk)
      · rw [hstore]
        exact hinv'

end

theorem prepareStore_keeps {out : CPUPrepareStoreOutput} (h : PoolInv held m pending loads hand)
    (hc : c.Lawful held) (hout : PreparedStore c m m' keys out)
    (hk : k ∈ pending ∨ k ∈ loads) : m'.idOf c k = m.idOf c k := by
  have hheld : k ∈ m.heldKeys held := hk.elim (h.pendingHeld k) fun hl => (h.loadsHeld k hl).2
  rcases mem_heldKeys.mp hheld with ⟨b, hb⟩
  have hget := (h.get_iff hc).mpr hb
  have hstore : k ∉ out.keysToStore := by
    intro hin
    rw [(hout.absent k hin).2] at hget
    cases hget
  have hevicted : k ∉ out.evictedKeys := by
    intro hin
    rcases hout.evicted k hin with ⟨b', hb', hzero⟩
    rcases h.free_of_refCnt ((h.get_iff hc).mp hb') hzero with ⟨hp, hl⟩
    exact hk.elim hp hl
  unfold idOf
  rw [hout.others k hstore, if_neg hevicted]

theorem unchanged_idOf (hsame : Unchanged m m') (k : OffloadKey) : m'.idOf c k = m.idOf c k := by
  unfold idOf
  rw [hsame.1]

theorem completeStore_failure_keeps (h : PoolInv held m (keys + pending) loads hand)
    (hget : ∀ k, c.get m'.policy k = if k ∈ keys then none else c.get m.policy k)
    (hk : k ∈ pending ∨ k ∈ loads) : m'.idOf c k = m.idOf c k := by
  have hnot : k ∉ keys := by
    intro hin
    rcases hk with hp | hl
    · exact (disjoint_left.mp (nodup_add.mp h.nodup).2.2) (mem_coe.mpr hin) hp
    · exact (h.loadsHeld k hl).1 (mem_add.mpr (Or.inl (mem_coe.mpr hin)))
  unfold idOf
  rw [hget k, if_neg hnot]

theorem resetCache (m : CPUOffloadingManager P) (hc : c.Lawful held) :
    PoolInv held (m.resetCache c) 0 0 0 := by
  have hempty : held (m.resetCache c).policy = 0 := hc.clear
  constructor
  · rw [hempty]
    exact nodup_zero
  · unfold heldIds neverAllocated
    rw [hempty]
    show (0 : Multiset ℕ) + (([] : List ℕ) : Multiset ℕ) +
      (List.range' 0 (m.numBlocks - 0) : Multiset ℕ) + 0 = range m.numBlocks
    rw [coe_nil, zero_add, zero_add, add_zero, Nat.sub_zero, ← List.range_eq_range']
    rfl
  · exact Nat.zero_le _
  · intro k b hb
    rw [hempty] at hb
    exact absurd hb (notMem_zero _)
  · exact fun k hk => absurd hk (notMem_zero k)
  · exact fun k hk => absurd hk (notMem_zero k)
  · exact nodup_zero

end PoolInv
end CPUOffloadingManager
end Vllm
