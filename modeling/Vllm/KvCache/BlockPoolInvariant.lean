import Vllm.KvCache.FreeQueue
import Mathlib.Data.Finset.Card

/-! The pool invariant: reference counts, the free queue and the hash map describe the same blocks.
Each operation has one lemma that gives its result on a pool that keeps the invariant. Runs of the
block pool: in every state that calls within their contracts reach, the reference counts, the free
queue and the hash map agree. -/
namespace Vllm
open BlockPool Function Raises List Dict

namespace BlockHashToBlockMap

/-- No key has an empty dictionary. -/
def NoEmptyDict (m : BlockHashToBlockMap) : Prop :=
  ∀ key blocks, m.cache.get? key = some (.dict blocks) → blocks.isEmpty = false

theorem stored_insert (m : BlockHashToBlockMap) (key key' : BlockHashWithGroupId)
    (block block' : BlockId) :
    (m.insert key block).Stored key' block' ↔
      (key' = key ∧ block' = block) ∨ m.Stored key' block' := by
  by_cases hk : key' = key
  · subst hk
    unfold Stored insert
    cases hget : m.cache.get? key' with
    | none => simp
    | some entry =>
      cases entry with
      | single other =>
        simp only [Dict.get?_set, ↓reduceIte, contains_set, true_and]
        simp [Dict.contains]
      | dict blocks => simp [contains_set]
  · have hget : (m.insert key block).cache.get? key' = m.cache.get? key' := by
      unfold insert
      split <;> simp [hk]
    simp [Stored, hget, hk]

variable {m : BlockHashToBlockMap}

theorem NoEmptyDict.insert (h : m.NoEmptyDict) (key : BlockHashWithGroupId) (block : BlockId) :
    (m.insert key block).NoEmptyDict := by
  intro key' blocks hget
  unfold BlockHashToBlockMap.insert at hget
  by_cases hk : key' = key
  · subst hk
    rw [isEmpty_false_iff]
    refine ⟨block, ?_⟩
    split at hget <;> simp only [Dict.get?_set, ↓reduceIte, Option.some.injEq, reduceCtorEq,
      CachedBlocks.dict.injEq] at hget
    all_goals
      subst hget
      exact contains_set _ _ _ _ |>.mpr (.inl rfl)
  · refine h key' blocks ?_
    split at hget <;> simpa [hk] using hget

theorem pop_stored {key : BlockHashWithGroupId} {block : BlockId} (h : m.Stored key block) :
    (m.pop key block).1 = some block ∧ ∀ key' block', (m.pop key block).2.Stored key' block' ↔
      m.Stored key' block' ∧ ¬ (key' = key ∧ block' = block) := by
  unfold Stored at h
  cases hget : m.cache.get? key with
  | none => simp [hget] at h
  | some entry =>
    cases entry with
    | single other =>
      obtain rfl : block = other := by simpa [hget] using h
      refine ⟨by simp [pop, hget], fun key' block' => ?_⟩
      by_cases hk : key' = key
      · subst hk
        simp [pop, Stored, hget]
      · simp [pop, Stored, hget, hk]
    | dict blocks =>
      rw [hget] at h
      have hfound : blocks.get? block = some () := by
        obtain ⟨u, hu⟩ := Option.isSome_iff_exists.mp h
        exact hu
      refine ⟨by simp [pop, hget, hfound], fun key' block' => ?_⟩
      by_cases hk : key' = key
      · subst hk
        by_cases hsize : (blocks.erase block).size > 0
        · simp [pop, Stored, hget, hsize, contains_erase, and_comm]
        · have hempty : (blocks.erase block).isEmpty = true := by
            simpa [size_pos_iff] using hsize
          have hnone := (isEmpty_iff _).mp hempty block'
          have : ¬ (blocks.contains block' = true ∧ ¬ block' = block) := by
            rintro ⟨hc, hne⟩
            have := (contains_erase blocks block block').mpr ⟨hne, hc⟩
            simp [Dict.contains, hnone] at this
          simp only [pop, Stored, hget, hsize, ↓reduceIte, Dict.get?_erase, true_and]
          simpa using this
      · by_cases hsize : (blocks.erase block).size > 0 <;>
          simp [pop, Stored, hget, hsize, hk]

theorem NoEmptyDict.pop (h : m.NoEmptyDict) (key : BlockHashWithGroupId) (block : BlockId) :
    (m.pop key block).2.NoEmptyDict := by
  intro key' blocks hget
  by_cases hk : key' = key
  · subst hk
    unfold BlockHashToBlockMap.pop at hget
    split at hget
    · simp at hget
    · split at hget <;> simp at hget
    · rename_i d hd
      by_cases hsize : (d.erase block).size > 0
      · simp only [hsize, ↓reduceIte, Dict.get?_set, Option.some.injEq,
          CachedBlocks.dict.injEq] at hget
        subst hget
        exact (size_pos_iff _).mp hsize
      · simp [hsize] at hget
  · refine h key' blocks ?_
    unfold BlockHashToBlockMap.pop at hget
    split at hget
    · simpa [hk] using hget
    · split at hget <;> simpa [hk] using hget
    · dsimp only at hget
      split at hget <;> simpa [hk] using hget

end BlockHashToBlockMap

/-- The pool keeps its books: `free` lists the free queue, which holds exactly the
unreferenced blocks, and the hash map stores exactly the hashed blocks. -/
structure PoolInv (pool : BlockPool) (free : List BlockId) : Prop where
  holds : pool.freeBlockQueue.Holds free
  null_lt : pool.nullBlock < pool.numGpuBlocks
  mem_free : ∀ b, b ∈ free ↔ b < pool.numGpuBlocks ∧ b ≠ pool.nullBlock ∧ pool.refCnt b = 0
  refCnt_nonneg : ∀ b < pool.numGpuBlocks, b ≠ pool.nullBlock → 0 ≤ pool.refCnt b
  stored_iff : ∀ b key, pool.blockHash b = some key ↔ pool.cachedBlockHashToBlock.Stored key b
  hash_lt : ∀ b, pool.blockHash b ≠ none → b < pool.numGpuBlocks ∧ b ≠ pool.nullBlock
  noEmptyDict : pool.cachedBlockHashToBlock.NoEmptyDict
  uncached : pool.enableCaching = false → ∀ b, pool.blockHash b = none

/-- What no operation of the pool changes. -/
structure SameConfig (pool pool' : BlockPool) : Prop where
  numGpuBlocks : pool'.numGpuBlocks = pool.numGpuBlocks
  nullBlock : pool'.nullBlock = pool.nullBlock
  enableCaching : pool'.enableCaching = pool.enableCaching
  hashBlockSize : pool'.hashBlockSize = pool.hashBlockSize

theorem SameConfig.rfl {pool : BlockPool} : SameConfig pool pool :=
  ⟨Eq.refl _, Eq.refl _, Eq.refl _, Eq.refl _⟩

theorem SameConfig.trans {pool pool' pool'' : BlockPool} (h : SameConfig pool pool')
    (h' : SameConfig pool' pool'') : SameConfig pool pool'' where
  numGpuBlocks := h'.numGpuBlocks.trans h.numGpuBlocks
  nullBlock := h'.nullBlock.trans h.nullBlock
  enableCaching := h'.enableCaching.trans h.enableCaching
  hashBlockSize := h'.hashBlockSize.trans h.hashBlockSize

/-- The outcome of an operation: free queue, reference counts and hashes. -/
structure PoolResult (pool pool' : BlockPool) (free : List BlockId) (refCnt : BlockId → ℤ)
    (blockHash : BlockId → Option BlockHashWithGroupId) : Prop where
  inv : PoolInv pool' free
  config : SameConfig pool pool'
  refCnt : pool'.refCnt = refCnt
  blockHash : pool'.blockHash = blockHash

/-- A pool that nobody has used yet. -/
structure FreshPool (pool : BlockPool) (enableCaching : Bool) (hashBlockSize : ℕ)
    (enableKvCacheEvents ints : Bool) : Prop where
  enableCaching : pool.enableCaching = enableCaching
  hashBlockSize : pool.hashBlockSize = hashBlockSize
  refCnt : pool.refCnt = fun _ => 0
  blockHash : pool.blockHash = fun _ => none
  enableKvCacheEvents : pool.enableKvCacheEvents = enableKvCacheEvents
  useIntBlockHashes : pool.useIntBlockHashes = ints
  kvEventQueue : pool.kvEventQueue = []

namespace PoolInv
variable {pool pool' : BlockPool} {free : List BlockId}

theorem nodup (h : PoolInv pool free) : free.Nodup := h.holds.spine.nodup

theorem null_notMem (h : PoolInv pool free) : pool.nullBlock ∉ free :=
  fun hm => ((h.mem_free _).mp hm).2.1 rfl

variable {enableCaching enableKvCacheEvents : Bool} {hashBlockSize numGpuBlocks : ℕ}
  {sha256 : List UInt8 → List UInt8}

theorem init_fresh {ints : Bool}
    (h : init numGpuBlocks enableCaching hashBlockSize enableKvCacheEvents ints sha256 = .ok pool) :
    (∃ free, PoolInv pool free) ∧
      FreshPool pool enableCaching hashBlockSize enableKvCacheEvents ints := by
  unfold init at h
  simp only [bind_eq_ok, require_eq_ok] at h
  obtain ⟨-, hpos, ⟨nullBlock, queue⟩, hpop, h⟩ := h
  obtain ⟨n, rfl⟩ : ∃ n, numGpuBlocks = n + 1 := ⟨numGpuBlocks - 1, by omega⟩
  have hq := FreeKVCacheBlockQueue.init_holds (nodup_range (n := n + 1))
  have hrange : List.range (n + 1) = 0 :: (List.range n).map Nat.succ := range_succ_eq_map
  rw [hrange] at hq hpop
  obtain ⟨q', hq', hholds⟩ := FreeKVCacheBlockQueue.popleft_holds hq
  rw [hq'] at hpop
  obtain ⟨rfl, rfl⟩ : 0 = nullBlock ∧ q' = queue := by simpa using hpop
  cases h
  refine ⟨⟨_, hholds, Nat.succ_pos n, ?_, by simp, ?_, by simp, ?_, by simp⟩,
    ⟨rfl, rfl, rfl, rfl, rfl, rfl, rfl⟩⟩
  · intro b
    simp only [mem_map, mem_range, and_true]
    constructor
    · rintro ⟨a, ha, rfl⟩
      exact ⟨Nat.succ_lt_succ ha, Nat.succ_ne_zero a⟩
    · rintro ⟨hb, hne⟩
      cases b with
      | zero => exact absurd rfl hne
      | succ a => exact ⟨a, Nat.lt_of_succ_lt_succ hb, rfl⟩
  · intro b key
    simp [BlockHashToBlockMap.Stored, BlockHashToBlockMap.empty]
  · intro key blocks hget
    simp [BlockHashToBlockMap.empty] at hget

theorem init {ints : Bool}
    (h : init numGpuBlocks enableCaching hashBlockSize enableKvCacheEvents ints sha256 = .ok pool) :
    ∃ free, PoolInv pool free ∧ pool.enableCaching = enableCaching := by
  obtain ⟨⟨free, hinv⟩, hfresh⟩ := init_fresh h
  exact ⟨free, hinv, hfresh.enableCaching⟩

section
variable (h : PoolInv pool free)
include h

theorem unchanged : PoolResult pool pool free pool.refCnt pool.blockHash :=
  ⟨h, SameConfig.rfl, rfl, rfl⟩

theorem evict (b : BlockId) :
    PoolResult pool (pool.maybeEvictCachedBlock b).2 free pool.refCnt
      (update pool.blockHash b none) := by
  cases hb : pool.blockHash b with
  | none =>
    have hupd : update pool.blockHash b none = pool.blockHash := by
      rw [← hb, update_eq_self]
    simp only [maybeEvictCachedBlock, hb, hupd]
    exact h.unchanged
  | some key =>
    obtain ⟨hpop, hstored⟩ := BlockHashToBlockMap.pop_stored ((h.stored_iff b key).mp hb)
    have hnd := h.noEmptyDict.pop key b
    rcases hm : pool.cachedBlockHashToBlock.pop key b with ⟨res, map⟩
    rw [hm] at hpop hstored hnd
    obtain rfl : res = some b := hpop
    simp only [maybeEvictCachedBlock, hb, hm]
    refine ⟨⟨h.holds, h.null_lt, h.mem_free, h.refCnt_nonneg, ?_, ?_, hnd, ?_⟩,
      ⟨rfl, rfl, rfl, rfl⟩, rfl, rfl⟩
    · intro b' key'
      rw [hstored, ← h.stored_iff]
      by_cases hbb : b' = b
      · subst hbb
        simp only [update_self, reduceCtorEq, and_true, false_iff, not_and, not_not]
        intro hk
        rw [hb, Option.some.injEq] at hk
        exact hk.symm
      · simp [hbb]
    · intro b' hne
      by_cases hbb : b' = b
      · subst hbb
        simp at hne
      · simp only [update_of_ne hbb] at hne
        exact h.hash_lt b' hne
    · intro hc
      rw [h.uncached hc b] at hb
      exact absurd hb (by simp)

theorem evictBlocks {ids : List ℤ} (hr : pool.evictBlocks ids = .ok pool') :
    ∃ blockHash, PoolResult pool pool' free pool.refCnt blockHash := by
  induction ids generalizing pool with
  | nil =>
    cases hr
    exact ⟨_, h.unchanged⟩
  | cons id ids ih =>
    simp only [evictBlocks, bind_eq_ok, require_eq_ok] at hr
    obtain ⟨-, -, hr⟩ := hr
    generalize (if id < 0 then id + ↑pool.numGpuBlocks else id) = index at hr
    by_cases hneg : index < 0
    · simp [hneg] at hr
    · rw [if_neg hneg] at hr
      have hev := h.evict index.toNat
      obtain ⟨hash, hrec⟩ := ih hev.inv hr
      exact ⟨hash, hrec.inv, hev.config.trans hrec.config, hrec.refCnt.trans hev.refCnt,
        hrec.blockHash⟩

theorem reset :
    ∃ blockHash, PoolResult pool pool.resetPrefixCache.2 free pool.refCnt blockHash := by
  unfold resetPrefixCache
  dsimp only
  split
  · exact ⟨_, h.unchanged⟩
  · refine ⟨_, ⟨h.holds, h.null_lt, h.mem_free, h.refCnt_nonneg, ?_, by simp, ?_, by simp⟩,
      ⟨rfl, rfl, rfl, rfl⟩, rfl, rfl⟩
    · intro b key
      simp [BlockHashToBlockMap.Stored, BlockHashToBlockMap.empty]
    · intro key blocks hget
      simp [BlockHashToBlockMap.empty] at hget

end

end PoolInv

/-- The counts after the listed blocks got their first reference. -/
def firstRefs (refCnt : BlockId → ℤ) (blocks : List BlockId) (b : BlockId) : ℤ :=
  if b ∈ blocks then 1 else refCnt b

def clearHashes (blockHash : BlockId → Option BlockHashWithGroupId) (blocks : List BlockId)
    (b : BlockId) : Option BlockHashWithGroupId :=
  if b ∈ blocks then none else blockHash b

theorem maybeEvictCachedBlock_withRefs (pool : BlockPool) (refCnt : BlockId → ℤ) (b : BlockId) :
    ({ pool with refCnt := refCnt }.maybeEvictCachedBlock b).2 =
      { (pool.maybeEvictCachedBlock b).2 with refCnt := refCnt } := by
  cases hb : pool.blockHash b with
  | none => simp only [maybeEvictCachedBlock, hb]
  | some key =>
    rcases hm : pool.cachedBlockHashToBlock.pop key b with ⟨_ | _, map⟩ <;>
      simp only [maybeEvictCachedBlock, hb, hm]
    rfl

theorem maybeEvictCachedBlock_refCnt (pool : BlockPool) (b : BlockId) :
    (pool.maybeEvictCachedBlock b).2.refCnt = pool.refCnt := by
  have h := maybeEvictCachedBlock_withRefs pool pool.refCnt b
  exact (congrArg refCnt h :)

namespace PoolInv
variable {pool pool' : BlockPool} {free : List BlockId}

variable {blocks : List BlockId} {b : BlockId}

theorem takeLoop (pool : BlockPool)
    (h : PoolInv { pool with refCnt := firstRefs pool.refCnt blocks } free) (hnd : blocks.Nodup)
    (hzero : ∀ b ∈ blocks, pool.refCnt b = 0) :
    ∃ pool', pool.takeLoop blocks = .ok pool' ∧
      PoolResult pool pool' free (firstRefs pool.refCnt blocks)
        (clearHashes pool.blockHash blocks) := by
  induction blocks generalizing pool with
  | nil =>
    have hrefs : firstRefs pool.refCnt [] = pool.refCnt := by
      funext b
      simp [firstRefs]
    rw [hrefs] at h
    exact ⟨pool, rfl, h, SameConfig.rfl, hrefs.symm, by funext b; simp [clearHashes]⟩
  | cons b blocks ih =>
    obtain ⟨hb, hnd⟩ := nodup_cons.mp hnd
    set mid := if pool.enableCaching then (pool.maybeEvictCachedBlock b).2 else pool with hmid
    have hres : PoolResult { pool with refCnt := firstRefs pool.refCnt (b :: blocks) }
        { mid with refCnt := firstRefs pool.refCnt (b :: blocks) } free
        (firstRefs pool.refCnt (b :: blocks)) (update pool.blockHash b none) := by
      by_cases hc : pool.enableCaching = true
      · have hev := h.evict b
        rw [maybeEvictCachedBlock_withRefs] at hev
        rw [hmid, if_pos hc]
        exact hev
      · have hc' : pool.enableCaching = false := by simpa using hc
        have hnone := h.uncached hc' b
        have hupd : update pool.blockHash b none = pool.blockHash := by
          rw [← hnone, update_eq_self]
        rw [hmid, if_neg hc, hupd]
        exact ⟨h, ⟨rfl, rfl, rfl, rfl⟩, rfl, rfl⟩
    have hmidRefs : mid.refCnt = pool.refCnt := by
      rw [hmid]
      split_ifs
      · exact maybeEvictCachedBlock_refCnt pool b
      · rfl
    have hmidZero : mid.refCnt b = 0 := by rw [hmidRefs, hzero b (by simp)]
    set next := { mid with refCnt := update mid.refCnt b (mid.refCnt b + 1) } with hnext
    have hrefs : firstRefs next.refCnt blocks = firstRefs pool.refCnt (b :: blocks) := by
      funext c
      by_cases hcb : c = b
      · subst hcb
        simp [firstRefs, hnext, hmidZero]
      · simp [firstRefs, hnext, hmidRefs, hcb]
    have hinv : PoolInv { next with refCnt := firstRefs next.refCnt blocks } free := by
      rw [hrefs]
      exact hres.inv
    have hz : ∀ c ∈ blocks, next.refCnt c = 0 := by
      intro c hcb
      have hne : c ≠ b := fun e => hb (e ▸ hcb)
      simp [hnext, hne, hmidRefs, hzero c (by simp [hcb])]
    obtain ⟨pool', hloop, hout⟩ := ih _ hinv hnd hz
    refine ⟨pool', ?_, hout.inv, ?_, hout.refCnt.trans hrefs, ?_⟩
    · simp only [BlockPool.takeLoop, ← hmid, require, if_pos hmidZero]
      exact hloop
    · have hcfg : SameConfig pool next := ⟨hres.config.numGpuBlocks, hres.config.nullBlock,
        hres.config.enableCaching, hres.config.hashBlockSize⟩
      exact hcfg.trans hout.config
    · have hhash : next.blockHash = update pool.blockHash b none := hres.blockHash
      rw [hout.blockHash, hhash]
      funext c
      by_cases hcb : c = b <;> simp [clearHashes, hcb]

section
variable (h : PoolInv pool free)
include h

/-- `get_new_blocks` takes the head of the free queue. -/
theorem getNewBlocks {n : ℤ} (h0 : 0 ≤ n) (hn : n ≤ free.length) :
    ∃ pool', pool.getNewBlocks n = .ok (free.take n.toNat, pool') ∧
      PoolResult pool pool' (free.drop n.toNat) (firstRefs pool.refCnt (free.take n.toNat))
        (clearHashes pool.blockHash (free.take n.toNat)) := by
  obtain ⟨queue, hpop, hholds⟩ := FreeKVCacheBlockQueue.popleftN_holds h.holds h0 hn
  have hsplit : free.take n.toNat ++ free.drop n.toNat = free := take_append_drop _ _
  have hnd : (free.take n.toNat ++ free.drop n.toNat).Nodup := hsplit.symm ▸ h.nodup
  have hzero : ∀ b ∈ free.take n.toNat, pool.refCnt b = 0 := fun b hb =>
    ((h.mem_free b).mp (mem_of_mem_take hb)).2.2
  have hinv : PoolInv { pool with
      freeBlockQueue := queue
      refCnt := firstRefs pool.refCnt (free.take n.toNat) } (free.drop n.toNat) := by
    refine ⟨hholds, h.null_lt, ?_, ?_, h.stored_iff, h.hash_lt, h.noEmptyDict, h.uncached⟩
    · intro b
      have hb : b ∈ free ↔ b ∈ free.take n.toNat ∨ b ∈ free.drop n.toNat := by
        rw [← mem_append, hsplit]
      by_cases htake : b ∈ free.take n.toNat
      · have hdrop : b ∉ free.drop n.toNat := fun hd =>
          (nodup_append.mp hnd).2.2 b htake b hd rfl
        simp [firstRefs, htake, hdrop]
      · have := h.mem_free b
        simp only [firstRefs, htake, ↓reduceIte]
        rw [← this, hb]
        simp [htake]
    · intro b hlt hne
      show 0 ≤ firstRefs pool.refCnt (free.take n.toNat) b
      unfold firstRefs
      split_ifs
      · decide
      · exact h.refCnt_nonneg b hlt hne
  obtain ⟨pool', hloop, hout⟩ := PoolInv.takeLoop { pool with freeBlockQueue := queue }
    hinv (nodup_append.mp hnd).1 hzero
  refine ⟨pool', ?_, hout.inv, ⟨hout.config.1, hout.config.2, hout.config.3, hout.config.4⟩,
    hout.refCnt, hout.blockHash⟩
  have hle : ¬ n > pool.getNumFreeBlocks := by
    rw [getNumFreeBlocks, h.holds.count]
    omega
  simp only [BlockPool.getNewBlocks, hle, ↓reduceIte, hpop]
  simp only [bind, Except.bind, hloop]
  rfl

theorem getNewBlocks_of_lt {n : ℤ} (hn : free.length < n) :
    pool.getNewBlocks n = throw .valueError := by
  have hgt : n > pool.getNumFreeBlocks := by
    rw [getNumFreeBlocks, h.holds.count]
    exact hn
  simp only [BlockPool.getNewBlocks, hgt, ↓reduceIte]

theorem touchOne (hb : b < pool.numGpuBlocks) :
    ∃ queue, (if pool.refCnt b = 0 ∧ b ≠ pool.nullBlock
        then pool.freeBlockQueue.remove b else pure pool.freeBlockQueue) = .ok queue ∧
      PoolInv { pool with
        freeBlockQueue := queue
        refCnt := update pool.refCnt b (pool.refCnt b + 1) }
        (free.filter (· ≠ b)) := by
  have hrefs (hne : b ≠ pool.nullBlock) : 0 < pool.refCnt b + 1 := by
    have := h.refCnt_nonneg b hb hne
    omega
  have hrest (queue : FreeKVCacheBlockQueue) (hq : queue.Holds (free.filter (· ≠ b))) :
      PoolInv { pool with
        freeBlockQueue := queue
        refCnt := update pool.refCnt b (pool.refCnt b + 1) }
        (free.filter (· ≠ b)) := by
    refine ⟨hq, h.null_lt, ?_, ?_, h.stored_iff, h.hash_lt, h.noEmptyDict, h.uncached⟩
    · intro c
      by_cases hcb : c = b
      · subst hcb
        simp only [mem_filter, ne_eq, not_true_eq_false, decide_false, Bool.false_eq_true,
          and_false, update_self, false_iff, not_and]
        intro _ hne
        exact (hrefs hne).ne'
      · simp [mem_filter, hcb, h.mem_free c]
    · intro c hlt hne
      by_cases hcb : c = b
      · subst hcb
        simpa using (hrefs hne).le
      · simpa [hcb] using h.refCnt_nonneg c hlt hne
  by_cases hfree : pool.refCnt b = 0 ∧ b ≠ pool.nullBlock
  · have hmem : b ∈ free := (h.mem_free b).mpr ⟨hb, hfree.2, hfree.1⟩
    obtain ⟨A, B, rfl⟩ := append_of_mem hmem
    have hfilter : (A ++ b :: B).filter (· ≠ b) = A ++ B := by
      have hnd := nodup_middle.mp h.nodup
      have hnot := (nodup_cons.mp hnd).1
      rw [mem_append, not_or] at hnot
      rw [filter_append, filter_cons_of_neg (by simp)]
      congr 1
      · exact filter_eq_self.mpr fun c hc => by
          simpa using fun e : c = b => hnot.1 (e ▸ hc)
      · exact filter_eq_self.mpr fun c hc => by
          simpa using fun e : c = b => hnot.2 (e ▸ hc)
    obtain ⟨queue, hremove, hholds⟩ := FreeKVCacheBlockQueue.remove_holds h.holds
    exact ⟨queue, by rw [if_pos hfree, hremove], hrest queue (hfilter.symm ▸ hholds)⟩
  · have hnot : b ∉ free := fun hm =>
      hfree ⟨((h.mem_free b).mp hm).2.2, ((h.mem_free b).mp hm).2.1⟩
    have hfilter : free.filter (· ≠ b) = free := filter_eq_self.mpr fun c hc => by
      simpa using fun e : c = b => hnot (e ▸ hc)
    exact ⟨_, by rw [if_neg hfree]; rfl, hrest _ (hfilter.symm ▸ h.holds)⟩

/-- `touch` takes the touched blocks out of the free queue. -/
theorem touch (hb : ∀ b ∈ blocks, b < pool.numGpuBlocks) :
    ∃ pool', pool.touch blocks = .ok pool' ∧
      PoolResult pool pool' (free.filter (· ∉ blocks))
        (fun b => pool.refCnt b + blocks.count b) pool.blockHash := by
  induction blocks generalizing pool free with
  | nil =>
    refine ⟨pool, rfl, ?_, SameConfig.rfl, by simp, rfl⟩
    simpa using h
  | cons b blocks ih =>
    obtain ⟨queue, hqueue, hinv⟩ := h.touchOne (hb b (by simp))
    obtain ⟨pool', htouch, hout⟩ := ih hinv fun c hc => hb c (by simp [hc])
    refine ⟨pool', ?_, ?_, ⟨hout.config.1, hout.config.2, hout.config.3, hout.config.4⟩, ?_,
      hout.blockHash⟩
    · rw [touch, hqueue]
      exact htouch
    · have hfilter : (free.filter (· ≠ b)).filter (· ∉ blocks) = free.filter (· ∉ b :: blocks) := by
        rw [filter_filter]
        refine filter_congr fun c _ => ?_
        by_cases hcb : c = b <;> simp [hcb]
      exact hfilter ▸ hout.inv
    · rw [hout.refCnt]
      funext c
      by_cases hcb : c = b
      · subst hcb
        simp
        omega
      · have hbc : b ≠ c := fun e => hcb e.symm
        simp [hcb, count_cons_of_ne hbc]

end

theorem decrement_apply (refCnt : BlockId → ℤ) (blocks : List BlockId) (b : BlockId) :
    decrement refCnt blocks b = refCnt b - blocks.count b := by
  induction blocks generalizing refCnt with
  | nil => simp [decrement]
  | cons c blocks ih =>
    rw [decrement, foldl_cons]
    have := ih (update refCnt c (refCnt c - 1))
    rw [decrement] at this
    rw [this]
    by_cases hbc : b = c
    · subst hbc
      simp
      omega
    · have hcb : c ≠ b := fun e => hbc e.symm
      simp [hbc, count_cons_of_ne hcb]

/-- The blocks that `free_blocks` puts back: those that lose their last reference. -/
def freed (pool : BlockPool) (blocks : List BlockId) : List BlockId :=
  blocks.filter fun b => pool.refCnt b - blocks.count b = 0 ∧ b ≠ pool.nullBlock

/-- What a caller of `free_blocks` owes: known blocks, no non-null one twice, each of
these referenced. -/
structure Freeable (pool : BlockPool) (blocks : List BlockId) : Prop where
  lt : ∀ b ∈ blocks, b < pool.numGpuBlocks
  nodup : (blocks.filter (· ≠ pool.nullBlock)).Nodup
  referenced : ∀ b ∈ blocks, b ≠ pool.nullBlock → 1 ≤ pool.refCnt b

theorem Freeable.count_le (h : Freeable pool blocks) (hb : b ≠ pool.nullBlock) :
    blocks.count b ≤ 1 := by
  have hcount : blocks.count b = (blocks.filter (· ≠ pool.nullBlock)).count b := by
    rw [count_filter]
    simpa using hb
  rw [hcount]
  exact nodup_iff_count_le_one.mp h.nodup b

theorem freeBlocks (h : PoolInv pool free) (hf : Freeable pool blocks) (prepend : Bool) :
    ∃ pool', pool.freeBlocks blocks prepend = .ok pool' ∧
      PoolResult pool pool' (if prepend then freed pool blocks ++ free
        else free ++ freed pool blocks)
        (fun b => pool.refCnt b - blocks.count b) pool.blockHash := by
  have hfreedNodup : (freed pool blocks).Nodup := by
    refine hf.nodup.sublist ?_
    exact monotone_filter_right _ fun b hb => by
      simp only [decide_eq_true_eq] at hb ⊢
      exact hb.2
  have hdisj : ∀ b ∈ freed pool blocks, b ∉ free := by
    intro b hb hfree
    simp only [freed, mem_filter, decide_eq_true_eq] at hb
    have h1 := hf.referenced b hb.1 hb.2.2
    have h0 := ((h.mem_free b).mp hfree).2.2
    omega
  have happ : (free ++ freed pool blocks).Nodup := nodup_append.mpr
    ⟨h.nodup, hfreedNodup, fun a ha b hb e => hdisj b hb (e ▸ ha)⟩
  have hpre : (freed pool blocks ++ free).Nodup := nodup_append.mpr
    ⟨hfreedNodup, h.nodup, fun a ha b hb e => hdisj a ha (e ▸ hb)⟩
  have hqueue : ∃ queue, (if prepend = true then
        pool.freeBlockQueue.prependN (freed pool blocks)
        else pool.freeBlockQueue.appendN (freed pool blocks)) = .ok queue ∧
      queue.Holds (if prepend then freed pool blocks ++ free else free ++ freed pool blocks) := by
    cases prepend with
    | true => simpa using FreeKVCacheBlockQueue.prependN_holds h.holds hpre
    | false => simpa using FreeKVCacheBlockQueue.appendN_holds h.holds happ
  obtain ⟨queue, hq, hholds⟩ := hqueue
  have hmem (b : BlockId) : b ∈ (if prepend then freed pool blocks ++ free
      else free ++ freed pool blocks) ↔ b ∈ free ∨ b ∈ freed pool blocks := by
    cases prepend <;> simp [or_comm]
  have hrefs : decrement pool.refCnt blocks =
      fun b => pool.refCnt b - blocks.count b := by
    funext b
    exact decrement_apply _ _ _
  refine ⟨{ pool with
      refCnt := fun b => pool.refCnt b - blocks.count b, freeBlockQueue := queue }, ?_,
    ⟨hholds, h.null_lt, ?_, ?_, h.stored_iff, h.hash_lt, h.noEmptyDict, h.uncached⟩,
    ⟨rfl, rfl, rfl, rfl⟩, rfl, rfl⟩
  · simp only [BlockPool.freeBlocks, hrefs]
    simp only [freed] at hq
    rw [hq]
    rfl
  · intro b
    rw [hmem, h.mem_free]
    simp only [freed, mem_filter, decide_eq_true_eq]
    by_cases hb : b ∈ blocks
    · constructor
      · rintro (⟨hlt, hne, hz⟩ | ⟨-, hz, hne⟩)
        · have := hf.referenced b hb hne
          omega
        · exact ⟨hf.lt b hb, hne, hz⟩
      · rintro ⟨-, hne, hz⟩
        exact .inr ⟨hb, hz, hne⟩
    · have hcount : blocks.count b = 0 := count_eq_zero.mpr hb
      simp [hb, hcount]
  · intro b hlt hne
    have hle := hf.count_le hne
    by_cases hb : b ∈ blocks
    · have := hf.referenced b hb hne
      show 0 ≤ pool.refCnt b - (blocks.count b : ℤ)
      omega
    · have hcount : blocks.count b = 0 := count_eq_zero.mpr hb
      have := h.refCnt_nonneg b hlt hne
      show 0 ≤ pool.refCnt b - (blocks.count b : ℤ)
      omega

section
variable (h : PoolInv pool free) (hc : pool.enableCaching = true)
include h hc

theorem cacheOne (hb : b < pool.numGpuBlocks) (hne : b ≠ pool.nullBlock)
    (hnone : pool.blockHash b = none) (key : BlockHashWithGroupId) :
    PoolInv { pool with
      blockHash := update pool.blockHash b (some key)
      cachedBlockHashToBlock := pool.cachedBlockHashToBlock.insert key b } free := by
  refine ⟨h.holds, h.null_lt, h.mem_free, h.refCnt_nonneg, ?_, ?_, h.noEmptyDict.insert key b,
    fun hc' => absurd (hc.symm.trans hc') (by decide)⟩
  · intro c key'
    rw [BlockHashToBlockMap.stored_insert, ← h.stored_iff]
    by_cases hcb : c = b
    · subst hcb
      simp [hnone, eq_comm]
    · simp [hcb]
  · intro c hhash
    by_cases hcb : c = b
    · subst hcb
      exact ⟨hb, hne⟩
    · exact h.hash_lt c (by simpa [hcb] using hhash)

/-- The loop of `cache_full_blocks` hashes listed blocks that had no hash. -/
theorem cacheLoop {groupId : ℕ} {items : List (BlockId × Option BlockHash × Option Bool)}
    (hlt : ∀ item ∈ items, item.1 < pool.numGpuBlocks)
    (hr : cacheLoop groupId pool items = .ok pool') :
    PoolInv pool' free ∧ SameConfig pool pool' ∧ pool'.refCnt = pool.refCnt ∧
      ∀ b, pool'.blockHash b = pool.blockHash b ∨ pool.blockHash b = none ∧
        ∃ item ∈ items, ∃ hash, item.1 = b ∧ item.2.1 = some hash ∧
          pool.cacheable b item.2.2 = true ∧ pool'.blockHash b = some ⟨hash, groupId⟩ := by
  induction items generalizing pool with
  | nil =>
    cases hr
    exact ⟨h, SameConfig.rfl, rfl, fun b => .inl rfl⟩
  | cons item items ih =>
    obtain ⟨block, blockHash, mask⟩ := item
    by_cases hcache : pool.cacheable block mask = true
    · simp only [cacheLoop, hcache, ↓reduceIte, bind_eq_ok, require_eq_ok] at hr
      obtain ⟨-, hnone, hr⟩ := hr
      cases blockHash with
      | none => simp at hr
      | some hash =>
        have hne : block ≠ pool.nullBlock := by
          simp only [cacheable, decide_eq_true_eq] at hcache
          exact hcache.1
        have hone := h.cacheOne hc (hlt _ mem_cons_self) hne hnone ⟨hash, groupId⟩
        obtain ⟨hinv, hcfg, hrefs, hhash⟩ := ih hone hc (fun item hi => hlt item (by simp [hi])) hr
        refine ⟨hinv, ⟨hcfg.1, hcfg.2, hcfg.3, hcfg.4⟩, hrefs, fun b => ?_⟩
        by_cases hb : b = block
        · subst hb
          rcases hhash b with hsame | ⟨hnone', -⟩
          · exact .inr ⟨hnone, _, mem_cons_self, hash, rfl, rfl, hcache, by simpa using hsame⟩
          · simp at hnone'
        · rcases hhash b with hsame | ⟨hnone', item, hitem, hash', h1, h2, h3, h4⟩
          · exact .inl (by simpa [hb] using hsame)
          · exact .inr ⟨by simpa [hb] using hnone', item, mem_cons_of_mem _ hitem, hash',
              h1, h2, h3, h4⟩
    · simp only [cacheLoop, hcache, Bool.false_eq_true, ↓reduceIte] at hr
      obtain ⟨hinv, hcfg, hrefs, hhash⟩ := ih h hc (fun item hi => hlt item (by simp [hi])) hr
      refine ⟨hinv, hcfg, hrefs, fun b => ?_⟩
      rcases hhash b with hsame | ⟨hnone, item, hitem, hrest⟩
      · exact .inl hsame
      · exact .inr ⟨hnone, item, mem_cons_of_mem _ hitem, hrest⟩

end

/-- Which blocks `cache_full_blocks` hashes: full, non-null and unmasked ones that had no
hash, each with the request's hash at its index. -/
def NewHash (pool pool' : BlockPool) (request : Request) (blocks : List BlockId)
    (numCachedBlocks numFullBlocks blockSize groupId : ℕ) (blockMask : Option (List Bool))
    (b : BlockId) : Prop :=
  pool.blockHash b = none ∧ ∃ i hash, numCachedBlocks ≤ i ∧ i < numFullBlocks ∧
    blocks[i]? = some b ∧ b ≠ pool.nullBlock ∧
    (∀ mask ∈ blockMask, mask[i - numCachedBlocks]? ≠ some false) ∧
    (pool.requestHashes request blockSize)[i]? = some hash ∧
    pool'.blockHash b = some ⟨hash, groupId⟩

theorem cacheFullBlocks (h : PoolInv pool free) (hc : pool.enableCaching = true) {request : Request}
    {numCachedBlocks numFullBlocks blockSize groupId : ℕ} {blockMask : Option (List Bool)}
    (hlt : ∀ b ∈ blocks, b < pool.numGpuBlocks)
    (hr : pool.cacheFullBlocks request blocks numCachedBlocks numFullBlocks blockSize groupId
      blockMask = .ok pool') :
    PoolInv pool' free ∧ SameConfig pool pool' ∧ pool'.refCnt = pool.refCnt ∧
      ∀ b, pool'.blockHash b = pool.blockHash b ∨ NewHash pool pool' request blocks
        numCachedBlocks numFullBlocks blockSize groupId blockMask b := by
  unfold BlockPool.cacheFullBlocks at hr
  by_cases hge : numCachedBlocks ≥ numFullBlocks
  · rw [if_pos hge] at hr
    cases hr
    exact ⟨h, SameConfig.rfl, rfl, fun b => .inl rfl⟩
  · rw [if_neg hge] at hr
    simp only [bind_eq_ok, require_eq_ok] at hr
    obtain ⟨-, -, -, -, -, -, cached, hloop, hr⟩ := hr
    have hitems : ∀ item ∈ pool.cacheItems request blocks numCachedBlocks numFullBlocks
        blockSize blockMask, ∃ i, i < numFullBlocks - numCachedBlocks ∧
          blocks[numCachedBlocks + i]? = some item.1 ∧
          item.2.1 = (pool.requestHashes request blockSize)[numCachedBlocks + i]? ∧
          item.2.2 = blockMask.bind fun mask => mask[i]? := by
      intro item hitem
      simp only [cacheItems, slice, mem_map, Prod.exists] at hitem
      obtain ⟨block, i, hmem, rfl⟩ := hitem
      have hget := mem_zipIdx_iff_getElem?.mp hmem
      rw [List.getElem?_take] at hget
      split_ifs at hget with hi
      exact ⟨i, hi, by simpa [List.getElem?_drop] using hget, by simp [List.getElem?_drop], rfl⟩
    obtain ⟨hinv, hcfg, hrefs, hhash⟩ := h.cacheLoop hc
      (fun item hi => by
        obtain ⟨i, -, hget, -⟩ := hitems item hi
        exact hlt _ (mem_of_getElem? hget)) hloop
    have hcached : PoolInv pool' free ∧ SameConfig cached pool' ∧
        pool'.refCnt = cached.refCnt ∧ pool'.blockHash = cached.blockHash := by
      split at hr
      · cases hr
        exact ⟨hinv, SameConfig.rfl, rfl, rfl⟩
      · split at hr
        · simp at hr
        · simp only [bind_eq_ok, pure_eq_ok] at hr
          obtain ⟨keys, -, rfl⟩ := hr
          exact ⟨⟨hinv.holds, hinv.null_lt, hinv.mem_free, hinv.refCnt_nonneg, hinv.stored_iff,
            hinv.hash_lt, hinv.noEmptyDict, hinv.uncached⟩, ⟨rfl, rfl, rfl, rfl⟩, rfl, rfl⟩
    refine ⟨hcached.1, hcfg.trans hcached.2.1, hcached.2.2.1.trans hrefs, fun b => ?_⟩
    rw [NewHash, hcached.2.2.2]
    rcases hhash b with hsame | ⟨hnone, item, hitem, hash, rfl, hitemHash, hcache, hnew⟩
    · exact .inl hsame
    · obtain ⟨i, hi, hget, hreq, hmask⟩ := hitems item hitem
      simp only [cacheable, hmask, decide_eq_true_eq] at hcache
      refine .inr ⟨hnone, numCachedBlocks + i, hash, by omega, by omega, hget, hcache.1, ?_,
        by rw [← hreq, hitemHash], hnew⟩
      rintro mask rfl
      simpa using hcache.2

theorem getOneBlock_stored {map : BlockHashToBlockMap} {key : BlockHashWithGroupId}
    {block : BlockId} (hr : map.getOneBlock key = .ok (some block)) : map.Stored key block := by
  unfold BlockHashToBlockMap.getOneBlock at hr
  unfold BlockHashToBlockMap.Stored
  cases hget : map.cache.get? key with
  | none => simp [hget] at hr
  | some entry =>
    rw [hget] at hr
    cases entry with
    | single other =>
      simp only [pure_eq_ok, Option.some.injEq] at hr
      exact hr.symm
    | dict d =>
      cases hk : d.keys with
      | nil => simp [hk] at hr
      | cons k ks =>
        simp only [hk, pure_eq_ok, Option.some.injEq] at hr
        subst hr
        exact contains_of_mem_keys (by simp [hk])

end PoolInv

variable {blockHash : BlockHash} {groupIds : List ℕ}

theorem getCachedBlock_stored {pool : BlockPool} {blocks : List BlockId}
    (hr : pool.getCachedBlock blockHash groupIds = .ok (some blocks)) :
    blocks.length = groupIds.length ∧
      ∀ (k : ℕ) b g, blocks[k]? = some b → groupIds[k]? = some g →
        pool.cachedBlockHashToBlock.Stored (makeBlockHashWithGroupId blockHash g) b := by
  induction groupIds generalizing blocks with
  | nil =>
    obtain rfl : [] = blocks := by simpa [getCachedBlock] using hr
    simp
  | cons g₀ groupIds ih =>
    simp only [getCachedBlock, bind_eq_ok] at hr
    obtain ⟨block, hone, hr⟩ := hr
    cases block with
    | none => simp at hr
    | some block =>
      simp only [bind_eq_ok, pure_eq_ok] at hr
      obtain ⟨rest, hrest, hblocks⟩ := hr
      cases rest with
      | none => simp at hblocks
      | some rest =>
        obtain rfl : block :: rest = blocks := by simpa using hblocks
        obtain ⟨hlength, hstored⟩ := ih hrest
        refine ⟨by simp [hlength], fun k b g hb hg => ?_⟩
        cases k with
        | zero =>
          obtain rfl : block = b := by simpa using hb
          obtain rfl : g₀ = g := by simpa using hg
          exact PoolInv.getOneBlock_stored hone
        | succ k => exact hstored k b g (by simpa using hb) (by simpa using hg)

theorem PoolInv.getCachedBlock_keys {pool : BlockPool} {free : List BlockId} (h : PoolInv pool free)
    {blocks : List BlockId} (hr : pool.getCachedBlock blockHash groupIds = .ok (some blocks)) :
    ∀ (k : ℕ) b g, blocks[k]? = some b → groupIds[k]? = some g →
      pool.blockHash b = some ⟨blockHash, g⟩ :=
  fun k b g hb hg => (h.stored_iff _ _).mpr ((getCachedBlock_stored hr).2 k b g hb hg)

inductive PoolCall where
  | getNewBlocks (numBlocks : ℤ)
  | touch (blocks : List BlockId)
  | freeBlocks (orderedBlocks : List BlockId) (prepend : Bool)
  | cacheFullBlocks (request : Request) (blocks : List BlockId)
      (numCachedBlocks numFullBlocks blockSize kvCacheGroupId : ℕ)
      (blockMask : Option (List Bool))
  | evictBlocks (blockIds : List ℤ)
  | resetPrefixCache

def PoolCall.apply (pool : BlockPool) : PoolCall → Raises BlockPool
  | .getNewBlocks n => return (← pool.getNewBlocks n).2
  | .touch blocks => pool.touch blocks
  | .freeBlocks blocks prepend => pool.freeBlocks blocks prepend
  | .cacheFullBlocks request blocks numCached numFull blockSize groupId mask =>
    pool.cacheFullBlocks request blocks numCached numFull blockSize groupId mask
  | .evictBlocks ids => pool.evictBlocks ids
  | .resetPrefixCache => pure pool.resetPrefixCache.2

/-- The callers' contracts. Any block of the pool may be touched or cached, so that the
blocks returned by `get_cached_block`, now or earlier, and blocks in use are covered. -/
def PoolCall.Allowed (pool : BlockPool) : PoolCall → Prop
  | .getNewBlocks n => 0 ≤ n
  | .touch blocks => ∀ b ∈ blocks, b < pool.numGpuBlocks
  | .freeBlocks blocks _ => PoolInv.Freeable pool blocks
  | .cacheFullBlocks _ blocks _ _ _ _ _ => ∀ b ∈ blocks, b < pool.numGpuBlocks
  | .evictBlocks _ => True
  | .resetPrefixCache => True

/-- The states of a pool with caching enabled; a call that raises ends the run. -/
inductive PoolReachable : BlockPool → Prop
  | start {pool : BlockPool} {numGpuBlocks hashBlockSize : ℕ} {events ints : Bool}
      {sha256 : List UInt8 → List UInt8}
      (h : BlockPool.init numGpuBlocks true hashBlockSize events ints sha256 = .ok pool) :
      PoolReachable pool
  | step {pool pool' : BlockPool} {call : PoolCall} (hr : PoolReachable pool)
      (hallowed : call.Allowed pool) (h : call.apply pool = .ok pool') : PoolReachable pool'

/-- The books of the pool agree. `free` is the list the free queue's links represent. -/
structure PoolConsistent (pool : BlockPool) : Prop where
  freeQueue : ∃ free, DoublyLinked.Spine pool.freeBlockQueue.links free ∧
    pool.freeBlockQueue.numFreeBlocks = free.length ∧
    (∀ b < pool.numGpuBlocks, b ≠ pool.nullBlock →
      free.count b = if pool.refCnt b = 0 then 1 else 0) ∧
    (∀ b ∈ free, b < pool.numGpuBlocks) ∧ pool.nullBlock ∉ free
  stored : ∀ b key, pool.blockHash b = some key ↔ pool.cachedBlockHashToBlock.Stored key b
  null_not_stored : ∀ key, ¬ pool.cachedBlockHashToBlock.Stored key pool.nullBlock
  no_empty_dict : pool.cachedBlockHashToBlock.NoEmptyDict

theorem PoolInv.consistent {pool : BlockPool} {free : List BlockId} (h : PoolInv pool free) :
    PoolConsistent pool := by
  refine ⟨⟨free, h.holds.spine, h.holds.count, ?_, ?_, h.null_notMem⟩, h.stored_iff, ?_,
    h.noEmptyDict⟩
  · intro b hb hne
    have hmem : b ∈ free ↔ pool.refCnt b = 0 := by
      rw [h.mem_free]
      exact ⟨fun hm => hm.2.2, fun hz => ⟨hb, hne, hz⟩⟩
    by_cases hz : pool.refCnt b = 0
    · rw [if_pos hz]
      exact List.count_eq_one_of_mem h.nodup (hmem.mpr hz)
    · rw [if_neg hz]
      exact List.count_eq_zero.mpr fun hm => hz (hmem.mp hm)
  · exact fun b hb => ((h.mem_free b).mp hb).1
  · intro key hs
    have hhash := (h.stored_iff pool.nullBlock key).mpr hs
    exact (h.hash_lt pool.nullBlock (by simp [hhash])).2 rfl

/-- The references to the blocks of a pool are those of `held`, and what nobody holds is free. -/
structure BlockPool.Accounted (pool : BlockPool) (held : BlockId → ℕ) : Prop where
  refCnt : ∀ b, b ≠ pool.nullBlock → pool.refCnt b = held b
  free : ∃ free, pool.freeBlockQueue.Holds free ∧
    ∀ b, b ∈ free ↔ b < pool.numGpuBlocks ∧ b ≠ pool.nullBlock ∧ held b = 0
  numFree : pool.getNumFreeBlocks + (((Finset.range pool.numGpuBlocks).erase pool.nullBlock).filter
    fun b => ¬held b = 0).card + 1 = pool.numGpuBlocks

theorem PoolInv.accounted {pool : BlockPool} {free : List BlockId} {held : BlockId → ℕ}
    (h : PoolInv pool free)
    (hrefs : ∀ b, b ≠ pool.nullBlock → pool.refCnt b = held b) : pool.Accounted held := by
  have hmem : ∀ b, b ∈ free ↔ b < pool.numGpuBlocks ∧ b ≠ pool.nullBlock ∧ held b = 0 := by
    intro b
    rw [h.mem_free]
    refine and_congr_right fun _ => and_congr_right fun hne => ?_
    rw [hrefs b hne, Nat.cast_eq_zero]
  have hfree : free.toFinset =
      ((Finset.range pool.numGpuBlocks).erase pool.nullBlock).filter fun b => held b = 0 := by
    ext b
    simp only [List.mem_toFinset, hmem, Finset.mem_filter, Finset.mem_erase, Finset.mem_range]
    tauto
  have hsplit := Finset.card_filter_add_card_filter_not
    (s := (Finset.range pool.numGpuBlocks).erase pool.nullBlock) fun b => held b = 0
  rw [← hfree, List.toFinset_card_of_nodup h.nodup,
    Finset.card_erase_of_mem (Finset.mem_range.mpr h.null_lt), Finset.card_range] at hsplit
  refine ⟨hrefs, ⟨free, h.holds, hmem⟩, ?_⟩
  rw [BlockPool.getNumFreeBlocks, h.holds.count]
  have htotal := congrArg Nat.succ hsplit
  rw [← Nat.pred_eq_sub_one, Nat.succ_pred_eq_of_pos (Nat.zero_lt_of_lt h.null_lt)] at htotal
  exact_mod_cast htotal

/-- Whether a call gives blocks a hash, which callers do only if caching is enabled. -/
def PoolCall.caches : PoolCall → Bool
  | .cacheFullBlocks .. => true
  | _ => false

theorem PoolInv.step {pool pool' : BlockPool} {free : List BlockId} {call : PoolCall}
    (h : PoolInv pool free) (hc : call.caches = true → pool.enableCaching = true)
    (hallowed : call.Allowed pool) (hr : call.apply pool = .ok pool') :
    ∃ free', PoolInv pool' free' ∧ pool'.enableCaching = pool.enableCaching := by
  have ofResult {free' : List BlockId} {refCnt : BlockId → ℤ}
      {blockHash : BlockId → Option BlockHashWithGroupId} {pool'' : BlockPool}
      (hres : PoolResult pool pool'' free' refCnt blockHash) (heq : pool'' = pool') :
      ∃ free', PoolInv pool' free' ∧ pool'.enableCaching = pool.enableCaching := by
    subst heq
    exact ⟨free', hres.inv, hres.config.enableCaching⟩
  cases call with
  | getNewBlocks n =>
    simp only [PoolCall.apply, Raises.bind_eq_ok, Raises.pure_eq_ok] at hr
    obtain ⟨⟨blocks, pool''⟩, hget, rfl⟩ := hr
    by_cases hn : n ≤ free.length
    · obtain ⟨pool₂, hget₂, hres⟩ := h.getNewBlocks hallowed hn
      rw [hget₂] at hget
      obtain ⟨-, rfl⟩ : _ ∧ pool₂ = pool'' := by simpa using hget
      exact ofResult hres rfl
    · rw [h.getNewBlocks_of_lt (not_le.mp hn)] at hget
      simp at hget
  | touch blocks =>
    obtain ⟨pool'', htouch, hres⟩ := h.touch hallowed
    exact ofResult hres (Except.ok.inj (htouch.symm.trans hr))
  | freeBlocks blocks prepend =>
    obtain ⟨pool'', hfree, hres⟩ := h.freeBlocks hallowed prepend
    exact ofResult hres (Except.ok.inj (hfree.symm.trans hr))
  | cacheFullBlocks request blocks numCached numFull blockSize groupId mask =>
    obtain ⟨hinv, hcfg, -, -⟩ := h.cacheFullBlocks (hc rfl) hallowed hr
    exact ⟨free, hinv, hcfg.enableCaching⟩
  | evictBlocks ids =>
    obtain ⟨hash, hres⟩ := h.evictBlocks hr
    exact ofResult hres rfl
  | resetPrefixCache =>
    obtain ⟨hash, hres⟩ := h.reset
    exact ofResult hres (Except.ok.inj hr)

/-- Every run of allowed calls keeps the books of the pool. -/
theorem poolReachable_consistent {pool : BlockPool} (h : PoolReachable pool) :
    PoolConsistent pool := by
  have hinv : ∃ free, PoolInv pool free ∧ pool.enableCaching = true := by
    induction h with
    | start h => exact PoolInv.init h
    | step _ hallowed h ih =>
      obtain ⟨free, hinv, hc⟩ := ih
      obtain ⟨free', hinv', hsame⟩ := hinv.step (fun _ => hc) hallowed h
      exact ⟨free', hinv', hsame.trans hc⟩
  obtain ⟨free, hinv, -⟩ := hinv
  exact hinv.consistent

/-- A pool of three blocks after one allocation. -/
theorem poolReachable_consistent_allocated :
    ∃ pool, PoolReachable pool ∧ pool.refCnt 1 = 1 ∧ PoolConsistent pool := by
  obtain ⟨pool, hinit⟩ : ∃ pool, BlockPool.init 3 true 4 false false id = .ok pool := ⟨_, rfl⟩
  have hstart : PoolReachable pool := .start hinit
  obtain ⟨pool', hget, href⟩ : ∃ pool', (PoolCall.getNewBlocks 1).apply pool = .ok pool' ∧
      pool'.refCnt 1 = 1 := by
    cases hinit
    exact ⟨_, rfl, rfl⟩
  have hstep : PoolReachable pool' :=
    hstart.step (show (PoolCall.getNewBlocks 1).Allowed pool from (by decide : (0 : ℤ) ≤ 1)) hget
  exact ⟨pool', hstep, href, poolReachable_consistent hstep⟩

end Vllm
