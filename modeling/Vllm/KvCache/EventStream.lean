import Vllm.KvCache.BlockPoolInvariant
import Mathlib.Algebra.Order.Group.Multiset

/-! The stream of KV cache events: a consumer that replays it holds the hashes that the
blocks of the pool carry. The lists of one stored event line up if no block is skipped. -/
namespace Vllm
open Raises Multiset Function

/-- What a consumer of the events knows: external hashes with their groups, counted. -/
abbrev CacheView := Multiset (ExternalBlockHash × ℕ)

/-- One event at the consumer. A removal of a hash that it does not hold is an error. -/
def replayEvent (view : CacheView) : KVCacheEvent → Option CacheView
  | .blockStored blockHashes _ _ _ _ _ _ _ groupIdx =>
    some (view + (blockHashes.map fun hash => (hash, groupIdx) : List _))
  | .blockRemoved blockHashes _ groupIdx =>
    let removed : CacheView := (blockHashes.map fun hash => (hash, groupIdx) : List _)
    if removed ≤ view then some (view - removed) else none
  | .allBlocksCleared => some 0

def replay (view : CacheView) (events : List KVCacheEvent) : Option CacheView :=
  events.foldlM replayEvent view

theorem replay_append (view : CacheView) (events more : List KVCacheEvent) :
    replay view (events ++ more) = (replay view events).bind fun view' => replay view' more := by
  rw [replay, List.foldlM_append]
  rfl

theorem replay_singleton (view : CacheView) (event : KVCacheEvent) :
    replay view [event] = replayEvent view event := by
  simp [replay]

theorem replayEvent_removed (view : CacheView) (hash : ExternalBlockHash) (medium : String)
    (groupIdx : ℕ) :
    replayEvent ((hash, groupIdx) ::ₘ view) (.blockRemoved [hash] medium groupIdx) =
      some view := by
  simp only [replayEvent, List.map_cons, List.map_nil, coe_singleton]
  rw [if_pos (singleton_le.mpr (mem_cons_self _ _)), ← singleton_add, add_tsub_cancel_left]

namespace BlockPool

/-- A key as the events spell it. -/
def externalKey (pool : BlockPool) (key : BlockHashWithGroupId) : ExternalBlockHash × ℕ :=
  (pool.maybeConvertBlockHash key.blockHash, key.groupId)

/-- The hashes that the blocks carry. -/
def hashedBlocks (pool : BlockPool) : CacheView :=
  (Multiset.range pool.numGpuBlocks).filterMap fun b => (pool.blockHash b).map pool.externalKey

end BlockPool

theorem filterMap_eq_of_eq {α β : Type} {s : Multiset α} {f g : α → Option β}
    (h : ∀ x ∈ s, f x = g x) : s.filterMap f = s.filterMap g := by
  induction s using Quotient.inductionOn with
  | _ l => exact congrArg ofList (List.filterMap_congr h)

theorem filterMap_range_update {β : Type} {n b : ℕ} {f : ℕ → Option β} (hb : b < n)
    (hnone : f b = none) (v : β) :
    (range n).filterMap (update f b (some v)) =
      v ::ₘ (range n).filterMap f := by
  obtain ⟨t, ht⟩ := exists_cons_of_mem (mem_range.mpr hb)
  have hnotMem : b ∉ t := by
    have hnodup := nodup_range n
    rw [ht, nodup_cons] at hnodup
    exact hnodup.1
  rw [ht, filterMap_cons_some _ _ _ (update_self ..), filterMap_cons_none _ _ hnone]
  congr 1
  apply filterMap_eq_of_eq
  intro x hx
  rw [update_of_ne]
  rintro rfl
  exact hnotMem hx

/-- The part of the pool that the events describe: every hashed block is in the map. -/
structure HashBooks (pool : BlockPool) : Prop where
  stored : ∀ b key, pool.blockHash b = some key → pool.cachedBlockHashToBlock.Stored key b
  lt : ∀ b, pool.blockHash b ≠ none → b < pool.numGpuBlocks

theorem PoolInv.hashBooks {pool : BlockPool} {free : List BlockId} (h : PoolInv pool free) :
    HashBooks pool :=
  ⟨fun b key => (h.stored_iff b key).mp, fun b hb => (h.hash_lt b hb).1⟩

/-- The events that a pool with events enabled emits on the way to `pool'`. -/
structure Emits (pool pool' : BlockPool) : Prop where
  numGpuBlocks : pool'.numGpuBlocks = pool.numGpuBlocks
  useIntBlockHashes : pool'.useIntBlockHashes = pool.useIntBlockHashes
  enabled : pool'.enableKvCacheEvents = true
  events : ∃ events, pool'.kvEventQueue = pool.kvEventQueue ++ events ∧
    replay pool.hashedBlocks events = some pool'.hashedBlocks

namespace Emits
variable {pool pool' pool'' : BlockPool}

theorem trans (h : Emits pool pool') (h' : Emits pool' pool'') : Emits pool pool'' := by
  obtain ⟨events, hqueue, hreplay⟩ := h.events
  obtain ⟨events', hqueue', hreplay'⟩ := h'.events
  refine ⟨h'.numGpuBlocks.trans h.numGpuBlocks, h'.useIntBlockHashes.trans h.useIntBlockHashes,
    h'.enabled, events ++ events', ?_, ?_⟩
  · rw [hqueue', hqueue, List.append_assoc]
  · rw [replay_append, hreplay]
    exact hreplay'

theorem silent (hon : pool.enableKvCacheEvents = true)
    (hnum : pool'.numGpuBlocks = pool.numGpuBlocks)
    (hint : pool'.useIntBlockHashes = pool.useIntBlockHashes)
    (hevents : pool'.enableKvCacheEvents = pool.enableKvCacheEvents)
    (hqueue : pool'.kvEventQueue = pool.kvEventQueue)
    (hhash : pool'.blockHash = pool.blockHash) : Emits pool pool' := by
  refine ⟨hnum, hint, hevents.trans hon, [], by rw [hqueue, List.append_nil], ?_⟩
  unfold BlockPool.hashedBlocks BlockPool.externalKey BlockPool.maybeConvertBlockHash
  rw [hnum, hhash, hint]
  rfl

end Emits

theorem HashBooks.evict {pool : BlockPool} (h : HashBooks pool)
    (hon : pool.enableKvCacheEvents = true) (b : BlockId) :
    HashBooks (pool.maybeEvictCachedBlock b).2 ∧ Emits pool (pool.maybeEvictCachedBlock b).2 := by
  cases hb : pool.blockHash b with
  | none =>
    simp only [BlockPool.maybeEvictCachedBlock, hb]
    exact ⟨h, .silent hon rfl rfl rfl rfl rfl⟩
  | some key =>
    obtain ⟨hpop, hstored⟩ := BlockHashToBlockMap.pop_stored (h.stored b key hb)
    rcases hm : pool.cachedBlockHashToBlock.pop key b with ⟨res, map⟩
    rw [hm] at hpop hstored
    obtain rfl : res = some b := hpop
    simp only [BlockPool.maybeEvictCachedBlock, hb, hm]
    refine ⟨⟨fun b' key' hb' => ?_, fun b' hb' => ?_⟩, rfl, rfl, hon,
      [.blockRemoved [pool.maybeConvertBlockHash key.blockHash] mediumGpu key.groupId],
      by rw [if_pos hon], ?_⟩
    · by_cases hbb : b' = b
      · subst hbb
        simp at hb'
      · exact (hstored key' b').mpr
          ⟨h.stored b' key' (by simpa [hbb] using hb'), fun hk => hbb hk.2⟩
    · by_cases hbb : b' = b
      · subst hbb
        simp at hb'
      · exact h.lt b' (by simpa [hbb] using hb')
    · have hview : pool.hashedBlocks = pool.externalKey key ::ₘ
          (range pool.numGpuBlocks).filterMap
            (fun b' => (update pool.blockHash b none b').map pool.externalKey) := by
        rw [← filterMap_range_update (h.lt b (by simp [hb])) (by simp)]
        apply filterMap_eq_of_eq
        intro x _
        by_cases hx : x = b
        · subst hx
          simp [hb]
        · simp [update_of_ne hx]
      rw [replay_singleton, hview]
      exact replayEvent_removed _ _ _ _

section operations
variable {pool pool' : BlockPool}

section
variable (h : HashBooks pool) (hon : pool.enableKvCacheEvents = true)
include h hon

theorem HashBooks.takeLoop {blocks : List BlockId} (hr : pool.takeLoop blocks = .ok pool') :
    Emits pool pool' := by
  induction blocks generalizing pool with
  | nil =>
    cases hr
    exact .silent hon rfl rfl rfl rfl rfl
  | cons b blocks ih =>
    simp only [BlockPool.takeLoop, bind_eq_ok, require_eq_ok] at hr
    obtain ⟨-, -, hr⟩ := hr
    have hevict : HashBooks (if pool.enableCaching then (pool.maybeEvictCachedBlock b).2
          else pool) ∧ Emits pool
        (if pool.enableCaching then (pool.maybeEvictCachedBlock b).2 else pool) := by
      split
      · exact h.evict hon b
      · exact ⟨h, .silent hon rfl rfl rfl rfl rfl⟩
    generalize (if pool.enableCaching then (pool.maybeEvictCachedBlock b).2 else pool) = evicted
      at hr hevict
    obtain ⟨hbooks, hemits⟩ := hevict
    have hcounted : Emits evicted { evicted with
        refCnt := update evicted.refCnt b (evicted.refCnt b + 1) } :=
      .silent hemits.enabled rfl rfl rfl rfl rfl
    exact (hemits.trans hcounted).trans (ih ⟨hbooks.stored, hbooks.lt⟩ hemits.enabled hr)

theorem HashBooks.getNewBlocks {n : ℤ} {blocks : List BlockId}
    (hr : pool.getNewBlocks n = .ok (blocks, pool')) :
    Emits pool pool' := by
  unfold BlockPool.getNewBlocks at hr
  split_ifs at hr
  simp only [bind_eq_ok, pure_eq_ok, Prod.mk.injEq] at hr
  obtain ⟨⟨ret, queue⟩, -, taken, htake, -, rfl⟩ := hr
  have hpopped : Emits pool { pool with freeBlockQueue := queue } := .silent hon rfl rfl rfl rfl rfl
  have hbooks : HashBooks { pool with freeBlockQueue := queue } := ⟨h.stored, h.lt⟩
  exact hpopped.trans (hbooks.takeLoop hon htake)

end

theorem touch_silent (hon : pool.enableKvCacheEvents = true) {blocks : List BlockId}
    (hr : pool.touch blocks = .ok pool') : Emits pool pool' := by
  induction blocks generalizing pool with
  | nil =>
    cases hr
    exact .silent hon rfl rfl rfl rfl rfl
  | cons b blocks ih =>
    simp only [BlockPool.touch, bind_eq_ok] at hr
    obtain ⟨queue, -, hr⟩ := hr
    have hone : Emits pool { pool with
        freeBlockQueue := queue
        refCnt := update pool.refCnt b (pool.refCnt b + 1) } :=
      .silent hon rfl rfl rfl rfl rfl
    exact hone.trans (ih hon hr)

theorem freeBlocks_silent (hon : pool.enableKvCacheEvents = true) {blocks : List BlockId}
    {prepend : Bool} (hr : pool.freeBlocks blocks prepend = .ok pool') : Emits pool pool' := by
  simp only [BlockPool.freeBlocks, bind_eq_ok, pure_eq_ok] at hr
  obtain ⟨queue, -, rfl⟩ := hr
  exact .silent hon rfl rfl rfl rfl rfl

theorem HashBooks.evictBlocks (h : HashBooks pool) (hon : pool.enableKvCacheEvents = true)
    {ids : List ℤ} (hr : pool.evictBlocks ids = .ok pool') : Emits pool pool' := by
  induction ids generalizing pool with
  | nil =>
    cases hr
    exact .silent hon rfl rfl rfl rfl rfl
  | cons id ids ih =>
    simp only [BlockPool.evictBlocks, bind_eq_ok, require_eq_ok] at hr
    obtain ⟨-, -, hr⟩ := hr
    generalize (if id < 0 then id + ↑pool.numGpuBlocks else id) = index at hr
    by_cases hneg : index < 0
    · simp [hneg] at hr
    · rw [if_neg hneg] at hr
      obtain ⟨hbooks, hemits⟩ := h.evict hon index.toNat
      exact hemits.trans (ih hbooks hemits.enabled hr)

theorem hashedBlocks_eq_zero (h : pool.blockHash = fun _ => none) : pool.hashedBlocks = 0 := by
  apply eq_zero_of_forall_notMem
  simp [BlockPool.hashedBlocks, h]

theorem resetPrefixCache_emits (hon : pool.enableKvCacheEvents = true) :
    Emits pool pool.resetPrefixCache.2 := by
  unfold BlockPool.resetPrefixCache
  dsimp only
  split
  · exact .silent hon rfl rfl rfl rfl rfl
  · refine ⟨rfl, rfl, hon, [.allBlocksCleared], ?_, ?_⟩
    · rfl
    · rw [replay_singleton, replayEvent, hashedBlocks_eq_zero rfl]

theorem hashedBlocks_update {b : BlockId} (hb : b < pool.numGpuBlocks)
    (hnone : pool.blockHash b = none) (key : BlockHashWithGroupId)
    (hnum : pool'.numGpuBlocks = pool.numGpuBlocks)
    (hint : pool'.useIntBlockHashes = pool.useIntBlockHashes)
    (hhash : pool'.blockHash = update pool.blockHash b (some key)) :
    pool'.hashedBlocks = pool.externalKey key ::ₘ pool.hashedBlocks := by
  unfold BlockPool.hashedBlocks
  rw [← filterMap_range_update hb (by simp [hnone]), hnum]
  apply filterMap_eq_of_eq
  intro x _
  rw [hhash]
  have hkey : pool'.externalKey = pool.externalKey := by
    unfold BlockPool.externalKey BlockPool.maybeConvertBlockHash
    rw [hint]
  rw [hkey]
  by_cases hx : x = b
  · subst hx
    simp
  · simp [update_of_ne hx]

/-- The hashes that the loop of `cache_full_blocks` stores. -/
def storedKeys (pool : BlockPool) (groupId : ℕ)
    (items : List (BlockId × Option BlockHash × Option Bool)) : List (ExternalBlockHash × ℕ) :=
  (items.filter fun item => pool.cacheable item.1 item.2.2).map fun item =>
    (pool.maybeConvertBlockHash (item.2.1.getD []), groupId)

theorem storedKeys_cons (pool : BlockPool) (groupId : ℕ)
    (item : BlockId × Option BlockHash × Option Bool)
    (items : List (BlockId × Option BlockHash × Option Bool)) :
    storedKeys pool groupId (item :: items) = if pool.cacheable item.1 item.2.2
      then (pool.maybeConvertBlockHash (item.2.1.getD []), groupId) :: storedKeys pool groupId items
      else storedKeys pool groupId items := by
  simp only [storedKeys, List.filter_cons]
  split_ifs <;> rfl

structure Stores (pool pool' : BlockPool) (keys : List (ExternalBlockHash × ℕ)) : Prop where
  numGpuBlocks : pool'.numGpuBlocks = pool.numGpuBlocks
  useIntBlockHashes : pool'.useIntBlockHashes = pool.useIntBlockHashes
  enabled : pool'.enableKvCacheEvents = pool.enableKvCacheEvents
  queue : pool'.kvEventQueue = pool.kvEventQueue
  view : pool'.hashedBlocks = pool.hashedBlocks + (keys : CacheView)

/-- The loop of `cache_full_blocks` adds the listed hashes to the view. -/
theorem cacheLoop_stores {groupId : ℕ} {items : List (BlockId × Option BlockHash × Option Bool)}
    (hlt : ∀ item ∈ items, item.1 < pool.numGpuBlocks)
    (hr : BlockPool.cacheLoop groupId pool items = .ok pool') :
    Stores pool pool' (storedKeys pool groupId items) := by
  induction items generalizing pool with
  | nil =>
    cases hr
    exact ⟨rfl, rfl, rfl, rfl, (add_zero _).symm⟩
  | cons item items ih =>
    obtain ⟨block, blockHash, mask⟩ := item
    rw [storedKeys_cons]
    have hrest : ∀ item ∈ items, item.1 < pool.numGpuBlocks := fun item hi =>
      hlt item (by simp [hi])
    by_cases hcache : pool.cacheable block mask = true
    · simp only [BlockPool.cacheLoop, hcache, ↓reduceIte, bind_eq_ok, require_eq_ok] at hr
      obtain ⟨-, hnone, hr⟩ := hr
      cases blockHash with
      | none => simp at hr
      | some hash =>
        let key := makeBlockHashWithGroupId hash groupId
        let hashed : BlockPool := { pool with
          blockHash := update pool.blockHash block (some key)
          cachedBlockHashToBlock := pool.cachedBlockHashToBlock.insert key block }
        have hloop : BlockPool.cacheLoop groupId hashed items = .ok pool' := hr
        have hlt' : ∀ item ∈ items, item.1 < hashed.numGpuBlocks := hrest
        have hone := ih hlt' hloop
        have hview : hashed.hashedBlocks = pool.externalKey key ::ₘ pool.hashedBlocks :=
          hashedBlocks_update (hlt _ List.mem_cons_self) hnone key rfl rfl rfl
        refine ⟨hone.numGpuBlocks, hone.useIntBlockHashes, hone.enabled, hone.queue, ?_⟩
        rw [hone.view, hview, if_pos hcache, ← cons_coe, add_cons, cons_add]
        rfl
    · simp only [BlockPool.cacheLoop, hcache, Bool.false_eq_true, ↓reduceIte] at hr
      rw [if_neg hcache]
      exact ih hrest hr

theorem cacheFullBlocks_emits (hon : pool.enableKvCacheEvents = true) {request : Request}
    {blocks : List BlockId} {numCached numFull blockSize groupId : ℕ}
    {mask : Option (List Bool)} (hlt : ∀ b ∈ blocks, b < pool.numGpuBlocks)
    (hr : pool.cacheFullBlocks request blocks numCached numFull blockSize groupId mask =
      .ok pool') : Emits pool pool' := by
  unfold BlockPool.cacheFullBlocks at hr
  by_cases hge : numCached ≥ numFull
  · rw [if_pos hge] at hr
    cases hr
    exact .silent hon rfl rfl rfl rfl rfl
  · rw [if_neg hge] at hr
    simp only [bind_eq_ok, require_eq_ok] at hr
    obtain ⟨-, -, -, -, -, -, cached, hloop, hr⟩ := hr
    have hitems : ∀ item ∈ pool.cacheItems request blocks numCached numFull blockSize mask,
        item.1 < pool.numGpuBlocks := by
      intro item hitem
      simp only [BlockPool.cacheItems, slice, List.mem_map, Prod.exists] at hitem
      obtain ⟨block, i, hmem, rfl⟩ := hitem
      exact hlt block (List.mem_of_mem_drop (List.mem_of_mem_take
        (List.mem_of_getElem? (List.mem_zipIdx_iff_getElem?.mp hmem))))
    have hstores := cacheLoop_stores hitems hloop
    have hcachedOn := hstores.enabled.trans hon
    rw [if_neg (by simp [hcachedOn])] at hr
    by_cases hshort : blocks.length < numFull
    · simp [hshort] at hr
    rw [if_neg hshort] at hr
    simp only [bind_eq_ok, pure_eq_ok] at hr
    obtain ⟨keys, -, rfl⟩ := hr
    refine ⟨hstores.numGpuBlocks, hstores.useIntBlockHashes, hcachedOn, _,
      by rw [hstores.queue], ?_⟩
    rw [replay_singleton, replayEvent, List.map_map]
    exact congrArg some hstores.view.symm

end operations

/-- The runs of a pool with events enabled, with the events that were taken from it so far.
Blocks are cached only if caching is enabled, as `KVCacheManager` sees to. -/
inductive PoolStream : BlockPool → List KVCacheEvent → Prop
  | start {pool : BlockPool} {numGpuBlocks hashBlockSize : ℕ} {enableCaching ints : Bool}
      {sha256 : List UInt8 → List UInt8}
      (h : BlockPool.init numGpuBlocks enableCaching hashBlockSize true ints sha256 = .ok pool) :
      PoolStream pool []
  | step {pool pool' : BlockPool} {taken : List KVCacheEvent} {call : PoolCall}
      (hr : PoolStream pool taken) (hallowed : call.Allowed pool)
      (hcaching : call.caches = true → pool.enableCaching = true)
      (h : call.apply pool = .ok pool') : PoolStream pool' taken
  | takeEvents {pool : BlockPool} {taken : List KVCacheEvent} (hr : PoolStream pool taken) :
      PoolStream pool.takeEvents.2 (taken ++ pool.takeEvents.1)

theorem HashBooks.step {pool pool' : BlockPool} {call : PoolCall} (h : HashBooks pool)
    (hon : pool.enableKvCacheEvents = true) (hallowed : call.Allowed pool)
    (hr : call.apply pool = .ok pool') : Emits pool pool' := by
  cases call with
  | getNewBlocks n =>
    simp only [PoolCall.apply, bind_eq_ok, pure_eq_ok] at hr
    obtain ⟨⟨blocks, pool''⟩, hget, rfl⟩ := hr
    exact h.getNewBlocks hon hget
  | touch blocks => exact touch_silent hon hr
  | freeBlocks blocks prepend => exact freeBlocks_silent hon hr
  | cacheFullBlocks request blocks numCached numFull blockSize groupId mask =>
    exact cacheFullBlocks_emits hon hallowed hr
  | evictBlocks ids => exact h.evictBlocks hon hr
  | resetPrefixCache =>
    cases hr
    exact resetPrefixCache_emits hon

/-- What a run keeps: the books of the pool, and a view that agrees with it. -/
structure StreamInv (pool : BlockPool) (taken : List KVCacheEvent) : Prop where
  inv : ∃ free, PoolInv pool free
  enabled : pool.enableKvCacheEvents = true
  view : replay 0 (taken ++ pool.kvEventQueue) = some pool.hashedBlocks

variable {taken : List KVCacheEvent}

theorem StreamInv.emits {pool pool' : BlockPool} (h : StreamInv pool taken)
    (hinv : ∃ free, PoolInv pool' free) (he : Emits pool pool') :
    StreamInv pool' taken := by
  obtain ⟨events, hqueue, hreplay⟩ := he.events
  refine ⟨hinv, he.enabled, ?_⟩
  rw [hqueue, ← List.append_assoc, replay_append, h.view]
  exact hreplay

theorem PoolStream.inv {pool : BlockPool} (h : PoolStream pool taken) : StreamInv pool taken := by
  induction h with
  | start h =>
    obtain ⟨hinv, hfresh⟩ := PoolInv.init_fresh h
    refine ⟨hinv, hfresh.enableKvCacheEvents, ?_⟩
    rw [hfresh.kvEventQueue, hashedBlocks_eq_zero hfresh.blockHash]
    rfl
  | step _ hallowed hcaching h ih =>
    obtain ⟨free, hinv⟩ := ih.inv
    obtain ⟨free', hinv', -⟩ := hinv.step hcaching hallowed h
    exact ih.emits ⟨free', hinv'⟩ (hinv.hashBooks.step ih.enabled hallowed h)
  | @takeEvents pool taken _ ih =>
    obtain ⟨free, hinv⟩ := ih.inv
    unfold BlockPool.takeEvents
    rw [if_neg (by simp [ih.enabled])]
    refine ⟨⟨free, hinv.holds, hinv.null_lt, hinv.mem_free, hinv.refCnt_nonneg, hinv.stored_iff,
      hinv.hash_lt, hinv.noEmptyDict, hinv.uncached⟩, ih.enabled, ?_⟩
    rw [List.append_nil]
    exact ih.view

/-- Replaying the events taken so far and those still queued gives, after every call, the
hashes that the blocks carry. -/
theorem poolStream_replay {pool : BlockPool} {taken : List KVCacheEvent}
    (h : PoolStream pool taken) :
    replay 0 (taken ++ pool.kvEventQueue) = some pool.hashedBlocks :=
  h.inv.view

/-- One block is drawn and cached. -/
def storeRun : Raises (BlockPool × BlockPool × BlockPool) := do
  let pool ← BlockPool.init 3 true 1 true false id
  let drawn ← (PoolCall.getNewBlocks 1).apply pool
  let cached ← (PoolCall.cacheFullBlocks
    { requestId := 1, promptTokenIds := some [7], numPromptTokens := 1, allTokenIds := [7]
      blockHashes := [[5]] } [1] 0 1 1 0 none).apply drawn
  pure (pool, drawn, cached)

theorem poolStream_replay_stored : ∃ pool taken, PoolStream pool taken ∧ taken ≠ [] ∧
    replay 0 (taken ++ pool.kvEventQueue) = some pool.hashedBlocks ∧
    pool.blockHash 1 = some ⟨[5], 0⟩ := by
  obtain ⟨s, hok, hfacts⟩ := exists_ok
    (show storeRun.toOption.map (fun s => (s.2.2.blockHash 1, s.2.2.kvEventQueue.length,
      s.2.1.numGpuBlocks, s.2.1.enableCaching)) = some (some ⟨[5], 0⟩, 1, 3, true)
      by decide +kernel)
  simp only [Prod.mk.injEq] at hfacts
  obtain ⟨hhash, hqueue, hnum, hcaching⟩ := hfacts
  simp only [storeRun, bind_eq_ok, pure_eq_ok] at hok
  obtain ⟨pool, hinit, drawn, hdrawn, cached, hcached, rfl⟩ := hok
  have hstart : PoolStream pool [] := .start hinit
  have hdraw : PoolStream drawn [] :=
    hstart.step (show (PoolCall.getNewBlocks 1).Allowed pool from (by decide : (0 : ℤ) ≤ 1))
      (by simp [PoolCall.caches]) hdrawn
  have hcache : PoolStream cached [] := by
    refine hdraw.step ?_ (fun _ => hcaching) hcached
    intro b hb
    rw [List.mem_singleton.mp hb]
    exact hnum ▸ (by decide : 1 < 3)
  have htaken := hcache.takeEvents
  have hon := hcache.inv.enabled
  refine ⟨_, _, htaken, ?_, poolStream_replay htaken, ?_⟩
  · rw [BlockPool.takeEvents, if_neg (by simp [hon])]
    intro hnil
    rw [show cached.kvEventQueue = [] from hnil] at hqueue
    simp at hqueue
  · rw [BlockPool.takeEvents, if_neg (by simp [hon])]
    exact hhash

section alignment
variable {pool pool' : BlockPool} {request : Request} {blocks : List BlockId}
  {numCachedBlocks numFullBlocks blockSize groupId : ℕ} {blockMask : Option (List Bool)}

/-- The block hashes, tokens and extra keys of a stored event line up, where its first block is
block `firstBlock` of the request. -/
def EventAligned (pool : BlockPool) (request : Request) (firstBlock : ℕ) : KVCacheEvent → Prop
  | .blockStored blockHashes _ tokenIds blockSize _ _ _ extraKeys _ =>
    tokenIds.length = blockHashes.length * blockSize ∧
    (∀ (i : ℕ) hash, blockHashes[i]? = some hash →
      (pool.requestHashes request blockSize)[firstBlock + i]?.map pool.maybeConvertBlockHash =
          some hash ∧
        slice tokenIds (i * blockSize) ((i + 1) * blockSize) =
          slice request.allTokenIds ((firstBlock + i) * blockSize)
            ((firstBlock + i + 1) * blockSize)) ∧
    ∀ keys, extraKeys = some keys → keys.length = blockHashes.length
  | _ => False

/-- None of the new full blocks is null or masked out. -/
def NoneSkipped (pool : BlockPool) (blocks : List BlockId) (numCachedBlocks numFullBlocks : ℕ)
    (blockMask : Option (List Bool)) : Prop :=
  (∀ b ∈ slice blocks numCachedBlocks numFullBlocks, b ≠ pool.nullBlock) ∧
    ∀ mask ∈ blockMask, ∀ keep ∈ mask, keep = true

theorem slice_slice {α : Type} (l : List α) {first last i j : ℕ} (hj : first + j ≤ last) :
    slice (slice l first last) i j = slice l (first + i) (first + j) := by
  simp only [slice, List.drop_take, List.drop_drop, List.take_take]
  congr 1
  omega

theorem storedExtraKeys_length {items : List (BlockId × Option Bool)} {i : ℕ} {currMmIdx : ℤ}
    {keys : List (Option (List ExtraKey))}
    (hr : pool.storedExtraKeys request blockSize i currMmIdx items = .ok keys) :
    keys.length = (items.filter fun item => pool.cacheable item.1 item.2).length := by
  induction items generalizing i currMmIdx keys with
  | nil =>
    cases hr
    rfl
  | cons item items ih =>
    rcases item with ⟨block, mask⟩
    rw [BlockPool.storedExtraKeys] at hr
    by_cases hcache : pool.cacheable block mask = true
    · simp only [hcache, ↓reduceIte, bind_eq_ok, pure_eq_ok] at hr
      rcases hr with ⟨⟨extraKeys, currMmIdx'⟩, -, rest, hrest, rfl⟩
      rw [List.filter_cons, if_pos hcache, List.length_cons, List.length_cons, ih hrest]
    · rw [if_neg hcache] at hr
      rw [List.filter_cons, if_neg hcache]
      exact ih hr

variable {items : List (BlockId × Option BlockHash × Option Bool)}

theorem cacheLoop_keeps (hr : BlockPool.cacheLoop groupId pool items = .ok pool') :
    pool'.enableKvCacheEvents = pool.enableKvCacheEvents ∧
      pool'.kvEventQueue = pool.kvEventQueue := by
  induction items generalizing pool with
  | nil =>
    cases hr
    exact ⟨rfl, rfl⟩
  | cons item items ih =>
    rcases item with ⟨block, blockHash, mask⟩
    simp only [BlockPool.cacheLoop] at hr
    split_ifs at hr
    · simp only [bind_eq_ok, require_eq_ok] at hr
      rcases hr with ⟨-, -, hr⟩
      cases blockHash with
      | none => cases hr
      | some hash =>
        have hrest := ih hr
        exact hrest
    · exact ih hr

theorem cacheLoop_hashed (hr : BlockPool.cacheLoop groupId pool items = .ok pool') :
    ∀ item ∈ items, pool.cacheable item.1 item.2.2 = true → item.2.1.isSome = true := by
  induction items generalizing pool with
  | nil => simp
  | cons item items ih =>
    rcases item with ⟨block, blockHash, mask⟩
    simp only [BlockPool.cacheLoop] at hr
    rw [List.forall_mem_cons]
    split_ifs at hr with hcache
    · simp only [bind_eq_ok, require_eq_ok] at hr
      rcases hr with ⟨-, -, hr⟩
      cases blockHash with
      | none => cases hr
      | some hash =>
        have hrest := ih hr
        exact ⟨fun _ => rfl, hrest⟩
    · exact ⟨fun h => absurd h hcache, ih hr⟩

theorem cacheItems_length (hfull : numFullBlocks ≤ blocks.length) :
    (pool.cacheItems request blocks numCachedBlocks numFullBlocks blockSize blockMask).length =
      numFullBlocks - numCachedBlocks := by
  rw [BlockPool.cacheItems, List.length_map, List.length_zipIdx, slice, List.length_take,
    List.length_drop]
  omega

theorem cacheItems_getElem? {i : ℕ} {item : BlockId × Option BlockHash × Option Bool}
    (hget : (pool.cacheItems request blocks numCachedBlocks numFullBlocks blockSize
      blockMask)[i]? = some item) :
    item.2.1 = (pool.requestHashes request blockSize)[numCachedBlocks + i]? ∧
      (slice blocks numCachedBlocks numFullBlocks)[i]? = some item.1 ∧
      item.2.2 = blockMask.bind fun mask => mask[i]? := by
  simp only [BlockPool.cacheItems, List.getElem?_map, List.getElem?_zipIdx, Option.map_eq_some_iff,
    Prod.exists] at hget
  rcases hget with ⟨block, j, ⟨b, hb, hbj⟩, rfl⟩
  cases hbj
  exact ⟨by simp, hb, by simp⟩

/-- Every block of the loop is cacheable exactly if no new full block is skipped. -/
theorem noneSkipped_iff
    (hmask : ∀ mask ∈ blockMask, mask.length = (slice blocks numCachedBlocks numFullBlocks).length) :
    NoneSkipped pool blocks numCachedBlocks numFullBlocks blockMask ↔
      ∀ item ∈ pool.cacheItems request blocks numCachedBlocks numFullBlocks blockSize blockMask,
        pool.cacheable item.1 item.2.2 = true := by
  simp only [BlockPool.cacheable, decide_eq_true_eq]
  constructor
  · rintro ⟨hnull, hkeep⟩ item hitem
    rcases List.mem_iff_getElem?.mp hitem with ⟨i, hget⟩
    rcases cacheItems_getElem? hget with ⟨-, hblock, hentry⟩
    refine ⟨hnull _ (List.mem_of_getElem? hblock), ?_⟩
    rw [hentry]
    cases blockMask with
    | none => simp
    | some mask =>
      intro hfalse
      exact Bool.noConfusion (hkeep mask rfl false (List.mem_of_getElem? hfalse))
  · intro hall
    have hitem : ∀ i < (slice blocks numCachedBlocks numFullBlocks).length, ∃ item,
        (pool.cacheItems request blocks numCachedBlocks numFullBlocks blockSize
          blockMask)[i]? = some item := by
      intro i hi
      refine ⟨_, List.getElem?_eq_getElem ?_⟩
      rwa [BlockPool.cacheItems, List.length_map, List.length_zipIdx]
    constructor
    · intro b hb
      rcases List.mem_iff_getElem.mp hb with ⟨i, hi, rfl⟩
      rcases hitem i hi with ⟨item, hget⟩
      rcases cacheItems_getElem? hget with ⟨-, hblock, -⟩
      have hne := (hall item (List.mem_of_getElem? hget)).1
      rw [List.getElem?_eq_getElem hi] at hblock
      rwa [← Option.some.inj hblock] at hne
    · intro mask hmem keep hkeep
      rcases List.mem_iff_getElem.mp hkeep with ⟨i, hi, rfl⟩
      rcases hitem i (by rwa [← hmask mask hmem]) with ⟨item, hget⟩
      rcases cacheItems_getElem? hget with ⟨-, -, hentry⟩
      have hne := (hall item (List.mem_of_getElem? hget)).2
      rw [hentry, Option.mem_def.mp hmem, Option.bind_some, List.getElem?_eq_getElem hi] at hne
      simpa using hne

/-- A stored event lines up exactly if no new full block is skipped: its tokens are those of the
whole range, its hashes and extra keys those of the blocks that were stored. -/
theorem cacheFullBlocks_aligned_iff (hon : pool.enableKvCacheEvents = true)
    (hlt : numCachedBlocks < numFullBlocks) (hsize : 0 < blockSize)
    (htokens : numFullBlocks * blockSize ≤ request.allTokenIds.length)
    (hr : pool.cacheFullBlocks request blocks numCachedBlocks numFullBlocks blockSize groupId
      blockMask = .ok pool') :
    ∃ event, pool'.kvEventQueue = pool.kvEventQueue ++ [event] ∧
      (EventAligned pool request numCachedBlocks event ↔
        NoneSkipped pool blocks numCachedBlocks numFullBlocks blockMask) := by
  rw [BlockPool.cacheFullBlocks, if_neg (Nat.not_le_of_lt hlt)] at hr
  simp only [bind_eq_ok, require_eq_ok] at hr
  rcases hr with ⟨-, -, -, hmask, -, -, cached, hloop, hr⟩
  have hkept := cacheLoop_keeps hloop
  rw [if_neg (by simp [hkept.1, hon])] at hr
  by_cases hshort : blocks.length < numFullBlocks
  · simp [hshort] at hr
  rw [if_neg hshort] at hr
  simp only [bind_eq_ok, pure_eq_ok] at hr
  rcases hr with ⟨keys, hkeys, rfl⟩
  refine ⟨_, by rw [hkept.2], ?_⟩
  set items := pool.cacheItems request blocks numCachedBlocks numFullBlocks blockSize blockMask
    with hitems
  have hcount : items.length = numFullBlocks - numCachedBlocks :=
    cacheItems_length (Nat.le_of_not_lt hshort)
  have hrange : (slice request.allTokenIds (numCachedBlocks * blockSize)
      (numFullBlocks * blockSize)).length = items.length * blockSize := by
    rw [slice, List.length_take, List.length_drop, hcount, Nat.sub_mul]
    omega
  rw [noneSkipped_iff hmask, ← hitems, EventAligned]
  constructor
  · rintro ⟨htotal, -, -⟩
    rw [hrange, List.length_map] at htotal
    have hall := Nat.eq_of_mul_eq_mul_right hsize htotal
    exact List.length_filter_eq_length_iff.mp hall.symm
  · intro hall
    have hstored : (items.filter fun item => pool.cacheable item.1 item.2.2) = items :=
      List.filter_eq_self.mpr hall
    rw [hstored]
    refine ⟨by rw [hrange, List.length_map], fun i hash hget => ?_, fun keys' hkeys' => ?_⟩
    · rw [List.getElem?_map, Option.map_eq_some_iff] at hget
      rcases hget with ⟨item, hitem, rfl⟩
      have hi : i < items.length := (List.getElem?_eq_some_iff.mp hitem).1
      rcases cacheItems_getElem? hitem with ⟨hhash, -, -⟩
      have hsome := cacheLoop_hashed hloop item (List.mem_of_getElem? hitem)
        (hall item (List.mem_of_getElem? hitem))
      rcases Option.isSome_iff_exists.mp hsome with ⟨blockHash, hblockHash⟩
      constructor
      · rw [← hhash, hblockHash]
        rfl
      · rw [slice_slice]
        · congr 1 <;> ring
        · rw [← Nat.add_mul]
          exact Nat.mul_le_mul_right _ (by omega)
    · have hlength := storedExtraKeys_length hkeys
      split_ifs at hkeys' with hnil
      rw [← Option.some.inj hkeys', hlength, List.filter_map, List.length_map, List.length_map]
      exact congrArg List.length hstored

end alignment

def twoTokenRequest : Request :=
  { requestId := 1, promptTokenIds := some [7, 8], numPromptTokens := 2, allTokenIds := [7, 8]
    blockHashes := [[5], [6]] }

/-- Two full blocks of one token each are cached in a fresh pool. -/
def alignmentRun (blocks : List BlockId) : Raises (BlockPool × BlockPool) := do
  let pool ← BlockPool.init 3 true 1 true false id
  let cached ← pool.cacheFullBlocks twoTokenRequest blocks 0 2 1 0 none
  pure (pool, cached)

theorem alignmentRun_aligned : ∃ pool pool', alignmentRun [1, 2] = .ok (pool, pool') ∧
    ∃ event, pool'.kvEventQueue = pool.kvEventQueue ++ [event] ∧
      (EventAligned pool twoTokenRequest 0 event ↔ NoneSkipped pool [1, 2] 0 2 none) := by
  rcases exists_ok (show (alignmentRun [1, 2]).toOption.map
    (fun s => s.1.enableKvCacheEvents) = some true by decide +kernel) with ⟨⟨pool, pool'⟩, hok, hon⟩
  have hrun := hok
  simp only [alignmentRun, bind_eq_ok, pure_eq_ok, Prod.mk.injEq] at hrun
  rcases hrun with ⟨_, -, _, hcached, rfl, rfl⟩
  exact ⟨_, _, hok, cacheFullBlocks_aligned_iff hon (by decide) (by decide) (by decide) hcached⟩

/-- The first block is the null block: its token is in the event, its hash is not. -/
theorem alignmentRun_misaligned : ∃ pool pool' event, alignmentRun [0, 2] = .ok (pool, pool') ∧
    pool'.kvEventQueue = [event] ∧ ¬EventAligned pool twoTokenRequest 0 event := by
  rcases exists_ok (show (alignmentRun [0, 2]).toOption.map
    (fun s => s.2.kvEventQueue) = some [.blockStored [.bytes [6]] none [7, 8] 1 none "GPU" none
      (some [none]) 0] by decide +kernel) with ⟨⟨pool, pool'⟩, hok, hqueue⟩
  refine ⟨pool, pool', _, hok, hqueue, ?_⟩
  rintro ⟨htotal, -, -⟩
  exact absurd htotal (by decide)

end Vllm
