import Vllm.Lib.DoublyLinked
import Vllm.Lib.Dict
import Vllm.KvCache.BlockHash

/-! `FreeKVCacheBlockQueue`: the free blocks as an intrusive doubly linked list, with the list each
operation leaves behind. `block_pool.py`: the map from block hashes to cached blocks and the pool
that hands blocks out, caches, evicts and takes them back. The attributes of a block are functions
of the pool. -/
namespace Vllm
open DoublyLinked

abbrev BlockId := ℕ

structure FreeKVCacheBlockQueue where
  numFreeBlocks : ℤ
  links : Links BlockId

namespace FreeKVCacheBlockQueue

/-- The links of the constructor: consecutive blocks between the fake head and tail. -/
def init (blocks : List BlockId) : FreeKVCacheBlockQueue where
  numFreeBlocks := blocks.length
  links :=
    let chain := Links.empty.joinAll .head blocks
    chain.1.join chain.2 .tail

def popleft (q : FreeKVCacheBlockQueue) : Raises (BlockId × FreeKVCacheBlockQueue) :=
  match q.links.next .head with
  | some (.elem firstBlock) =>
    match q.links.next (.elem firstBlock) with
    | none => throw .runtimeError
    | some nextBlock =>
      pure (firstBlock, {
        numFreeBlocks := q.numFreeBlocks - 1
        links := (q.links.join .head nextBlock).isolate (.elem firstBlock) })
  | _ => if q.numFreeBlocks = 0 then throw .valueError else throw .assertionError

/-- A negative count pops nothing and raises the counter. -/
def popleftN (q : FreeKVCacheBlockQueue) (n : ℤ) :
    Raises (List BlockId × FreeKVCacheBlockQueue) :=
  if n = 0 then pure ([], q)
  else do
    Raises.require (q.numFreeBlocks ≥ n)
    match q.links.detach (q.links.next .head) n.toNat with
    | none => throw .assertionError
    | some (ret, links, currBlock) =>
      pure (ret, {
        numFreeBlocks := q.numFreeBlocks - n
        links := match currBlock with
          | none => links
          | some block => links.join .head block })

def remove (q : FreeKVCacheBlockQueue) (block : BlockId) : Raises FreeKVCacheBlockQueue :=
  match q.links.prev (.elem block), q.links.next (.elem block) with
  | some prevBlock, some nextBlock =>
    pure {
      numFreeBlocks := q.numFreeBlocks - 1
      links := (q.links.join prevBlock nextBlock).isolate (.elem block) }
  | _, _ => throw .runtimeError

def prependN (q : FreeKVCacheBlockQueue) (blocks : List BlockId) :
    Raises FreeKVCacheBlockQueue :=
  if blocks.length = 0 then pure q
  else match q.links.next .head with
    | none => throw .assertionError
    | some firstBlock =>
      let chain := q.links.joinAll .head blocks
      pure {
        numFreeBlocks := q.numFreeBlocks + blocks.length
        links := chain.1.join chain.2 firstBlock }

def appendN (q : FreeKVCacheBlockQueue) (blocks : List BlockId) :
    Raises FreeKVCacheBlockQueue :=
  if blocks.length = 0 then pure q
  else match q.links.prev .tail with
    | none => throw .assertionError
    | some lastBlock =>
      let chain := q.links.joinAll lastBlock blocks
      pure {
        numFreeBlocks := q.numFreeBlocks + blocks.length
        links := chain.1.join chain.2 .tail }

/-- `get_all_free_blocks`: the blocks met from the fake head on. -/
def getAllFreeBlocks (q : FreeKVCacheBlockQueue) : List BlockId :=
  (follow q.links.next q.numFreeBlocks.toNat .head).filterMap fun
    | .elem block => some block
    | _ => none

/-- The queue holds the blocks of `l`, in this order. -/
structure Holds (q : FreeKVCacheBlockQueue) (l : List BlockId) : Prop where
  spine : Spine q.links l
  count : q.numFreeBlocks = l.length

theorem init_holds {blocks : List BlockId} (h : blocks.Nodup) : (init blocks).Holds blocks :=
  ⟨Spine.ofList h, rfl⟩

variable {l : List BlockId} {q : FreeKVCacheBlockQueue}

theorem getAllFreeBlocks_of_holds (h : q.Holds l) : q.getAllFreeBlocks = l := by
  have hseg : Seg q.links (.head :: l.map .elem) := List.IsChain.left_of_append h.spine.seg
  have hfollow := hseg.follow_next
  rw [List.length_map] at hfollow
  rw [getAllFreeBlocks, h.count, Int.toNat_natCast, hfollow, List.filterMap_map]
  exact List.filterMap_some

theorem popleft_holds {b : BlockId} (h : q.Holds (b :: l)) :
    ∃ q', q.popleft = .ok (b, q') ∧ q'.Holds l := by
  obtain ⟨p, n, hp, hn, hspine⟩ := Spine.unlink (A := []) h.spine
  have hseg : Seg q.links (.head :: .elem b :: (l.map .elem ++ [.tail])) := h.spine.seg
  have hhead := Seg.link (A := []) hseg
  obtain rfl : .head = p := by simpa [hp] using hhead.2.symm
  refine ⟨_, by simp only [popleft, hhead.1, hn]; rfl, hspine, ?_⟩
  simp [h.count]

theorem popleftN_holds (h : q.Holds l) {n : ℤ} (h0 : 0 ≤ n) (hn : n ≤ l.length) :
    ∃ q', q.popleftN n = .ok (l.take n.toNat, q') ∧ q'.Holds (l.drop n.toNat) := by
  by_cases hz : n = 0
  · subst hz
    exact ⟨q, rfl, h⟩
  · have hsplit : l.take n.toNat ++ l.drop n.toNat = l := List.take_append_drop _ _
    have hlen : (l.take n.toNat).length = n.toNat := by
      rw [List.length_take]
      omega
    obtain ⟨m, hdetach, hspine⟩ := Spine.detach (hsplit.symm ▸ h.spine)
    rw [hlen] at hdetach
    have hreq : q.numFreeBlocks ≥ n := by rw [h.count]; omega
    refine ⟨_, by simp only [popleftN, hz, ↓reduceIte, Raises.require, hreq, hdetach]; rfl,
      hspine, ?_⟩
    simp only [h.count, List.length_drop]
    omega

theorem remove_holds {A B : List BlockId} {b : BlockId} (h : q.Holds (A ++ b :: B)) :
    ∃ q', q.remove b = .ok q' ∧ q'.Holds (A ++ B) := by
  obtain ⟨p, n, hp, hn, hspine⟩ := h.spine.unlink
  refine ⟨_, by simp only [remove, hp, hn]; rfl, hspine, ?_⟩
  simp [h.count]
  omega

theorem appendN_holds {bs : List BlockId} (h : q.Holds l) (hd : (l ++ bs).Nodup) :
    ∃ q', q.appendN bs = .ok q' ∧ q'.Holds (l ++ bs) := by
  cases bs with
  | nil => exact ⟨q, rfl, by simpa using h⟩
  | cons b bs =>
    obtain ⟨p, hp, hspine⟩ := h.spine.pushBack hd
    refine ⟨_, by simp only [appendN, hp]; rfl, hspine, ?_⟩
    simp [h.count]

theorem prependN_holds {bs : List BlockId} (h : q.Holds l) (hd : (bs ++ l).Nodup) :
    ∃ q', q.prependN bs = .ok q' ∧ q'.Holds (bs ++ l) := by
  cases bs with
  | nil => exact ⟨q, rfl, h⟩
  | cons b bs =>
    obtain ⟨f, hf, hspine⟩ := h.spine.pushFront hd
    refine ⟨_, by simp only [prependN, hf]; rfl, hspine, ?_⟩
    simp [h.count]
    omega

end FreeKVCacheBlockQueue

/-- The packed key: a block hash and the id of its KV cache group. -/
structure BlockHashWithGroupId where
  blockHash : BlockHash
  groupId : ℕ
  deriving DecidableEq, Repr

def makeBlockHashWithGroupId (blockHash : BlockHash) (groupId : ℕ) : BlockHashWithGroupId :=
  ⟨blockHash, groupId⟩

/-- The blocks under one key: a single block, or several in the order of insertion. -/
inductive CachedBlocks where
  | single (block : BlockId)
  | dict (blocks : Dict BlockId Unit)

structure BlockHashToBlockMap where
  cache : Dict BlockHashWithGroupId CachedBlocks

namespace BlockHashToBlockMap

def empty : BlockHashToBlockMap := ⟨Dict.empty⟩

def getOneBlock (m : BlockHashToBlockMap) (key : BlockHashWithGroupId) :
    Raises (Option BlockId) :=
  match m.cache.get? key with
  | none => pure none
  | some (.single block) => pure (some block)
  | some (.dict blocks) =>
    match blocks.keys with
    | [] => throw .stopIteration
    | block :: _ => pure (some block)

def insert (m : BlockHashToBlockMap) (key : BlockHashWithGroupId) (block : BlockId) :
    BlockHashToBlockMap :=
  match m.cache.get? key with
  | none => ⟨m.cache.set key (.single block)⟩
  | some (.single other) => ⟨m.cache.set key (.dict ((Dict.empty.set other ()).set block ()))⟩
  | some (.dict blocks) => ⟨m.cache.set key (.dict (blocks.set block ()))⟩

def pop (m : BlockHashToBlockMap) (key : BlockHashWithGroupId) (blockId : BlockId) :
    Option BlockId × BlockHashToBlockMap :=
  let rest := m.cache.erase key
  match m.cache.get? key with
  | none => (none, ⟨rest⟩)
  | some (.single block) =>
    if block = blockId then (some block, ⟨rest⟩) else (none, ⟨rest.set key (.single block)⟩)
  | some (.dict blocks) =>
    let remaining := blocks.erase blockId
    ((blocks.get? blockId).map fun _ => blockId,
      if remaining.size > 0 then ⟨rest.set key (.dict remaining)⟩ else ⟨rest⟩)

/-- The block is the value under the key, or in its dictionary. -/
def Stored (m : BlockHashToBlockMap) (key : BlockHashWithGroupId) (block : BlockId) : Prop :=
  match m.cache.get? key with
  | none => False
  | some (.single other) => block = other
  | some (.dict blocks) => blocks.contains block = true

end BlockHashToBlockMap

inductive ExternalBlockHash where
  | bytes (hash : BlockHash)
  | int (hash : ℕ)
  deriving DecidableEq

inductive KVCacheEvent where
  | blockStored (blockHashes : List ExternalBlockHash) (parentBlockHash : Option ExternalBlockHash)
      (tokenIds : List TokenId) (blockSize : ℕ) (loraId : Option ℕ) (medium : String)
      (loraName : Option String) (extraKeys : Option (List (Option (List ExtraKey))))
      (groupIdx : ℕ)
  | blockRemoved (blockHashes : List ExternalBlockHash) (medium : String) (groupIdx : ℕ)
  | allBlocksCleared
  deriving DecidableEq

def mediumGpu : String := "GPU"

/-- The hash as a big-endian integer, its low 64 bits. -/
def bytesToInt (hash : BlockHash) : ℕ := hash.foldl (fun n byte => n * 256 + byte.toNat) 0

structure BlockPool where
  numGpuBlocks : ℕ
  enableCaching : Bool
  hashBlockSize : ℕ
  refCnt : BlockId → ℤ
  blockHash : BlockId → Option BlockHashWithGroupId
  freeBlockQueue : FreeKVCacheBlockQueue
  cachedBlockHashToBlock : BlockHashToBlockMap
  nullBlock : BlockId
  enableKvCacheEvents : Bool
  kvEventQueue : List KVCacheEvent
  /-- The environment variable `VLLM_KV_EVENTS_USE_INT_BLOCK_HASHES`. -/
  useIntBlockHashes : Bool
  /-- `hashlib.sha256`, which the extra keys of a stored event use. -/
  sha256 : List UInt8 → List UInt8

/-- One hash at the larger granularity. -/
def scaledHash (blockHashes : List BlockHash) (scaleFactor idx : ℕ) : BlockHash :=
  (slice blockHashes (idx * scaleFactor) (idx * scaleFactor + scaleFactor)).flatten

/-- `BlockHashListWithBlockSize`: hashes of larger blocks, by concatenation. -/
def blockHashListWithBlockSize (blockHashes : List BlockHash)
    (hashBlockSize targetBlockSize : ℕ) : List BlockHash :=
  let scaleFactor := targetBlockSize / hashBlockSize
  (List.range (blockHashes.length / scaleFactor)).map (scaledHash blockHashes scaleFactor)

namespace BlockPool

def init (numGpuBlocks : ℕ) (enableCaching : Bool) (hashBlockSize : ℕ)
    (enableKvCacheEvents useIntBlockHashes : Bool) (sha256 : List UInt8 → List UInt8) :
    Raises BlockPool := do
  Raises.require (numGpuBlocks > 0)
  let (nullBlock, freeBlockQueue) ←
    (FreeKVCacheBlockQueue.init (List.range numGpuBlocks)).popleft
  pure {
    numGpuBlocks, enableCaching, hashBlockSize, nullBlock, freeBlockQueue
    refCnt := fun _ => 0
    blockHash := fun _ => none
    cachedBlockHashToBlock := .empty
    enableKvCacheEvents, useIntBlockHashes, sha256
    kvEventQueue := [] }

def getNumFreeBlocks (pool : BlockPool) : ℤ := pool.freeBlockQueue.numFreeBlocks

def maybeConvertBlockHash (pool : BlockPool) (hash : BlockHash) : ExternalBlockHash :=
  if pool.useIntBlockHashes then .int (bytesToInt hash % 2 ^ 64) else .bytes hash

/-- The first cached block of every group, or a miss if one group has none. -/
def getCachedBlock (pool : BlockPool) (blockHash : BlockHash) :
    List ℕ → Raises (Option (List BlockId))
  | [] => pure (some [])
  | groupId :: groupIds => do
    let block ←
      pool.cachedBlockHashToBlock.getOneBlock (makeBlockHashWithGroupId blockHash groupId)
    match block with
    | none => pure none
    | some block => do
      let rest ← getCachedBlock pool blockHash groupIds
      pure (rest.map (block :: ·))

/-- Whether a new full block gets a hash: not null and not masked out. -/
def cacheable (pool : BlockPool) (block : BlockId) (mask : Option Bool) : Bool :=
  block ≠ pool.nullBlock ∧ mask ≠ some false

/-- The loop over the new full blocks, each with its hash and mask entry if there is one. -/
def cacheLoop (groupId : ℕ) :
    BlockPool → List (BlockId × Option BlockHash × Option Bool) → Raises BlockPool
  | pool, [] => pure pool
  | pool, (block, blockHash, mask) :: rest =>
    if pool.cacheable block mask then do
      Raises.require (pool.blockHash block = none)
      match blockHash with
      | none => throw .indexError
      | some hash =>
        let key := makeBlockHashWithGroupId hash groupId
        cacheLoop groupId { pool with
          blockHash := Function.update pool.blockHash block (some key)
          cachedBlockHashToBlock := pool.cachedBlockHashToBlock.insert key block } rest
    else cacheLoop groupId pool rest

/-- The extra keys of the blocks listed in a stored event. -/
def storedExtraKeys (pool : BlockPool) (request : Request) (blockSize : ℕ) :
    ℕ → ℤ → List (BlockId × Option Bool) → Raises (List (Option (List ExtraKey)))
  | _, _, [] => pure []
  | i, currMmIdx, (block, mask) :: rest =>
    if pool.cacheable block mask then do
      let (extraKeys, currMmIdx) ← generateBlockHashExtraKeys pool.sha256 request
        (i * blockSize) (i * blockSize + blockSize) currMmIdx
      let keys ← storedExtraKeys pool request blockSize (i + 1) currMmIdx rest
      pure (extraKeys :: keys)
    else storedExtraKeys pool request blockSize (i + 1) currMmIdx rest

/-- The request's hashes at the granularity of a group's block size. -/
def requestHashes (pool : BlockPool) (request : Request) (blockSize : ℕ) : List BlockHash :=
  if blockSize = pool.hashBlockSize then request.blockHashes
  else blockHashListWithBlockSize request.blockHashes pool.hashBlockSize blockSize

/-- The new full blocks with their hashes and mask entries. -/
def cacheItems (pool : BlockPool) (request : Request) (blocks : List BlockId)
    (numCachedBlocks numFullBlocks blockSize : ℕ) (blockMask : Option (List Bool)) :
    List (BlockId × Option BlockHash × Option Bool) :=
  let newFullBlocks := slice blocks numCachedBlocks numFullBlocks
  let newBlockHashes := (pool.requestHashes request blockSize).drop numCachedBlocks
  newFullBlocks.zipIdx.map fun (block, i) =>
    (block, newBlockHashes[i]?, blockMask.bind fun mask => mask[i]?)

def cacheFullBlocks (pool : BlockPool) (request : Request) (blocks : List BlockId)
    (numCachedBlocks numFullBlocks blockSize kvCacheGroupId : ℕ)
    (blockMask : Option (List Bool)) : Raises BlockPool :=
  if numCachedBlocks ≥ numFullBlocks then pure pool
  else do
    let newFullBlocks := slice blocks numCachedBlocks numFullBlocks
    Raises.require (request.blockHashes.length ≥ numFullBlocks)
    Raises.require (∀ mask ∈ blockMask, mask.length = newFullBlocks.length)
    Raises.require (blockSize = pool.hashBlockSize ∨ blockSize % pool.hashBlockSize = 0)
    let items := pool.cacheItems request blocks numCachedBlocks numFullBlocks blockSize blockMask
    let cached ← cacheLoop kvCacheGroupId pool items
    if ¬ cached.enableKvCacheEvents then pure cached
    else if blocks.length < numFullBlocks then throw .indexError
    else do
      let stored := items.filter fun item => pool.cacheable item.1 item.2.2
      let parent := if blockSize = pool.hashBlockSize
        then request.blockHashes.getD (numCachedBlocks - 1) []
        else scaledHash request.blockHashes (blockSize / pool.hashBlockSize) (numCachedBlocks - 1)
      let extraKeysList ← pool.storedExtraKeys request blockSize numCachedBlocks 0
        (items.map fun item => (item.1, item.2.2))
      pure { cached with kvEventQueue := cached.kvEventQueue ++ [.blockStored
        (stored.map fun item => pool.maybeConvertBlockHash (item.2.1.getD []))
        (if numCachedBlocks = 0 then none else some (pool.maybeConvertBlockHash parent))
        (slice request.allTokenIds (numCachedBlocks * blockSize) (numFullBlocks * blockSize))
        blockSize (request.loraRequest.map LoRARequest.loraIntId) mediumGpu
        (request.loraRequest.map LoRARequest.loraName)
        (if extraKeysList = [] then none else some extraKeysList) kvCacheGroupId] }

def maybeEvictCachedBlock (pool : BlockPool) (block : BlockId) : Bool × BlockPool :=
  match pool.blockHash block with
  | none => (false, pool)
  | some key =>
    match pool.cachedBlockHashToBlock.pop key block with
    | (none, map) => (false, { pool with cachedBlockHashToBlock := map })
    | (some _, map) =>
      (true, { pool with
        cachedBlockHashToBlock := map
        blockHash := Function.update pool.blockHash block none
        kvEventQueue := if pool.enableKvCacheEvents then pool.kvEventQueue ++
            [.blockRemoved [pool.maybeConvertBlockHash key.blockHash] mediumGpu key.groupId]
          else pool.kvEventQueue })

/-- The loop of `get_new_blocks` over the popped blocks. -/
def takeLoop : BlockPool → List BlockId → Raises BlockPool
  | pool, [] => pure pool
  | pool, block :: rest => do
    let pool := if pool.enableCaching then (pool.maybeEvictCachedBlock block).2 else pool
    Raises.require (pool.refCnt block = 0)
    takeLoop { pool with refCnt := Function.update pool.refCnt block (pool.refCnt block + 1) } rest

def getNewBlocks (pool : BlockPool) (numBlocks : ℤ) : Raises (List BlockId × BlockPool) :=
  if numBlocks > pool.getNumFreeBlocks then throw .valueError
  else do
    let (ret, queue) ← pool.freeBlockQueue.popleftN numBlocks
    let pool ← takeLoop { pool with freeBlockQueue := queue } ret
    pure (ret, pool)

def touch : BlockPool → List BlockId → Raises BlockPool
  | pool, [] => pure pool
  | pool, block :: rest => do
    let queue ← (if pool.refCnt block = 0 ∧ block ≠ pool.nullBlock
      then pool.freeBlockQueue.remove block else pure pool.freeBlockQueue)
    touch { pool with
      freeBlockQueue := queue
      refCnt := Function.update pool.refCnt block (pool.refCnt block + 1) } rest

/-- The first loop of `free_blocks`: every listed block loses one reference. -/
def decrement (refCnt : BlockId → ℤ) (blocks : List BlockId) : BlockId → ℤ :=
  blocks.foldl (fun refCnt block => Function.update refCnt block (refCnt block - 1)) refCnt

def freeBlocks (pool : BlockPool) (orderedBlocks : List BlockId) (prepend : Bool) :
    Raises BlockPool := do
  let refCnt := decrement pool.refCnt orderedBlocks
  let freedBlocks := orderedBlocks.filter fun block =>
    refCnt block = 0 ∧ block ≠ pool.nullBlock
  let queue ← (if prepend then pool.freeBlockQueue.prependN freedBlocks
    else pool.freeBlockQueue.appendN freedBlocks)
  pure { pool with refCnt, freeBlockQueue := queue }

/-- The ids as Python indexes the list of blocks with them: negative ones from its end. -/
def evictBlocks : BlockPool → List ℤ → Raises BlockPool
  | pool, [] => pure pool
  | pool, blockId :: rest => do
    Raises.require (blockId < pool.numGpuBlocks)
    let index := if blockId < 0 then blockId + pool.numGpuBlocks else blockId
    if index < 0 then throw .indexError
    else evictBlocks (pool.maybeEvictCachedBlock index.toNat).2 rest

def resetPrefixCache (pool : BlockPool) : Bool × BlockPool :=
  let numUsedBlocks := (pool.numGpuBlocks : ℤ) - pool.getNumFreeBlocks
  if numUsedBlocks ≠ 1 then (false, pool)
  else (true, { pool with
    cachedBlockHashToBlock := .empty
    blockHash := fun _ => none
    kvEventQueue := if pool.enableKvCacheEvents then pool.kvEventQueue ++ [.allBlocksCleared]
      else pool.kvEventQueue })

def takeEvents (pool : BlockPool) : List KVCacheEvent × BlockPool :=
  if ¬ pool.enableKvCacheEvents then ([], pool)
  else (pool.kvEventQueue, { pool with kvEventQueue := [] })

end BlockPool

end Vllm
