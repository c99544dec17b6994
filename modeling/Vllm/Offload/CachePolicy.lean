import Vllm.Offload.ConnectorState

/-! `kv_offload/cpu/policies`: the two policies that order and evict the blocks of the CPU pool. A
block status is kept under its key, and `setRefCnt` is a write to it. `kv_offload/cpu/manager.py`:
the pool of CPU blocks under a cache policy. -/
namespace Vllm

/-- A block of the CPU pool: `refCnt` transfers read it, and `-1` stands for not written yet. -/
structure BlockStatus where
  blockId : ℕ
  refCnt : ℤ := -1
  deriving DecidableEq, Repr

namespace BlockStatus

abbrev isReady (b : BlockStatus) : Prop := 0 ≤ b.refCnt

end BlockStatus

abbrev CacheEntry := OffloadKey × BlockStatus

/-- What `evict` may take. -/
abbrev Evictable (isProtected : List OffloadKey) (e : CacheEntry) : Prop :=
  e.2.refCnt = 0 ∧ e.1 ∉ isProtected

/-- The operations of a policy with states `P`. -/
structure CachePolicy (P : Type) where
  get : P → OffloadKey → Option BlockStatus
  insert : P → OffloadKey → BlockStatus → P
  remove : P → OffloadKey → Raises P
  touch : P → List OffloadKey → P
  evict : P → ℕ → List OffloadKey → Option (List CacheEntry) × P
  clear : P → P
  setRefCnt : P → OffloadKey → ℤ → P

/-- A write to the status of a key, if it is there. -/
def writeRefCnt (blocks : Dict OffloadKey BlockStatus) (key : OffloadKey) (refCnt : ℤ) :
    Dict OffloadKey BlockStatus :=
  match blocks.get? key with
  | none => blocks
  | some block => blocks.set key { block with refCnt }

structure LRUCachePolicy where
  blocks : Dict OffloadKey BlockStatus := .empty

namespace LRUCachePolicy
variable (p : LRUCachePolicy)

def remove (key : OffloadKey) : Raises LRUCachePolicy :=
  if p.blocks.contains key then pure { blocks := p.blocks.erase key } else throw .keyError

def touch (keys : List OffloadKey) : LRUCachePolicy where
  blocks := keys.reverse.foldl (fun blocks key => blocks.moveToEnd key) p.blocks

def evict (n : ℕ) (isProtected : List OffloadKey) : Option (List CacheEntry) × LRUCachePolicy :=
  if n = 0 then (some [], p)
  else
    let candidates := (p.blocks.entries.filter (Evictable isProtected ·)).take n
    if candidates.length < n then (none, p)
    else (some candidates, { blocks := candidates.foldl (fun b e => b.erase e.1) p.blocks })

def policy : CachePolicy LRUCachePolicy where
  get p key := p.blocks.get? key
  insert p key block := { blocks := p.blocks.set key block }
  remove := remove
  touch := touch
  evict := evict
  clear _ := {}
  setRefCnt p key refCnt := { blocks := writeRefCnt p.blocks key refCnt }

end LRUCachePolicy

/-- `t1`, `t2`: blocks accessed once and more often; `b1`, `b2`: keys evicted from them. -/
structure ARCCachePolicy where
  cacheCapacity : ℕ
  targetT1Size : ℚ := 0
  t1 : Dict OffloadKey BlockStatus := .empty
  t2 : Dict OffloadKey BlockStatus := .empty
  b1 : Dict OffloadKey Unit := .empty
  b2 : Dict OffloadKey Unit := .empty

namespace ARCCachePolicy
variable (p : ARCCachePolicy)

def get (key : OffloadKey) : Option BlockStatus := (p.t1.get? key).or (p.t2.get? key)

def insert (key : OffloadKey) (block : BlockStatus) : ARCCachePolicy :=
  { p with t1 := p.t1.set key block, b1 := p.b1.erase key, b2 := p.b2.erase key }

def remove (key : OffloadKey) : ARCCachePolicy :=
  if p.t1.contains key then { p with t1 := p.t1.erase key }
  else { p with t2 := p.t2.erase key }

/-- The step of the target after a hit in a ghost list; `round` rounds the result of a float
operation. -/
def delta (round : ℚ → ℚ) (hit other : Dict OffloadKey Unit) : ℚ :=
  max 1 (round (other.size / hit.size))

def touchKey (round : ℚ → ℚ) (p : ARCCachePolicy) (key : OffloadKey) : ARCCachePolicy :=
  match p.t1.get? key with
  | some block =>
    if block.isReady then { p with t1 := p.t1.erase key, t2 := p.t2.set key block }
    else { p with t1 := p.t1.moveToEnd key }
  | none =>
    if p.t2.contains key then { p with t2 := p.t2.moveToEnd key }
    else if p.b1.contains key then
      { p with
        targetT1Size := min (round (p.targetT1Size + delta round p.b1 p.b2)) p.cacheCapacity
        b1 := p.b1.moveToEnd key }
    else if p.b2.contains key then
      { p with
        targetT1Size := max (round (p.targetT1Size - delta round p.b2 p.b1)) 0
        b2 := p.b2.moveToEnd key }
    else p

def touch (round : ℚ → ℚ) (keys : List OffloadKey) : ARCCachePolicy :=
  keys.reverse.foldl (touchKey round) p

def clear : ARCCachePolicy := { cacheCapacity := p.cacheCapacity }

/-- `int(target_t1_size)`, which truncates. -/
def intTarget : ℤ := if 0 ≤ p.targetT1Size then ⌊p.targetT1Size⌋ else ⌈p.targetT1Size⌉

/-- A candidate, and whether it comes from `t1`. -/
abbrev Candidate := CacheEntry × Bool

def nextCandidate (isProtected alreadySelected : List OffloadKey) (virtualT1Size : ℤ) :
    Option Candidate :=
  let free : CacheEntry → Bool := fun e => Evictable isProtected e ∧ e.1 ∉ alreadySelected
  let fromT1 := if p.intTarget ≤ virtualT1Size then p.t1.entries.find? free else none
  match fromT1 with
  | some e => some (e, true)
  | none => (p.t2.entries.find? free).map fun e => (e, false)

/-- The loop that collects the candidates. -/
def candidates (isProtected : List OffloadKey) :
    ℕ → List OffloadKey → ℤ → Option (List Candidate)
  | 0, _, _ => some []
  | n + 1, alreadySelected, virtualT1Size =>
    match p.nextCandidate isProtected alreadySelected virtualT1Size with
    | none => none
    | some c =>
      (candidates isProtected n (c.1.1 :: alreadySelected)
        (if c.2 then virtualT1Size - 1 else virtualT1Size)).map (c :: ·)

def evictCandidate (c : Candidate) : ARCCachePolicy :=
  if c.2 then { p with t1 := p.t1.erase c.1.1, b1 := p.b1.set c.1.1 () }
  else { p with t2 := p.t2.erase c.1.1, b2 := p.b2.set c.1.1 () }

/-- The ghost lists cut to the capacity. -/
def trim : ARCCachePolicy :=
  { p with
    b1 := p.b1.dropFirst (p.b1.size - p.cacheCapacity)
    b2 := p.b2.dropFirst (p.b2.size - p.cacheCapacity) }

def evict (n : ℕ) (isProtected : List OffloadKey) : Option (List CacheEntry) × ARCCachePolicy :=
  if n = 0 then (some [], p)
  else
    match p.candidates isProtected n [] p.t1.size with
    | none => (none, p)
    | some cs => (some (cs.map Prod.fst), (cs.foldl evictCandidate p).trim)

def setRefCnt (key : OffloadKey) (refCnt : ℤ) : ARCCachePolicy :=
  if p.t1.contains key then { p with t1 := writeRefCnt p.t1 key refCnt }
  else { p with t2 := writeRefCnt p.t2 key refCnt }

def policy (round : ℚ → ℚ) : CachePolicy ARCCachePolicy where
  get := get
  insert := insert
  remove p key := pure (p.remove key)
  touch p keys := p.touch round keys
  evict := evict
  clear := clear
  setRefCnt := setRefCnt

end ARCCachePolicy

structure OffloadingEvent where
  keys : List OffloadKey
  removed : Bool
  deriving DecidableEq, Repr

/-- Blocks of the pool below `numAllocatedBlocks` have been handed out; those given back are in
`freeList`. `counts` are the lookups of a key, kept if a store needs several. -/
structure CPUOffloadingManager (P : Type) where
  numBlocks : ℕ
  policy : P
  numAllocatedBlocks : ℕ := 0
  freeList : List ℕ := []
  events : Option (List OffloadingEvent) := none
  storeThreshold : ℕ := 1
  maxTrackerSize : ℕ := 64000
  storesSkippedInCurrentBatch : ℕ := 0
  counts : Option (Dict OffloadKey ℕ) := none

structure CPUPrepareStoreOutput extends PrepareStoreOutput (List ℕ) where
  evictedKeys : List OffloadKey

namespace CPUOffloadingManager
variable {P : Type} (c : CachePolicy P) (m : CPUOffloadingManager P)

def init (policy : P) (numBlocks : ℕ) (enableEvents : Bool) (storeThreshold maxTrackerSize : ℕ) :
    CPUOffloadingManager P where
  numBlocks := numBlocks
  policy := policy
  events := if enableEvents then some [] else none
  storeThreshold := storeThreshold
  maxTrackerSize := maxTrackerSize
  counts := if 2 ≤ storeThreshold then some .empty else none

def getNumFreeBlocks : ℤ := m.freeList.length + m.numBlocks - m.numAllocatedBlocks

/-- `_allocate_blocks`: fresh blocks first, then those given back last. -/
def allocateBlocks (numKeys : ℕ) : Raises (List BlockStatus × CPUOffloadingManager P) := do
  let numFresh := min numKeys (m.numBlocks - m.numAllocatedBlocks)
  let numReused := numKeys - numFresh
  Raises.require (numReused ≤ m.freeList.length)
  let fresh := List.range' m.numAllocatedBlocks numFresh
  let reused := m.freeList.reverse.take numReused
  pure ((fresh ++ reused).map fun id => { blockId := id },
    { m with
      numAllocatedBlocks := m.numAllocatedBlocks + numFresh
      freeList := m.freeList.take (m.freeList.length - numReused) })

def freeBlock (block : BlockStatus) : CPUOffloadingManager P :=
  { m with freeList := m.freeList ++ [block.blockId] }

def addEvent (keys : List OffloadKey) (removed : Bool) : CPUOffloadingManager P :=
  if keys = [] then m else { m with events := m.events.map (· ++ [{ keys, removed }]) }

/-- One more lookup of a key; the key looked up longest ago makes room. -/
def countLookup (counts : Dict OffloadKey ℕ) (key : OffloadKey) : Raises (Dict OffloadKey ℕ) :=
  match counts.get? key with
  | some n => pure ((counts.moveToEnd key).set key (n + 1))
  | none =>
    if m.maxTrackerSize ≤ counts.size then
      if counts.isEmpty then throw .keyError else pure ((counts.dropFirst 1).set key 1)
    else pure (counts.set key 1)

def countKey (key : OffloadKey) : Raises (CPUOffloadingManager P) :=
  match m.counts with
  | none => pure m
  | some counts => do
    let counts ← countLookup m counts key
    pure { m with counts := some counts }

/-- The answer of a lookup: none while the block is being written. -/
def answer (key : OffloadKey) : Option Bool :=
  match c.get m.policy key with
  | none => some false
  | some block => if block.isReady then some true else none

def lookup (key : OffloadKey) : Raises (Option Bool × CPUOffloadingManager P) := do
  let m ← m.countKey key
  pure (m.answer c key, m)

def requireBlock (key : OffloadKey) : Raises BlockStatus :=
  match c.get m.policy key with
  | none => throw .assertionError
  | some block => pure block

/-- One more reader of the block of a key. -/
def loadBlock (r : List ℕ × CPUOffloadingManager P) (key : OffloadKey) :
    Raises (List ℕ × CPUOffloadingManager P) := do
  let block ← r.2.requireBlock c key
  Raises.require block.isReady
  pure (r.1 ++ [block.blockId],
    { r.2 with policy := c.setRefCnt r.2.policy key (block.refCnt + 1) })

def prepareLoad (keys : List OffloadKey) : Raises (List ℕ × CPUOffloadingManager P) :=
  keys.foldlM (loadBlock c) ([], m)

def touch (keys : List OffloadKey) : CPUOffloadingManager P :=
  { m with policy := c.touch m.policy keys }

/-- One reader less. -/
def unloadBlock (m : CPUOffloadingManager P) (key : OffloadKey) :
    Raises (CPUOffloadingManager P) := do
  let block ← m.requireBlock c key
  Raises.require (0 < block.refCnt)
  pure { m with policy := c.setRefCnt m.policy key (block.refCnt - 1) }

def completeLoad (keys : List OffloadKey) : Raises (CPUOffloadingManager P) :=
  keys.foldlM (unloadBlock c) m

/-- The keys that have been looked up often enough. -/
def countedKeys (keys : List OffloadKey) : List OffloadKey :=
  match m.counts with
  | none => keys
  | some counts => keys.filter fun k => m.storeThreshold ≤ counts.getD k 0

/-- Room for blocks, by eviction of others; no keys if that fails. -/
def makeRoom (keys : List OffloadKey) (numKeys : ℕ) :
    Option (List OffloadKey) × CPUOffloadingManager P :=
  let numBlocksToEvict := numKeys - m.getNumFreeBlocks
  if 0 < numBlocksToEvict then
    let r := c.evict m.policy numBlocksToEvict.toNat keys
    let m := { m with policy := r.2 }
    match r.1 with
    | none => (none, m)
    | some evicted =>
      (some (evicted.map Prod.fst), evicted.foldl (fun m e => m.freeBlock e.2) m)
  else (some [], m)

def insertBlocks (keys : List OffloadKey) (blocks : List BlockStatus) : CPUOffloadingManager P :=
  { m with policy := (keys.zip blocks).foldl (fun p e => c.insert p e.1 e.2) m.policy }

/-- The second half of `prepare_store`: room for the new keys and a block for each. -/
def storeKeys (keys keysToStore : List OffloadKey) :
    Raises (Option CPUPrepareStoreOutput × CPUOffloadingManager P) :=
  match m.makeRoom c keys keysToStore.length with
  | (none, m) => pure (none, m)
  | (some toEvict, m) => do
    let (blocks, m) ← (m.addEvent toEvict true).allocateBlocks keysToStore.length
    Raises.require (blocks.length = keysToStore.length)
    pure (some { keysToStore, storeSpec := blocks.map (·.blockId), evictedKeys := toEvict },
      m.insertBlocks c keysToStore blocks)

def prepareStore (keys : List OffloadKey) :
    Raises (Option CPUPrepareStoreOutput × CPUOffloadingManager P) :=
  let counted := m.countedKeys keys
  let m := { m with
    storesSkippedInCurrentBatch :=
      m.storesSkippedInCurrentBatch + (keys.length - counted.length) }
  let keysToStore := counted.filter fun k => (c.get m.policy k).isNone
  if keysToStore = [] then
    pure (some { keysToStore := [], storeSpec := [], evictedKeys := [] }, m)
  else m.storeKeys c counted keysToStore

/-- A successful store of one key, which is noted if the key was being written. -/
def markStored (r : CPUOffloadingManager P × List OffloadKey) (key : OffloadKey) :
    CPUOffloadingManager P × List OffloadKey :=
  match c.get r.1.policy key with
  | none => r
  | some block =>
    if block.isReady then r
    else ({ r.1 with policy := c.setRefCnt r.1.policy key 0 }, r.2 ++ [key])

/-- A failed store of one key, if it was being written. -/
def dropStore (m : CPUOffloadingManager P) (key : OffloadKey) :
    Raises (CPUOffloadingManager P) :=
  match c.get m.policy key with
  | none => pure m
  | some block =>
    if block.isReady then pure m
    else do
      let policy ← c.remove m.policy key
      pure ({ m with policy }.freeBlock block)

def completeStore (keys : List OffloadKey) (success : Bool) : Raises (CPUOffloadingManager P) :=
  if success then
    let r := keys.foldl (markStored c) (m, [])
    pure (r.1.addEvent r.2 false)
  else keys.foldlM (dropStore c) m

def resetCache : CPUOffloadingManager P :=
  { m with policy := c.clear m.policy, freeList := [], numAllocatedBlocks := 0 }

end CPUOffloadingManager

end Vllm
