import Vllm.KvCache.CommonPrefix

/-! Runs of a manager with a single full-attention group beside a connector that takes references:
the count of common prefix blocks is right where it holds none of them. -/
namespace Vllm
open Raises List

namespace KVCacheCoordinator

def getNumCommonPrefixBlocks (c : KVCacheCoordinator) (runningRequestId : RequestId) : List ℕ :=
  match c.kind with
  | .noPrefixCache => List.replicate c.singleTypeManagers.length 0
  | _ => c.singleTypeManagers.map fun m =>
    m.getNumCommonPrefixBlocks c.blockPool runningRequestId

theorem forEach_singleton {α β : Type} {op : α → BlockPool → Raises (β × BlockPool)} {a : α}
    {pool pool' : BlockPool} {bs : List β} (hr : forEach op [a] pool = .ok (bs, pool')) :
    ∃ b, op a pool = .ok (b, pool') ∧ bs = [b] := by
  simp only [forEach, bind_eq_ok, pure_eq_ok, Prod.mk.injEq] at hr
  rcases hr with ⟨⟨b, pool₁⟩, hop, ⟨bs', pool₂⟩, ⟨rfl, rfl⟩, rfl, rfl⟩
  exact ⟨b, hop, rfl⟩

end KVCacheCoordinator

namespace KVCacheManager

def getNumCommonPrefixBlocks (m : KVCacheManager) (runningRequestId : RequestId) : List ℕ :=
  m.coordinator.getNumCommonPrefixBlocks runningRequestId

/-- `take_new_block_ids` and reads that make entries: no table changes. -/
def mapManagers (m : KVCacheManager)
    (op : SingleTypeKVCacheManager → SingleTypeKVCacheManager) : KVCacheManager :=
  { m with coordinator := { m.coordinator with
      singleTypeManagers := m.coordinator.singleTypeManagers.map op } }

end KVCacheManager

/-- One full-attention group, with prefix caching at the granularity of its blocks or without. -/
structure SoleGroup (m : KVCacheManager) (x : SingleTypeKVCacheManager) : Prop where
  managers : m.coordinator.singleTypeManagers = [x]
  full : x.kvCacheSpec.isFullAttention = true
  caching : m.enableCaching = true → m.coordinator.kind = .unitary ∧
    m.blockPool.enableCaching = true ∧ x.blockSize = m.blockPool.hashBlockSize
  uncached : m.enableCaching = false → m.coordinator.kind = .noPrefixCache

namespace SoleGroup
variable {m : KVCacheManager} {x x' : SingleTypeKVCacheManager}

theorem update (h : SoleGroup m x) (hsetup : SameSetup x x') {pool : BlockPool}
    (hcfg : SameConfig m.blockPool pool) :
    SoleGroup { m with coordinator := m.coordinator.update ([x'], pool) } x' where
  managers := rfl
  full := by
    rw [hsetup.spec]
    exact h.full
  caching := by
    intro hon
    rcases h.caching hon with ⟨hkind, hpool, hsize⟩
    refine ⟨hkind, hcfg.enableCaching.trans hpool, ?_⟩
    rw [hsetup.blockSize, hsize]
    exact hcfg.hashBlockSize.symm
  uncached := h.uncached

theorem hits {level : BlockHash → ℕ} {hashLength : ℕ} {free : List BlockId} {request : Request}
    {hit : CacheHitResult} (h : SoleGroup m x) (hinv : PoolInv m.blockPool free)
    (hlevel : LevelledHashes level hashLength request.blockHashes)
    (hr : m.getComputedBlocks request = .ok hit) :
    (hit.blocks.getD 0 []).length * x.blockSize ≤ hit.numTokens ∧
      ∀ (i : ℕ) b, (hit.blocks.getD 0 [])[i]? = some b → ∃ key,
        m.blockPool.blockHash b = some key ∧ level key.blockHash = i := by
  have hnone : (m.emptyKvCacheBlocks.getD 0 [] : List BlockId) = [] := by
    rw [KVCacheManager.emptyKvCacheBlocks, h.managers]
    rfl
  unfold KVCacheManager.getComputedBlocks at hr
  split_ifs at hr with hoff
  · cases hr
    rw [hnone]
    simp
  · rw [not_or, Bool.not_eq_false] at hoff
    unfold KVCacheCoordinator.findLongestCacheHit at hr
    rw [(h.caching hoff.1).1, h.managers] at hr
    simp only [bind_eq_ok, pure_eq_ok] at hr
    rcases hr with ⟨rows, hrows, rfl⟩
    rcases SingleTypeKVCacheManager.isFullAttention_kind h.full with ⟨c, hkind⟩
    unfold findLongestCacheHit at hrows
    rw [hkind] at hrows
    simp only [CacheHit.fullAttention, bind_eq_ok, pure_eq_ok] at hrows
    rcases hrows with ⟨scanned, hscan, hrows⟩
    rw [range_eq_range'] at hscan
    rcases CacheHit.scanForward_found hscan with ⟨-, hfound⟩
    have hin : CacheHit.FoundIn m.blockPool request.blockHashes [0] scanned 0 scanned.length := by
      intro i _ hi
      have hrow := hfound i _ (List.getElem?_eq_getElem hi)
      rw [Nat.zero_add] at hrow
      exact ⟨_, List.getElem?_eq_getElem hi, hrow⟩
    rcases CacheHit.popped_spec hin (le_refl _) hrows.symm with ⟨-, -, hrowsIn, -⟩
    have hblocks : ([rows.map fun row => row.getD 0 m.blockPool.nullBlock].getD 0 [] :
        List BlockId) = rows.map fun row => row.getD 0 m.blockPool.nullBlock := rfl
    have hpool : m.coordinator.blockPool = m.blockPool := rfl
    dsimp only
    rw [hpool, hblocks, length_map]
    constructor
    · exact le_refl _
    · intro i b hget
      have hi : i < rows.length := by
        have hlt := (List.getElem?_eq_some_iff.mp hget).1
        rwa [length_map] at hlt
      rcases hrowsIn i (Nat.zero_le i) hi with ⟨row, hrow, hfoundRow⟩
      rw [List.getElem?_map, hrow] at hget
      cases hget
      unfold CacheHit.Found CacheHit.lookup at hfoundRow
      cases hhash : request.blockHashes[i]? with
      | none =>
        rw [hhash] at hfoundRow
        cases hfoundRow
      | some hash =>
        rw [hhash] at hfoundRow
        have hlen := (getCachedBlock_stored hfoundRow).1
        have hrow0 : row[0]? = some (row.getD 0 m.blockPool.nullBlock) := by
          rw [getD_eq_getElem?_getD, List.getElem?_eq_getElem (by rw [hlen]; exact Nat.one_pos)]
          rfl
        refine ⟨⟨hash, 0⟩, hinv.getCachedBlock_keys hfoundRow 0 _ 0 hrow0 rfl, ?_⟩
        exact (hlevel i hash hhash).1

end SoleGroup

/-- The books of the single group, beside the references that the connector holds. -/
def SharedInv (level : BlockHash → ℕ) (m : KVCacheManager) (rest : BlockId → ℕ) : Prop :=
  ∃ x, SoleGroup m x ∧ SharedBooks level m.blockPool rest x

namespace SharedInv
variable {level : BlockHash → ℕ} {hashLength : ℕ} {m m' : KVCacheManager}
  {rest rest' : BlockId → ℕ} {request : Request}

theorem updated {x x' : SingleTypeKVCacheManager} {pool : BlockPool} (h : SoleGroup m x)
    (hres : SharedBooks level pool rest x' ∧ SameSetup x x' ∧ SameConfig m.blockPool pool) :
    SharedInv level { m with coordinator := m.coordinator.update ([x'], pool) } rest :=
  ⟨x', h.update hres.2.1 hres.2.2, hres.1⟩

variable {c : KVCacheCoordinator} {n : ℕ} {r : RequestId}

section
variable (h : SharedInv level m rest)
include h

theorem removeSkippedCoordinator (hr : m.coordinator.removeSkippedBlocks r n = .ok c) :
    c = m.coordinator := by
  rcases h with ⟨x, hsole, -⟩
  simp only [KVCacheCoordinator.removeSkippedBlocks, bind_eq_ok, pure_eq_ok] at hr
  rcases hr with ⟨⟨ms, pool⟩, hrun, rfl⟩
  rw [hsole.managers] at hrun
  rcases KVCacheCoordinator.forEach_singleton hrun with ⟨x', hop, rfl⟩
  rcases SharedBooks.removeSkippedBlocks_full hsole.full hop with ⟨rfl, rfl⟩
  rw [KVCacheCoordinator.update, ← hsole.managers]

theorem computedCoordinator {hits : List (List BlockId)} {loc ext : ℕ}
    (hhits : ∀ (i : ℕ) b, (hits.getD 0 [])[i]? = some b → ∃ key,
      m.blockPool.blockHash b = some key ∧ level key.blockHash = i)
    (hloc : ∀ x ∈ m.coordinator.singleTypeManagers, (hits.getD 0 []).length * x.blockSize ≤ loc)
    (hr : m.coordinator.allocateNewComputedBlocks r hits loc ext = .ok c) :
    SharedInv level { m with coordinator := c } rest := by
  rcases h with ⟨x, hsole, hbooks⟩
  simp only [KVCacheCoordinator.allocateNewComputedBlocks, bind_eq_ok,
    pure_eq_ok] at hr
  rcases hr with ⟨⟨ms, pool⟩, hrun, rfl⟩
  have hwith : m.coordinator.withHits hits = [(x, hits.getD 0 [])] := by
    rw [KVCacheCoordinator.withHits, hsole.managers]
    rfl
  rw [hwith] at hrun
  rcases KVCacheCoordinator.forEach_singleton hrun with ⟨x', hop, rfl⟩
  apply updated hsole
  apply hbooks.allocateNewComputedBlocks hsole.full hhits _ hop
  apply hloc
  rw [hsole.managers]
  exact mem_singleton_self x

theorem newBlocksCoordinator {main enc : ℕ} {new : List (List BlockId)}
    (hr : m.coordinator.allocateNewBlocks r n main enc = .ok (new, c)) :
    SharedInv level { m with coordinator := c } rest := by
  rcases h with ⟨x, hsole, hbooks⟩
  simp only [KVCacheCoordinator.allocateNewBlocks, bind_eq_ok, pure_eq_ok, Prod.mk.injEq] at hr
  rcases hr with ⟨⟨results, pool⟩, hrun, -, rfl⟩
  rw [hsole.managers] at hrun
  rcases KVCacheCoordinator.forEach_singleton hrun with ⟨⟨blocks, x'⟩, hop, rfl⟩
  simp only [bind_eq_ok, pure_eq_ok, Prod.mk.injEq] at hop
  rcases hop with ⟨⟨blocks', x₁, pool₁⟩, hop, ⟨rfl, rfl⟩, rfl⟩
  exact updated hsole (hbooks.allocateNewBlocks hsole.full hop)

theorem cacheCoordinator (hon : m.enableCaching = true)
    (hlevel : LevelledHashes level hashLength request.blockHashes)
    (hr : m.coordinator.cacheBlocks request n = .ok c) :
    SharedInv level { m with coordinator := c } rest := by
  rcases h with ⟨x, hsole, hbooks⟩
  rcases hsole.caching hon with ⟨-, hpool, hsize⟩
  simp only [KVCacheCoordinator.cacheBlocks, bind_eq_ok, pure_eq_ok] at hr
  rcases hr with ⟨⟨ms, pool⟩, hrun, rfl⟩
  rw [hsole.managers] at hrun
  rcases KVCacheCoordinator.forEach_singleton hrun with ⟨x', hop, rfl⟩
  apply updated hsole
  apply hbooks.cacheBlocks hsole.full hpool _ hop
  intro i hash hget
  rw [BlockPool.requestHashes, if_pos hsize] at hget
  exact (hlevel i hash hget).1

theorem removeSkippedBlocks (hr : m.removeSkippedBlocks r n = .ok m') :
    SharedInv level m' rest := by
  simp only [KVCacheManager.removeSkippedBlocks, bind_eq_ok, pure_eq_ok] at hr
  rcases hr with ⟨c, hc, rfl⟩
  obtain rfl := h.removeSkippedCoordinator hc
  exact h

theorem free (hr : m.free request = .ok m') : SharedInv level m' rest := by
  rcases h with ⟨x, hsole, hbooks⟩
  simp only [KVCacheManager.free, KVCacheCoordinator.free, bind_eq_ok,
    pure_eq_ok] at hr
  rcases hr with ⟨c, ⟨⟨ms, pool⟩, hrun, rfl⟩, rfl⟩
  rw [hsole.managers] at hrun
  rcases KVCacheCoordinator.forEach_singleton hrun with ⟨x', hop, rfl⟩
  exact updated hsole (hbooks.freeRequest hsole.full hop)

theorem cacheBlocks (hlevel : LevelledHashes level hashLength request.blockHashes) {n : ℤ}
    (hr : m.cacheBlocks request n = .ok m') : SharedInv level m' rest := by
  unfold KVCacheManager.cacheBlocks at hr
  split_ifs at hr with hon
  · simp only [bind_eq_ok, pure_eq_ok] at hr
    rcases hr with ⟨c, hc, rfl⟩
    exact h.cacheCoordinator hon hlevel hc
  · cases hr
    exact h

end

/-- What the scheduler passes to `allocate_slots`: the hits of a lookup in the same state with
their length, or none. -/
def CallsWithHits (m : KVCacheManager) (request : Request) (args : AllocateSlotsArgs) : Prop :=
  args.newComputedBlocks = none ∨ ∃ hit, m.getComputedBlocks request = .ok hit ∧
    args.newComputedBlocks = some hit.blocks ∧ args.numNewComputedTokens = hit.numTokens

section
variable (h : SharedInv level m rest)
include h

theorem allocateSlots (hlevel : LevelledHashes level hashLength request.blockHashes)
    {args : AllocateSlotsArgs} (hcall : CallsWithHits m request args)
    {newBlocks : Option (List (List BlockId))}
    (hr : m.allocateSlots request args = .ok (newBlocks, m')) : SharedInv level m' rest := by
  have hhits : (∀ (i : ℕ) b, ((args.newComputedBlocks.getD m.emptyKvCacheBlocks).getD 0 [])[i]? =
        some b → ∃ key, m.blockPool.blockHash b = some key ∧ level key.blockHash = i) ∧
      ∀ x ∈ m.coordinator.singleTypeManagers,
        ((args.newComputedBlocks.getD m.emptyKvCacheBlocks).getD 0 []).length * x.blockSize ≤
          request.numComputedTokens + args.numNewComputedTokens := by
    rcases h with ⟨x, hsole, hbooks⟩
    rcases hbooks.inv with ⟨pool, hinv⟩
    rcases hcall with hnone | ⟨hit, hget, hblocks, hnum⟩
    · have hempty : m.emptyKvCacheBlocks.getD 0 [] = [] := by
        rw [KVCacheManager.emptyKvCacheBlocks, hsole.managers]
        rfl
      rw [hnone, Option.getD_none, hempty]
      simp
    · rcases hsole.hits hinv hlevel hget with ⟨hlen, hkeyed⟩
      rw [hblocks, Option.getD_some, hnum]
      constructor
      · exact hkeyed
      · intro x' hx'
        rw [hsole.managers, mem_singleton] at hx'
        rw [hx']
        omega
  unfold KVCacheManager.allocateSlots at hr
  by_cases hzero : args.numNewTokens = 0 ∧ args.numExternalComputedTokens = 0
  · rw [if_pos hzero] at hr
    cases hr
  rw [if_neg hzero] at hr
  simp only [bind_eq_ok] at hr
  rcases hr with ⟨fits, -, hr⟩
  by_cases hfits : fits = false
  · rw [if_pos hfits] at hr
    simp only [pure_eq_ok, Prod.mk.injEq] at hr
    rcases hr with ⟨-, rfl⟩
    exact h
  rw [if_neg hfits] at hr
  simp only [bind_eq_ok] at hr
  rcases hr with ⟨c₁, hc₁, count, -, hr⟩
  obtain rfl := h.removeSkippedCoordinator hc₁
  split_ifs at hr with hroom
  · simp only [pure_eq_ok, Prod.mk.injEq] at hr
    rcases hr with ⟨-, rfl⟩
    exact h
  simp only [bind_eq_ok, pure_eq_ok, Prod.mk.injEq] at hr
  rcases hr with ⟨⟨new, m₂⟩, hcommit, -, rfl⟩
  simp only [KVCacheManager.commitSlots, bind_eq_ok] at hcommit
  rcases hcommit with ⟨c₁, hc₁, ⟨new', c₂⟩, hc₂, hcommit⟩
  have hcomputed : SharedInv level { m with coordinator := c₁ } rest := by
    split_ifs at hc₁ with hany
    · exact h.computedCoordinator hhits.1 hhits.2 hc₁
    · cases hc₁
      exact h
  have hnew : SharedInv level { m with coordinator := c₂ } rest :=
    hcomputed.newBlocksCoordinator hc₂
  split_ifs at hcommit with hskip
  · simp only [pure_eq_ok, Prod.mk.injEq] at hcommit
    rcases hcommit with ⟨-, rfl⟩
    exact hnew
  · rw [not_or, Bool.not_eq_false] at hskip
    simp only [bind_eq_ok, pure_eq_ok, Prod.mk.injEq] at hcommit
    rcases hcommit with ⟨c₃, hc₃, -, rfl⟩
    exact hnew.cacheCoordinator hskip.1 hlevel hc₃

theorem mapManagers {op : SingleTypeKVCacheManager → SingleTypeKVCacheManager}
    (hop : ∀ x, SameSetup x (op x) ∧ SameTables x (op x)) :
    SharedInv level (m.mapManagers op) rest := by
  rcases h with ⟨x, hsole, hbooks⟩
  have hmanagers : m.coordinator.singleTypeManagers.map op = [op x] := by
    rw [hsole.managers]
    rfl
  rw [KVCacheManager.mapManagers, hmanagers]
  exact updated hsole ⟨hbooks.sameTables (hop x).2, (hop x).1, .rfl⟩

theorem setPool {pool : BlockPool} (hcfg : SameConfig m.blockPool pool)
    (hbooks : ∀ x, SharedBooks level m.blockPool rest x → SharedBooks level pool rest' x) :
    SharedInv level (m.setPool pool) rest' := by
  rcases h with ⟨x, hsole, hold⟩
  rcases updated hsole ⟨hbooks x hold, .rfl, hcfg⟩ with ⟨x', hsole', hnew⟩
  rw [KVCacheCoordinator.update, ← hsole.managers] at hsole' hnew
  exact ⟨x', hsole', hnew⟩

end

theorem start {cfg : KVCacheManagerConfig} {g : KVCacheGroupSpec}
    (hgroups : cfg.kvCacheGroups = [g]) (hfull : g.kvCacheSpec.isFullAttention = true)
    (hr : KVCacheManager.init cfg = .ok m) : SharedInv level m fun _ => 0 := by
  simp only [KVCacheManager.init, bind_eq_ok, pure_eq_ok] at hr
  rcases hr with ⟨c, hc, rfl⟩
  have hbuilt := KVCacheManagerConfig.getKvCacheCoordinator_built hc
  rcases PoolInv.init_fresh hbuilt.pool with ⟨hinv, hfresh⟩
  have hmanagers := hbuilt.managers
  rw [hgroups] at hmanagers
  have hkind := hbuilt.kind
  unfold KVCacheManagerConfig.coordinatorKind at hkind
  refine ⟨_, ⟨hmanagers, hfull, ?_, ?_⟩, ⟨hinv, ?_, ?_, ?_, ?_⟩⟩
  · intro hon
    dsimp only at hon
    rw [if_neg (by rw [hon]; exact Bool.noConfusion), if_pos (by rw [hgroups]; rfl)] at hkind
    simp only [bind_eq_ok, require_eq_ok, pure_eq_ok] at hkind
    rcases hkind with ⟨-, hsize, hkind⟩
    have hspec := hsize g (by rw [hgroups]; exact mem_singleton_self g)
    refine ⟨hkind.symm, hfresh.enableCaching.trans hon, ?_⟩
    exact hspec.symm.trans hfresh.hashBlockSize.symm
  · intro hoff
    rw [if_pos hoff] at hkind
    exact (Except.ok.inj hkind).symm
  · intro b _
    have hzero := congrFun hfresh.refCnt b
    exact hzero
  · intro r b hb
    cases hb
  · intro r r' i j b hi
    cases hi
  · intro r i b key hi
    cases hi

end SharedInv

/-- What `evict_blocks` and `reset_prefix_cache` leave of the hashes. -/
theorem evictBlocks_blockHash {pool pool' : BlockPool} {free : List BlockId} {ids : List ℤ}
    (h : PoolInv pool free) (hr : pool.evictBlocks ids = .ok pool') {b : BlockId}
    {key : BlockHashWithGroupId} (hkey : pool'.blockHash b = some key) :
    pool.blockHash b = some key := by
  induction ids generalizing pool with
  | nil =>
    cases hr
    exact hkey
  | cons id ids ih =>
    simp only [BlockPool.evictBlocks, bind_eq_ok, require_eq_ok] at hr
    rcases hr with ⟨-, -, hr⟩
    generalize (if id < 0 then id + ↑pool.numGpuBlocks else id) = index at hr
    split_ifs at hr with hneg
    have hev := h.evict index.toNat
    have hold := ih hev.inv hr
    rw [hev.blockHash, Function.update_apply] at hold
    split_ifs at hold
    exact hold

theorem resetPrefixCache_blockHash {pool : BlockPool} {b : BlockId} {key : BlockHashWithGroupId}
    (hkey : pool.resetPrefixCache.2.blockHash b = some key) : pool.blockHash b = some key := by
  unfold BlockPool.resetPrefixCache at hkey
  dsimp only at hkey
  split_ifs at hkey
  exact hkey

section runs
variable (level : BlockHash → ℕ) (hashLength : ℕ)

/-- The runs of a manager with a single full-attention group, and the references that the
connector holds to each block. A call that raises ends the run. -/
inductive SharedReachable : KVCacheManager → (BlockId → ℕ) → Prop
  | start {cfg : KVCacheManagerConfig} {g : KVCacheGroupSpec} {m : KVCacheManager}
      (hgroups : cfg.kvCacheGroups = [g]) (hfull : g.kvCacheSpec.isFullAttention = true)
      (h : KVCacheManager.init cfg = .ok m) : SharedReachable m fun _ => 0
  | allocateSlots {m m' : KVCacheManager} {rest : BlockId → ℕ} {request : Request}
      {args : AllocateSlotsArgs} {newBlocks : Option (List (List BlockId))}
      (hr : SharedReachable m rest)
      (hlevel : LevelledHashes level hashLength request.blockHashes)
      (hcall : SharedInv.CallsWithHits m request args)
      (h : m.allocateSlots request args = .ok (newBlocks, m')) : SharedReachable m' rest
  | cacheBlocks {m m' : KVCacheManager} {rest : BlockId → ℕ} {request : Request} {n : ℤ}
      (hr : SharedReachable m rest)
      (hlevel : LevelledHashes level hashLength request.blockHashes)
      (h : m.cacheBlocks request n = .ok m') : SharedReachable m' rest
  | free {m m' : KVCacheManager} {rest : BlockId → ℕ} {request : Request}
      (hr : SharedReachable m rest) (h : m.free request = .ok m') : SharedReachable m' rest
  | removeSkippedBlocks {m m' : KVCacheManager} {rest : BlockId → ℕ} {requestId : RequestId}
      {totalComputedTokens : ℕ} (hr : SharedReachable m rest)
      (h : m.removeSkippedBlocks requestId totalComputedTokens = .ok m') : SharedReachable m' rest
  | readBlocks {m : KVCacheManager} {rest : BlockId → ℕ} (requestId : RequestId)
      (hr : SharedReachable m rest) :
      SharedReachable (m.mapManagers fun x => x.readBlocks requestId) rest
  | takeNewBlockIds {m : KVCacheManager} {rest : BlockId → ℕ} (hr : SharedReachable m rest) :
      SharedReachable (m.mapManagers fun x => x.takeNewBlockIds.2) rest
  | newStepStarts {m : KVCacheManager} {rest : BlockId → ℕ} (hr : SharedReachable m rest) :
      SharedReachable m.newStepStarts rest
  | evictBlocks {m m' : KVCacheManager} {rest : BlockId → ℕ} {blockIds : List BlockId}
      (hr : SharedReachable m rest) (h : m.evictBlocks blockIds = .ok m') :
      SharedReachable m' rest
  | resetPrefixCache {m m' : KVCacheManager} {rest : BlockId → ℕ} {successful : Bool}
      (hr : SharedReachable m rest) (h : m.resetPrefixCache = .ok (successful, m')) :
      SharedReachable m' rest
  | connectorTouch {m : KVCacheManager} {rest : BlockId → ℕ} {blocks : List BlockId}
      {pool : BlockPool} (hr : SharedReachable m rest)
      (hlt : ∀ b ∈ blocks, b < m.blockPool.numGpuBlocks)
      (h : m.blockPool.touch blocks = .ok pool) :
      SharedReachable (m.setPool pool) fun b => rest b + blocks.count b
  | connectorFree {m : KVCacheManager} {rest : BlockId → ℕ} {blocks : List BlockId}
      {pool : BlockPool} {prepend : Bool} (hr : SharedReachable m rest) (hnodup : blocks.Nodup)
      (hheld : ∀ b ∈ blocks, b < m.blockPool.numGpuBlocks ∧ 0 < rest b)
      (h : m.blockPool.freeBlocks blocks prepend = .ok pool) :
      SharedReachable (m.setPool pool) fun b => rest b - blocks.count b

end runs

theorem SharedReachable.inv {level : BlockHash → ℕ} {hashLength : ℕ} {m : KVCacheManager}
    {rest : BlockId → ℕ} (h : SharedReachable level hashLength m rest) :
    SharedInv level m rest := by
  induction h with
  | start hgroups hfull h => exact .start hgroups hfull h
  | allocateSlots _ hlevel hcall h ih => exact ih.allocateSlots hlevel hcall h
  | cacheBlocks _ hlevel h ih => exact ih.cacheBlocks hlevel h
  | free _ h ih => exact ih.free h
  | removeSkippedBlocks _ h ih => exact ih.removeSkippedBlocks h
  | readBlocks requestId _ ih =>
    exact ih.mapManagers fun x => ⟨.setBlocks x requestId _, .symm_setBlocks x requestId⟩
  | takeNewBlockIds _ ih | newStepStarts _ ih =>
    exact ih.mapManagers fun x => ⟨⟨rfl, rfl, rfl, rfl, rfl, rfl⟩, .of_reqToBlocks rfl rfl rfl⟩
  | evictBlocks _ h ih =>
    simp only [KVCacheManager.evictBlocks, bind_eq_ok, pure_eq_ok] at h
    rcases h with ⟨pool, hpool, rfl⟩
    rcases ih with ⟨x, hsole, hbooks⟩
    rcases hbooks.inv with ⟨free, hpoolInv⟩
    rcases hpoolInv.evictBlocks hpool with ⟨blockHash, hres⟩
    apply SharedInv.setPool ⟨x, hsole, hbooks⟩ hres.config
    intro x' hx'
    exact hx'.clearHashes ⟨free, hres.inv⟩ hres.config hres.refCnt fun b key hkey =>
      evictBlocks_blockHash hpoolInv hpool hkey
  | @resetPrefixCache m m' rest successful _ h ih =>
    rcases ih with ⟨x, hsole, hbooks⟩
    rcases hbooks.inv with ⟨free, hpoolInv⟩
    rcases hpoolInv.reset with ⟨blockHash, hres⟩
    simp only [KVCacheManager.resetPrefixCache, pure_eq_ok, Prod.mk.injEq] at h
    rcases h with ⟨-, rfl⟩
    apply SharedInv.setPool ⟨x, hsole, hbooks⟩ hres.config
    intro x' hx'
    exact hx'.clearHashes ⟨free, hres.inv⟩ hres.config hres.refCnt fun b key hkey =>
      resetPrefixCache_blockHash hkey
  | connectorTouch _ hlt h ih =>
    rcases ih with ⟨x, hsole, hbooks⟩
    rcases hbooks.inv with ⟨free, hpoolInv⟩
    rcases hpoolInv.touch hlt with ⟨pool', htouch, hres⟩
    obtain rfl := Except.ok.inj (htouch.symm.trans h)
    apply SharedInv.setPool ⟨x, hsole, hbooks⟩ hres.config
    intro x' hx'
    exact hx'.touchOther hlt h
  | @connectorFree m rest blocks pool prepend _ hnodup hheld h ih =>
    rcases ih with ⟨x, hsole, hbooks⟩
    rcases hbooks.inv with ⟨free, hpoolInv⟩
    have hfreeable : PoolInv.Freeable m.blockPool blocks := by
      constructor
      · intro b hb
        exact (hheld b hb).1
      · exact hnodup.filter _
      · intro b hb hne
        have hrefs := hbooks.refs b hne
        have hpos := (hheld b hb).2
        omega
    rcases hpoolInv.freeBlocks hfreeable prepend with ⟨pool', hfree, hres⟩
    obtain rfl := Except.ok.inj (hfree.symm.trans h)
    apply SharedInv.setPool ⟨x, hsole, hbooks⟩ hres.config
    intro x' hx'
    apply hx'.freeOther hfreeable _ h
    intro b _
    by_cases hb : b ∈ blocks
    · rw [count_eq_one_of_mem hnodup hb]
      exact (hheld b hb).2
    · rw [count_eq_zero.mpr hb]
      exact Nat.zero_le _

namespace KVCacheManager

/-- The first blocks of a request, as many as are counted, start the table of every request that
has an entry. -/
def CommonPrefixSound (m : KVCacheManager) (requestId : RequestId) : Prop :=
  ∀ (gid : ℕ) x n, m.coordinator.singleTypeManagers[gid]? = some x →
    (m.getNumCommonPrefixBlocks requestId)[gid]? = some n →
    ∀ q, x.reqToBlocks.contains q = true →
      (x.blocksOf q).take n = (x.blocksOf requestId).take n

/-- The connector holds no block of the request up to which every block is referenced as often as
there are entries. -/
def LeadingBlocksUnheld (m : KVCacheManager) (rest : BlockId → ℕ) (requestId : RequestId) : Prop :=
  ∀ x ∈ m.coordinator.singleTypeManagers, ∀ (i : ℕ) b, (x.blocksOf requestId)[i]? = some b →
    (∀ j ≤ i, ∀ b', (x.blocksOf requestId)[j]? = some b' →
      m.blockPool.refCnt b' = x.reqToBlocks.size) →
    rest b = 0

end KVCacheManager

/-- The count of common prefix blocks is right exactly where no reference of the connector stands
in for a request, or where there is no prefix caching and nothing is counted. -/
theorem commonPrefix_sound_iff {level : BlockHash → ℕ} {hashLength : ℕ} {m : KVCacheManager}
    {rest : BlockId → ℕ} (h : SharedReachable level hashLength m rest) (requestId : RequestId) :
    m.CommonPrefixSound requestId ↔
      m.enableCaching = false ∨ m.LeadingBlocksUnheld rest requestId := by
  rcases h.inv with ⟨x, hsole, hbooks⟩
  have hmanagers := hsole.managers
  cases hcaching : m.enableCaching with
  | false =>
    have hkind := hsole.uncached hcaching
    constructor
    · intro _
      exact .inl rfl
    · intro _ gid x' n _ hn q _
      unfold KVCacheManager.getNumCommonPrefixBlocks
        KVCacheCoordinator.getNumCommonPrefixBlocks at hn
      rw [hkind, List.getElem?_replicate] at hn
      split_ifs at hn
      cases hn
      rw [take_zero, take_zero]
  | true =>
    have hcounts : m.getNumCommonPrefixBlocks requestId =
        [x.getNumCommonPrefixBlocks m.blockPool requestId] := by
      unfold KVCacheManager.getNumCommonPrefixBlocks KVCacheCoordinator.getNumCommonPrefixBlocks
      rw [(hsole.caching hcaching).1, hmanagers]
      rfl
    have hiff := hbooks.commonPrefix_iff (r := requestId) hsole.full
    unfold KVCacheManager.CommonPrefixSound KVCacheManager.LeadingBlocksUnheld
    rw [hcounts, hmanagers]
    simp only [Bool.true_eq_false, false_or, forall_mem_singleton]
    rw [← hiff]
    constructor
    · intro hsound
      exact hsound 0 x _ rfl rfl
    · intro hsame gid x' n hx hn
      cases gid with
      | zero =>
        cases hx
        cases hn
        exact hsame
      | succ gid => cases hx

/-- Full attention with blocks of one token and prefix caching. -/
def cachingConfig : KVCacheManagerConfig := { smallPool 6 with enableCaching := true }

def callWithLookup (hit : CacheHitResult) : AllocateSlotsArgs where
  numNewTokens := 1
  numNewComputedTokens := hit.numTokens
  newComputedBlocks := some hit.blocks

/-- A second request shares the first block of the first. -/
def sharedBlockRun : Raises KVCacheManager := do
  let m ← KVCacheManager.init cachingConfig
  let (_, m) ← m.allocateSlots (smallRequest 1 [7, 5]) { numNewTokens := 2 }
  let hit ← m.getComputedBlocks (smallRequest 2 [7, 6])
  let (_, m) ← m.allocateSlots (smallRequest 2 [7, 6]) (callWithLookup hit)
  pure m

theorem commonPrefix_sound_iff_sharedBlock : ∃ m,
    SharedReachable firstByte 2 m (fun _ => 0) ∧ m.CommonPrefixSound 1 ∧
      m.getNumCommonPrefixBlocks 1 = [1] := by
  obtain ⟨m, hok, hfacts⟩ := exists_ok (show sharedBlockRun.toOption.map (fun m =>
    m.getNumCommonPrefixBlocks 1) = some [1] by decide +kernel)
  simp only [sharedBlockRun, bind_eq_ok, pure_eq_ok] at hok
  rcases hok with ⟨m₀, h₀, ⟨b₁, m₁⟩, h₁, hit, hhit, ⟨b₂, m₂⟩, h₂, rfl⟩
  have hreach : SharedReachable firstByte 2 m₀ fun _ => 0 := .start rfl rfl h₀
  have hreach₁ := hreach.allocateSlots (smallRequest_levelled (by decide)) (.inl rfl) h₁
  have hreach₂ := hreach₁.allocateSlots (smallRequest_levelled (by decide))
    (.inr ⟨hit, hhit, rfl, rfl⟩) h₂
  refine ⟨m₂, hreach₂, (commonPrefix_sound_iff hreach₂ 1).mpr (.inr ?_), hfacts⟩
  intro x _ i b _ _
  rfl

/-- Two requests with different prompts hold one block each, and the connector stores the block
of the first. -/
def storedBlockRun : Raises (KVCacheManager × BlockPool) := do
  let m ← KVCacheManager.init cachingConfig
  let (_, m) ← m.allocateSlots (smallRequest 1 [7]) { numNewTokens := 1 }
  let (_, m) ← m.allocateSlots (smallRequest 2 [8]) { numNewTokens := 1 }
  let pool ← m.blockPool.touch [1]
  pure (m, pool)

theorem commonPrefix_unsound : ∃ m rest,
    SharedReachable firstByte 2 m rest ∧ ¬ m.CommonPrefixSound 1 := by
  obtain ⟨⟨m, pool⟩, hok, hfacts⟩ := exists_ok (show storedBlockRun.toOption.map (fun s =>
    (s.1.blockPool.numGpuBlocks, (s.1.setPool s.2).getNumCommonPrefixBlocks 1,
      s.1.coordinator.singleTypeManagers.map fun x =>
        [x.blocksOf 1, x.blocksOf 2, x.reqToBlocks.keys])) =
      some (6, [1], [[[1], [2], [1, 2]]]) by decide +kernel)
  simp only [Prod.mk.injEq] at hfacts
  rcases hfacts with ⟨hnum, hcount, htables⟩
  simp only [storedBlockRun, bind_eq_ok, pure_eq_ok, Prod.mk.injEq] at hok
  rcases hok with ⟨m₀, h₀, ⟨b₁, m₁⟩, h₁, ⟨b₂, m₂⟩, h₂, pool₂, htouch, rfl, rfl⟩
  have hreach : SharedReachable firstByte 2 m₀ fun _ => 0 := .start rfl rfl h₀
  have hreach₁ := hreach.allocateSlots (smallRequest_levelled (by decide)) (.inl rfl) h₁
  have hreach₂ := hreach₁.allocateSlots (smallRequest_levelled (by decide)) (.inl rfl) h₂
  have hlt : ∀ b ∈ [1], b < m₂.blockPool.numGpuBlocks := by
    rw [hnum]
    decide
  refine ⟨_, _, hreach₂.connectorTouch hlt htouch, ?_⟩
  intro hsound
  rcases map_eq_singleton_iff.mp htables with ⟨x, hx, hfields⟩
  simp only [List.cons.injEq, and_true] at hfields
  rcases hfields with ⟨hfst, hsnd, hkeys⟩
  have hcontains : x.reqToBlocks.contains 2 = true := by
    rw [← Dict.mem_keys_iff, hkeys]
    decide
  have hget : (m₂.setPool pool₂).coordinator.singleTypeManagers[0]? = some x := by
    rw [KVCacheManager.setPool, hx]
    rfl
  have hsame := hsound 0 x 1 hget (by rw [hcount]; rfl) 2 hcontains
  rw [hfst, hsnd] at hsame
  cases hsame

end Vllm
