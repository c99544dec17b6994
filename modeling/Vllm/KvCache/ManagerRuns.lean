import Vllm.KvCache.CoordinatorInvariant
import Vllm.KvCache.SpecGroups

/-! Runs of the KV cache manager: as long as no group draws a hit of a later group, a block
that several positions share is a cached block at one index of one group. -/
namespace Vllm
open Raises SingleTypeKVCacheManager Function List

namespace KVCacheCoordinator

/-- The kept hits of every group and how many blocks it lacks for external tokens: numbers of its
spec, the hits and the token counts. -/
def groupDraws (c : KVCacheCoordinator) (requestId : RequestId) (hits : List (List BlockId))
    (loc ext : ℕ) : List (List BlockId × ℤ) :=
  (c.withHits hits).map fun a => a.1.computedDraw c.blockPool.nullBlock requestId a.2 loc ext

theorem withHits_fst (c : KVCacheCoordinator) (hits : List (List BlockId)) :
    (c.withHits hits).map Prod.fst = c.singleTypeManagers := by
  rw [withHits, map_map]
  exact zipIdx_map_fst 0 c.singleTypeManagers

theorem mem_withHits {c : KVCacheCoordinator} {hits : List (List BlockId)}
    {a : SingleTypeKVCacheManager × List BlockId} (ha : a ∈ c.withHits hits) :
    ∃ i, c.singleTypeManagers[i]? = some a.1 ∧ a.2 = hits.getD i [] := by
  obtain ⟨⟨m, i⟩, hm, rfl⟩ := mem_map.mp ha
  exact ⟨i, by simpa [mem_zipIdx_iff_getElem?] using hm, rfl⟩

end KVCacheCoordinator

theorem drawsSpareHits_of_zero {free : List BlockId} {draws : List (List BlockId × ℤ)}
    (h : ∀ taken ∈ draws, taken.2 = 0) : DrawsSpareHits free draws := by
  induction draws generalizing free with
  | nil => trivial
  | cons taken rest ih =>
    have hzero := h taken (by simp)
    refine ⟨hzero.ge, fun later _ b _ => ?_, ih fun x hx => h x (by simp [hx])⟩
    rw [hzero]
    exact not_mem_nil

theorem KeyedHits.skip {pool : BlockPool} {hashes : List BlockHash} {groupId n : ℕ}
    {hits : List BlockId} (h : KeyedHits pool hashes groupId hits) :
    KeyedHits pool hashes groupId (List.replicate n pool.nullBlock ++ hits.drop n) := by
  intro i b hget hne
  rw [List.getElem?_append, length_replicate] at hget
  split_ifs at hget with hi
  · rw [List.getElem?_replicate, if_pos hi] at hget
    exact absurd (Option.some.inj hget).symm hne
  · rw [List.getElem?_drop, Nat.add_sub_cancel' (not_lt.mp hi)] at hget
    exact h i b hget hne

/-- The free blocks before `b` that are no hits of these groups. -/
def blocksBefore (free : List BlockId) (groups : List (List BlockId × ℤ)) (b : BlockId) :
    List BlockId :=
  (free.takeWhile (· ≠ b)).filter fun x => ∀ taken ∈ groups, x ∉ taken.1

/-- Every hit that is still free stands behind at least as many blocks, not counting hits of
earlier groups, as the earlier groups draw. -/
def HitsStandBack (free : List BlockId) (draws : List (List BlockId × ℤ)) : Prop :=
  ∀ x ∈ draws.zipIdx, 0 ≤ x.1.2 ∧ ∀ b ∈ x.1.1, b ∈ free →
    ((draws.take x.2).map fun earlier => earlier.2.toNat).sum ≤
      (blocksBefore free (draws.take x.2) b).length

instance (free : List BlockId) (draws : List (List BlockId × ℤ)) :
    Decidable (HitsStandBack free draws) :=
  inferInstanceAs (Decidable (∀ x ∈ draws.zipIdx, _))

theorem hitsStandBack_iff {free : List BlockId} {draws : List (List BlockId × ℤ)} :
    HitsStandBack free draws ↔ ∀ i taken, draws[i]? = some taken → 0 ≤ taken.2 ∧
      ∀ b ∈ taken.1, b ∈ free → ((draws.take i).map fun earlier => earlier.2.toNat).sum ≤
        (blocksBefore free (draws.take i) b).length := by
  constructor
  · exact fun h i taken hi => h (taken, i) (mem_zipIdx_iff_getElem?.mpr hi)
  · exact fun h x hx => h x.2 x.1 (mem_zipIdx_iff_getElem?.mp hx)

theorem takeWhile_untouched {free kept : List BlockId} {b : BlockId} (hb : b ∉ kept) :
    (untouched free kept).takeWhile (· ≠ b) = untouched (free.takeWhile (· ≠ b)) kept := by
  unfold untouched
  induction free with
  | nil => rfl
  | cons x free ih =>
    by_cases hx : x = b
    · subst hx
      simp [hb]
    · by_cases hk : x ∈ kept
      · simpa [hx, hk] using ih
      · simpa [hx, hk] using ih

theorem takeWhile_drop {α : Type} {p : α → Bool} {l : List α} {n : ℕ}
    (h : n ≤ (l.takeWhile p).length) : (l.drop n).takeWhile p = (l.takeWhile p).drop n := by
  induction n generalizing l with
  | zero => rfl
  | succ n ih =>
    cases l with
    | nil => simp
    | cons x l =>
      by_cases hx : p x = true
      · rw [takeWhile_cons_of_pos hx, length_cons] at h
        rw [takeWhile_cons_of_pos hx, drop_succ_cons, drop_succ_cons]
        exact ih (by omega)
      · rw [takeWhile_cons_of_neg hx] at h
        simp at h

theorem not_mem_take {α : Type} [DecidableEq α] {l : List α} {b : α} {n : ℕ}
    (h : n ≤ (l.takeWhile (· ≠ b)).length) : b ∉ l.take n := by
  intro hb
  rw [← takeWhile_append_dropWhile (p := (· ≠ b)) (l := l), take_append_of_le_length h] at hb
  simpa using all_eq_true.mp all_takeWhile b (mem_of_mem_take hb)

theorem blocksBefore_cons {free : List BlockId} {taken : List BlockId × ℤ}
    {groups : List (List BlockId × ℤ)} {b : BlockId} (hb : b ∉ taken.1) :
    blocksBefore free (taken :: groups) b = blocksBefore (untouched free taken.1) groups b := by
  unfold blocksBefore
  rw [takeWhile_untouched hb, untouched, filter_filter]
  apply filter_congr
  intro x _
  simp only [forall_mem_cons, Bool.decide_and, Bool.and_comm]

/-- A draw from the front leaves the blocks that stood there beyond it. -/
theorem blocksBefore_drop {free : List BlockId} (groups : List (List BlockId × ℤ)) {b : BlockId}
    {n : ℕ} (h : n ≤ (free.takeWhile (· ≠ b)).length) :
    (blocksBefore free groups b).length ≤ (blocksBefore (free.drop n) groups b).length + n := by
  unfold blocksBefore
  rw [takeWhile_drop h]
  conv_lhs => rw [← take_append_drop n (free.takeWhile (· ≠ b)), filter_append, length_append]
  have hfilter := length_filter_le (fun x => decide (∀ taken ∈ groups, x ∉ taken.1))
    ((free.takeWhile (· ≠ b)).take n)
  have htake := length_take_le n (free.takeWhile (· ≠ b))
  omega

/-- Hits that stand far enough back are not drawn by an earlier group. -/
theorem HitsStandBack.drawsSpareHits {free : List BlockId} {draws : List (List BlockId × ℤ)}
    (h : HitsStandBack free draws) : DrawsSpareHits free draws := by
  rw [hitsStandBack_iff] at h
  induction draws generalizing free with
  | nil => trivial
  | cons taken rest ih =>
    have hahead (i : ℕ) (later) (hi : rest[i]? = some later) (b) (hb : b ∈ later.1)
        (hfree : b ∈ untouched free taken.1) :
        taken.2.toNat + ((rest.take i).map fun earlier => earlier.2.toNat).sum ≤
          (blocksBefore (untouched free taken.1) (rest.take i) b).length := by
      obtain ⟨hin, hout⟩ := mem_filter.mp hfree
      have hstand := (h (i + 1) later hi).2 b hb hin
      rwa [take_succ_cons, map_cons, sum_cons, blocksBefore_cons (by simpa using hout)] at hstand
    have hfits (i : ℕ) (later) (hi : rest[i]? = some later) (b) (hb : b ∈ later.1)
        (hfree : b ∈ untouched free taken.1) :
        taken.2.toNat ≤ ((untouched free taken.1).takeWhile (· ≠ b)).length :=
      ((Nat.le_add_right _ _).trans (hahead i later hi b hb hfree)).trans (length_filter_le _ _)
    refine ⟨(h 0 taken rfl).1, fun later hlater b hb hdrawn => ?_, ih fun i later hi => ?_⟩
    · obtain ⟨i, hi⟩ := mem_iff_getElem?.mp hlater
      exact not_mem_take (hfits i later hi b hb (mem_of_mem_take hdrawn)) hdrawn
    · refine ⟨(h (i + 1) later hi).1, fun b hb hfree => ?_⟩
      have hmem := mem_of_mem_drop hfree
      have hstand := hahead i later hi b hb hmem
      have hdrop := blocksBefore_drop (rest.take i) (hfits i later hi b hb hmem)
      omega

/-- The condition on an `allocate_slots` call with hits or external tokens, in the state
that `remove_skipped_blocks` leaves for it: no group draws a hit of a later group, and in
`align` mode the hits and external tokens leave room for the speculative blocks. -/
def SparesHits (m : KVCacheManager) (request : Request) (args : AllocateSlotsArgs) : Prop :=
  let hits := args.newComputedBlocks.getD m.emptyKvCacheBlocks
  let loc := request.numComputedTokens + args.numNewComputedTokens
  let ext := args.numExternalComputedTokens
  let total := min (loc + ext) m.maxModelLen
  hits.any (· ≠ []) ∨ ext > 0 → ∀ c,
    m.coordinator.removeSkippedBlocks request.requestId total = .ok c →
      (∀ free, c.blockPool.freeBlockQueue.Holds free →
        DrawsSpareHits free (c.groupDraws request.requestId hits loc ext)) ∧
      ∀ a ∈ c.withHits hits, InAlignMode a.1 fun _ => a.1.isNew request.requestId = true →
        (a.1.hitTable c.blockPool.nullBlock (loc + ext) a.2).length +
            (a.1.computedDraw c.blockPool.nullBlock request.requestId a.2 loc ext).2.toNat ≤
          cdiv (total + args.numNewTokens).toNat a.1.blockSize

/-- The same promise in the state before the call, whose `remove_skipped_blocks` frees nothing of
a request that holds nothing: either the request has had its hits in an earlier call, or it holds
no blocks and its hits stand back in the free queue. -/
def HitsOutOfReach (m : KVCacheManager) (request : Request) (args : AllocateSlotsArgs) : Prop :=
  let c := m.coordinator
  let r := request.requestId
  let hits := args.newComputedBlocks.getD m.emptyKvCacheBlocks
  let loc := request.numComputedTokens + args.numNewComputedTokens
  let ext := args.numExternalComputedTokens
  let total := min (loc + ext) m.maxModelLen
  hits.any (· ≠ []) ∨ ext > 0 →
    (∀ x ∈ c.singleTypeManagers, x.isNew r = false) ∨
    (∀ x ∈ c.singleTypeManagers, x.blocksOf r = []) ∧
      HitsStandBack c.blockPool.freeBlockQueue.getAllFreeBlocks (c.groupDraws r hits loc ext) ∧
      ∀ a ∈ c.withHits hits, InAlignMode a.1 fun _ => a.1.isNew r = true →
        (a.1.hitTable c.blockPool.nullBlock (loc + ext) a.2).length +
            (a.1.computedDraw c.blockPool.nullBlock r a.2 loc ext).2.toNat ≤
          cdiv (total + args.numNewTokens).toNat a.1.blockSize

section runs
variable (cond : KVCacheManager → Request → AllocateSlotsArgs → Prop)
  (level : BlockHash → ℕ) (hashLength : ℕ)

/-- What the callers promise about the hashes of a request: they form a chain, and they only
grow while the request holds blocks. -/
structure HashesGrow (m : KVCacheManager) (hashes : RequestId → List BlockHash)
    (request : Request) : Prop where
  levelled : LevelledHashes level hashLength request.blockHashes
  grow : hashes request.requestId <+: request.blockHashes ∨
    ∀ x ∈ m.coordinator.singleTypeManagers, x.blocksOf request.requestId = []

/-- The runs of a manager whose `allocate_slots` calls meet `cond`, with the block hashes
that the requests had in their last call. The hits of a call are those `get_computed_blocks`
returns in the same state; a call that raises ends the run. -/
inductive ManagerReachable : KVCacheManager → (RequestId → List BlockHash) → Prop
  | start {cfg : KVCacheManagerConfig} {m : KVCacheManager} (h : KVCacheManager.init cfg = .ok m) :
      ManagerReachable m fun _ => []
  | allocateSlots {m m' : KVCacheManager} {hashes : RequestId → List BlockHash}
      {request : Request} {args : AllocateSlotsArgs} {newBlocks : Option (List (List BlockId))}
      (hr : ManagerReachable m hashes) (hgrow : HashesGrow level hashLength m hashes request)
      (hhits : ∀ blocks ∈ args.newComputedBlocks, ∃ hit,
        m.getComputedBlocks request = .ok hit ∧ blocks = hit.blocks)
      (hcond : cond m request args) (h : m.allocateSlots request args = .ok (newBlocks, m')) :
      ManagerReachable m' (Function.update hashes request.requestId request.blockHashes)
  | free {m m' : KVCacheManager} {hashes : RequestId → List BlockHash} {request : Request}
      (hr : ManagerReachable m hashes) (h : m.free request = .ok m') :
      ManagerReachable m' hashes
  | removeSkippedBlocks {m m' : KVCacheManager} {hashes : RequestId → List BlockHash}
      {requestId : RequestId} {totalComputedTokens : ℕ} (hr : ManagerReachable m hashes)
      (h : m.removeSkippedBlocks requestId totalComputedTokens = .ok m') :
      ManagerReachable m' hashes

end runs

/-- A position of the block tables. -/
structure TablePosition where
  requestId : RequestId
  groupId : ℕ
  index : ℕ
  deriving DecidableEq

namespace KVCacheManager

def blockAt (m : KVCacheManager) (p : TablePosition) : Option BlockId :=
  m.coordinator.singleTypeManagers[p.groupId]?.bind fun x => (x.blocksOf p.requestId)[p.index]?

/-- The hash of a request at a position, at the granularity of the group. -/
def hashAt (m : KVCacheManager) (hashes : RequestId → List BlockHash) (p : TablePosition) :
    Option BlockHash :=
  m.coordinator.singleTypeManagers[p.groupId]?.bind fun x =>
    (hashesAt m.blockPool.hashBlockSize x.blockSize (hashes p.requestId))[p.index]?

/-- Positions that share a non-null block: the same index of the same group in two requests,
both with the hash that the block carries. -/
def NoAliasing (m : KVCacheManager) (hashes : RequestId → List BlockHash) : Prop :=
  ∀ p q b, p ≠ q → m.blockAt p = some b → m.blockAt q = some b → b ≠ m.blockPool.nullBlock →
    p.groupId = q.groupId ∧ p.index = q.index ∧ p.requestId ≠ q.requestId ∧
      ∃ hash, m.blockPool.blockHash b = some ⟨hash, p.groupId⟩ ∧
        m.hashAt hashes p = some hash ∧ m.hashAt hashes q = some hash

end KVCacheManager

/-- The invariant along a run. -/
structure ManagerInv (level : BlockHash → ℕ) (hashLength : ℕ) (m : KVCacheManager)
    (hashes : RequestId → List BlockHash) : Prop where
  cache : CacheInv SpareInv m.coordinator hashes
  caching : m.coordinator.enableCaching = m.enableCaching
  levelled : ∀ r, LevelledHashes level hashLength (hashes r)

theorem heldBy_two {ms : List SingleTypeKVCacheManager} {i j : ℕ} (hij : i ≠ j)
    {m m' : SingleTypeKVCacheManager} (hi : ms[i]? = some m) (hj : ms[j]? = some m')
    (b : BlockId) : m.refs b + m'.refs b ≤ heldBy ms b := by
  induction ms generalizing i j with
  | nil => simp at hi
  | cons x ms ih =>
    rw [heldBy_cons]
    cases i with
    | zero =>
      obtain rfl : x = m := by simpa using hi
      cases j with
      | zero => exact absurd rfl hij
      | succ j =>
        have := refs_le_heldBy (mem_of_getElem? (by simpa using hj : ms[j]? = some m')) b
        omega
    | succ i =>
      cases j with
      | zero =>
        obtain rfl : x = m' := by simpa using hj
        have := refs_le_heldBy (mem_of_getElem? (by simpa using hi : ms[i]? = some m)) b
        omega
      | succ j =>
        have hij' : i ≠ j := fun e => hij (by rw [e])
        have := ih hij' (by simpa using hi) (by simpa using hj)
        omega

theorem ManagerInv.noAliasing {level : BlockHash → ℕ} {hashLength : ℕ} {m : KVCacheManager}
    {hashes : RequestId → List BlockHash} (h : ManagerInv level hashLength m hashes) :
    m.NoAliasing hashes := by
  obtain ⟨free, hledger⟩ := h.cache.ledger
  rintro ⟨r, g, i⟩ ⟨r', g', i'⟩ b hpq hp hq hb
  simp only [KVCacheManager.blockAt, Option.bind_eq_some_iff] at hp hq
  obtain ⟨x, hx, hgetx⟩ := hp
  obtain ⟨y, hy, hgety⟩ := hq
  have hxmem := mem_of_getElem? hx
  have hymem := mem_of_getElem? hy
  have hcount := count_pos_iff.mpr (mem_of_getElem? hgetx)
  have hcount' := count_pos_iff.mpr (mem_of_getElem? hgety)
  have hrefs := hledger.refs b hb
  have htwo : 2 ≤ m.coordinator.blockPool.refCnt b := by
    by_cases hg : g = g'
    · subst hg
      obtain rfl : x = y := Option.some.inj (hx.symm.trans hy)
      have hle := refs_le_heldBy hxmem b
      by_cases hr : r = r'
      · subst hr
        have hii := index_unique (hledger.count_le_one hxmem hb r) hgetx hgety
        exact absurd (by rw [hii]) hpq
      · have := x.count_add_count_le_refs hr b
        omega
    · have h1 := heldBy_two hg hx hy b
      have h2 := x.count_le_refs r b
      have h3 := y.count_le_refs r' b
      omega
  have hhashed : m.coordinator.blockPool.blockHash b ≠ none := by
    intro hnone
    have := hledger.unshared b hb hnone
    omega
  obtain ⟨key, hkey⟩ := Option.ne_none_iff_exists'.mp hhashed
  obtain ⟨hash, hhx, rfl⟩ := (hledger.table x hxmem).keyed r i b key hgetx hb hkey
  obtain ⟨hash', hhy, he⟩ := (hledger.table y hymem).keyed r' i' b _ hgety hb hkey
  rw [BlockHashWithGroupId.mk.injEq] at he
  obtain ⟨rfl, hgid⟩ := he
  rw [h.cache.setup.groupIds g x hx, h.cache.setup.groupIds g' y hy] at hgid
  subst hgid
  obtain rfl : x = y := Option.some.inj (hx.symm.trans hy)
  obtain rfl := (h.levelled r).index_eq (h.levelled r') hhx hhy
  have hrr : r ≠ r' := by
    rintro rfl
    exact hpq rfl
  refine ⟨rfl, rfl, hrr, hash, ?_, ?_, ?_⟩
  · rw [h.cache.setup.groupIds g x hx] at hkey
    exact hkey
  · simp only [KVCacheManager.hashAt, hx, Option.bind_some]
    exact hhx
  · simp only [KVCacheManager.hashAt, hx, Option.bind_some]
    exact hhy

theorem CacheInv.rehash {P : BlockPool → SingleTypeKVCacheManager → Prop} {c : KVCacheCoordinator}
    {hashes : RequestId → List BlockHash} (h : CacheInv P c hashes) {r : RequestId}
    {blockHashes : List BlockHash}
    (hnodup : ∀ blockSize,
      (hashesAt c.blockPool.hashBlockSize blockSize blockHashes).Nodup)
    (hgrow : hashes r <+: blockHashes ∨ ∀ x ∈ c.singleTypeManagers, x.blocksOf r = []) :
    CacheInv P c (update hashes r blockHashes) := by
  obtain ⟨free, hledger⟩ := h.ledger
  refine ⟨h.setup, ⟨free, hledger.inv, hledger.refs, hledger.unshared, fun m hm => ?_⟩, h.each⟩
  have ht := hledger.table m hm
  refine ⟨ht.lt, fun r' => ?_, fun r' => ?_⟩
  · by_cases hr : r' = r
    · subst hr
      rw [update_self]
      intro i b key hget hne hkey
      rcases hgrow with hprefix | hempty
      · obtain ⟨hash, hi, hk⟩ := ht.keyed r' i b key hget hne hkey
        exact ⟨hash, hashesAt_prefix hprefix hi, hk⟩
      · rw [hempty m hm] at hget
        simp at hget
    · rw [update_of_ne hr]
      exact ht.keyed r'
  · by_cases hr : r' = r
    · subst hr
      rw [update_self]
      exact hnodup m.blockSize
    · rw [update_of_ne hr]
      exact ht.nodup r'

section step
variable {level : BlockHash → ℕ} {hashLength : ℕ} {m m' : KVCacheManager}
  {hashes : RequestId → List BlockHash} {request : Request} {args : AllocateSlotsArgs}

theorem hits_keyed_of_call (h : CacheInv SpareInv m.coordinator hashes)
    (hhits : ∀ blocks ∈ args.newComputedBlocks, ∃ hit,
      m.getComputedBlocks request = .ok hit ∧ blocks = hit.blocks)
    {gid : ℕ} {x : SingleTypeKVCacheManager}
    (hx : m.coordinator.singleTypeManagers[gid]? = some x) :
    KeyedHits m.coordinator.blockPool
      (hashesAt m.coordinator.blockPool.hashBlockSize x.blockSize request.blockHashes)
      x.kvCacheGroupId ((args.newComputedBlocks.getD m.emptyKvCacheBlocks).getD gid []) := by
  have hempty : KeyedHits m.coordinator.blockPool
      (hashesAt m.coordinator.blockPool.hashBlockSize x.blockSize request.blockHashes)
      x.kvCacheGroupId (m.emptyKvCacheBlocks.getD gid []) := by
    intro i b hget
    rw [KVCacheManager.emptyKvCacheBlocks, getD_eq_getElem?_getD, List.getElem?_replicate] at hget
    split_ifs at hget <;> simp at hget
  cases hargs : args.newComputedBlocks with
  | none => exact hempty
  | some blocks =>
    obtain ⟨hit, hget, rfl⟩ := hhits blocks hargs
    obtain ⟨free, hledger⟩ := h.ledger
    unfold KVCacheManager.getComputedBlocks at hget
    split_ifs at hget
    · cases hget
      exact hempty
    · exact h.setup.hits_keyed hledger.inv hget hx

variable {c c' : KVCacheCoordinator} {r : RequestId}

variable {hits : List (List BlockId)} {numTokens : ℕ}

theorem CacheInv.allocateNewComputedBlocks {loc ext : ℕ} (h : CacheInv SpareInv c hashes)
    (hkeyed : ∀ (gid : ℕ) x, c.singleTypeManagers[gid]? = some x →
      KeyedHits c.blockPool (hashesAt c.blockPool.hashBlockSize x.blockSize (hashes r))
        x.kvCacheGroupId (hits.getD gid []))
    (hdraws : ∀ free, c.blockPool.freeBlockQueue.Holds free →
      DrawsSpareHits free (c.groupDraws r hits loc ext))
    (hfits : ∀ a ∈ c.withHits hits, InAlignMode a.1 fun _ => a.1.isNew r = true →
      (a.1.hitTable c.blockPool.nullBlock (loc + ext) a.2).length +
        (a.1.computedDraw c.blockPool.nullBlock r a.2 loc ext).2.toNat ≤
          cdiv numTokens a.1.blockSize)
    (hr : c.allocateNewComputedBlocks r hits loc ext = .ok c') :
    CacheInv (SparePending r numTokens) c' hashes := by
  obtain ⟨free, hledger⟩ := h.ledger
  simp only [KVCacheCoordinator.allocateNewComputedBlocks, bind_eq_ok,
    pure_eq_ok] at hr
  obtain ⟨⟨ms, pool'⟩, hforEach, rfl⟩ := hr
  have hready : ∀ a ∈ c.withHits hits,
      HitsReady c.blockPool hashes r loc ext numTokens a := by
    intro a ha
    obtain ⟨i, hi, hhits⟩ := KVCacheCoordinator.mem_withHits ha
    refine ⟨h.each a.1 (mem_of_getElem? hi), ?_, hfits a ha⟩
    have hk := hkeyed i a.1 hi
    rw [← hhits] at hk
    unfold computedDraw
    split_ifs
    · exact hk.skip
    · intro j b hget hne
      rw [append_nil, List.getElem?_replicate] at hget
      split_ifs at hget
      exact absurd (Option.some.inj hget).symm hne
  obtain ⟨hledger', hframe, hsetup, hpending⟩ := forEach_computed
    (by rw [KVCacheCoordinator.withHits_fst]; exact hledger) hready
    (hdraws free hledger.inv.holds) hforEach
  rw [KVCacheCoordinator.withHits_fst] at hsetup
  exact ⟨h.setup.update hsetup hframe.config, hledger', hpending⟩

theorem enableCaching_of_update {x : Raises (List SingleTypeKVCacheManager × BlockPool)}
    (h : (x >>= fun result => pure (c.update result)) = .ok c') :
    c'.enableCaching = c.enableCaching := by
  simp only [bind_eq_ok, pure_eq_ok] at h
  obtain ⟨result, -, rfl⟩ := h
  rfl

theorem allocateNewBlocks_enableCaching {main enc : ℕ} {new : List (List BlockId)}
    (h : c.allocateNewBlocks r numTokens main enc = .ok (new, c')) :
    c'.enableCaching = c.enableCaching := by
  simp only [KVCacheCoordinator.allocateNewBlocks, bind_eq_ok, pure_eq_ok, Prod.mk.injEq] at h
  obtain ⟨result, -, -, rfl⟩ := h
  rfl

/-- The coordinator and the flag of the manager agree, and the coordinator's books are kept. -/
structure Kept (m : KVCacheManager) (hashes : RequestId → List BlockHash) : Prop where
  cache : CacheInv SpareInv m.coordinator hashes
  caching : m.coordinator.enableCaching = m.enableCaching

theorem Kept.commitSlots (h : Kept m hashes)
    (hreq : hashes request.requestId = request.blockHashes) {loc needSlot main : ℕ}
    {newBlocks : List (List BlockId)}
    (hcomputed : ∀ c, hits.any (· ≠ []) = true ∨ args.numExternalComputedTokens > 0 →
      m.coordinator.allocateNewComputedBlocks request.requestId hits loc
        args.numExternalComputedTokens = .ok c →
      CacheInv (SparePending request.requestId main) c hashes)
    (hr : m.commitSlots request args hits loc needSlot main = .ok (newBlocks, m')) :
    Kept m' hashes := by
  simp only [KVCacheManager.commitSlots, bind_eq_ok] at hr
  obtain ⟨c₁, hc₁, ⟨new, c₂⟩, hc₂, hr⟩ := hr
  have hpending : CacheInv (SparePending request.requestId main) c₁ hashes ∧
      c₁.enableCaching = m.coordinator.enableCaching := by
    split_ifs at hc₁ with hcall
    · exact ⟨hcomputed c₁ hcall hc₁, enableCaching_of_update hc₁⟩
    · cases hc₁
      refine ⟨⟨h.cache.setup, h.cache.ledger, fun x hx => ?_⟩, rfl⟩
      exact InAlignMode.mono (h.cache.each x hx) rfl fun n _ _ hp r' => .inl (hp r')
  have hcovered := hpending.1.allocateNewBlocks hc₂
  have hcaching : c₂.enableCaching = m.enableCaching :=
    ((allocateNewBlocks_enableCaching hc₂).trans hpending.2).trans h.caching
  split_ifs at hr with hskip
  · simp only [pure_eq_ok, Prod.mk.injEq] at hr
    obtain ⟨-, rfl⟩ := hr
    exact ⟨⟨hcovered.setup, hcovered.ledger, fun x hx => (hcovered.each x hx).1⟩, hcaching⟩
  · simp only [bind_eq_ok, pure_eq_ok, Prod.mk.injEq] at hr
    obtain ⟨c₃, hc₃, -, rfl⟩ := hr
    have hon : c₂.enableCaching = true := by
      rw [hcaching]
      simp only [not_or, Bool.not_eq_false] at hskip
      exact hskip.1
    exact ⟨hcovered.cacheBlocks hon hreq (Nat.min_le_left _ _) hc₃,
      (enableCaching_of_update hc₃).trans hcaching⟩

theorem removeSkippedBlocks_coordinator_hashes {n : ℕ} (hr : c.removeSkippedBlocks r n = .ok c') :
    SameHashes c.blockPool c'.blockPool := by
  simp only [KVCacheCoordinator.removeSkippedBlocks, bind_eq_ok, pure_eq_ok] at hr
  obtain ⟨⟨ms, pool'⟩, hforEach, rfl⟩ := hr
  show SameHashes c.blockPool pool'
  generalize c.singleTypeManagers = as at hforEach
  generalize c.blockPool = pool at hforEach ⊢
  induction as generalizing pool ms with
  | nil =>
    obtain ⟨-, rfl⟩ : [] = ms ∧ pool = pool' := by
      simpa [KVCacheCoordinator.forEach] using hforEach
    exact .rfl
  | cons a as ih =>
    simp only [KVCacheCoordinator.forEach, bind_eq_ok, pure_eq_ok, Prod.mk.injEq] at hforEach
    obtain ⟨⟨b, pool₁⟩, hone, ⟨bs', pool₂⟩, hrest, rfl, rfl⟩ := hforEach
    exact (removeSkippedBlocks_sameHashes hone).trans (ih _ _ hrest)

section skipped
variable {m m' : SingleTypeKVCacheManager} {pool pool' : BlockPool} {r : RequestId} {n : ℕ}

theorem freeBlocks_nil (pool : BlockPool) (prepend : Bool) :
    pool.freeBlocks [] prepend = .ok pool := by
  cases prepend <;> rfl

/-- What `remove_skipped_blocks` of a group changes: its table, and the free queue only where the
request holds blocks. -/
structure OnlyTable (r : RequestId) (m : SingleTypeKVCacheManager) (pool : BlockPool)
    (m' : SingleTypeKVCacheManager) (pool' : BlockPool) : Prop where
  table : ∃ tables, m' = { m with reqToBlocks := tables }
  queue : m.blocksOf r = [] → m'.blocksOf r = [] ∧ pool'.freeBlockQueue = pool.freeBlockQueue

theorem baseRemoveSkippedBlocks_onlyTable
    (hr : m.baseRemoveSkippedBlocks pool r n = .ok (m', pool')) : OnlyTable r m pool m' pool' := by
  unfold baseRemoveSkippedBlocks at hr
  split_ifs at hr
  · cases hr
    exact ⟨⟨m.reqToBlocks, rfl⟩, fun h => ⟨h, rfl⟩⟩
  · simp only [bind_eq_ok, pure_eq_ok, Prod.mk.injEq] at hr
    obtain ⟨pool₁, hfree, rfl, rfl⟩ := hr
    refine ⟨⟨_, rfl⟩, fun h => ?_⟩
    rw [h] at hfree ⊢
    simp only [length_nil, Nat.min_zero, skipLoop, freeByHash, filter_nil, freeBlocks_nil,
      ok_bind] at hfree ⊢
    cases hfree
    exact ⟨by rw [blocksOf_setBlocks, if_pos rfl], rfl⟩

theorem freeLastState_onlyTable (hr : m.freeLastState pool r n = .ok (m', pool')) :
    OnlyTable r m pool m' pool' := by
  have hsame : OnlyTable r m pool m pool := ⟨⟨m.reqToBlocks, rfl⟩, fun h => ⟨h, rfl⟩⟩
  unfold freeLastState at hr
  split at hr
  · cases hr
    exact hsame
  · split_ifs at hr
    · dsimp only at hr
      split at hr
      · simp at hr
      · rename_i index hindex
        split_ifs at hr
        · simp only [bind_eq_ok, pure_eq_ok, Prod.mk.injEq] at hr
          obtain ⟨pool₁, -, rfl, rfl⟩ := hr
          refine ⟨⟨_, rfl⟩, fun h => ?_⟩
          -- an empty table has no index
          simp only [h, pyIndex, length_nil, Nat.cast_zero] at hindex
          split_ifs at hindex <;> omega
        · cases hr
          exact hsame
    · cases hr
      exact hsame

theorem removeSkippedBlocks_onlyTable (hr : m.removeSkippedBlocks pool r n = .ok (m', pool')) :
    OnlyTable r m pool m' pool' := by
  unfold SingleTypeKVCacheManager.removeSkippedBlocks at hr
  split at hr
  · simp only [bind_eq_ok] at hr
    obtain ⟨⟨m₁, pool₁⟩, hbase, hr⟩ := hr
    obtain ⟨⟨tables, rfl⟩, hqueue⟩ := baseRemoveSkippedBlocks_onlyTable hbase
    split_ifs at hr
    · obtain ⟨⟨tables', rfl⟩, hqueue'⟩ := freeLastState_onlyTable hr
      refine ⟨⟨tables', rfl⟩, fun h => ?_⟩
      obtain ⟨hempty, hfirst⟩ := hqueue h
      obtain ⟨hempty', hsecond⟩ := hqueue' hempty
      exact ⟨hempty', hsecond.trans hfirst⟩
    · cases hr
      exact ⟨⟨tables, rfl⟩, hqueue⟩
  · exact baseRemoveSkippedBlocks_onlyTable hr

variable {c c' : KVCacheCoordinator}

/-- The groups after `remove_skipped_blocks`, and the free queue where the request holds nothing. -/
theorem removeSkippedBlocks_groups (hr : c.removeSkippedBlocks r n = .ok c') :
    List.Forall₂ (fun x x' => ∃ tables, x' = { x with reqToBlocks := tables })
      c.singleTypeManagers c'.singleTypeManagers ∧
    ((∀ x ∈ c.singleTypeManagers, x.blocksOf r = []) →
      c'.blockPool.freeBlockQueue = c.blockPool.freeBlockQueue) := by
  simp only [KVCacheCoordinator.removeSkippedBlocks, bind_eq_ok, pure_eq_ok] at hr
  obtain ⟨⟨ms, pool'⟩, hforEach, rfl⟩ := hr
  dsimp only [KVCacheCoordinator.update]
  generalize c.singleTypeManagers = as at hforEach ⊢
  generalize c.blockPool = pool at hforEach ⊢
  induction as generalizing pool ms with
  | nil =>
    obtain ⟨rfl, rfl⟩ : [] = ms ∧ pool = pool' := by
      simpa [KVCacheCoordinator.forEach] using hforEach
    exact ⟨.nil, fun _ => rfl⟩
  | cons a as ih =>
    simp only [KVCacheCoordinator.forEach, bind_eq_ok, pure_eq_ok, Prod.mk.injEq] at hforEach
    obtain ⟨⟨b, pool₁⟩, hone, ⟨bs, pool₂⟩, hrest, rfl, rfl⟩ := hforEach
    obtain ⟨htable, hqueue⟩ := removeSkippedBlocks_onlyTable hone
    obtain ⟨htables, hqueues⟩ := ih _ _ hrest
    refine ⟨.cons htable htables, fun h => ?_⟩
    obtain ⟨ha, has⟩ := forall_mem_cons.mp h
    exact (hqueues has).trans (hqueue ha).2

variable {hits : List (List BlockId)} {loc ext : ℕ}

theorem removeSkippedBlocks_groupDraws (hr : c.removeSkippedBlocks r n = .ok c') :
    c'.groupDraws r hits loc ext = c.groupDraws r hits loc ext := by
  have hgroups := (removeSkippedBlocks_groups hr).1
  have hnull := (removeSkippedBlocks_coordinator_hashes hr).config.nullBlock
  unfold KVCacheCoordinator.groupDraws KVCacheCoordinator.withHits
  rw [hnull, map_map, map_map]
  apply List.ext_getElem (by simp [hgroups.length_eq])
  intro i hi' hi
  rw [length_map, length_zipIdx] at hi hi'
  obtain ⟨tables, htables⟩ := hgroups.get hi hi'
  simp only [get_eq_getElem] at htables
  simp only [List.getElem_map, List.getElem_zipIdx, comp_apply, htables]
  rfl

/-- A group with its hits, as it was before `remove_skipped_blocks`. -/
theorem mem_withHits_before (hr : c.removeSkippedBlocks r n = .ok c')
    {a : SingleTypeKVCacheManager × List BlockId} (ha : a ∈ c'.withHits hits) :
    ∃ x ∈ c.withHits hits, ∃ tables, a = ({ x.1 with reqToBlocks := tables }, x.2) := by
  have hgroups := (removeSkippedBlocks_groups hr).1
  obtain ⟨i, hi, hhits⟩ := KVCacheCoordinator.mem_withHits ha
  obtain ⟨hlt', hget⟩ := List.getElem?_eq_some_iff.mp hi
  have hlt : i < c.singleTypeManagers.length := hgroups.length_eq ▸ hlt'
  obtain ⟨tables, htables⟩ := hgroups.get hlt hlt'
  rw [get_eq_getElem, get_eq_getElem, hget] at htables
  refine ⟨(c.singleTypeManagers[i], hits.getD i []), ?_, tables, Prod.ext htables hhits⟩
  exact mem_map.mpr ⟨(c.singleTypeManagers[i], i),
    mem_zipIdx_iff_getElem?.mpr (List.getElem?_eq_getElem hlt), rfl⟩

theorem HitsOutOfReach.sparesHits {m : KVCacheManager} {request : Request}
    {args : AllocateSlotsArgs} (h : HitsOutOfReach m request args) :
    SparesHits m request args := by
  intro hcall c hc
  have hnull := (removeSkippedBlocks_coordinator_hashes hc).config.nullBlock
  rcases h hcall with hold | ⟨hempty, hback, hroom⟩
  · have hnew : ∀ a ∈ c.withHits (args.newComputedBlocks.getD m.emptyKvCacheBlocks),
        a.1.isNew request.requestId = false := by
      intro a ha
      obtain ⟨x, hx, tables, rfl⟩ := mem_withHits_before hc ha
      obtain ⟨i, hi, -⟩ := KVCacheCoordinator.mem_withHits hx
      exact hold x.1 (mem_of_getElem? hi)
    refine ⟨fun free _ => drawsSpareHits_of_zero fun taken htaken => ?_,
      fun a ha n _ _ h => absurd h (by simp [hnew a ha])⟩
    obtain ⟨a, ha, rfl⟩ := mem_map.mp htaken
    rw [computedDraw, if_neg (by simp [hnew a ha])]
  · refine ⟨fun free hfree => ?_, fun a ha => ?_⟩
    · rw [removeSkippedBlocks_groupDraws hc]
      rw [(removeSkippedBlocks_groups hc).2 hempty] at hfree
      rw [FreeKVCacheBlockQueue.getAllFreeBlocks_of_holds hfree] at hback
      exact hback.drawsSpareHits
    · obtain ⟨x, hx, tables, rfl⟩ := mem_withHits_before hc ha
      rw [hnull]
      exact hroom x hx

end skipped

theorem KeyedHits.sameHashes {pool pool' : BlockPool} {hashes : List BlockHash} {groupId : ℕ}
    {hits : List BlockId} (h : KeyedHits pool hashes groupId hits) (hs : SameHashes pool pool') :
    KeyedHits pool' hashes groupId hits := by
  intro i b hget hne
  rw [hs.config.nullBlock] at hne
  rw [hs.blockHash]
  exact h i b hget hne

theorem Kept.allocateSlots (h : Kept m hashes)
    (hreq : hashes request.requestId = request.blockHashes)
    (hhits : ∀ blocks ∈ args.newComputedBlocks, ∃ hit,
      m.getComputedBlocks request = .ok hit ∧ blocks = hit.blocks)
    (hcond : SparesHits m request args) {newBlocks : Option (List (List BlockId))}
    (hr : m.allocateSlots request args = .ok (newBlocks, m')) : Kept m' hashes := by
  unfold KVCacheManager.allocateSlots at hr
  by_cases hzero : args.numNewTokens = 0 ∧ args.numExternalComputedTokens = 0
  · rw [if_pos hzero] at hr
    simp at hr
  rw [if_neg hzero] at hr
  simp only [bind_eq_ok] at hr
  obtain ⟨fits, -, hr⟩ := hr
  by_cases hfits : fits = false
  · rw [if_pos hfits] at hr
    simp only [pure_eq_ok, Prod.mk.injEq] at hr
    obtain ⟨-, rfl⟩ := hr
    exact h
  rw [if_neg hfits] at hr
  simp only [bind_eq_ok] at hr
  obtain ⟨c₁, hc₁, count, -, hr⟩ := hr
  obtain ⟨hcache₁, hsetup₁⟩ := h.cache.removeSkippedBlocks hc₁
  have hkept₁ : Kept { m with coordinator := c₁ } hashes :=
    ⟨hcache₁, (enableCaching_of_update hc₁).trans h.caching⟩
  split at hr
  · simp only [pure_eq_ok, Prod.mk.injEq] at hr
    obtain ⟨-, rfl⟩ := hr
    exact hkept₁
  simp only [bind_eq_ok, pure_eq_ok, Prod.mk.injEq] at hr
  obtain ⟨⟨new, m₂⟩, hcommit, -, rfl⟩ := hr
  apply hkept₁.commitSlots hreq _ hcommit
  intro c hcall hc
  obtain ⟨hdraws, hroom⟩ := hcond hcall c₁ hc₁
  apply hcache₁.allocateNewComputedBlocks _ hdraws hroom hc
  intro gid x hx
  obtain ⟨hlt, rfl⟩ := List.getElem?_eq_some_iff.mp hx
  have hlt' : gid < m.coordinator.singleTypeManagers.length := hsetup₁.length_eq ▸ hlt
  have hsame := hsetup₁.get hlt' hlt
  have hpools := removeSkippedBlocks_coordinator_hashes hc₁
  have hkeyed := hits_keyed_of_call h.cache hhits (List.getElem?_eq_getElem hlt')
  rw [hreq, hpools.config.hashBlockSize]
  simp only [get_eq_getElem] at hsame
  rw [hsame.blockSize, hsame.groupId]
  exact hkeyed.sameHashes hpools

section
variable (h : ManagerInv level hashLength m hashes)
include h

theorem ManagerInv.allocateSlots (hgrow : HashesGrow level hashLength m hashes request)
    (hhits : ∀ blocks ∈ args.newComputedBlocks, ∃ hit,
      m.getComputedBlocks request = .ok hit ∧ blocks = hit.blocks)
    (hcond : SparesHits m request args) {newBlocks : Option (List (List BlockId))}
    (hr : m.allocateSlots request args = .ok (newBlocks, m')) :
    ManagerInv level hashLength m'
      (update hashes request.requestId request.blockHashes) := by
  have hrehash := h.cache.rehash (fun _ => hgrow.levelled.nodup) hgrow.grow
  have hkept : Kept m (update hashes request.requestId request.blockHashes) := ⟨hrehash, h.caching⟩
  obtain ⟨hcache, hcaching⟩ := hkept.allocateSlots (update_self ..) hhits hcond hr
  refine ⟨hcache, hcaching, fun r => ?_⟩
  by_cases hr : r = request.requestId
  · rw [hr, update_self]
    exact hgrow.levelled
  · rw [update_of_ne hr]
    exact h.levelled r

theorem ManagerInv.free (hr : m.free request = .ok m') : ManagerInv level hashLength m' hashes := by
  simp only [KVCacheManager.free, bind_eq_ok, pure_eq_ok] at hr
  obtain ⟨c, hc, rfl⟩ := hr
  exact ⟨h.cache.free hc, (enableCaching_of_update hc).trans h.caching, h.levelled⟩

theorem ManagerInv.removeSkippedBlocks {n : ℕ} (hr : m.removeSkippedBlocks r n = .ok m') :
    ManagerInv level hashLength m' hashes := by
  simp only [KVCacheManager.removeSkippedBlocks, bind_eq_ok, pure_eq_ok] at hr
  obtain ⟨c, hc, rfl⟩ := hr
  exact ⟨(h.cache.removeSkippedBlocks hc).1, (enableCaching_of_update hc).trans h.caching,
    h.levelled⟩

end

theorem ManagerInv.init {cfg : KVCacheManagerConfig} (h : KVCacheManager.init cfg = .ok m) :
    ManagerInv level hashLength m fun _ => [] := by
  simp only [KVCacheManager.init, bind_eq_ok, pure_eq_ok] at h
  obtain ⟨c, hc, rfl⟩ := h
  have hbuilt := KVCacheManagerConfig.getKvCacheCoordinator_built hc
  obtain ⟨⟨free, hinv⟩, hfresh⟩ := PoolInv.init_fresh hbuilt.pool
  have hempty : ∀ x ∈ c.singleTypeManagers, x.reqToBlocks = .empty ∧
      x.allocatedBlockReqs = [] := by
    intro x hx
    obtain ⟨i, hi⟩ := mem_iff_getElem?.mp hx
    obtain ⟨g, -, rfl⟩ := KVCacheManagerConfig.manager_of_getElem? (hbuilt.managers ▸ hi)
    exact ⟨rfl, rfl⟩
  have hblocks : ∀ x ∈ c.singleTypeManagers, ∀ r, x.blocksOf r = [] := by
    intro x hx r
    rw [blocksOf, (hempty x hx).1]
    rfl
  have hnil : LevelledHashes level hashLength [] := by
    intro i hash hget
    simp at hget
  refine ⟨⟨hbuilt.setup, ⟨free, hinv, fun b _ => ?_, fun b _ _ => ?_, fun x hx => ?_⟩,
    fun x hx => ?_⟩, hbuilt.enableCaching, fun r => hnil⟩
  · have hheld : heldBy c.singleTypeManagers b = 0 := by
      apply sum_eq_zero
      intro n hn
      obtain ⟨x, hx, rfl⟩ := mem_map.mp hn
      rw [refs, (hempty x hx).1]
      rfl
    rw [hfresh.refCnt, hheld]
    rfl
  · rw [hfresh.refCnt]
    exact zero_le_one
  · refine ⟨fun r b hb => ?_, fun r i b key hget => ?_, fun r => hnil.nodup⟩
    · rw [hblocks x hx r] at hb
      simp at hb
    · rw [hblocks x hx r] at hget
      simp at hget
  · intro numSpec _ _ r
    left
    refine ⟨hblocks x hx r, ?_⟩
    rw [(hempty x hx).2]
    exact not_mem_nil

end step

theorem ManagerReachable.inv {level : BlockHash → ℕ} {hashLength : ℕ} {m : KVCacheManager}
    {hashes : RequestId → List BlockHash}
    (h : ManagerReachable SparesHits level hashLength m hashes) :
    ManagerInv level hashLength m hashes := by
  induction h with
  | start h => exact ManagerInv.init h
  | allocateSlots _ hgrow hhits hcond h ih => exact ih.allocateSlots hgrow hhits hcond h
  | free _ h ih => exact ih.free h
  | removeSkippedBlocks _ h ih => exact ih.removeSkippedBlocks h

theorem ManagerReachable.mono {cond cond' : KVCacheManager → Request → AllocateSlotsArgs → Prop}
    (himp : ∀ m request args, cond m request args → cond' m request args)
    {level : BlockHash → ℕ} {hashLength : ℕ} {m : KVCacheManager}
    {hashes : RequestId → List BlockHash} (h : ManagerReachable cond level hashLength m hashes) :
    ManagerReachable cond' level hashLength m hashes := by
  induction h with
  | start h => exact .start h
  | allocateSlots _ hgrow hhits hcond h ih =>
    exact ih.allocateSlots hgrow hhits (himp _ _ _ hcond) h
  | free _ h ih => exact ih.free h
  | removeSkippedBlocks _ h ih => exact ih.removeSkippedBlocks h

/-- Two positions share a block only as a cached block at the same index of one group. -/
theorem manager_run_noAliasing {level : BlockHash → ℕ} {hashLength : ℕ} {m : KVCacheManager}
    {hashes : RequestId → List BlockHash}
    (h : ManagerReachable HitsOutOfReach level hashLength m hashes) : m.NoAliasing hashes :=
  (h.mono fun _ _ _ => HitsOutOfReach.sparesHits).inv.noAliasing

/-- Full attention and a sliding window, both with blocks of one token. -/
def twoGroupConfig : KVCacheManagerConfig where
  numBlocks := 7
  kvCacheGroups := [
    { kvCacheSpec := {
        kind := .fullAttention .fullAttention, blockSize := 1, blockSize_pos := Nat.one_pos } },
    { kvCacheSpec := { kind := .slidingWindow 4, blockSize := 1, blockSize_pos := Nat.one_pos } }]
  maxModelLen := 16
  schedulerBlockSize := 1
  hashBlockSize := 1
  maxNumBatchedTokens := 16

/-- A request whose block hashes are the position and the token of each block. -/
def smallRequest (requestId : RequestId) (tokens : List ℕ) : Request where
  requestId
  promptTokenIds := some (tokens.map Int.ofNat)
  numPromptTokens := tokens.length
  allTokenIds := tokens.map Int.ofNat
  blockHashes := tokens.zipIdx.map fun t => [UInt8.ofNat t.2, UInt8.ofNat t.1]

def firstByte (hash : BlockHash) : ℕ := (hash.headD 0).toNat

variable {requestId : RequestId} {tokens : List ℕ}

theorem smallRequest_levelled (hlen : tokens.length ≤ 256) :
    LevelledHashes firstByte 2 (smallRequest requestId tokens).blockHashes := by
  intro i hash hget
  simp only [smallRequest, List.getElem?_map, List.getElem?_zipIdx, Option.map_map,
    Option.map_eq_some_iff] at hget
  obtain ⟨t, ht, rfl⟩ := hget
  have hlt := (List.getElem?_eq_some_iff.mp ht).1
  refine ⟨?_, rfl⟩
  simp only [firstByte, comp_apply, headD_cons, UInt8.toNat_ofNat', zero_add]
  omega

theorem smallRequest_grow {m : KVCacheManager} {hashes : RequestId → List BlockHash}
    (hlen : tokens.length ≤ 256) (hnew : hashes requestId = []) :
    HashesGrow firstByte 2 m hashes (smallRequest requestId tokens) := by
  refine ⟨smallRequest_levelled hlen, .inl ?_⟩
  show hashes requestId <+: _
  rw [hnew]
  exact nil_prefix

/-- The call of a request that found its first token in the cache. -/
def callWithHit (hit : CacheHitResult) (numExternalComputedTokens : ℕ) : AllocateSlotsArgs where
  numNewTokens := 1
  numNewComputedTokens := 1
  newComputedBlocks := some hit.blocks
  numExternalComputedTokens

/-- Two requests run and finish, in this order; a third finds the first token of its prompt in
the cache and loads the second from outside. The states before and after its call. -/
def externalLoadRun (first second : Request) :
    Raises (KVCacheManager × CacheHitResult × KVCacheManager) := do
  let m ← KVCacheManager.init twoGroupConfig
  let (_, m) ← m.allocateSlots (smallRequest 1 [7]) { numNewTokens := 1 }
  let (_, m) ← m.allocateSlots (smallRequest 3 [8, 9]) { numNewTokens := 2 }
  let m ← m.free first
  let m₁ ← m.free second
  let hit ← m₁.getComputedBlocks (smallRequest 2 [7, 5, 6])
  let (_, m₂) ← m₁.allocateSlots (smallRequest 2 [7, 5, 6]) (callWithHit hit 1)
  pure (m₁, hit, m₂)

theorem externalLoadRun_reachable (cond : KVCacheManager → Request → AllocateSlotsArgs → Prop)
    (hnew : ∀ m requestId tokens n, cond m (smallRequest requestId tokens) { numNewTokens := n })
    {first second : Request} {s : KVCacheManager × CacheHitResult × KVCacheManager}
    (h : externalLoadRun first second = .ok s)
    (hcond : cond s.1 (smallRequest 2 [7, 5, 6]) (callWithHit s.2.1 1)) :
    ∃ hashes, ManagerReachable cond firstByte 2 s.2.2 hashes := by
  simp only [externalLoadRun, bind_eq_ok, pure_eq_ok] at h
  obtain ⟨m₀, h₀, ⟨b₁, m₁⟩, h₁, ⟨b₂, m₂⟩, h₂, m₃, h₃, m₄, h₄, hit, hhit, ⟨b₅, m₅⟩, h₅, rfl⟩ := h
  have hreach : ManagerReachable cond firstByte 2 m₀ fun _ => [] := .start h₀
  have hreach₁ := hreach.allocateSlots (smallRequest_grow (by decide) rfl) (by simp)
    (hnew ..) h₁
  have hreach₂ := hreach₁.allocateSlots (smallRequest_grow (by decide) rfl) (by simp)
    (hnew ..) h₂
  have hreach₄ := (hreach₂.free h₃).free h₄
  exact ⟨_, hreach₄.allocateSlots (smallRequest_grow (by decide) rfl)
    (fun blocks hb => ⟨hit, hhit, (Option.some.inj hb).symm⟩) hcond h₅⟩

/-- The prefix is freed last and stands behind the blocks that are drawn. -/
theorem manager_run_noAliasing_externalLoad : ∃ m hashes,
    ManagerReachable HitsOutOfReach firstByte 2 m hashes ∧ m.NoAliasing hashes ∧
      m.blockAt ⟨2, 0, 1⟩ = some 4 ∧ m.blockAt ⟨2, 1, 0⟩ = some 2 := by
  obtain ⟨⟨m₁, hit, m⟩, hok, hfacts⟩ := exists_ok (show
    (externalLoadRun (smallRequest 3 [8, 9]) (smallRequest 1 [7])).toOption.map (fun s =>
      (s.2.2.blockAt ⟨2, 0, 1⟩, s.2.2.blockAt ⟨2, 1, 0⟩,
        (s.1.coordinator.singleTypeManagers.all fun x => x.blocksOf 2 = [] &&
          (x.kvCacheSpec.isFullAttention || x.kvCacheSpec.isSlidingWindow)),
        decide (HitsStandBack s.1.coordinator.blockPool.freeBlockQueue.getAllFreeBlocks
          (s.1.coordinator.groupDraws 2 s.2.1.blocks 1 1)))) =
        some (some 4, some 2, true, true) by decide +kernel)
  simp only [Prod.mk.injEq, all_eq_true, Bool.and_eq_true, decide_eq_true_eq] at hfacts
  obtain ⟨hdrawn, hhit, hgroups, hback⟩ := hfacts
  obtain ⟨hashes, hreach⟩ := externalLoadRun_reachable HitsOutOfReach (by
    intro m requestId tokens n hcall
    simp [KVCacheManager.emptyKvCacheBlocks] at hcall) hok (by
    refine fun _ => .inr ⟨fun x hx => (hgroups x hx).1, hback, fun a ha n hkind => ?_⟩
    obtain ⟨i, hi, -⟩ := KVCacheCoordinator.mem_withHits ha
    have hspec := (hgroups a.1 (mem_of_getElem? hi)).2
    simp [KVCacheSpec.isFullAttention, KVCacheSpec.isSlidingWindow, hkind] at hspec)
  exact ⟨m, hashes, hreach, manager_run_noAliasing hreach, hdrawn, hhit⟩

/-- Freed in the other order, the block that the second group found for the prefix is also a new
block of the first. -/
theorem manager_run_aliases : ∃ m hashes,
    ManagerReachable (fun _ _ _ => True) firstByte 2 m hashes ∧ ¬ m.NoAliasing hashes := by
  obtain ⟨⟨m₁, hit, m⟩, hok, hfacts⟩ := exists_ok (show
    (externalLoadRun (smallRequest 1 [7]) (smallRequest 3 [8, 9])).toOption.map (fun s =>
      (s.2.2.blockAt ⟨2, 0, 1⟩, s.2.2.blockAt ⟨2, 1, 0⟩, s.2.2.blockPool.nullBlock)) =
      some (some 2, some 2, 0) by decide +kernel)
  simp only [Prod.mk.injEq] at hfacts
  obtain ⟨hfst, hsnd, hnull⟩ := hfacts
  obtain ⟨hashes, hreach⟩ := externalLoadRun_reachable (fun _ _ _ => True)
    (fun _ _ _ _ => trivial) hok trivial
  refine ⟨m, hashes, hreach, fun halias => ?_⟩
  have hgroups := (halias _ _ 2 (by decide) hfst hsnd (by rw [hnull]; decide)).1
  simp at hgroups

/-- Over a run the reference counts are those of the tables, the blocks in no table are the free
ones, and no other block is missing: nothing leaks and nothing in use is given away. -/
theorem manager_run_accounted {level : BlockHash → ℕ} {hashLength : ℕ} {m : KVCacheManager}
    {hashes : RequestId → List BlockHash}
    (h : ManagerReachable SparesHits level hashLength m hashes) :
    m.blockPool.Accounted (heldBy m.coordinator.singleTypeManagers) ∧
    ∀ x ∈ m.coordinator.singleTypeManagers, ∀ r, ∀ b ∈ x.blocksOf r,
      b < m.blockPool.numGpuBlocks ∧ 0 < heldBy m.coordinator.singleTypeManagers b := by
  obtain ⟨free, hledger⟩ := h.inv.cache.ledger
  constructor
  · apply hledger.inv.accounted
    intro b hb
    rw [hledger.refs b hb, Nat.cast_zero, zero_add]
  · intro x hx r b hb
    exact ⟨(hledger.table x hx).lt r b hb,
      (refs_pos_of_mem hb).trans_le (le_sum_of_mem (mem_map_of_mem hx))⟩

theorem manager_run_accounted_oneRequest : ∃ m hashes,
    ManagerReachable SparesHits firstByte 2 m hashes ∧ m.blockPool.getNumFreeBlocks = 2 ∧
      m.blockPool.Accounted (heldBy m.coordinator.singleTypeManagers) := by
  obtain ⟨⟨b, m⟩, hok, hfree⟩ := exists_ok (show ((KVCacheManager.init twoGroupConfig >>= fun m =>
    m.allocateSlots (smallRequest 1 [7, 5]) { numNewTokens := 2 }).toOption.map fun x =>
      x.2.blockPool.getNumFreeBlocks) = some 2 by decide +kernel)
  obtain ⟨m₀, h₀, h₁⟩ := bind_eq_ok.mp hok
  have hstart : ManagerReachable SparesHits firstByte 2 m₀ fun _ => [] := .start h₀
  have hreach := hstart.allocateSlots (smallRequest_grow (by decide) rfl) (by simp)
    (by intro hcall; simp [KVCacheManager.emptyKvCacheBlocks] at hcall) h₁
  exact ⟨m, _, hreach, hfree, (manager_run_accounted hreach).1⟩

end Vllm
