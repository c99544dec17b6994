import Vllm.KvCache.TableInvariant

/-! How the tables of a manager change: blocks are released, drawn, touched, moved and
cached. Each change keeps the ledger and leaves the hashes of other holders alone. -/
namespace Vllm
open SingleTypeKVCacheManager List

theorem refs_le_heldBy {ms : List SingleTypeKVCacheManager} {m : SingleTypeKVCacheManager}
    (h : m ∈ ms) (b : BlockId) : m.refs b ≤ heldBy ms b :=
  single_le_sum (by simp) _ (mem_map_of_mem h)

@[simp] theorem heldBy_singleton (m : SingleTypeKVCacheManager) (b : BlockId) :
    heldBy [m] b = m.refs b := by
  simp [heldBy]

theorem heldBy_cons (m : SingleTypeKVCacheManager) (ms : List SingleTypeKVCacheManager)
    (b : BlockId) : heldBy (m :: ms) b = m.refs b + heldBy ms b := by
  simp [heldBy]

theorem TableInv.congr {pool pool' : BlockPool} {hashes : RequestId → List BlockHash}
    {m : SingleTypeKVCacheManager} (h : TableInv pool hashes m) (hcfg : SameConfig pool pool')
    (hhash : ∀ b, b ≠ pool.nullBlock → 0 < m.refs b → pool'.blockHash b = pool.blockHash b) :
    TableInv pool' hashes m where
  lt := fun r b hb => hcfg.numGpuBlocks ▸ h.lt r b hb
  keyed := by
    intro r i b key hget hne hkey
    rw [hcfg.nullBlock] at hne
    rw [hhash b hne (refs_pos_of_mem (mem_of_getElem? hget))] at hkey
    rw [hcfg.hashBlockSize]
    exact h.keyed r i b key hget hne hkey
  nodup := fun r => hcfg.hashBlockSize ▸ h.nodup r

/-- Two managers with the same tables and the same place in the coordinator. -/
structure SameTables (m m' : SingleTypeKVCacheManager) : Prop where
  blocksOf : ∀ r, m'.blocksOf r = m.blocksOf r
  refs : ∀ b, m'.refs b = m.refs b
  blockSize : m'.blockSize = m.blockSize
  groupId : m'.kvCacheGroupId = m.kvCacheGroupId

namespace SameTables
variable {m m' : SingleTypeKVCacheManager}

theorem tableInv {pool : BlockPool} {hashes : RequestId → List BlockHash} (h : SameTables m m')
    (ht : TableInv pool hashes m) : TableInv pool hashes m' where
  lt := fun r => by rw [h.blocksOf]; exact ht.lt r
  keyed := fun r => by rw [h.blocksOf, h.blockSize, h.groupId]; exact ht.keyed r
  nodup := fun r => by rw [h.blockSize]; exact ht.nodup r

theorem of_reqToBlocks (h : m'.reqToBlocks = m.reqToBlocks) (hsize : m'.blockSize = m.blockSize)
    (hid : m'.kvCacheGroupId = m.kvCacheGroupId) : SameTables m m' where
  blocksOf := fun r => by rw [SingleTypeKVCacheManager.blocksOf, h]; rfl
  refs := fun b => by rw [SingleTypeKVCacheManager.refs, h]; rfl
  blockSize := hsize
  groupId := hid

/-- A forgotten request has an empty table. -/
theorem forget (m : SingleTypeKVCacheManager) (r : RequestId) :
    SameTables (m.setBlocks r []) (m.forget r) where
  blocksOf := fun r' => by simp
  refs := fun b => by
    have h1 := m.refs_setBlocks r [] b
    have h2 := m.refs_forget r b
    simp only [count_nil, Nat.add_zero] at h1
    omega
  blockSize := rfl
  groupId := rfl

theorem recordNewBlocks (m : SingleTypeKVCacheManager) (blocks : List BlockId) :
    SameTables m (m.recordNewBlocks blocks) := by
  unfold SingleTypeKVCacheManager.recordNewBlocks
  split_ifs <;> exact of_reqToBlocks rfl rfl rfl

theorem setBlocks_setBlocks (m : SingleTypeKVCacheManager) (r : RequestId)
    (blocks blocks' : List BlockId) :
    SameTables ((m.setBlocks r blocks).setBlocks r blocks') (m.setBlocks r blocks') where
  blocksOf := fun r' => by
    rw [blocksOf_setBlocks, blocksOf_setBlocks, blocksOf_setBlocks]
    split_ifs <;> rfl
  refs := fun b => by
    have h1 := (m.setBlocks r blocks).refs_setBlocks r blocks' b
    have h2 := m.refs_setBlocks r blocks b
    have h3 := m.refs_setBlocks r blocks' b
    rw [blocksOf_setBlocks, if_pos rfl] at h1
    omega
  blockSize := rfl
  groupId := rfl

theorem setBlocks_self (m : SingleTypeKVCacheManager) (r : RequestId) :
    SameTables (m.setBlocks r (m.blocksOf r)) m where
  blocksOf := fun r' => by
    rw [blocksOf_setBlocks]
    split_ifs with h
    · rw [h]
    · rfl
  refs := fun b => by
    have := m.refs_setBlocks r (m.blocksOf r) b
    omega
  blockSize := rfl
  groupId := rfl

end SameTables

namespace Ledger
variable {pool pool' : BlockPool} {free free' : List BlockId} {rest : BlockId → ℕ}
  {hashes : RequestId → List BlockHash} {m m' : SingleTypeKVCacheManager}
  {ms : List SingleTypeKVCacheManager}

theorem sameTables (h : Ledger pool free rest hashes [m]) (hs : SameTables m m') :
    Ledger pool free rest hashes [m'] where
  inv := h.inv
  refs := fun b hb => by rw [h.refs b hb, heldBy_singleton, heldBy_singleton, hs.refs]
  unshared := h.unshared
  table := by
    intro x hx
    obtain rfl := mem_singleton.mp hx
    exact hs.tableInv (h.table m (by simp))

theorem count_le_one (h : Ledger pool free rest hashes ms) (hm : m ∈ ms) {b : BlockId}
    (hb : b ≠ pool.nullBlock) (r : RequestId) : (m.blocksOf r).count b ≤ 1 := by
  by_contra hcount
  have hrefs : ¬ pool.refCnt b ≤ 1 := by
    have h1 := m.count_le_refs r b
    have h2 := refs_le_heldBy hm b
    rw [h.refs b hb]
    omega
  obtain ⟨key, hkey⟩ := Option.ne_none_iff_exists'.mp fun hn => hrefs (h.unshared b hb hn)
  have hdup : List.Duplicate b (m.blocksOf r) := duplicate_iff_two_le_count.mpr (by omega)
  obtain ⟨i, j, hij, hbi, hbj⟩ := duplicate_iff_exists_distinct_get.mp hdup
  have hgi : (m.blocksOf r)[(i : ℕ)]? = some b := by rw [hbi]; exact List.getElem?_eq_getElem i.2
  have hgj : (m.blocksOf r)[(j : ℕ)]? = some b := by rw [hbj]; exact List.getElem?_eq_getElem j.2
  have ht := h.table m hm
  obtain ⟨hash, hhi, rfl⟩ := ht.keyed r i b key hgi hb hkey
  obtain ⟨hash', hhj, he⟩ := ht.keyed r j b _ hgj hb hkey
  obtain rfl : hash = hash' := congrArg BlockHashWithGroupId.blockHash he
  have heq := (List.getElem?_inj (List.getElem?_eq_some_iff.mp hhi).1 (ht.nodup r)).mp
    (hhi.trans hhj.symm)
  exact absurd heq (Fin.val_ne_of_ne hij.ne)

end Ledger

theorem index_unique {l : List BlockId} {b : BlockId} (h : l.count b ≤ 1) {i j : ℕ}
    (hi : l[i]? = some b) (hj : l[j]? = some b) : i = j := by
  by_contra hne
  have hlt (i j : ℕ) (hij : i < j) (hi : l[i]? = some b) (hj : l[j]? = some b) : False := by
    obtain ⟨hil, hib⟩ := List.getElem?_eq_some_iff.mp hi
    obtain ⟨hjl, hjb⟩ := List.getElem?_eq_some_iff.mp hj
    have hdup : List.Duplicate b l := duplicate_iff_exists_distinct_get.mpr
      ⟨⟨i, hil⟩, ⟨j, hjl⟩, hij, hib.symm, hjb.symm⟩
    have := duplicate_iff_two_le_count.mp hdup
    omega
  rcases Nat.lt_or_gt_of_ne hne with hij | hij
  · exact hlt i j hij hi hj
  · exact hlt j i hij hj hi

/-- Hits: non-null blocks that carry the hash of their index. -/
def KeyedHits (pool : BlockPool) (hashes : List BlockHash) (groupId : ℕ)
    (blocks : List BlockId) : Prop :=
  ∀ (i : ℕ) b, blocks[i]? = some b → b ≠ pool.nullBlock →
    ∃ hash, hashes[i]? = some hash ∧ pool.blockHash b = some ⟨hash, groupId⟩

theorem KeyedHits.keyed {pool : BlockPool} {hashes : List BlockHash} {groupId : ℕ}
    {blocks : List BlockId} (h : KeyedHits pool hashes groupId blocks) :
    Keyed pool hashes groupId blocks := by
  intro i b key hget hne hkey
  obtain ⟨hash, hhash, hb⟩ := h i b hget hne
  exact ⟨hash, hhash, Option.some.inj (hkey.symm.trans hb)⟩

namespace PoolInv
variable {pool pool' : BlockPool} {free : List BlockId}

theorem Freeable.filter {blocks : List BlockId} (h : Freeable pool blocks) (p : BlockId → Bool) :
    Freeable pool (blocks.filter p) where
  lt := fun b hb => h.lt b (mem_of_mem_filter hb)
  nodup := h.nodup.sublist (filter_sublist.filter _)
  referenced := fun b hb => h.referenced b (mem_of_mem_filter hb)

theorem count_filter_add_count_filter (l : List BlockId) (p : BlockId → Prop) [DecidablePred p]
    (b : BlockId) :
    (l.filter fun c => p c).count b + (l.filter fun c => ¬ p c).count b = l.count b := by
  rw [← count_append]
  simpa using (filter_append_perm (fun c => decide (p c)) l).count_eq b

/-- Cached blocks go to the end of the queue and uncached ones to its front; together they
lose one reference each. -/
theorem freeByHash (h : PoolInv pool free) {blocks : List BlockId} (hf : Freeable pool blocks) :
    ∃ pool' free', freeByHash pool blocks = .ok pool' ∧
      PoolResult pool pool' free' (fun b => pool.refCnt b - blocks.count b) pool.blockHash := by
  obtain ⟨pool₁, hr₁, hres₁⟩ := h.freeBlocks (hf.filter fun b => pool.blockHash b ≠ none) false
  have hf₂ : Freeable pool₁ (blocks.filter fun b => pool.blockHash b = none) := by
    have hfilter := hf.filter fun b => pool.blockHash b = none
    refine ⟨fun b hb => ?_, ?_, fun b hb hne => ?_⟩
    · rw [hres₁.config.numGpuBlocks]
      exact hfilter.lt b hb
    · rw [hres₁.config.nullBlock]
      exact hfilter.nodup
    · rw [hres₁.config.nullBlock] at hne
      have hnone : pool.blockHash b = none := by simpa using (mem_filter.mp hb).2
      have hzero : (blocks.filter fun b => pool.blockHash b ≠ none).count b = 0 :=
        count_eq_zero.mpr fun hm => by simp [hnone] at hm
      have hrefs := congrFun hres₁.refCnt b
      have hpos := hfilter.referenced b hb hne
      rw [hzero] at hrefs
      omega
  obtain ⟨pool₂, hr₂, hres₂⟩ := hres₁.inv.freeBlocks hf₂ true
  refine ⟨pool₂, _, ?_, hres₂.inv, hres₁.config.trans hres₂.config, ?_,
    hres₂.blockHash.trans hres₁.blockHash⟩
  · simp only [SingleTypeKVCacheManager.freeByHash, hr₁]
    exact hr₂
  · rw [hres₂.refCnt, hres₁.refCnt]
    funext b
    have := count_filter_add_count_filter blocks (fun c => pool.blockHash c = none) b
    dsimp only [ne_eq] at this ⊢
    omega

end PoolInv

namespace Ledger
variable {pool pool' : BlockPool} {free free' : List BlockId} {rest : BlockId → ℕ}
  {hashes : RequestId → List BlockHash} {m : SingleTypeKVCacheManager}
  {ms : List SingleTypeKVCacheManager} {r : RequestId}

variable {blocks : List BlockId} {b : BlockId}

theorem replace (h : Ledger pool free rest hashes [m])
    (hinv : PoolInv pool' free') (hcfg : SameConfig pool pool')
    (hrefs : ∀ b, b ≠ pool.nullBlock →
      pool'.refCnt b + (m.blocksOf r).count b = pool.refCnt b + blocks.count b)
    (hunshared : ∀ b, b ≠ pool.nullBlock → pool'.blockHash b = none → pool'.refCnt b ≤ 1)
    (hlt : ∀ b ∈ blocks, b < pool.numGpuBlocks)
    (hkeyed : Keyed pool' (hashesAt pool.hashBlockSize m.blockSize (hashes r))
      m.kvCacheGroupId blocks)
    (hhash : ∀ r' b, r' ≠ r → b ∈ m.blocksOf r' → b ≠ pool.nullBlock →
      pool'.blockHash b = pool.blockHash b) :
    Ledger pool' free' rest hashes [m.setBlocks r blocks] where
  inv := hinv
  refs := by
    intro b hb
    rw [hcfg.nullBlock] at hb
    have h1 := hrefs b hb
    have h2 := h.refs b hb
    have h3 := m.refs_setBlocks r blocks b
    rw [heldBy_singleton] at h2 ⊢
    omega
  unshared := fun b hb => hunshared b (hcfg.nullBlock ▸ hb)
  table := by
    intro x hx
    obtain rfl := mem_singleton.mp hx
    have ht := h.table m (by simp)
    refine ⟨fun r' b hb => ?_, fun r' => ?_, fun r' => ?_⟩
    · rw [hcfg.numGpuBlocks]
      rw [blocksOf_setBlocks] at hb
      split_ifs at hb
      · exact hlt b hb
      · exact ht.lt r' b hb
    · rw [blocksOf_setBlocks, hcfg.hashBlockSize]
      split_ifs with hr
      · subst hr
        exact hkeyed
      · intro i b key hget hne hkey
        rw [hcfg.nullBlock] at hne
        rw [hhash r' b hr (mem_of_getElem? hget) hne] at hkey
        exact ht.keyed r' i b key hget hne hkey
    · rw [hcfg.hashBlockSize]
      exact ht.nodup r'

theorem mem_refs_pos (h : Ledger pool free rest hashes ms) (hm : m ∈ ms) (hb : b ∈ m.blocksOf r)
    (hne : b ≠ pool.nullBlock) : 1 ≤ pool.refCnt b := by
  have h1 := refs_pos_of_mem hb
  have h2 := refs_le_heldBy hm b
  have h3 := h.refs b hne
  omega

/-- Blocks of a table may be freed. -/
theorem freeable (h : Ledger pool free rest hashes ms) (hm : m ∈ ms) {removed : List BlockId}
    (hle : ∀ b ∈ removed, b ∈ m.blocksOf r)
    (hcount : ∀ b, b ≠ pool.nullBlock → removed.count b ≤ (m.blocksOf r).count b) :
    PoolInv.Freeable pool removed where
  lt := fun b hb => (h.table m hm).lt r b (hle b hb)
  nodup := by
    rw [nodup_iff_count_le_one]
    intro b
    by_cases hb : b = pool.nullBlock
    · subst hb
      rw [count_eq_zero.mpr fun hm => by simp at hm]
      exact Nat.zero_le _
    · rw [count_filter (by simpa using hb)]
      exact (hcount b hb).trans (h.count_le_one hm hb r)
  referenced := fun b hb hne => h.mem_refs_pos hm (hle b hb) hne

theorem release (h : Ledger pool free rest hashes [m]) {removed : List BlockId}
    (hres : PoolResult pool pool' free' (fun b => pool.refCnt b - removed.count b) pool.blockHash)
    (hsub : ∀ (i : ℕ) b, blocks[i]? = some b → b = pool.nullBlock ∨ (m.blocksOf r)[i]? = some b)
    (hcount : ∀ b, b ≠ pool.nullBlock → blocks.count b + removed.count b = (m.blocksOf r).count b) :
    Ledger pool' free' rest hashes [m.setBlocks r blocks] := by
  have ht := h.table m (by simp)
  apply h.replace hres.inv hres.config
  · intro b hb
    have hrefs := congrFun hres.refCnt b
    have := hcount b hb
    omega
  · intro b hb hnone
    rw [hres.blockHash] at hnone
    have hrefs := congrFun hres.refCnt b
    have := h.unshared b hb hnone
    omega
  · intro b hb
    obtain ⟨i, hi⟩ := mem_iff_getElem?.mp hb
    rcases hsub i b hi with rfl | hget
    · exact h.inv.null_lt
    · exact ht.lt r b (mem_of_getElem? hget)
  · intro i b key hget hne hkey
    rw [hres.config.nullBlock] at hne
    rw [hres.blockHash] at hkey
    exact ht.keyed r i b key ((hsub i b hget).resolve_left hne) hne hkey
  · intro r' b _ _ _
    rw [hres.blockHash]

theorem rearrange (h : Ledger pool free rest hashes [m])
    (hcount : ∀ b, b ≠ pool.nullBlock → blocks.count b = (m.blocksOf r).count b)
    (hplace : ∀ (i : ℕ) b, blocks[i]? = some b → b ≠ pool.nullBlock →
      (m.blocksOf r)[i]? = some b ∨ pool.blockHash b = none) :
    Ledger pool free rest hashes [m.setBlocks r blocks] := by
  have ht := h.table m (by simp)
  apply h.replace h.inv SameConfig.rfl
  · intro b hb
    rw [hcount b hb]
  · exact h.unshared
  · intro b hb
    by_cases hne : b = pool.nullBlock
    · rw [hne]
      exact h.inv.null_lt
    · apply ht.lt r b
      rw [← count_pos_iff, ← hcount b hne, count_pos_iff]
      exact hb
  · intro i b key hget hne hkey
    rcases hplace i b hget hne with hold | hnone
    · exact ht.keyed r i b key hold hne hkey
    · rw [hnone] at hkey
      exact absurd hkey (by simp)
  · intro r' b _ _ _
    rfl

/-- `get_new_blocks` takes the head of the free queue or raises. -/
theorem getNewBlocks_eq (h : PoolInv pool free) {n : ℤ} (h0 : 0 ≤ n) {new : List BlockId}
    (hr : pool.getNewBlocks n = .ok (new, pool')) :
    new = free.take n.toNat ∧ new.length = n.toNat ∧
      PoolResult pool pool' (free.drop n.toNat) (firstRefs pool.refCnt new)
        (clearHashes pool.blockHash new) := by
  by_cases hn : n ≤ free.length
  · obtain ⟨pool₂, hget, hres⟩ := h.getNewBlocks h0 hn
    rw [hget] at hr
    obtain ⟨rfl, rfl⟩ : free.take n.toNat = new ∧ pool₂ = pool' := by simpa using hr
    refine ⟨rfl, ?_, hres⟩
    rw [length_take]
    omega
  · rw [h.getNewBlocks_of_lt (not_le.mp hn)] at hr
    simp at hr

theorem free_unheld (h : Ledger pool free rest hashes ms) (hb : b ∈ free) :
    b ≠ pool.nullBlock ∧ rest b = 0 ∧ heldBy ms b = 0 := by
  obtain ⟨hlt, hne, hzero⟩ := (h.inv.mem_free b).mp hb
  have := h.refs b hne
  exact ⟨hne, by omega, by omega⟩

theorem draw (h : Ledger pool free rest hashes [m]) {n : ℤ} (h0 : 0 ≤ n) {new : List BlockId}
    (hr : pool.getNewBlocks n = .ok (new, pool')) :
    Ledger pool' (free.drop n.toNat) rest hashes [m.setBlocks r (m.blocksOf r ++ new)] := by
  obtain ⟨hnew, -, hres⟩ := getNewBlocks_eq h.inv h0 hr
  have ht := h.table m (by simp)
  have hfree : ∀ b ∈ new, b ∈ free := fun b hb => mem_of_mem_take (hnew ▸ hb)
  have hunheld : ∀ b ∈ new, ∀ r, b ∉ m.blocksOf r := by
    intro b hb r hm
    have h1 := (h.free_unheld (hfree b hb)).2.2
    have h2 := refs_pos_of_mem hm
    rw [heldBy_singleton] at h1
    omega
  have hnodup : new.Nodup := hnew ▸ h.inv.nodup.sublist (take_sublist _ _)
  apply h.replace hres.inv hres.config
  · intro b hb
    rw [hres.refCnt, count_append, firstRefs]
    split_ifs with hmem
    · have hzero := ((h.inv.mem_free b).mp (hfree b hmem)).2.2
      rw [count_eq_one_of_mem hnodup hmem, hzero]
      omega
    · rw [count_eq_zero.mpr hmem]
      omega
  · intro b hb hnone
    rw [hres.blockHash, clearHashes] at hnone
    rw [hres.refCnt, firstRefs]
    split_ifs at hnone ⊢ with hmem
    · exact le_refl _
    · exact h.unshared b hb hnone
  · intro b hb
    rcases mem_append.mp hb with hold | hmem
    · exact ht.lt r b hold
    · exact ((h.inv.mem_free b).mp (hfree b hmem)).1
  · intro i b key hget hne hkey
    rw [hres.blockHash, clearHashes] at hkey
    split_ifs at hkey with hmem
    rw [List.getElem?_append] at hget
    split_ifs at hget with hi
    · rw [hres.config.nullBlock] at hne
      exact ht.keyed r i b key hget hne hkey
    · exact absurd (mem_of_getElem? hget) hmem
  · intro r' b _ hb _
    rw [hres.blockHash, clearHashes, if_neg fun hmem => hunheld b hmem r' hb]

theorem touch (h : Ledger pool free rest hashes [m]) (hempty : m.blocksOf r = [])
    {numNull : ℕ} {kept : List BlockId}
    (hhits : KeyedHits pool (hashesAt pool.hashBlockSize m.blockSize (hashes r))
      m.kvCacheGroupId (List.replicate numNull pool.nullBlock ++ kept))
    (hr : pool.touch kept = .ok pool') :
    Ledger pool' (free.filter (· ∉ kept)) rest hashes
        [m.setBlocks r (List.replicate numNull pool.nullBlock ++ kept)] ∧
      SameConfig pool pool' ∧ pool'.blockHash = pool.blockHash := by
  have hlt : ∀ b ∈ List.replicate numNull pool.nullBlock ++ kept, b < pool.numGpuBlocks := by
    intro b hb
    by_cases hne : b = pool.nullBlock
    · rw [hne]
      exact h.inv.null_lt
    · obtain ⟨i, hi⟩ := mem_iff_getElem?.mp hb
      obtain ⟨hash, -, hkey⟩ := hhits i b hi hne
      exact (h.inv.hash_lt b (by simp [hkey])).1
  have hkept : ∀ b ∈ kept, b < pool.numGpuBlocks := fun b hb =>
    hlt b (mem_append_right _ hb)
  obtain ⟨pool₂, htouch, hres⟩ := h.inv.touch hkept
  obtain rfl := Except.ok.inj (htouch.symm.trans hr)
  refine ⟨?_, hres.config, hres.blockHash⟩
  apply h.replace hres.inv hres.config
  · intro b hb
    have hnull : (List.replicate numNull pool.nullBlock).count b = 0 :=
      count_eq_zero.mpr fun hm => hb (mem_replicate.mp hm).2
    rw [hempty, hres.refCnt, count_append, hnull]
    simp
  · intro b hb hnone
    have hnot : b ∉ kept := by
      intro hm
      obtain ⟨i, hi⟩ := mem_iff_getElem?.mp
        (mem_append_right (List.replicate numNull pool.nullBlock) hm)
      obtain ⟨hash, -, hkey⟩ := hhits i b hi hb
      rw [hres.blockHash, hkey] at hnone
      simp at hnone
    have hrefs := congrFun hres.refCnt b
    rw [count_eq_zero.mpr hnot] at hrefs
    have := h.unshared b hb (hres.blockHash ▸ hnone)
    omega
  · exact hlt
  · intro i b key hget hne hkey
    rw [hres.config.nullBlock] at hne
    rw [hres.blockHash] at hkey
    exact hhits.keyed i b key hget hne hkey
  · intro r' b _ _ _
    rw [hres.blockHash]

theorem hashed_of_held_twice (h : Ledger pool free rest hashes [m]) (hb : b ≠ pool.nullBlock)
    (hmem : b ∈ m.blocksOf r) (hother : 0 < rest b ∨ ∃ r', r' ≠ r ∧ b ∈ m.blocksOf r') :
    pool.blockHash b ≠ none := by
  intro hnone
  have hle := h.unshared b hb hnone
  have hrefs := h.refs b hb
  have hcount := count_pos_iff.mpr hmem
  rw [heldBy_singleton] at hrefs
  rcases hother with hrest | ⟨r', hr', hmem'⟩
  · have := m.count_le_refs r b
    omega
  · have := m.count_add_count_le_refs hr' b
    have := count_pos_iff.mpr hmem'
    omega

theorem cache (h : Ledger pool free rest hashes [m]) (hc : pool.enableCaching = true)
    {request : Request} (hreq : hashes request.requestId = request.blockHashes)
    {numCachedBlocks numFullBlocks : ℕ} {blockMask : Option (List Bool)}
    (hr : pool.cacheFullBlocks request (m.blocksOf request.requestId) numCachedBlocks
      numFullBlocks m.blockSize m.kvCacheGroupId blockMask = .ok pool') :
    Ledger pool' free rest hashes [m] ∧ Frame rest pool pool' ∧
      ∀ b, b ≠ pool.nullBlock → pool'.blockHash b ≠ pool.blockHash b →
        ∃ i < numFullBlocks, (m.blocksOf request.requestId)[i]? = some b := by
  have ht := h.table m (by simp)
  obtain ⟨hinv, hcfg, hrefs, hhash⟩ := h.inv.cacheFullBlocks hc (ht.lt request.requestId) hr
  have hother : ∀ b, b ≠ pool.nullBlock →
      (0 < rest b ∨ ∃ r', r' ≠ request.requestId ∧ b ∈ m.blocksOf r') →
      pool'.blockHash b = pool.blockHash b := by
    intro b hb hheld
    rcases hhash b with hsame | ⟨hnone, i, hash, -, -, hget, -⟩
    · exact hsame
    · exact absurd hnone (h.hashed_of_held_twice hb (mem_of_getElem? hget) hheld)
  have hledger : Ledger pool' free rest hashes [m.setBlocks request.requestId
      (m.blocksOf request.requestId)] := by
    apply h.replace hinv hcfg
    · intro b _
      rw [hrefs]
    · intro b hb hnone
      rw [hrefs]
      rcases hhash b with hsame | ⟨-, i, hash, -, -, -, -, -, -, hsome⟩
      · exact h.unshared b hb (hsame ▸ hnone)
      · rw [hnone] at hsome
        simp at hsome
    · exact ht.lt request.requestId
    · intro i b key hget hne hkey
      rw [hcfg.nullBlock] at hne
      rcases hhash b with hsame | ⟨-, j, hash, -, -, hget', -, -, hreq', hsome⟩
      · exact ht.keyed request.requestId i b key hget hne (hsame ▸ hkey)
      · obtain rfl := index_unique (h.count_le_one (by simp) hne request.requestId) hget hget'
        rw [requestHashes_eq, ← hreq] at hreq'
        exact ⟨hash, hreq', Option.some.inj (hkey.symm.trans hsome)⟩
    · intro r' b hr' hmem hne
      exact hother b hne (.inr ⟨r', hr', hmem⟩)
  refine ⟨hledger.sameTables (.setBlocks_self m request.requestId),
    ⟨hcfg, fun b hb hheld => hother b hb (.inl hheld)⟩, ?_⟩
  · intro b _ hchanged
    rcases hhash b with hsame | ⟨-, i, hash, -, hi, hget, -⟩
    · exact absurd hsame hchanged
    · exact ⟨i, hi, hget⟩

end Ledger

end Vllm
