import Vllm.KvCache.ManagerRuns

/-! The books of a single full-attention group when others may hold references: a count is made of
table entries and other references, and a block stands at one index. -/
namespace Vllm
open SingleTypeKVCacheManager List

/-- The block tables of one group against a pool in which others hold `rest` references. -/
structure SharedBooks (level : BlockHash → ℕ) (pool : BlockPool) (rest : BlockId → ℕ)
    (m : SingleTypeKVCacheManager) : Prop where
  inv : ∃ free, PoolInv pool free
  refs : ∀ b, b ≠ pool.nullBlock → pool.refCnt b = rest b + m.refs b
  known : ∀ r, ∀ b ∈ m.blocksOf r, b < pool.numGpuBlocks ∧ b ≠ pool.nullBlock
  placed : ∀ r r' (i j : ℕ) b, (m.blocksOf r)[i]? = some b → (m.blocksOf r')[j]? = some b → i = j
  levelled : ∀ r (i : ℕ) b key, (m.blocksOf r)[i]? = some b → pool.blockHash b = some key →
    level key.blockHash = i

namespace SharedBooks
variable {level : BlockHash → ℕ} {pool pool' : BlockPool} {rest rest' : BlockId → ℕ}
  {m m' : SingleTypeKVCacheManager} {r : RequestId}

theorem sameTables (h : SharedBooks level pool rest m) (hs : SameTables m m') :
    SharedBooks level pool rest m' where
  inv := h.inv
  refs := fun b hb => by rw [h.refs b hb, hs.refs]
  known := fun r => by rw [hs.blocksOf]; exact h.known r
  placed := fun r r' => by rw [hs.blocksOf, hs.blocksOf]; exact h.placed r r'
  levelled := fun r => by rw [hs.blocksOf]; exact h.levelled r

/-- A block stands in a table at most once. -/
theorem count_le_one (h : SharedBooks level pool rest m) (r : RequestId) (b : BlockId) :
    (m.blocksOf r).count b ≤ 1 := by
  by_contra hmany
  have hdup := duplicate_iff_two_le_count.mpr (Nat.lt_of_not_le hmany)
  rcases duplicate_iff_exists_distinct_get.mp hdup with ⟨i, j, hij, hi, hj⟩
  have hsame := h.placed r r i j b (List.getElem?_eq_some_iff.mpr ⟨i.isLt, hi.symm⟩)
    (List.getElem?_eq_some_iff.mpr ⟨j.isLt, hj.symm⟩)
  exact absurd hsame (Nat.ne_of_lt hij)

variable {blocks : List BlockId}

section
variable (h : SharedBooks level pool rest m)
include h

theorem replace (hinv : ∃ free, PoolInv pool' free) (hcfg : SameConfig pool pool')
    (hrefs : ∀ b, b ≠ pool.nullBlock →
      pool'.refCnt b + (m.blocksOf r).count b = pool.refCnt b + blocks.count b)
    (hknown : ∀ b ∈ blocks, b < pool.numGpuBlocks ∧ b ≠ pool.nullBlock)
    (hself : ∀ (i j : ℕ) b, blocks[i]? = some b → blocks[j]? = some b → i = j)
    (hplaced : ∀ r' (i j : ℕ) b, r' ≠ r → blocks[i]? = some b →
      (m.blocksOf r')[j]? = some b → i = j)
    (hlevel : ∀ (i : ℕ) b key, blocks[i]? = some b → pool'.blockHash b = some key →
      level key.blockHash = i)
    (hhash : ∀ r' b, r' ≠ r → b ∈ m.blocksOf r' →
      pool'.blockHash b = none ∨ pool'.blockHash b = pool.blockHash b) :
    SharedBooks level pool' rest (m.setBlocks r blocks) where
  inv := hinv
  refs := by
    intro b hb
    rw [hcfg.nullBlock] at hb
    have hpool := hrefs b hb
    have hold := h.refs b hb
    have htables := m.refs_setBlocks r blocks b
    omega
  known := by
    intro r' b hb
    rw [hcfg.numGpuBlocks, hcfg.nullBlock]
    rw [blocksOf_setBlocks] at hb
    split_ifs at hb
    · exact hknown b hb
    · exact h.known r' b hb
  placed := by
    intro r₁ r₂ i j b hi hj
    rw [blocksOf_setBlocks] at hi hj
    split_ifs at hi hj with h₁ h₂ h₂
    · exact hself i j b hi hj
    · exact hplaced r₂ i j b h₂ hi hj
    · exact (hplaced r₁ j i b h₁ hj hi).symm
    · exact h.placed r₁ r₂ i j b hi hj
  levelled := by
    intro r' i b key hget hkey
    rw [blocksOf_setBlocks] at hget
    split_ifs at hget with hr
    · exact hlevel i b key hget hkey
    · rcases hhash r' b hr (mem_of_getElem? hget) with hnone | hsame
      · rw [hnone] at hkey
        cases hkey
      · rw [hsame] at hkey
        exact h.levelled r' i b key hget hkey

theorem repool (hinv : ∃ free, PoolInv pool' free) (hcfg : SameConfig pool pool')
    (hrefs : ∀ b, b ≠ pool.nullBlock → pool'.refCnt b + rest b = pool.refCnt b + rest' b)
    (hhash : ∀ r (i : ℕ) b key, (m.blocksOf r)[i]? = some b → pool'.blockHash b = some key →
      pool.blockHash b = some key ∨ level key.blockHash = i) :
    SharedBooks level pool' rest' m where
  inv := hinv
  refs := by
    intro b hb
    rw [hcfg.nullBlock] at hb
    have hpool := hrefs b hb
    have hold := h.refs b hb
    omega
  known := by
    intro r b hb
    rw [hcfg.numGpuBlocks, hcfg.nullBlock]
    exact h.known r b hb
  placed := h.placed
  levelled := by
    intro r i b key hget hkey
    rcases hhash r i b key hget hkey with hold | hlevel
    · exact h.levelled r i b key hget hold
    · exact hlevel

theorem touch (hempty : m.blocksOf r = []) {hits : List BlockId}
    (hhits : ∀ (i : ℕ) b, hits[i]? = some b → ∃ key, pool.blockHash b = some key ∧
      level key.blockHash = i)
    (hr : pool.touch hits = .ok pool') : SharedBooks level pool' rest (m.setBlocks r hits) := by
  rcases h.inv with ⟨free, hinv⟩
  have hknown : ∀ b ∈ hits, b < pool.numGpuBlocks ∧ b ≠ pool.nullBlock := by
    intro b hb
    rcases mem_iff_getElem?.mp hb with ⟨i, hi⟩
    rcases hhits i b hi with ⟨key, hkey, -⟩
    apply hinv.hash_lt
    rw [hkey]
    exact Option.some_ne_none key
  rcases hinv.touch fun b hb => (hknown b hb).1 with ⟨pool₂, htouch, hres⟩
  obtain rfl := Except.ok.inj (htouch.symm.trans hr)
  apply h.replace ⟨_, hres.inv⟩ hres.config
  · intro b _
    rw [hres.refCnt, hempty]
    simp
  · exact hknown
  · intro i j b hi hj
    rcases hhits i b hi with ⟨key, hkey, hleveli⟩
    rcases hhits j b hj with ⟨key', hkey', hlevelj⟩
    rw [hkey] at hkey'
    cases hkey'
    exact hleveli.symm.trans hlevelj
  · intro r' i j b _ hi hj
    rcases hhits i b hi with ⟨key, hkey, hlevel⟩
    exact hlevel.symm.trans (h.levelled r' j b key hj hkey)
  · intro i b key hi hkey
    rw [hres.blockHash] at hkey
    rcases hhits i b hi with ⟨key', hkey', hlevel⟩
    obtain rfl := Option.some.inj (hkey'.symm.trans hkey)
    exact hlevel
  · intro r' b _ _
    rw [hres.blockHash]
    exact .inr rfl

theorem draw {n : ℤ} (hn : 0 ≤ n) {new : List BlockId}
    (hr : pool.getNewBlocks n = .ok (new, pool')) :
    SharedBooks level pool' rest (m.setBlocks r (m.blocksOf r ++ new)) := by
  rcases h.inv with ⟨free, hinv⟩
  rcases Ledger.getNewBlocks_eq hinv hn hr with ⟨hnew, -, hres⟩
  have hfree : ∀ b ∈ new, b ∈ free := fun b hb => mem_of_mem_take (hnew ▸ hb)
  have hunheld : ∀ b ∈ new, ∀ r, b ∉ m.blocksOf r := by
    intro b hb r hm
    rcases (hinv.mem_free b).mp (hfree b hb) with ⟨-, hne, hzero⟩
    have hrefs := h.refs b hne
    have hpos := refs_pos_of_mem hm
    omega
  have hnodup : new.Nodup := hnew ▸ hinv.nodup.sublist (take_sublist _ _)
  have hcases : ∀ (i : ℕ) b, (m.blocksOf r ++ new)[i]? = some b →
      (m.blocksOf r)[i]? = some b ∨
        new[i - (m.blocksOf r).length]? = some b ∧ (m.blocksOf r).length ≤ i := by
    intro i b hi
    rw [List.getElem?_append] at hi
    split_ifs at hi with hlt
    · exact .inl hi
    · exact .inr ⟨hi, not_lt.mp hlt⟩
  apply h.replace ⟨_, hres.inv⟩ hres.config
  · intro b _
    rw [hres.refCnt, count_append, firstRefs]
    split_ifs with hmem
    · have hzero := ((hinv.mem_free b).mp (hfree b hmem)).2.2
      rw [count_eq_one_of_mem hnodup hmem, hzero]
      omega
    · rw [count_eq_zero.mpr hmem]
      omega
  · intro b hb
    rcases mem_append.mp hb with hold | hmem
    · exact h.known r b hold
    · rcases (hinv.mem_free b).mp (hfree b hmem) with ⟨hlt, hne, -⟩
      exact ⟨hlt, hne⟩
  · intro i j b hi hj
    rcases hcases i b hi with hoi | ⟨hni, hli⟩
    · rcases hcases j b hj with hoj | ⟨hnj, -⟩
      · exact h.placed r r i j b hoi hoj
      · exact absurd (mem_of_getElem? hoi) (hunheld b (mem_of_getElem? hnj) r)
    · rcases hcases j b hj with hoj | ⟨hnj, hlj⟩
      · exact absurd (mem_of_getElem? hoj) (hunheld b (mem_of_getElem? hni) r)
      · have hsame := index_unique (nodup_iff_count_le_one.mp hnodup b) hni hnj
        omega
  · intro r' i j b _ hi hj
    rcases hcases i b hi with hoi | ⟨hni, -⟩
    · exact h.placed r r' i j b hoi hj
    · exact absurd (mem_of_getElem? hj) (hunheld b (mem_of_getElem? hni) r')
  · intro i b key hi hkey
    rw [hres.blockHash, clearHashes] at hkey
    split_ifs at hkey with hmem
    rcases hcases i b hi with hoi | ⟨hni, -⟩
    · exact h.levelled r i b key hoi hkey
    · exact absurd (mem_of_getElem? hni) hmem
  · intro r' b _ hb
    rw [hres.blockHash, clearHashes, if_neg fun hmem => hunheld b hmem r' hb]
    exact .inr rfl

theorem cache (hc : pool.enableCaching = true)
    {request : Request} {numCachedBlocks numFullBlocks blockSize groupId : ℕ}
    {blockMask : Option (List Bool)}
    (hhashes : ∀ (i : ℕ) hash, (pool.requestHashes request blockSize)[i]? = some hash →
      level hash = i)
    (hr : pool.cacheFullBlocks request (m.blocksOf r) numCachedBlocks numFullBlocks blockSize
      groupId blockMask = .ok pool') : SharedBooks level pool' rest m := by
  rcases h.inv with ⟨free, hinv⟩
  rcases hinv.cacheFullBlocks hc (fun b hb => (h.known r b hb).1) hr with
    ⟨hinv', hcfg, hrefs, hnew⟩
  apply h.repool ⟨free, hinv'⟩ hcfg
  · intro b _
    rw [hrefs]
  · intro r' i b key hget hkey
    rcases hnew b with hsame | ⟨-, j, hash, -, -, hj, -, -, hhash, hkey'⟩
    · exact .inl (hsame ▸ hkey)
    · obtain rfl := Option.some.inj (hkey'.symm.trans hkey)
      right
      rw [hhashes j hash hhash]
      exact h.placed r r' j i b hj hget

/-- A request gives all its blocks back. -/
theorem free (hr : pool.freeBlocks (m.blocksOf r).reverse false = .ok pool') :
    SharedBooks level pool' rest (m.setBlocks r []) ∧ SameConfig pool pool' := by
  rcases h.inv with ⟨free, hinv⟩
  have hfreeable : PoolInv.Freeable pool (m.blocksOf r).reverse := by
    constructor
    · intro b hb
      exact (h.known r b (mem_reverse.mp hb)).1
    · rw [nodup_iff_count_le_one]
      intro b
      calc ((m.blocksOf r).reverse.filter (· ≠ pool.nullBlock)).count b
          ≤ (m.blocksOf r).reverse.count b := List.Sublist.count_le b filter_sublist
        _ ≤ 1 := by rw [count_reverse]; exact h.count_le_one r b
    · intro b hb hne
      have hpos := refs_pos_of_mem (mem_reverse.mp hb)
      have hrefs := h.refs b hne
      omega
  rcases hinv.freeBlocks hfreeable false with ⟨pool₂, hfree, hres⟩
  obtain rfl := Except.ok.inj (hfree.symm.trans hr)
  refine ⟨?_, hres.config⟩
  apply h.replace ⟨_, hres.inv⟩ hres.config
  · intro b _
    have hrefs := congrFun hres.refCnt b
    rw [count_reverse] at hrefs
    rw [hrefs]
    simp
  · intro b hb
    cases hb
  · intro i j b hi
    simp at hi
  · intro r' i j b _ hi
    simp at hi
  · intro i b key hi
    simp at hi
  · intro r' b _ _
    rw [hres.blockHash]
    exact .inr rfl

/-- Another holder takes references. -/
theorem touchOther (hlt : ∀ b ∈ blocks, b < pool.numGpuBlocks)
    (hr : pool.touch blocks = .ok pool') :
    SharedBooks level pool' (fun b => rest b + blocks.count b) m := by
  rcases h.inv with ⟨free, hinv⟩
  rcases hinv.touch hlt with ⟨pool₂, htouch, hres⟩
  obtain rfl := Except.ok.inj (htouch.symm.trans hr)
  apply h.repool ⟨_, hres.inv⟩ hres.config
  · intro b _
    rw [hres.refCnt]
    push_cast
    ring
  · intro r i b key _ hkey
    rw [hres.blockHash] at hkey
    exact .inl hkey

theorem freeOther {prepend : Bool} (hfreeable : PoolInv.Freeable pool blocks)
    (hheld : ∀ b, b ≠ pool.nullBlock → blocks.count b ≤ rest b)
    (hr : pool.freeBlocks blocks prepend = .ok pool') :
    SharedBooks level pool' (fun b => rest b - blocks.count b) m := by
  rcases h.inv with ⟨free, hinv⟩
  rcases hinv.freeBlocks hfreeable prepend with ⟨pool₂, hfree, hres⟩
  obtain rfl := Except.ok.inj (hfree.symm.trans hr)
  apply h.repool ⟨_, hres.inv⟩ hres.config
  · intro b hb
    have hle := hheld b hb
    have hrefs := congrFun hres.refCnt b
    omega
  · intro r i b key _ hkey
    rw [hres.blockHash] at hkey
    exact .inl hkey

end

end SharedBooks

end Vllm
