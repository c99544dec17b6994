import Vllm.KvCache.CoordinatorInvariant
import Vllm.KvCache.SpecGroups

/-! A request that is alone: on a pool whose blocks are free or its own, every call of
`allocate_slots` gets its blocks as long as the longest request fits next to the null block. -/
namespace Vllm
open SingleTypeKVCacheManager Raises BlockPool List

/-- The blocks of the pool are the null block, the tables of the request, some other blocks and the
free ones. Blocks behind the cached part of a table have no hash. -/
structure Alone (pool : BlockPool) (free : List BlockId) (r : RequestId) (others : List BlockId)
    (ms : List SingleTypeKVCacheManager) : Prop where
  inv : PoolInv pool free
  all : (pool.nullBlock :: (others ++ ms.flatMap (fun m => m.blocksOf r) ++ free)).Perm
    (List.range pool.numGpuBlocks)
  unhashed : ∀ m ∈ ms, ∀ b ∈ (m.blocksOf r).drop (m.numCachedBlock.getD r 0),
    pool.blockHash b = none

/-- An operation on one manager takes so many blocks, and leaves the hashes of the other tables. -/
structure Takes (r : RequestId) (cost : ℕ) (others : List BlockId)
    (ms : List SingleTypeKVCacheManager) (pool pool' : BlockPool) (free free' : List BlockId)
    (m' : SingleTypeKVCacheManager) : Prop where
  alone : Alone pool' free' r others (m' :: ms)
  config : SameConfig pool pool'
  count : free.length = free'.length + cost
  hashes : ∀ b ∈ others ++ ms.flatMap (fun m => m.blocksOf r), pool'.blockHash b = pool.blockHash b

section Alone
variable {pool pool' : BlockPool} {free free' others : List BlockId} {r : RequestId}
  {m m' : SingleTypeKVCacheManager} {ms : List SingleTypeKVCacheManager}

theorem Alone.push (h : Alone pool free r others (m :: ms)) :
    Alone pool free r (others ++ m.blocksOf r) ms where
  inv := h.inv
  all := by simpa using h.all
  unhashed := fun x hx => h.unhashed x (mem_cons_of_mem m hx)

theorem Alone.pop (h : Alone pool free r (others ++ m.blocksOf r) ms)
    (hm : ∀ b ∈ (m.blocksOf r).drop (m.numCachedBlock.getD r 0), pool.blockHash b = none) :
    Alone pool free r others (m :: ms) where
  inv := h.inv
  all := by simpa using h.all
  unhashed := by
    intro x hx
    obtain rfl | hx := mem_cons.mp hx
    · exact hm
    · exact h.unhashed x hx

theorem Alone.nodup (h : Alone pool free r others ms) :
    (others ++ ms.flatMap (fun m => m.blocksOf r) ++ free).Nodup :=
  (nodup_cons.mp (h.all.nodup_iff.mpr nodup_range)).2

theorem Alone.count (h : Alone pool free r [] ms) :
    (ms.map fun m => (m.blocksOf r).length).sum + free.length + 1 = pool.numGpuBlocks := by
  have hlength := h.all.length_eq
  rw [length_range] at hlength
  rw [← hlength]
  simp [length_flatMap]

theorem forEach_alone {β : Type} {f : SingleTypeKVCacheManager → BlockPool → Raises (β × BlockPool)}
    {g : β → SingleTypeKVCacheManager}
    {R : SingleTypeKVCacheManager → SingleTypeKVCacheManager → Prop}
    {k : SingleTypeKVCacheManager → ℕ} {P : SingleTypeKVCacheManager → Prop} {Q : BlockPool → Prop}
    (hQ : ∀ pool pool', SameConfig pool pool' → Q pool → Q pool')
    (hf : ∀ pool free others m ms, Q pool → Alone pool free r others (m :: ms) → P m →
      k m ≤ free.length → ∃ b pool' free', f m pool = .ok (b, pool') ∧
        Takes r (k m) others ms pool pool' free free' (g b) ∧ R m (g b))
    (hpool : Q pool) (h : Alone pool free r others ms) (hP : ∀ m ∈ ms, P m)
    (hk : (ms.map k).sum ≤ free.length) :
    ∃ bs pool' free', KVCacheCoordinator.forEach f ms pool = .ok (bs, pool') ∧
      Alone pool' free' r others (bs.map g) ∧ SameConfig pool pool' ∧
      (∀ b ∈ others, pool'.blockHash b = pool.blockHash b) ∧
      List.Forall₂ R ms (bs.map g) := by
  induction ms generalizing pool free others with
  | nil => exact ⟨[], pool, free, rfl, h, SameConfig.rfl, fun _ _ => rfl, .nil⟩
  | cons m ms ih =>
    rw [map_cons, sum_cons] at hk
    obtain ⟨b, pool₁, free₁, hrun, htakes, hR⟩ :=
      hf pool free others m ms hpool h (hP m mem_cons_self) (by omega)
    obtain ⟨bs, pool₂, free₂, hrest, halone, hconfig, hhashes, hRs⟩ :=
      ih (hQ _ _ htakes.config hpool) htakes.alone.push
        (fun x hx => hP x (mem_cons_of_mem m hx)) (by have := htakes.count; omega)
    refine ⟨b :: bs, pool₂, free₂, ?_, ?_, htakes.config.trans hconfig, ?_, .cons hR hRs⟩
    · simp only [KVCacheCoordinator.forEach, hrun, hrest, ok_bind]
      rfl
    · refine halone.pop ?_
      intro x hx
      rw [hhashes x (mem_append_right _ (mem_of_mem_drop hx))]
      exact htakes.alone.unhashed _ mem_cons_self x hx
    · intro x hx
      rw [hhashes x (mem_append_left _ hx), htakes.hashes x (mem_append_left _ hx)]

/-- The table of a request after new blocks were drawn for so many tokens. -/
structure Grown (r : RequestId) (numTokens : ℕ) (m m' : SingleTypeKVCacheManager) : Prop where
  setup : SameSetup m m'
  cap : m'.maxAdmissionBlocksPerRequest = m.maxAdmissionBlocksPerRequest
  cached : m'.numCachedBlock = m.numCachedBlock
  length : (m'.blocksOf r).length = max (m.blocksOf r).length (cdiv numTokens m.blockSize)

/-- The blocks that a table lacks for so many tokens. -/
def lackingBlocks (r : RequestId) (numTokens : ℕ) (m : SingleTypeKVCacheManager) : ℕ :=
  cdiv numTokens m.blockSize - (m.blocksOf r).length

theorem recordNewBlocks_fields (m : SingleTypeKVCacheManager) (blocks : List BlockId) :
    (∀ r, (m.recordNewBlocks blocks).blocksOf r = m.blocksOf r) ∧
      (m.recordNewBlocks blocks).numCachedBlock = m.numCachedBlock ∧
      (m.recordNewBlocks blocks).maxAdmissionBlocksPerRequest =
        m.maxAdmissionBlocksPerRequest := by
  unfold recordNewBlocks
  split
  · exact ⟨fun _ => rfl, rfl, rfl⟩
  · exact ⟨fun _ => rfl, rfl, rfl⟩

variable {numTokens : ℕ}

theorem Alone.baseAllocateNewBlocks (h : Alone pool free r others (m :: ms))
    (hfree : lackingBlocks r numTokens m ≤ free.length) :
    ∃ blocks m' pool' free', m.baseAllocateNewBlocks pool r numTokens = .ok (blocks, m', pool') ∧
      Takes r (lackingBlocks r numTokens m) others ms pool pool' free free' m' ∧
      Grown r numTokens m m' := by
  unfold SingleTypeKVCacheManager.baseAllocateNewBlocks
  set table := m.blocksOf r with htable
  set n : ℤ := cdiv numTokens m.blockSize - table.length with hn
  by_cases hle : n ≤ 0
  · have hlacking : lackingBlocks r numTokens m = 0 := by
      simp only [lackingBlocks, ← htable]
      omega
    have hblocks : (m.setBlocks r table).blocksOf r = m.blocksOf r := by simp [htable]
    refine ⟨[], m.setBlocks r table, pool, free, if_pos hle, ⟨⟨h.inv, ?_, ?_⟩, SameConfig.rfl, ?_,
      fun _ _ => rfl⟩, ⟨SameSetup.setBlocks m r table, rfl, rfl, ?_⟩⟩
    · simpa [hblocks] using h.all
    · intro x hx
      obtain rfl | hx := mem_cons.mp hx
      · rw [hblocks]
        exact h.unhashed m mem_cons_self
      · exact h.unhashed x (mem_cons_of_mem m hx)
    · rw [hlacking, Nat.add_zero]
    · rw [hblocks, ← htable]
      omega
  · have hlacking : n.toNat = lackingBlocks r numTokens m := by
      simp only [lackingBlocks, ← htable]
      omega
    obtain ⟨pool', hrun, hresult⟩ := h.inv.getNewBlocks (n := n) (by omega) (by omega)
    set new := free.take n.toNat with hnew
    have hsplit : new ++ free.drop n.toNat = free := take_append_drop _ _
    have hlength : new.length = n.toNat := by
      rw [hnew, length_take]
      omega
    set m' := (m.setBlocks r (table ++ new)).recordNewBlocks new with hm'
    obtain ⟨hblocks, hcached, hcap⟩ := recordNewBlocks_fields (m.setBlocks r (table ++ new)) new
    have hblocks' : m'.blocksOf r = table ++ new := by
      rw [hblocks r]
      simp
    have hcleared : ∀ b, pool.blockHash b = none → pool'.blockHash b = none := by
      intro b hb
      rw [hresult.blockHash, clearHashes, hb, ite_self]
    have hnodup := h.nodup
    refine ⟨new, m', pool', free.drop n.toNat, ?_, ⟨⟨hresult.inv, ?_, ?_⟩, hresult.config, ?_, ?_⟩,
      ⟨(SameSetup.setBlocks m r _).trans (SameSetup.recordNewBlocks _ _), hcap, hcached, ?_⟩⟩
    · rw [if_neg hle, hrun]
      rfl
    · rw [hresult.config.nullBlock, hresult.config.numGpuBlocks]
      refine List.Perm.trans ?_ h.all
      refine List.Perm.cons _ ?_
      rw [flatMap_cons, flatMap_cons, hblocks', ← htable]
      nth_rewrite 2 [← hsplit]
      simp only [append_assoc]
      refine List.Perm.append_left others (List.Perm.append_left table ?_)
      exact perm_append_comm_assoc new _ _
    · intro x hx b hb
      obtain rfl | hx := mem_cons.mp hx
      · rw [hblocks', hcached] at hb
        rw [hresult.blockHash, clearHashes]
        split
        · rfl
        · next hnot =>
          rw [drop_append] at hb
          obtain hb | hb := mem_append.mp hb
          · exact h.unhashed m mem_cons_self b hb
          · exact absurd (mem_of_mem_drop hb) hnot
      · exact hcleared b (h.unhashed x (mem_cons_of_mem m hx) b hb)
    · rw [← hlacking, length_drop]
      omega
    · intro b hb
      rw [hresult.blockHash, clearHashes, if_neg]
      intro hnot
      have hfree : b ∈ free := mem_of_mem_take hnot
      refine (nodup_append.mp hnodup).2.2 b ?_ b hfree rfl
      rw [flatMap_cons]
      simp only [mem_append] at hb ⊢
      tauto
    · rw [hblocks', length_append, hlength, ← htable]
      omega

theorem cacheLoop_ok {groupId : ℕ} {items : List (BlockId × Option BlockHash × Option Bool)}
    (hnone : ∀ item ∈ items, pool.blockHash item.1 = none)
    (hhash : ∀ item ∈ items, item.2.1.isSome = true) (hnodup : (items.map Prod.fst).Nodup) :
    ∃ pool', cacheLoop groupId pool items = .ok pool' := by
  induction items generalizing pool with
  | nil => exact ⟨pool, rfl⟩
  | cons item items ih =>
    obtain ⟨block, blockHash, mask⟩ := item
    rw [map_cons, nodup_cons] at hnodup
    unfold cacheLoop
    split
    · obtain ⟨hash, rfl⟩ := Option.isSome_iff_exists.mp (hhash _ mem_cons_self)
      have hfirst : pool.blockHash block = none := hnone _ mem_cons_self
      have hrest : ∀ item ∈ items, Function.update pool.blockHash block
          (some (makeBlockHashWithGroupId hash groupId)) item.1 = none := by
        intro item hitem
        have hne : item.1 ≠ block := by
          rintro heq
          have hmem : item.1 ∈ items.map Prod.fst := mem_map_of_mem hitem
          exact hnodup.1 (heq ▸ hmem)
        rw [Function.update_of_ne hne]
        exact hnone item (mem_cons_of_mem _ hitem)
      have hloop : ∃ pool', cacheLoop groupId { pool with
          blockHash := Function.update pool.blockHash block
            (some (makeBlockHashWithGroupId hash groupId))
          cachedBlockHashToBlock := pool.cachedBlockHashToBlock.insert
            (makeBlockHashWithGroupId hash groupId) block } items = .ok pool' :=
        ih hrest (fun item hitem => hhash item (mem_cons_of_mem _ hitem)) hnodup.2
      obtain ⟨pool', hrun⟩ := hloop
      refine ⟨pool', ?_⟩
      simp only [require, hfirst, ↓reduceIte]
      exact hrun
    · exact ih (fun item hitem => hnone item (mem_cons_of_mem _ hitem))
        (fun item hitem => hhash item (mem_cons_of_mem _ hitem)) hnodup.2

theorem generateBlockHashExtraKeys_ok (sha256 : List UInt8 → List UInt8) (request : Request)
    (start stop : ℕ) {startMmIdx : ℤ} (h : 0 ≤ startMmIdx) :
    ∃ keys mmIdx, generateBlockHashExtraKeys sha256 request start stop startMmIdx =
      .ok (keys, mmIdx) ∧ 0 ≤ mmIdx := by
  have hmm : ∃ keys mmIdx, genMmExtraHashKeys request start stop startMmIdx = .ok (keys, mmIdx) ∧
      0 ≤ mmIdx := by
    unfold genMmExtraHashKeys
    split
    · exact ⟨[], startMmIdx, rfl, h⟩
    · split
      · exact ⟨[], startMmIdx, rfl, h⟩
      · have hnot : ¬ startMmIdx < 0 := not_lt.mpr h
        simp only [require, hnot, false_implies, ↓reduceIte]
        exact ⟨_, _, rfl, Int.natCast_nonneg _⟩
  obtain ⟨keys, mmIdx, hrun, hnonneg⟩ := hmm
  unfold generateBlockHashExtraKeys
  rw [hrun, ok_bind]
  dsimp only
  split
  · exact ⟨_, _, rfl, hnonneg⟩
  · exact ⟨_, _, rfl, hnonneg⟩

theorem storedExtraKeys_ok (pool : BlockPool) (request : Request) (blockSize : ℕ)
    (items : List (BlockId × Option Bool)) (i : ℕ) {mmIdx : ℤ} (h : 0 ≤ mmIdx) :
    ∃ keys, pool.storedExtraKeys request blockSize i mmIdx items = .ok keys := by
  induction items generalizing i mmIdx with
  | nil => exact ⟨[], rfl⟩
  | cons item items ih =>
    obtain ⟨block, mask⟩ := item
    unfold storedExtraKeys
    split
    · obtain ⟨keys, mmIdx', hrun, hnonneg⟩ := generateBlockHashExtraKeys_ok pool.sha256 request
        (i * blockSize) (i * blockSize + blockSize) h
      obtain ⟨rest, hrest⟩ := ih (i + 1) hnonneg
      refine ⟨keys :: rest, ?_⟩
      rw [hrun, ok_bind]
      simp only [hrest, ok_bind]
      rfl
    · exact ih (i + 1) h

variable {blockSize : ℕ}

theorem cacheFullBlocks_ok {request : Request} {blocks : List BlockId}
    {numCachedBlocks numFullBlocks groupId : ℕ} (hlt : numCachedBlocks < numFullBlocks)
    (hhashes : numFullBlocks ≤ request.blockHashes.length)
    (hsize : blockSize = pool.hashBlockSize ∨ blockSize % pool.hashBlockSize = 0)
    (hscaled : numFullBlocks ≤ (pool.requestHashes request blockSize).length)
    (hblocks : numFullBlocks ≤ blocks.length) (hnodup : blocks.Nodup)
    (hnone : ∀ b ∈ blocks.drop numCachedBlocks, pool.blockHash b = none) :
    ∃ pool', pool.cacheFullBlocks request blocks numCachedBlocks numFullBlocks blockSize groupId
      none = .ok pool' := by
  set items :=
    pool.cacheItems request blocks numCachedBlocks numFullBlocks blockSize none with hitems
  have hfst : items.map Prod.fst = slice blocks numCachedBlocks numFullBlocks := by
    rw [hitems, cacheItems, map_map]
    exact zipIdx_map_fst _ _
  have hmem : ∀ item ∈ items, item.1 ∈ slice blocks numCachedBlocks numFullBlocks :=
    fun item hitem => hfst ▸ mem_map_of_mem hitem
  have hsome : ∀ item ∈ items, item.2.1.isSome = true := by
    intro item hitem
    simp only [hitems, cacheItems, slice, mem_map, Prod.exists] at hitem
    obtain ⟨block, i, hget, rfl⟩ := hitem
    obtain ⟨hi, -⟩ := List.getElem?_eq_some_iff.mp (mem_zipIdx_iff_getElem?.mp hget)
    rw [length_take] at hi
    have hlt' : numCachedBlocks + i < (pool.requestHashes request blockSize).length := by
      omega
    show (((pool.requestHashes request blockSize).drop numCachedBlocks)[i]?).isSome = true
    rw [List.getElem?_drop, List.getElem?_eq_getElem hlt']
    rfl
  have hloop : ∃ cached, cacheLoop groupId pool items = .ok cached := by
    refine cacheLoop_ok (fun item hitem => hnone _ (mem_of_mem_take (hmem item hitem))) hsome ?_
    rw [hfst]
    exact ((take_sublist _ _).trans (drop_sublist _ _)).nodup hnodup
  obtain ⟨cached, hcached⟩ := hloop
  obtain ⟨keys, hkeys⟩ := storedExtraKeys_ok pool request blockSize
    (items.map fun item => (item.1, item.2.2)) numCachedBlocks (le_refl (0 : ℤ))
  unfold cacheFullBlocks
  rw [if_neg (not_le.mpr hlt)]
  dsimp only
  rw [(require_eq_ok (u := ())).mpr hhashes, ok_bind,
    (require_eq_ok (u := ())).mpr (by simp), ok_bind,
    (require_eq_ok (u := ())).mpr hsize, ok_bind, ← hitems, hcached, ok_bind,
    if_neg (not_lt.mpr hblocks), hkeys, ok_bind]
  split
  · exact ⟨_, rfl⟩
  · exact ⟨_, rfl⟩

theorem length_requestHashes {request : Request} (hpos : 0 < pool.hashBlockSize)
    (hdvd : blockSize % pool.hashBlockSize = 0) (hsize : 0 < blockSize)
    (hhash : numTokens / pool.hashBlockSize ≤ request.blockHashes.length) :
    numTokens / blockSize ≤ request.blockHashes.length ∧
      numTokens / blockSize ≤ (pool.requestHashes request blockSize).length := by
  obtain ⟨k, rfl⟩ := Nat.dvd_of_mod_eq_zero hdvd
  have hle : numTokens / (pool.hashBlockSize * k) ≤ request.blockHashes.length / k := by
    rw [← Nat.div_div_eq_div_mul]
    exact Nat.div_le_div_right hhash
  refine ⟨hle.trans (Nat.div_le_self _ _), ?_⟩
  unfold requestHashes
  split
  · exact hle.trans (Nat.div_le_self _ _)
  · simpa [blockHashListWithBlockSize, Nat.mul_div_cancel_left k hpos] using hle

/-- A table whose full blocks have been cached. -/
structure CachedTable (r : RequestId) (m m' : SingleTypeKVCacheManager) : Prop where
  setup : SameSetup m m'
  cap : m'.maxAdmissionBlocksPerRequest = m.maxAdmissionBlocksPerRequest
  blocks : m'.blocksOf r = m.blocksOf r

theorem Alone.baseCacheBlocks (h : Alone pool free r others (m :: ms)) {request : Request}
    (hr : request.requestId = r) {specClass : FullAttentionClass}
    (hkind : m.kvCacheSpec.kind = .fullAttention specClass) (hc : pool.enableCaching = true)
    (hpos : 0 < pool.hashBlockSize) (hdvd : m.blockSize % pool.hashBlockSize = 0)
    (hlength : numTokens / m.blockSize ≤ (m.blocksOf r).length)
    (hhash : numTokens / pool.hashBlockSize ≤ request.blockHashes.length)
    (retentionInterval : Option ℕ) :
    ∃ m' pool', m.baseCacheBlocks pool request numTokens retentionInterval = .ok (m', pool') ∧
      Takes r 0 others ms pool pool' free free m' ∧ CachedTable r m m' := by
  subst hr
  set r := request.requestId
  unfold baseCacheBlocks
  dsimp only
  split
  · exact ⟨m, pool, rfl, ⟨h, SameConfig.rfl, rfl, fun _ _ => rfl⟩, ⟨SameSetup.rfl, rfl, rfl⟩⟩
  next hlt =>
  have hmask : m.reachableBlockMask (m.numCachedBlock.getD r 0) (numTokens / m.blockSize)
      retentionInterval request.numPromptTokens = .ok none := by
    unfold reachableBlockMask
    rw [hkind]
    rfl
  obtain ⟨hhashes, hscaled⟩ := length_requestHashes hpos hdvd m.blockSize_pos hhash
  have hnodup := h.nodup
  have htable : (m.blocksOf r).Nodup := by
    rw [flatMap_cons] at hnodup
    simp only [nodup_append] at hnodup
    exact hnodup.1.2.1.1
  have hcache : ∃ pool', pool.cacheFullBlocks request (m.blocksOf r) (m.numCachedBlock.getD r 0)
      (numTokens / m.blockSize) m.blockSize m.kvCacheGroupId none = .ok pool' :=
    cacheFullBlocks_ok (not_le.mp hlt) hhashes (.inr hdvd) hscaled hlength htable
      (h.unhashed m mem_cons_self)
  obtain ⟨pool', hrun⟩ := hcache
  have hbound : ∀ b ∈ m.blocksOf r, b < pool.numGpuBlocks := by
    intro b hb
    refine mem_range.mp (h.all.mem_iff.mp (mem_cons_of_mem _ ?_))
    rw [flatMap_cons]
    simp only [mem_append]
    tauto
  obtain ⟨hinv, hconfig, -, hhashed⟩ := h.inv.cacheFullBlocks hc hbound hrun
  have hother : ∀ b ∈ others ++ ms.flatMap (fun m => m.blocksOf r),
      pool'.blockHash b = pool.blockHash b := by
    intro b hb
    obtain hsame | ⟨-, i, hash, -, -, hget, -⟩ := hhashed b
    · exact hsame
    · exfalso
      have hmem : b ∈ m.blocksOf r := mem_of_getElem? hget
      rw [flatMap_cons] at hnodup
      simp only [nodup_append, mem_append] at hnodup hb
      obtain ⟨⟨-, ⟨-, -, hapart⟩, hothers⟩, -, -⟩ := hnodup
      obtain hb | hb := hb
      · exact hothers b hb b (.inl hmem) rfl
      · exact hapart b hmem b hb rfl
  set m' : SingleTypeKVCacheManager := { m with
    numCachedBlock := m.numCachedBlock.set r (numTokens / m.blockSize) } with hm'
  refine ⟨m', pool', ?_, ⟨⟨hinv, ?_, ?_⟩, hconfig, rfl, hother⟩, ⟨⟨rfl, rfl, rfl, rfl, rfl, rfl⟩,
    rfl, rfl⟩⟩
  · rw [hmask, ok_bind, hrun, ok_bind]
    rfl
  · rw [hconfig.nullBlock, hconfig.numGpuBlocks]
    exact h.all
  · intro x hx b hb
    obtain rfl | hx := mem_cons.mp hx
    · have hcached : m'.numCachedBlock.getD r 0 = numTokens / m.blockSize := by
        simp [hm', Dict.getD]
      rw [hcached] at hb
      have hb' : b ∈ (m.blocksOf r).drop (m.numCachedBlock.getD r 0) :=
        (drop_sublist_drop_left _ (not_le.mp hlt).le).subset hb
      obtain hsame | ⟨-, i, hash, -, hi, hget, -⟩ := hhashed b
      · rw [hsame]
        exact h.unhashed m mem_cons_self b hb'
      · exfalso
        obtain ⟨j, hj⟩ := mem_iff_getElem?.mp hb
        rw [List.getElem?_drop] at hj
        have hsame : i = numTokens / m.blockSize + j :=
          (List.getElem?_inj (List.getElem?_eq_some_iff.mp hget).1 htable).mp (hget.trans hj.symm)
        omega
    · rw [hother b (mem_append_right _ (mem_flatMap.mpr ⟨x, hx, mem_of_mem_drop hb⟩))]
      exact h.unhashed x (mem_cons_of_mem m hx) b hb

end Alone

/-- What a manager of full attention keeps for the request. -/
structure FullManager (maxModelLen : ℕ) (r : RequestId) (m : SingleTypeKVCacheManager) : Prop where
  kind : ∃ specClass, m.kvCacheSpec.kind = .fullAttention specClass
  cap : m.maxAdmissionBlocksPerRequest = none
  length : (m.blocksOf r).length ≤ cdiv maxModelLen m.blockSize

/-- All blocks are free or belong to the request. -/
structure SoloInv (m : KVCacheManager) (r : RequestId) : Prop where
  alone : ∃ free, Alone m.blockPool free r [] m.coordinator.singleTypeManagers
  managers : ∀ x ∈ m.coordinator.singleTypeManagers, FullManager m.maxModelLen r x
  caching : m.enableCaching = true → m.blockPool.enableCaching = true ∧
    0 < m.blockPool.hashBlockSize ∧
    ∀ x ∈ m.coordinator.singleTypeManagers, x.blockSize % m.blockPool.hashBlockSize = 0

/-- The blocks of a request of `max_model_len` tokens. -/
def KVCacheManager.longestRequestBlocks (m : KVCacheManager) : ℕ :=
  (m.coordinator.singleTypeManagers.map fun x => cdiv m.maxModelLen x.blockSize).sum

section Count
variable {m : SingleTypeKVCacheManager} {pool : BlockPool} {r : RequestId} {maxModelLen : ℕ}

theorem FullManager.getNumBlocksToAllocate (h : FullManager maxModelLen r m) (numTokens total
    numTokensMainModel : ℕ) (applyAdmissionCap : Bool) :
    m.getNumBlocksToAllocate pool r numTokens [] total numTokensMainModel applyAdmissionCap =
      .ok (lackingBlocks r numTokens m : ℤ) := by
  obtain ⟨specClass, hkind⟩ := h.kind
  have hskipped : m.getNumSkippedTokens total = 0 := by
    rw [getNumSkippedTokens, hkind]
  unfold SingleTypeKVCacheManager.getNumBlocksToAllocate
  rw [hkind]
  have hsame : ∀ cap : Bool, m.baseNumBlocksToAllocate pool r numTokens [] total cap =
      m.baseNumBlocksToAllocate pool r numTokens [] total false := by
    intro cap
    unfold baseNumBlocksToAllocate
    rw [h.cap]
    cases cap <;> rfl
  rw [hsame]
  unfold baseNumBlocksToAllocate
  dsimp only
  split
  · rw [(require_eq_ok (u := ())).mpr (by simp), ok_bind]
    refine congrArg Except.ok ?_
    simp only [lackingBlocks]
    omega
  · refine congrArg Except.ok ?_
    simp only [hskipped, lackingBlocks, drop_nil,
      getNumEvictableBlocks, countP_nil, length_nil,
      Int.zero_ediv]
    omega

theorem withHits_empty (c : KVCacheCoordinator) :
    c.withHits (List.replicate c.singleTypeManagers.length []) =
      c.singleTypeManagers.map fun m => (m, []) := by
  have hget : ∀ i, (List.replicate c.singleTypeManagers.length ([] : List BlockId)).getD i [] =
    [] := by
    intro i
    rw [getD_eq_getElem?_getD, List.getElem?_replicate]
    split <;> rfl
  unfold KVCacheCoordinator.withHits
  simp only [hget]
  conv_rhs => rw [← zipIdx_map_fst 0 c.singleTypeManagers, map_map]
  rfl

theorem getNumBlocksToAllocate_solo {c : KVCacheCoordinator}
    (h : ∀ x ∈ c.singleTypeManagers, FullManager maxModelLen r x) (numTokens numEncoderTokens total
      numTokensMainModel : ℕ) (applyAdmissionCap : Bool) :
    c.getNumBlocksToAllocate r numTokens (List.replicate c.singleTypeManagers.length [])
      numEncoderTokens total numTokensMainModel applyAdmissionCap =
      .ok ((c.singleTypeManagers.map (lackingBlocks r numTokens)).sum : ℤ) := by
  unfold KVCacheCoordinator.getNumBlocksToAllocate
  rw [withHits_empty]
  refine bind_eq_ok.mpr
    ⟨c.singleTypeManagers.map fun m => (lackingBlocks r numTokens m : ℤ), ?_, ?_⟩
  · rw [mapM_eq_ok, forall₂_map_left_iff, forall₂_map_right_iff, forall₂_same]
    intro x hx
    obtain ⟨specClass, hkind⟩ := (h x hx).kind
    have hcross : x.kvCacheSpec.isCrossAttention = false := by
      simp [KVCacheSpec.isCrossAttention, hkind]
    simp only [hcross, Bool.false_eq_true, ↓reduceIte]
    exact (h x hx).getNumBlocksToAllocate numTokens total numTokensMainModel applyAdmissionCap
  · refine congrArg Except.ok ?_
    rw [Nat.cast_list_sum, map_map]
    rfl

theorem removeSkippedBlocks_solo {c : KVCacheCoordinator}
    (h : ∀ x ∈ c.singleTypeManagers, FullManager maxModelLen r x) (total : ℕ) :
    c.removeSkippedBlocks r total = .ok c := by
  have hone : ∀ x ∈ c.singleTypeManagers, ∀ pool,
      x.removeSkippedBlocks pool r total = .ok (x, pool) := by
    intro x hx pool
    obtain ⟨specClass, hkind⟩ := (h x hx).kind
    unfold removeSkippedBlocks
    rw [hkind]
    unfold baseRemoveSkippedBlocks
    rw [getNumSkippedTokens, hkind]
    rfl
  have hall : ∀ ms : List SingleTypeKVCacheManager, (∀ x ∈ ms, x ∈ c.singleTypeManagers) →
      ∀ pool, KVCacheCoordinator.forEach (fun x pool => x.removeSkippedBlocks pool r total) ms
        pool = .ok (ms, pool) := by
    intro ms hms
    induction ms with
    | nil => exact fun _ => rfl
    | cons x ms ih =>
      intro pool
      simp only [KVCacheCoordinator.forEach, hone x (hms x mem_cons_self), ok_bind,
        ih fun y hy => hms y (mem_cons_of_mem x hy)]
      rfl
  unfold KVCacheCoordinator.removeSkippedBlocks
  rw [hall c.singleTypeManagers fun _ h => h, ok_bind]
  rfl

end Count

/-- A call for a request that is alone: some new tokens, with no hits, no external tokens and no
blocks to leave to others. -/
structure Chunk (m : KVCacheManager) (request : Request) (args : AllocateSlotsArgs) : Prop where
  tokens : 1 ≤ args.numNewTokens
  within : request.numComputedTokens + args.numNewTokens ≤ m.maxModelLen
  computed : args.numNewComputedTokens = 0
  hits : ∀ blocks ∈ args.newComputedBlocks, blocks = m.emptyKvCacheBlocks
  external : args.numExternalComputedTokens = 0
  reserved : args.reservedBlocks = 0
  alone : args.hasScheduledReqs = false ∨ request.status = .running

/-- A request that is not too long, with the hashes of its full blocks. -/
structure Servable (m : KVCacheManager) (request : Request) : Prop where
  length : request.numTokens ≤ m.maxModelLen
  hashes : m.enableCaching = true →
    request.numTokens / m.blockPool.hashBlockSize ≤ request.blockHashes.length

theorem cdiv_mono {a b c : ℕ} (h : a ≤ b) : cdiv a c ≤ cdiv b c :=
  Nat.div_le_div_right (by omega)

theorem div_le_cdiv (a : ℕ) {b : ℕ} (hb : 0 < b) : a / b ≤ cdiv a b :=
  Nat.div_le_div_right (by omega)

section Slots
variable {m : KVCacheManager} {request : Request} {args : AllocateSlotsArgs}

variable {numTokens : ℕ} {c : KVCacheCoordinator}

theorem SoloInv.lacking_le (h : SoloInv m request.requestId) {free : List BlockId}
    (halone : Alone m.blockPool free request.requestId [] m.coordinator.singleTypeManagers)
    (hfit : m.longestRequestBlocks + 1 ≤ m.blockPool.numGpuBlocks)
    (hle : numTokens ≤ m.maxModelLen) :
    (m.coordinator.singleTypeManagers.map (lackingBlocks request.requestId numTokens)).sum ≤
      free.length := by
  have hsum : (m.coordinator.singleTypeManagers.map fun x =>
      lackingBlocks request.requestId numTokens x + (x.blocksOf request.requestId).length).sum ≤
      m.longestRequestBlocks := by
    refine sum_le_sum ?_
    intro x hx
    have hlength := (h.managers x hx).length
    have hmono : cdiv numTokens x.blockSize ≤ cdiv m.maxModelLen x.blockSize := cdiv_mono hle
    simp only [lackingBlocks]
    omega
  rw [sum_map_add] at hsum
  have hcount := halone.count
  omega

theorem Chunk.watermark_eq (h : Chunk m request args) :
    m.watermark request args.hasScheduledReqs = 0 := by
  unfold KVCacheManager.watermark
  obtain halone | hrunning := h.alone
  · rw [halone]
    simp
  · rw [hrunning]
    simp

theorem Chunk.hits_eq (h : Chunk m request args) :
    args.newComputedBlocks.getD m.emptyKvCacheBlocks = m.emptyKvCacheBlocks := by
  cases hblocks : args.newComputedBlocks with
  | none => rfl
  | some blocks => exact h.hits blocks hblocks

theorem Alone.allocateNewBlocks {r : RequestId} {free : List BlockId} {maxModelLen : ℕ}
    (halone : Alone c.blockPool free r [] c.singleTypeManagers)
    (hfull : ∀ x ∈ c.singleTypeManagers, FullManager maxModelLen r x)
    (numTokensMain numEncoderTokens : ℕ)
    (hfree : (c.singleTypeManagers.map (lackingBlocks r numTokens)).sum ≤ free.length) :
    ∃ blocks c' free', c.allocateNewBlocks r numTokens numTokensMain numEncoderTokens =
      .ok (blocks, c') ∧ Alone c'.blockPool free' r [] c'.singleTypeManagers ∧
      SameConfig c.blockPool c'.blockPool ∧
      List.Forall₂ (Grown r numTokens) c.singleTypeManagers c'.singleTypeManagers := by
  obtain ⟨results, pool', free', hrun, halone', hconfig, -, hgrown⟩ := forEach_alone
    (f := fun m pool => do
      let x ← SingleTypeKVCacheManager.allocateNewBlocks m pool r
        (if m.kvCacheSpec.isCrossAttention then numEncoderTokens else numTokens) numTokensMain
      pure ((x.1, x.2.1), x.2.2))
    (g := Prod.snd) (R := Grown r numTokens) (k := lackingBlocks r numTokens)
    (P := FullManager maxModelLen r) (Q := fun _ => True) (fun _ _ _ h => h) (by
      intro pool free others m ms _ halone hm hcost
      obtain ⟨specClass, hkind⟩ := hm.kind
      obtain ⟨blocks, m', pool', free', hrun, htakes, hgrown⟩ := halone.baseAllocateNewBlocks hcost
      refine ⟨(blocks, m'), pool', free', ?_, htakes, hgrown⟩
      have hcross : m.kvCacheSpec.isCrossAttention = false := by
        simp [KVCacheSpec.isCrossAttention, hkind]
      simp only [hcross, Bool.false_eq_true, ↓reduceIte,
        SingleTypeKVCacheManager.allocateNewBlocks, hkind, hrun, ok_bind]
      rfl) trivial halone hfull hfree
  refine ⟨results.map Prod.fst, c.update (results.map Prod.snd, pool'), free', ?_, halone', hconfig,
    hgrown⟩
  exact bind_eq_ok.mpr ⟨_, hrun, rfl⟩

theorem Alone.cacheBlocks {free : List BlockId} {maxModelLen : ℕ}
    (halone : Alone c.blockPool free request.requestId [] c.singleTypeManagers)
    (hfull : ∀ x ∈ c.singleTypeManagers, FullManager maxModelLen request.requestId x)
    (hc : c.blockPool.enableCaching = true) (hpos : 0 < c.blockPool.hashBlockSize)
    (hdvd : ∀ x ∈ c.singleTypeManagers, x.blockSize % c.blockPool.hashBlockSize = 0)
    (hlength : ∀ x ∈ c.singleTypeManagers,
      numTokens / x.blockSize ≤ (x.blocksOf request.requestId).length)
    (hhash : numTokens / c.blockPool.hashBlockSize ≤ request.blockHashes.length) :
    ∃ c' free', c.cacheBlocks request numTokens = .ok c' ∧
      Alone c'.blockPool free' request.requestId [] c'.singleTypeManagers ∧
      SameConfig c.blockPool c'.blockPool ∧
      List.Forall₂ (CachedTable request.requestId) c.singleTypeManagers c'.singleTypeManagers := by
  obtain ⟨results, pool', free', hrun, halone', hconfig, -, hcached⟩ := forEach_alone
    (f := fun x pool => x.cacheBlocks pool request (c.numTokensToCache x numTokens)
      c.retentionInterval)
    (g := id) (R := CachedTable request.requestId) (k := fun _ => 0)
    (P := fun x => FullManager maxModelLen request.requestId x ∧
      x.blockSize % c.blockPool.hashBlockSize = 0 ∧
      numTokens / x.blockSize ≤ (x.blocksOf request.requestId).length)
    (Q := SameConfig c.blockPool) (fun _ _ h h' => h'.trans h) (by
      intro pool free others x ms hpool halone hx _
      obtain ⟨hx, hdvd, hlength⟩ := hx
      obtain ⟨specClass, hkind⟩ := hx.kind
      have hle := CacheInv.numTokensToCache_le c x numTokens
      obtain ⟨x', pool', hrun, htakes, hcached⟩ := halone.baseCacheBlocks rfl hkind
        (hpool.enableCaching.trans hc) (hpool.hashBlockSize ▸ hpos)
        (hpool.hashBlockSize ▸ hdvd) ((Nat.div_le_div_right hle).trans hlength)
        (hpool.hashBlockSize ▸ (Nat.div_le_div_right hle).trans hhash) c.retentionInterval
      refine ⟨x', pool', free, ?_, htakes, hcached⟩
      simp only [SingleTypeKVCacheManager.cacheBlocks, hkind, hrun])
    SameConfig.rfl halone (fun x hx => ⟨hfull x hx, hdvd x hx, hlength x hx⟩) (by simp)
  rw [map_id] at halone' hcached
  refine ⟨c.update (results, pool'), free', ?_, halone', hconfig, hcached⟩
  unfold KVCacheCoordinator.cacheBlocks
  rw [hrun, ok_bind]
  rfl

variable {x x' : SingleTypeKVCacheManager}

theorem Grown.fullManager {r : RequestId} {maxModelLen : ℕ} (h : Grown r numTokens x x')
    (hx : FullManager maxModelLen r x) (hle : numTokens ≤ maxModelLen) :
    FullManager maxModelLen r x' where
  kind := h.setup.spec ▸ hx.kind
  cap := h.cap.trans hx.cap
  length := by
    have hmono : cdiv numTokens x.blockSize ≤ cdiv maxModelLen x.blockSize := cdiv_mono hle
    have hlength := hx.length
    rw [h.length, h.setup.blockSize]
    omega

theorem CachedTable.fullManager {r : RequestId} {maxModelLen : ℕ} (h : CachedTable r x x')
    (hx : FullManager maxModelLen r x) : FullManager maxModelLen r x' where
  kind := h.setup.spec ▸ hx.kind
  cap := h.cap.trans hx.cap
  length := by
    rw [h.blocks, h.setup.blockSize]
    exact hx.length

theorem map_blockSize {ms ms' : List SingleTypeKVCacheManager} (h : List.Forall₂ SameSetup ms ms') :
    ms'.map blockSize = ms.map blockSize := by
  induction h with
  | nil => rfl
  | cons hsetup _ ih => rw [map_cons, map_cons, hsetup.blockSize, ih]

theorem SoloInv.update (h : SoloInv m request.requestId) {free : List BlockId}
    (halone : Alone c.blockPool free request.requestId [] c.singleTypeManagers)
    (hfull : ∀ x ∈ c.singleTypeManagers, FullManager m.maxModelLen request.requestId x)
    (hconfig : SameConfig m.blockPool c.blockPool)
    (hsetup : List.Forall₂ SameSetup m.coordinator.singleTypeManagers c.singleTypeManagers) :
    SoloInv { m with coordinator := c } request.requestId ∧
      ({ m with coordinator := c } : KVCacheManager).longestRequestBlocks =
        m.longestRequestBlocks := by
  have hsizes := map_blockSize hsetup
  refine ⟨⟨⟨free, halone⟩, hfull, ?_⟩, ?_⟩
  · intro hcaching
    obtain ⟨hpool, hpos, hdvd⟩ := h.caching hcaching
    refine ⟨hconfig.enableCaching.trans hpool, hconfig.hashBlockSize.symm ▸ hpos, ?_⟩
    intro x hx
    obtain ⟨y, hy, hxy⟩ := exists_left_of_forall₂ hsetup hx
    show x.blockSize % c.blockPool.hashBlockSize = 0
    rw [hxy.blockSize, hconfig.hashBlockSize]
    exact hdvd y hy
  · have hmap := congrArg (List.map fun size => cdiv m.maxModelLen size) hsizes
    rw [map_map, map_map] at hmap
    exact congrArg List.sum hmap

/-- What a successful call leaves behind. -/
structure KeepsSolo (m m' : KVCacheManager) (r : RequestId) : Prop where
  solo : SoloInv m' r
  maxModelLen : m'.maxModelLen = m.maxModelLen
  longest : m'.longestRequestBlocks = m.longestRequestBlocks
  config : SameConfig m.blockPool m'.blockPool

theorem SoloInv.commitSlots (h : SoloInv m request.requestId) {free : List BlockId}
    (halone : Alone m.blockPool free request.requestId [] m.coordinator.singleTypeManagers)
    (hrequest : Servable m request) (hexternal : args.numExternalComputedTokens = 0)
    (numLocal : ℕ) {numTokensMain : ℕ} (hmain : numTokensMain ≤ numTokens)
    (hle : numTokens ≤ m.maxModelLen)
    (hfree : (m.coordinator.singleTypeManagers.map
      (lackingBlocks request.requestId numTokens)).sum ≤ free.length) :
    ∃ blocks m', m.commitSlots request args m.emptyKvCacheBlocks numLocal numTokens numTokensMain =
      .ok (blocks, m') ∧ KeepsSolo m m' request.requestId := by
  obtain ⟨blocks, c, free₁, hdraw, halone₁, hconfig₁, hgrown⟩ :=
    halone.allocateNewBlocks h.managers numTokensMain args.numEncoderTokens hfree
  have hfull₁ : ∀ x ∈ c.singleTypeManagers, FullManager m.maxModelLen request.requestId x := by
    intro x hx
    obtain ⟨y, hy, hyx⟩ := exists_left_of_forall₂ hgrown hx
    exact hyx.fullManager (h.managers y hy) hle
  obtain ⟨hsolo₁, hlongest₁⟩ :=
    h.update halone₁ hfull₁ hconfig₁ (hgrown.imp fun _ _ hxy => hxy.setup)
  have hnoHits : ¬ (m.emptyKvCacheBlocks.any (· ≠ []) = true ∨
      args.numExternalComputedTokens > 0) := by
    simp [KVCacheManager.emptyKvCacheBlocks, hexternal]
  unfold KVCacheManager.commitSlots
  rw [if_neg hnoHits, pure_bind, hdraw, ok_bind]
  dsimp only
  split
  · exact ⟨blocks, _, rfl, hsolo₁, rfl, hlongest₁, hconfig₁⟩
  · next hcached =>
    have hcaching : m.enableCaching = true := by
      by_contra hnot
      exact hcached (.inl (Bool.eq_false_iff.mpr hnot))
    obtain ⟨hpool, hpos, hdvd⟩ := hsolo₁.caching hcaching
    have hlength : ∀ x ∈ c.singleTypeManagers, min numTokensMain request.numTokens / x.blockSize ≤
        (x.blocksOf request.requestId).length := by
      intro x hx
      obtain ⟨y, hy, hyx⟩ := exists_left_of_forall₂ hgrown hx
      rw [hyx.length, hyx.setup.blockSize]
      calc min numTokensMain request.numTokens / y.blockSize
          ≤ numTokens / y.blockSize := Nat.div_le_div_right ((Nat.min_le_left _ _).trans hmain)
        _ ≤ cdiv numTokens y.blockSize := div_le_cdiv numTokens y.blockSize_pos
        _ ≤ _ := le_max_right _ _
    have hhash : min numTokensMain request.numTokens / c.blockPool.hashBlockSize ≤
        request.blockHashes.length := by
      rw [hconfig₁.hashBlockSize]
      exact (Nat.div_le_div_right (Nat.min_le_right _ _)).trans (hrequest.hashes hcaching)
    obtain ⟨c', free₂, hcache, halone₂, hconfig₂, htables⟩ :=
      halone₁.cacheBlocks hfull₁ hpool hpos hdvd hlength hhash
    have hfull₂ : ∀ x ∈ c'.singleTypeManagers, FullManager m.maxModelLen request.requestId x := by
      intro x hx
      obtain ⟨y, hy, hyx⟩ := exists_left_of_forall₂ htables hx
      exact hyx.fullManager (hfull₁ y hy)
    obtain ⟨hsolo₂, hlongest₂⟩ := hsolo₁.update halone₂ hfull₂ hconfig₂
      (htables.imp fun _ _ hxy => hxy.setup)
    rw [hcache, ok_bind]
    exact ⟨blocks, _, rfl, hsolo₂, rfl, hlongest₂.trans hlongest₁, hconfig₁.trans hconfig₂⟩

/-- The tokens that a chunk needs slots for. -/
def chunkTokens (m : KVCacheManager) (request : Request) (args : AllocateSlotsArgs) : ℕ :=
  min (request.numComputedTokens + args.numNewTokens.toNat + args.numLookaheadTokens) m.maxModelLen

theorem SoloInv.allocateSlots_eq (h : SoloInv m request.requestId) {free : List BlockId}
    (halone : Alone m.blockPool free request.requestId [] m.coordinator.singleTypeManagers)
    (hchunk : Chunk m request args)
    (hfits : args.fullSequenceMustFit = true → (m.coordinator.singleTypeManagers.map
      (lackingBlocks request.requestId (min request.numTokens m.maxModelLen))).sum ≤
        free.length) :
    m.allocateSlots request args =
      if free.length < (m.coordinator.singleTypeManagers.map
        (lackingBlocks request.requestId (chunkTokens m request args))).sum then pure (none, m)
      else (do
        let (newBlocks, m) ← m.commitSlots request args m.emptyKvCacheBlocks
          request.numComputedTokens (chunkTokens m request args)
          (request.numComputedTokens + args.numNewTokens.toNat)
        pure (some newBlocks, m)) := by
  have hfreeBlocks : m.blockPool.getNumFreeBlocks = free.length := halone.inv.holds.count
  have htokens := hchunk.tokens
  have hwithin := hchunk.within
  have hempty : m.emptyKvCacheBlocks =
      List.replicate m.coordinator.singleTypeManagers.length [] := rfl
  have hfull : (if args.fullSequenceMustFit = true
      then m.fullSequenceFits request args m.emptyKvCacheBlocks
        (min request.numComputedTokens m.maxModelLen) else pure true) = .ok true := by
    split
    · next hmust =>
      have hle := hfits hmust
      unfold KVCacheManager.fullSequenceFits
      dsimp only
      rw [hempty, getNumBlocksToAllocate_solo h.managers, ok_bind, hchunk.watermark_eq, hfreeBlocks]
      refine congrArg Except.ok (decide_eq_true ?_)
      omega
    · rfl
  have hmain : ((min request.numComputedTokens m.maxModelLen : ℕ) + args.numNewTokens).toNat =
      request.numComputedTokens + args.numNewTokens.toNat := by omega
  unfold KVCacheManager.allocateSlots
  rw [if_neg (by omega)]
  dsimp only
  rw [hchunk.hits_eq, hchunk.computed, hchunk.external, Nat.add_zero, hfull,
    ok_bind, if_neg (by simp), removeSkippedBlocks_solo h.managers, ok_bind, hmain,
    hempty, getNumBlocksToAllocate_solo h.managers, ok_bind]
  refine if_congr ?_ rfl rfl
  show _ + (m.watermark request args.hasScheduledReqs : ℤ) >
    m.blockPool.getNumFreeBlocks - (args.reservedBlocks : ℤ) ↔ _
  rw [hchunk.watermark_eq, hchunk.reserved, hfreeBlocks]
  unfold chunkTokens
  omega

theorem SoloInv.allocateSlots (h : SoloInv m request.requestId)
    (hfit : m.longestRequestBlocks + 1 ≤ m.blockPool.numGpuBlocks)
    (hrequest : Servable m request) (hchunk : Chunk m request args) :
    ∃ blocks m', m.allocateSlots request args = .ok (some blocks, m') ∧
      KeepsSolo m m' request.requestId := by
  obtain ⟨free, halone⟩ := h.alone
  have htokens := hchunk.tokens
  have hwithin := hchunk.within
  have hle : chunkTokens m request args ≤ m.maxModelLen := Nat.min_le_right _ _
  have hmain : request.numComputedTokens + args.numNewTokens.toNat ≤ chunkTokens m request args := by
    unfold chunkTokens
    omega
  obtain ⟨blocks, m', hrun, hkeeps⟩ := h.commitSlots halone hrequest hchunk.external
    request.numComputedTokens hmain hle (h.lacking_le halone hfit hle)
  refine ⟨blocks, m', ?_, hkeeps⟩
  rw [h.allocateSlots_eq halone hchunk fun _ => h.lacking_le halone hfit (Nat.min_le_right _ _),
    if_neg (not_lt.mpr (h.lacking_le halone hfit hle)), hrun, ok_bind]
  rfl

end Slots

end Vllm
