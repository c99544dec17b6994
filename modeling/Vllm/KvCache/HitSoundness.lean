import Vllm.KvCache.Ledger
import Vllm.KvCache.KvCacheManager

/-! The hits of `get_computed_blocks`: in the list of every group, each non-null block
carries the request's hash at its index. -/
namespace Vllm
open Raises List

/-- A row of hits at index `i`: each block is null or carries the hash of the index. -/
def KeyedRow (pool : BlockPool) (blockHashes : List BlockHash) (groupIds : List ℕ) (i : ℕ)
    (row : HitRow) : Prop :=
  ∀ (k : ℕ) b g, row[k]? = some b → groupIds[k]? = some g → b ≠ pool.nullBlock →
    ∃ hash, blockHashes[i]? = some hash ∧ pool.blockHash b = some ⟨hash, g⟩

def KeyedRows (pool : BlockPool) (blockHashes : List BlockHash) (groupIds : List ℕ)
    (rows : List HitRow) : Prop :=
  ∀ (i : ℕ) row, rows[i]? = some row → KeyedRow pool blockHashes groupIds i row

namespace KeyedRows
variable {pool : BlockPool} {blockHashes : List BlockHash} {groupIds : List ℕ} {rows : List HitRow}

section
variable (h : KeyedRows pool blockHashes groupIds rows)
include h

theorem take (n : ℕ) : KeyedRows pool blockHashes groupIds (rows.take n) := by
  intro i row hget
  rw [List.getElem?_take] at hget
  split_ifs at hget
  exact h i row hget

theorem dropLast : KeyedRows pool blockHashes groupIds rows.dropLast := by
  rw [dropLast_eq_take]
  exact h.take _

theorem set {i : ℕ} {row : HitRow} (hrow : KeyedRow pool blockHashes groupIds i row) :
    KeyedRows pool blockHashes groupIds (rows.set i row) := by
  intro j row' hget
  rw [List.getElem?_set] at hget
  split_ifs at hget with hij hlt
  · cases hget
    exact hij ▸ hrow
  · exact h j row' hget

end

end KeyedRows

namespace CacheHit
variable {pool : BlockPool} {free : List BlockId} {blockHashes : List BlockHash}
  {groupIds : List ℕ} {rows : List HitRow}

theorem keyedRow_null (i n : ℕ) :
    KeyedRow pool blockHashes groupIds i (List.replicate n pool.nullBlock) := by
  intro k b g hb _ hne
  rw [List.getElem?_replicate] at hb
  split_ifs at hb
  exact absurd (Option.some.inj hb).symm hne

theorem keyedRow_lookup (h : PoolInv pool free) {i : ℕ} {row : HitRow}
    (hr : lookup pool blockHashes groupIds i = .ok (some row)) :
    KeyedRow pool blockHashes groupIds i row := by
  intro k b g hb hg _
  unfold lookup at hr
  cases hget : blockHashes[i]? with
  | none => simp [hget] at hr
  | some hash =>
    rw [hget] at hr
    exact ⟨hash, rfl, h.getCachedBlock_keys hr k b g hb hg⟩

theorem keyedRows_nil : KeyedRows pool blockHashes groupIds [] := by
  intro i row hget
  simp at hget

theorem keyedRows_replicate (n k : ℕ) :
    KeyedRows pool blockHashes groupIds
      (List.replicate n (List.replicate k pool.nullBlock)) := by
  intro i row hget
  rw [List.getElem?_replicate] at hget
  split_ifs at hget
  cases hget
  exact keyedRow_null i k

theorem keyedRows_append {n k : ℕ} {rows : List HitRow}
    (h : ∀ (i : ℕ) row, rows[i]? = some row → KeyedRow pool blockHashes groupIds (n + i) row) :
    KeyedRows pool blockHashes groupIds
      (List.replicate n (List.replicate k pool.nullBlock) ++ rows) := by
  intro i row hget
  rw [List.getElem?_append, length_replicate] at hget
  split_ifs at hget with hi
  · exact keyedRows_replicate n k i row hget
  · have := h (i - n) row hget
    rwa [Nat.add_sub_cancel' (not_lt.mp hi)] at this

theorem scanForward_found {start n : ℕ}
    (hr : scanForward pool blockHashes groupIds (List.range' start n) = .ok rows) :
    rows.length ≤ n ∧ ∀ (i : ℕ) row, rows[i]? = some row →
      lookup pool blockHashes groupIds (start + i) = .ok (some row) := by
  induction n generalizing start rows with
  | zero =>
    obtain rfl : [] = rows := by simpa [scanForward] using hr
    simp
  | succ n ih =>
    rw [range'_succ] at hr
    simp only [scanForward, bind_eq_ok] at hr
    obtain ⟨cachedBlock, hlookup, hr⟩ := hr
    cases cachedBlock with
    | none =>
      obtain rfl : [] = rows := by simpa using hr
      simp
    | some row₀ =>
      simp only [bind_eq_ok, pure_eq_ok] at hr
      obtain ⟨rest, hrest, rfl⟩ := hr
      obtain ⟨hlen, hfound⟩ := ih hrest
      refine ⟨Nat.succ_le_succ hlen, fun i row hget => ?_⟩
      cases i with
      | zero =>
        obtain rfl : row₀ = row := by simpa using hget
        exact hlookup
      | succ i =>
        have := hfound i row (by simpa using hget)
        rwa [add_assoc, add_comm 1 i] at this

theorem scanForward_keyed (h : PoolInv pool free) {start n : ℕ}
    (hr : scanForward pool blockHashes groupIds (List.range' start n) = .ok rows) :
    ∀ (i : ℕ) row, rows[i]? = some row → KeyedRow pool blockHashes groupIds (start + i) row :=
  fun i row hget => keyedRow_lookup h ((scanForward_found hr).2 i row hget)

variable {alignmentTokens blockSize : ℕ} {dropEagleBlock : Bool}

section
variable (h : PoolInv pool free)
include h

theorem fullAttention_keyed {maxLength : ℕ}
    (hr : fullAttention pool blockHashes maxLength groupIds blockSize dropEagleBlock
      alignmentTokens = .ok rows) :
    KeyedRows pool blockHashes groupIds rows := by
  simp only [fullAttention, bind_eq_ok, pure_eq_ok] at hr
  obtain ⟨scanned, hscan, rfl⟩ := hr
  rw [range_eq_range'] at hscan
  have hkeyed : KeyedRows pool blockHashes groupIds scanned := by
    intro i row hget
    have := scanForward_keyed h hscan i row hget
    rwa [Nat.zero_add] at this
  split_ifs
  · exact hkeyed.dropLast.take _
  · exact hkeyed.take _

theorem slidingWindowScan_keyed {contiguousBlocks i numContiguousBlocks : ℕ}
    {scanned : List HitRow × ℕ × Bool}
    (hrows : KeyedRows pool blockHashes groupIds rows)
    (hr : slidingWindowScan pool blockHashes groupIds blockSize contiguousBlocks dropEagleBlock
      alignmentTokens i rows numContiguousBlocks = .ok scanned) :
    KeyedRows pool blockHashes groupIds scanned.1 := by
  induction i generalizing rows numContiguousBlocks with
  | zero =>
    obtain rfl : (rows, numContiguousBlocks, false) = scanned := by
      simpa [slidingWindowScan] using hr
    exact hrows
  | succ i ih =>
    simp only [slidingWindowScan, bind_eq_ok] at hr
    obtain ⟨cachedBlock, hlookup, hr⟩ := hr
    cases cachedBlock with
    | none => exact ih hrows hr
    | some row =>
      have hset := hrows.set (keyedRow_lookup h hlookup)
      generalize (if dropEagleBlock = true then i else i + 1) = postPopBlocks at hr
      split_ifs at hr
      · exact ih hrows hr
      · cases hr
        exact hset.take _
      · exact ih hset hr

theorem slidingWindow_keyed {maxLength windowSize : ℕ}
    (hr : slidingWindow pool blockHashes maxLength groupIds windowSize blockSize dropEagleBlock
      alignmentTokens = .ok rows) :
    KeyedRows pool blockHashes groupIds rows := by
  simp only [slidingWindow, bind_eq_ok, pure_eq_ok] at hr
  obtain ⟨⟨scanned, numContiguousBlocks, matchFound⟩, hscan, rfl⟩ := hr
  have hkeyed := slidingWindowScan_keyed h (keyedRows_replicate _ _) hscan
  have hcut : KeyedRows pool blockHashes groupIds (if matchFound = true then scanned
      else popUnaligned blockSize alignmentTokens (scanned.take numContiguousBlocks)) := by
    split_ifs
    · exact hkeyed
    · exact (hkeyed.take _).take _
  cases dropEagleBlock with
  | true => exact hcut.dropLast.take _
  | false => exact hcut

theorem chunkedLocalAttention_keyed {maxLength attentionChunkSize : ℕ}
    (hr : chunkedLocalAttention pool blockHashes maxLength groupIds attentionChunkSize blockSize
      dropEagleBlock alignmentTokens = .ok rows) :
    KeyedRows pool blockHashes groupIds rows := by
  simp only [chunkedLocalAttention, bind_eq_ok, pure_eq_ok] at hr
  obtain ⟨-, -, -, -, scanned, hscan, rfl⟩ := hr
  exact keyedRows_append (scanForward_keyed h hscan)

theorem mambaScan_keyed {n : ℕ}
    (hr : mambaScan pool blockHashes groupIds blockSize alignmentTokens n = .ok rows) :
    KeyedRows pool blockHashes groupIds rows := by
  induction n with
  | zero =>
    obtain rfl : [] = rows := by simpa [mambaScan] using hr
    exact keyedRows_nil
  | succ i ih =>
    simp only [mambaScan, bind_eq_ok] at hr
    obtain ⟨cachedBlock, hlookup, hr⟩ := hr
    cases cachedBlock with
    | none => exact ih hr
    | some row =>
      split_ifs at hr
      · exact ih hr
      · cases hr
        apply keyedRows_append
        intro j row' hget
        rw [List.getElem?_singleton] at hget
        split_ifs at hget with hj
        cases hget
        rw [hj]
        exact keyedRow_lookup h hlookup

end

end CacheHit

theorem findLongestCacheHit_keyed {pool : BlockPool} {free : List BlockId} (h : PoolInv pool free)
    {blockHashes : List BlockHash} {maxLength : ℕ} {groupIds : List ℕ} {spec : KVCacheSpec}
    {dropEagleBlock : Bool} {alignmentTokens dcp pcp : ℕ} {rows : List HitRow}
    (hr : findLongestCacheHit pool blockHashes maxLength groupIds spec dropEagleBlock
      alignmentTokens dcp pcp = .ok rows) :
    KeyedRows pool blockHashes groupIds rows := by
  unfold findLongestCacheHit at hr
  split at hr
  · exact CacheHit.fullAttention_keyed h hr
  · simp only [bind_eq_ok] at hr
    obtain ⟨-, -, hr⟩ := hr
    exact CacheHit.slidingWindow_keyed h hr
  · simp only [bind_eq_ok] at hr
    obtain ⟨-, -, hr⟩ := hr
    exact CacheHit.chunkedLocalAttention_keyed h hr
  · simp only [bind_eq_ok] at hr
    obtain ⟨-, -, hr⟩ := hr
    exact CacheHit.mambaScan_keyed h hr
  · simp at hr

/-- The list of one group, read off the rows. -/
theorem KeyedRows.column {pool : BlockPool} {blockHashes : List BlockHash} {groupIds : List ℕ}
    {rows : List HitRow} (h : KeyedRows pool blockHashes groupIds rows) {k groupId : ℕ}
    (hk : groupIds[k]? = some groupId) :
    KeyedHits pool blockHashes groupId (rows.map fun row => row.getD k pool.nullBlock) := by
  intro i b hget hne
  rw [List.getElem?_map, Option.map_eq_some_iff] at hget
  obtain ⟨row, hrow, rfl⟩ := hget
  rw [getD_eq_getElem?_getD] at hne ⊢
  cases hb : row[k]? with
  | none => simp [hb] at hne
  | some b =>
    rw [hb, Option.getD_some] at hne
    simpa using h i row hrow k b groupId hb hk hne

namespace KVCacheCoordinator

/-- The spec groups of a hybrid lookup with keyed rows. -/
def HitsKeyed (c : KVCacheCoordinator) (groups : List SpecGroup) (blockHashes : List BlockHash)
    (hits : List GroupHit) : Prop :=
  ∀ hit ∈ hits, hit.group ∈ groups ∧ ∀ rows ∈ hit.rows,
    KeyedRows c.blockPool (c.specHashes hit.group.spec blockHashes) hit.group.groupIds rows

variable {c : KVCacheCoordinator} {free : List BlockId} {groups : List SpecGroup}
  {blockHashes : List BlockHash} {maxLength : ℕ}

variable {hits : List GroupHit} {scan : HybridScan}

theorem HitsKeyed.append (h : HitsKeyed c groups blockHashes hits)
    (hit : GroupHit) (hgroup : hit.group ∈ groups)
    (hrows : ∀ rows ∈ hit.rows,
      KeyedRows c.blockPool (c.specHashes hit.group.spec blockHashes) hit.group.groupIds rows) :
    HitsKeyed c groups blockHashes (hits ++ [hit]) := by
  intro x hx
  rcases mem_append.mp hx with hx | hx
  · exact h x hx
  · obtain rfl := mem_singleton.mp hx
    exact ⟨hgroup, hrows⟩

section
variable (h : PoolInv c.blockPool free)
include h

theorem hybridGroup_keyed {idx : ℕ} {hit : GroupHit} {scan' : HybridScan}
    (hhit : HitsKeyed c groups blockHashes [hit]) (hscan : HitsKeyed c groups blockHashes scan.hits)
    (hr : c.hybridGroup blockHashes maxLength idx hit scan = .ok scan') :
    HitsKeyed c groups blockHashes scan'.hits := by
  obtain ⟨hgroup, hrows⟩ := hhit hit (mem_singleton_self hit)
  unfold hybridGroup at hr
  dsimp only at hr
  split_ifs at hr
  · cases hr
    exact hscan.append hit hgroup hrows
  all_goals
    simp only [bind_eq_ok, pure_eq_ok] at hr
    obtain ⟨rows, hfind, rfl⟩ := hr
    have hnew : ∀ rows' ∈ some rows, KeyedRows c.blockPool
        (c.specHashes hit.group.spec blockHashes) hit.group.groupIds rows' := by
      intro rows' hrows'
      cases hrows'
      exact findLongestCacheHit_keyed h hfind
    exact hscan.append ⟨hit.group, some rows⟩ hgroup hnew

theorem hybridPass_keyed {idx : ℕ} {scan' : HybridScan}
    (hhits : HitsKeyed c groups blockHashes hits) (hscan : HitsKeyed c groups blockHashes scan.hits)
    (hr : c.hybridPass blockHashes maxLength idx hits scan = .ok scan') :
    HitsKeyed c groups blockHashes scan'.hits := by
  induction hits generalizing idx scan with
  | nil =>
    cases hr
    exact hscan
  | cons hit hits ih =>
    simp only [hybridPass, bind_eq_ok] at hr
    obtain ⟨next, hgroup, hr⟩ := hr
    have hone : HitsKeyed c groups blockHashes [hit] := by
      intro x hx
      obtain rfl := mem_singleton.mp hx
      exact hhits x (by simp)
    have hnext := hybridGroup_keyed h hone hscan hgroup
    exact ih (fun x hx => hhits x (by simp [hx])) hnext hr

theorem hybridLoop_keyed {simple : Bool} {fuel hitLength : ℕ} {result : ℕ × HybridScan}
    (hscan : HitsKeyed c groups blockHashes scan.hits)
    (hr : c.hybridLoop blockHashes maxLength simple fuel hitLength scan = .ok result) :
    HitsKeyed c groups blockHashes result.2.hits := by
  induction fuel generalizing hitLength scan with
  | zero =>
    cases hr
    exact hscan
  | succ fuel ih =>
    simp only [hybridLoop, bind_eq_ok] at hr
    obtain ⟨next, hpass, hr⟩ := hr
    have hnext := hybridPass_keyed h hscan (by intro x hx; simp at hx) hpass
    split_ifs at hr
    · cases hr
      exact hnext
    · cases hr
      exact hnext
    · exact ih hnext hr

end

theorem truncateFirst_keyed (h : HitsKeyed c groups blockHashes hits) (hitLength : ℕ) :
    HitsKeyed c groups blockHashes (truncateFirst hitLength hits) := by
  cases hits with
  | nil => exact h
  | cons hit hits =>
    intro x hx
    rcases mem_cons.mp hx with rfl | hx
    · obtain ⟨hgroup, hrows⟩ := h hit (by simp)
      split_ifs
      · refine ⟨hgroup, fun rows hmem => ?_⟩
        simp only [GroupHit.truncate, Option.mem_def, Option.map_eq_some_iff] at hmem
        obtain ⟨full, hfull, rfl⟩ := hmem
        exact (hrows full hfull).take _
      · exact ⟨hgroup, hrows⟩
    · exact h x (by simp [hx])

end KVCacheCoordinator

/-- What the constructors establish and no operation changes. -/
structure CoordinatorSetup (c : KVCacheCoordinator) : Prop where
  groupIds : ∀ (i : ℕ) m, c.singleTypeManagers[i]? = some m → m.kvCacheGroupId = i
  caching : c.blockPool.enableCaching = c.enableCaching
  hashBlockSize : c.blockPool.hashBlockSize = c.hashBlockSize
  unitary : c.kind = .unitary → ∀ m ∈ c.singleTypeManagers, m.blockSize = c.hashBlockSize
  hybrid : ∀ groups, c.kind = .hybrid groups → ∀ g ∈ groups, ∀ gid ∈ g.groupIds, ∀ m,
    c.singleTypeManagers[gid]? = some m → m.blockSize = g.spec.blockSize

/-- Every hit of a lookup carries the hash of its index, in its own group. -/
theorem CoordinatorSetup.hits_keyed {c : KVCacheCoordinator} (hsetup : CoordinatorSetup c)
    {free : List BlockId} (h : PoolInv c.blockPool free) {blockHashes : List BlockHash}
    {maxLength : ℕ} {result : CacheHitResult}
    (hr : c.findLongestCacheHit blockHashes maxLength = .ok result) {gid : ℕ}
    {m : SingleTypeKVCacheManager} (hm : c.singleTypeManagers[gid]? = some m) :
    KeyedHits c.blockPool (hashesAt c.blockPool.hashBlockSize m.blockSize blockHashes)
      m.kvCacheGroupId (result.blocks.getD gid []) := by
  have hempty (hashes : List BlockHash) (g : ℕ) : KeyedHits c.blockPool hashes g [] := by
    intro i b hget
    simp at hget
  unfold KVCacheCoordinator.findLongestCacheHit at hr
  split at hr
  · cases hr
    have hnil : (List.replicate c.singleTypeManagers.length ([] : List BlockId)).getD gid [] =
        [] := by
      rw [getD_eq_getElem?_getD, List.getElem?_replicate]
      split_ifs <;> rfl
    rw [hnil]
    exact hempty _ _
  · rename_i hkind
    split at hr
    · simp at hr
    · rename_i m₀ ms hms
      simp only [bind_eq_ok, pure_eq_ok] at hr
      obtain ⟨rows, hfind, rfl⟩ := hr
      have hkeyed := (findLongestCacheHit_keyed h hfind).column (List.getElem?_cons_zero ..)
      cases gid with
      | zero =>
        have hsize := hsetup.unitary hkind m (mem_of_getElem? hm)
        have hgid := hsetup.groupIds 0 m hm
        rw [hgid, hsetup.hashBlockSize, hsize, hashesAt, if_pos rfl]
        exact hkeyed
      | succ gid =>
        simp only [getD_cons_succ, getD_nil]
        exact hempty _ _
  · rename_i groups hkind
    simp only [bind_eq_ok, pure_eq_ok] at hr
    obtain ⟨⟨hitLength, scan⟩, hloop, rfl⟩ := hr
    have hstart : KVCacheCoordinator.HitsKeyed c groups blockHashes
        (groups.map fun group => { group }) := by
      intro x hx
      obtain ⟨g, hg, rfl⟩ := mem_map.mp hx
      exact ⟨hg, by simp⟩
    have hkeyed := KVCacheCoordinator.truncateFirst_keyed
      (KVCacheCoordinator.hybridLoop_keyed h hstart hloop) hitLength
    have hlt : gid < c.singleTypeManagers.length := (List.getElem?_eq_some_iff.mp hm).1
    simp only [KVCacheCoordinator.blocksByGroup]
    rw [getD_eq_getElem?_getD, List.getElem?_map, List.getElem?_range hlt]
    simp only [Option.map_some, Option.getD_some]
    split
    · exact hempty _ _
    · rename_i hit hfind
      obtain ⟨hgroup, hrows⟩ := hkeyed hit (mem_of_find?_eq_some hfind)
      have hmem : gid ∈ hit.group.groupIds := by simpa using List.find?_some hfind
      have hsize := hsetup.hybrid groups hkind _ hgroup gid hmem m hm
      rw [hsetup.groupIds gid m hm, hsize, hsetup.hashBlockSize, GroupHit.column]
      cases hrow : hit.rows with
      | none => exact hempty _ _
      | some rows =>
        exact (hrows rows hrow).column (List.getElem?_idxOf hmem)

end Vllm
