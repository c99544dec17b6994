import Vllm.KvCache.HybridLookup
import Vllm.KvCache.ManagerRuns

/-! The hits a hybrid coordinator returns: the lookup ends, and under which configurations
the lists of all groups have the returned length and hold what their attention needs. -/
namespace Vllm
open GroupHit Raises KVCacheManager List

namespace KVCacheCoordinator
variable {c : KVCacheCoordinator} {blockHashes : List BlockHash} {maxLength : ℕ}

/-- The hashes of every spec group reach the bound. -/
def HashesReach (c : KVCacheCoordinator) (groups : List SpecGroup) (blockHashes : List BlockHash)
    (maxLength : ℕ) : Prop :=
  ∀ g ∈ groups, maxLength / g.spec.blockSize ≤ (c.specHashes g.spec blockHashes).length

theorem lookupBound_le {curr : ℕ} {g : SpecGroup} {dropEagleBlock : Bool}
    (hcurr : curr ≤ maxLength) : lookupBound maxLength curr g dropEagleBlock ≤ maxLength := by
  unfold lookupBound
  split_ifs
  · exact Nat.min_le_right _ _
  · exact hcurr

theorem lookupAt_total (hmap : c.blockPool.cachedBlockHashToBlock.NoEmptyDict) {g : SpecGroup}
    (hkind : g.spec.isHybridKind = true)
    (hreach : maxLength / g.spec.blockSize ≤ (c.specHashes g.spec blockHashes).length)
    {curr : ℕ} (hcurr : curr ≤ maxLength) (dropEagleBlock : Bool) :
    ∃ rows, c.lookupAt blockHashes maxLength curr g dropEagleBlock = .ok rows ∧
      rows.length * g.spec.blockSize ≤ maxLength := by
  have hbound : lookupBound maxLength curr g dropEagleBlock ≤ maxLength := lookupBound_le hcurr
  obtain ⟨rows, hrows⟩ := findLongestCacheHit_total hmap hkind
    ((Nat.div_le_div_right hbound).trans hreach) g.groupIds dropEagleBlock c.schedulerBlockSize
  exact ⟨rows, hrows, (lookupAt_spec hkind hrows).le.trans hbound⟩

variable {scan : HybridScan}

section
variable (hmap : c.blockPool.cachedBlockHashToBlock.NoEmptyDict)
include hmap

theorem hybridGroup_total {hit : GroupHit} (hkind : hit.group.spec.isHybridKind = true)
    (hreach : maxLength / hit.group.spec.blockSize ≤
      (c.specHashes hit.group.spec blockHashes).length) (hcurr :
        scan.currHitLength ≤ maxLength) (idx : ℕ) :
    ∃ scan', c.hybridGroup blockHashes maxLength idx hit scan = .ok scan' ∧
      scan'.currHitLength ≤ maxLength ∧
      scan'.hits.map group = scan.hits.map group ++ [hit.group] := by
  by_cases hfull : hit.group.spec.isFullAttention = true ∧ hit.rows.isSome = true
  · refine ⟨_, hybridGroup_of_full hfull.1 hfull.2, (Nat.div_mul_le_self _ _).trans hcurr, ?_⟩
    simp [afterTrim]
  · obtain ⟨rows, hrows, hle⟩ := lookupAt_total hmap hkind hreach hcurr
      (dropsBlock scan idx hit.group)
    exact ⟨_, hybridGroup_of_lookup hfull hrows, hle, by simp [afterLookup]⟩

theorem hybridPass_total {groups : List SpecGroup}
    (hkinds : ∀ g ∈ groups, g.spec.isHybridKind = true)
    (hreach : c.HashesReach groups blockHashes maxLength) {hits : List GroupHit}
    (hgroups : ∀ hit ∈ hits, hit.group ∈ groups)
    (hcurr : scan.currHitLength ≤ maxLength) (idx : ℕ) :
    ∃ scan', c.hybridPass blockHashes maxLength idx hits scan = .ok scan' ∧
      scan'.hits.map group = scan.hits.map group ++ hits.map group := by
  induction hits generalizing idx scan with
  | nil => exact ⟨scan, rfl, by simp⟩
  | cons hit hits ih =>
    have hmem := hgroups hit (by simp)
    obtain ⟨next, hone, hnext, hmap₁⟩ := hybridGroup_total hmap (hkinds _ hmem) (hreach _ hmem)
      hcurr idx
    obtain ⟨scan', hrest, hmap₂⟩ := ih (fun x hx => hgroups x (by simp [hx])) hnext (idx + 1)
    refine ⟨scan', ?_, by rw [hmap₂, hmap₁]; simp⟩
    simp only [hybridPass, bind_eq_ok]
    exact ⟨next, hone, hrest⟩

theorem hybridLoop_total {groups : List SpecGroup}
    (hkinds : ∀ g ∈ groups, g.spec.isHybridKind = true)
    (hreach : c.HashesReach groups blockHashes maxLength) (simple : Bool) (fuel : ℕ) {hitLength : ℕ}
    (hle : hitLength ≤ maxLength) (hgroups : scan.hits.map group = groups) :
    ∃ result, c.hybridLoop blockHashes maxLength simple fuel hitLength scan = .ok result := by
  induction fuel generalizing hitLength scan with
  | zero => exact ⟨_, rfl⟩
  | succ fuel ih =>
    have hmem : ∀ hit ∈ scan.hits, hit.group ∈ groups := fun hit hhit =>
      hgroups ▸ mem_map_of_mem hhit
    obtain ⟨next, hpass, hnext⟩ := hybridPass_total hmap hkinds hreach hmem
      (show { scan with currHitLength := hitLength, hits := [] }.currHitLength ≤ maxLength from hle) 0
    simp only [hybridLoop, hpass, bind, Except.bind]
    split_ifs with hdone hsimple
    · exact ⟨_, rfl⟩
    · exact ⟨_, rfl⟩
    · exact ih ((not_le.mp hdone).le.trans hle) (by rw [hnext, ← hgroups]; rfl)

end

theorem findLongestCacheHit_eq_ok {groups : List SpecGroup} (hkind : c.kind = .hybrid groups)
    {result : CacheHitResult} :
    c.findLongestCacheHit blockHashes maxLength = .ok result ↔ ∃ hitLength scan,
      c.hybridLoop blockHashes maxLength (isSimpleHybrid groups) (maxLength + 1) maxLength
        { currHitLength := 0, longestHitLength := 0, eagleVerified := []
          hits := groups.map fun group => { group } } = .ok (hitLength, scan) ∧
      result = {
        blocks := blocksByGroup c.blockPool.nullBlock c.singleTypeManagers.length
          (truncateFirst hitLength scan.hits)
        numTokens := hitLength
        numUncachedCommonPrefixTokens := scan.longestHitLength - hitLength } := by
  unfold findLongestCacheHit
  rw [hkind]
  simp only [bind_eq_ok, pure_eq_ok, Prod.exists, isSimpleHybrid]
  constructor
  · rintro ⟨hitLength, scan, hloop, rfl⟩
    exact ⟨hitLength, scan, hloop, rfl⟩
  · rintro ⟨hitLength, scan, hloop, rfl⟩
    exact ⟨hitLength, scan, hloop, rfl⟩

end KVCacheCoordinator

/-- The list of a KV cache group in a hit: as long as the hit, and every entry that the
attention needs for the next token is cached under the hash of its index. -/
structure GroupListSound (c : KVCacheCoordinator) (blockHashes : List BlockHash) (gid : ℕ)
    (spec : KVCacheSpec) (hitLength : ℕ) (blocks : List BlockId) : Prop where
  length : blocks.length = hitLength / spec.blockSize
  cached : ∀ i, spec.neededFrom (hitLength / spec.blockSize) ≤ i →
    i < hitLength / spec.blockSize →
    ∃ hash block, (c.specHashes spec blockHashes)[i]? = some hash ∧ blocks[i]? = some block ∧
      c.blockPool.cachedBlockHashToBlock.Stored (makeBlockHashWithGroupId hash gid) block

/-- A hit whose length is possible and fits the lists of all KV cache groups. -/
structure HitSound (cfg : KVCacheManagerConfig) (c : KVCacheCoordinator)
    (blockHashes : List BlockHash) (maxLength : ℕ) (result : CacheHitResult) : Prop where
  le : result.numTokens ≤ maxLength
  aligned : result.numTokens % cfg.schedulerBlockSize = 0
  groups : result.blocks.length = cfg.kvCacheGroups.length
  each : ∀ (gid : ℕ) g, cfg.kvCacheGroups[gid]? = some g →
    ∃ blocks, result.blocks[gid]? = some blocks ∧
      GroupListSound c blockHashes gid g.kvCacheSpec result.numTokens blocks

/-- Only the first spec group is cut to the returned length: there is no second full
attention group, or the loop looks it up in its only pass. -/
def CutsAllLists (groups : List SpecGroup) : Prop :=
  groups.countP (fun g => g.spec.isFullAttention) ≤ 1 ∨ groups.length = 2

theorem CutsAllLists.length_eq_two {groups : List SpecGroup} (h : CutsAllLists groups) {i : ℕ}
    {g g' : SpecGroup} (hi : 0 < i) (hfirst : groups[0]? = some g) (hget : groups[i]? = some g')
    (hfull : g.spec.isFullAttention = true) (hfull' : g'.spec.isFullAttention = true) :
    groups.length = 2 := by
  rcases h with hcount | htwo
  · obtain ⟨i, rfl⟩ := Nat.exists_eq_succ_of_ne_zero hi.ne'
    cases groups with
    | nil => simp at hget
    | cons g₀ rest =>
      obtain rfl : g₀ = g := by simpa using hfirst
      have hpos : 0 < rest.countP fun g => g.spec.isFullAttention :=
        countP_pos_iff.mpr ⟨g', mem_of_getElem? (by simpa using hget), hfull'⟩
      rw [countP_cons, if_pos hfull] at hcount
      omega
  · exact htwo

theorem KVCacheSpec.neededFrom_full {spec : KVCacheSpec} (hfull : spec.isFullAttention = true)
    (n : ℕ) : spec.neededFrom n = 0 := by
  unfold isFullAttention at hfull
  unfold neededFrom
  split <;> simp_all

namespace KVCacheCoordinator
variable {c : KVCacheCoordinator} {blockHashes : List BlockHash} {groups : List SpecGroup}
  {maxLength hitLength : ℕ}

/-- The rows of a spec group fit a hit length. -/
structure RowsFit (c : KVCacheCoordinator) (blockHashes : List BlockHash) (g : SpecGroup)
    (hitLength : ℕ) (rows : List HitRow) : Prop where
  length : rows.length = hitLength / g.spec.blockSize
  needed : CacheHit.FoundIn c.blockPool (c.specHashes g.spec blockHashes) g.groupIds rows
    (g.spec.neededFrom rows.length) rows.length

variable {rows : List HitRow}

theorem SoundRows.fit {g : SpecGroup} (h : SoundRows c blockHashes g rows)
    (hlength : rows.length * g.spec.blockSize = hitLength) :
    RowsFit c blockHashes g hitLength rows :=
  ⟨(Nat.div_eq_of_eq_mul_left g.spec.blockSize_pos hlength.symm).symm, h.needed⟩

theorem SoundRows.fit_take {g : SpecGroup} (h : SoundRows c blockHashes g rows)
    (hfull : g.spec.isFullAttention = true) (hlength : hitLength ≤ rows.length * g.spec.blockSize) :
    RowsFit c blockHashes g hitLength (rows.take (hitLength / g.spec.blockSize)) := by
  have hle : hitLength / g.spec.blockSize ≤ rows.length :=
    Nat.div_le_of_le_mul (by rwa [Nat.mul_comm])
  have hzero (n : ℕ) : g.spec.neededFrom n = 0 := KVCacheSpec.neededFrom_full hfull n
  have hneeded := h.needed
  rw [hzero] at hneeded
  refine ⟨by rw [length_take, min_eq_left hle], ?_⟩
  rw [hzero, length_take, min_eq_left hle]
  exact (hneeded.mono le_rfl hle).take le_rfl

theorem LoopResult.rows_fit {scan : HybridScan}
    (h : LoopResult c groups blockHashes maxLength hitLength scan)
    (hsorted : ∀ (i j : ℕ) g g', i < j → groups[i]? = some g → groups[j]? = some g' →
      g'.spec.isFullAttention = true → g.spec.isFullAttention = true)
    (hcut : CutsAllLists groups) {hit : GroupHit} (hmem : hit ∈ truncateFirst hitLength scan.hits) :
    hit.group ∈ groups ∧
      ∃ rows, hit.rows = some rows ∧ RowsFit c blockHashes hit.group hitLength rows := by
  have hgroups := h.groups_eq
  have hat {i : ℕ} {x : GroupHit} (hget : scan.hits[i]? = some x) : groups[i]? = some x.group := by
    rw [← hgroups, List.getElem?_map, hget]
    rfl
  cases hhits : scan.hits with
  | nil =>
    rw [hhits] at hmem
    simp [truncateFirst] at hmem
  | cons first rest =>
    have hfirst : scan.hits[0]? = some first := by rw [hhits]; rfl
    rw [hhits, truncateFirst, mem_cons] at hmem
    rcases hmem with rfl | hmem
    · have hin := mem_of_getElem? (hat hfirst)
      obtain ⟨rows, hrows, hsound, hlen⟩ := h.each first (mem_of_getElem? hfirst)
      cases hfull : first.group.spec.isFullAttention with
      | true =>
        rw [if_pos rfl]
        refine ⟨hin, rows.take (hitLength / first.group.spec.blockSize), ?_,
          hsound.fit_take hfull hlen⟩
        rw [truncate, hrows]
        rfl
      | false =>
        rw [if_neg (by decide)]
        exact ⟨hin, rows, hrows, hsound.fit (h.last 0 first rows hfirst hrows (.inl hfull))⟩
    · obtain ⟨j, hj⟩ := mem_iff_getElem?.mp hmem
      have hget : scan.hits[j + 1]? = some hit := by
        rw [hhits]
        simpa using hj
      have hin := mem_of_getElem? (hat hget)
      obtain ⟨rows, hrows, hsound, -⟩ := h.each hit (mem_of_getElem? hget)
      refine ⟨hin, rows, hrows, hsound.fit (h.last (j + 1) hit rows hget hrows ?_)⟩
      cases hfull : hit.group.spec.isFullAttention with
      | false => exact .inl rfl
      | true =>
        have hfull₀ := hsorted 0 (j + 1) _ _ j.succ_pos (hat hfirst) (hat hget) hfull
        exact .inr ⟨j.succ_pos, hcut.length_eq_two j.succ_pos (hat hfirst) (hat hget) hfull₀ hfull⟩

theorem stored_of_found {pool : BlockPool} {hashes : List BlockHash} {groupIds : List ℕ} {i : ℕ}
    {row : HitRow} (hfound : CacheHit.Found pool hashes groupIds i row) {gid : ℕ}
    (hgid : gid ∈ groupIds) (default : BlockId) :
    ∃ hash, hashes[i]? = some hash ∧ pool.cachedBlockHashToBlock.Stored
      (makeBlockHashWithGroupId hash gid) (row.getD (groupIds.idxOf gid) default) := by
  unfold CacheHit.Found CacheHit.lookup at hfound
  cases hhash : hashes[i]? with
  | none => simp [hhash] at hfound
  | some hash =>
    rw [hhash] at hfound
    obtain ⟨hlength, hstored⟩ := getCachedBlock_stored hfound
    have hidx := idxOf_lt_length_iff.mpr hgid
    refine ⟨hash, rfl, hstored (groupIds.idxOf gid) _ gid ?_ ?_⟩
    · rw [getD_eq_getElem?_getD, List.getElem?_eq_getElem (hlength ▸ hidx)]
      rfl
    · rw [List.getElem?_eq_getElem hidx]
      simp

theorem RowsFit.column {hit : GroupHit} (hrows : hit.rows = some rows)
    (h : RowsFit c blockHashes hit.group hitLength rows) {gid : ℕ}
    (hgid : gid ∈ hit.group.groupIds) :
    GroupListSound c blockHashes gid hit.group.spec hitLength
      (hit.column c.blockPool.nullBlock gid) := by
  unfold GroupHit.column
  rw [hrows]
  refine ⟨by simpa using h.length, fun i hi hi' => ?_⟩
  rw [← h.length] at hi hi'
  obtain ⟨row, hget, hfound⟩ := h.needed i hi hi'
  obtain ⟨hash, hhash, hstored⟩ := stored_of_found hfound hgid c.blockPool.nullBlock
  exact ⟨hash, _, hhash, by simp [hget], hstored⟩

theorem truncateFirst_groups (hitLength : ℕ) (hits : List GroupHit) :
    (truncateFirst hitLength hits).map group = hits.map group := by
  cases hits with
  | nil => rfl
  | cons hit hits =>
    simp only [truncateFirst, map_cons]
    split_ifs <;> simp [truncate]

theorem blocksByGroup_getElem? (nullBlock : BlockId) {numGroups gid : ℕ} {hits : List GroupHit}
    (hgid : gid < numGroups) (hmem : ∃ g ∈ hits.map group, gid ∈ g.groupIds) :
    ∃ hit ∈ hits, gid ∈ hit.group.groupIds ∧
      (blocksByGroup nullBlock numGroups hits)[gid]? = some (hit.column nullBlock gid) := by
  obtain ⟨g, hg, hid⟩ := hmem
  obtain ⟨hit, hhit, rfl⟩ := mem_map.mp hg
  cases hfind : hits.find? fun hit => gid ∈ hit.group.groupIds with
  | none =>
    have := List.find?_eq_none.mp hfind hit hhit
    simp [hid] at this
  | some found =>
    refine ⟨found, mem_of_find?_eq_some hfind, by simpa using List.find?_some hfind, ?_⟩
    simp [blocksByGroup, hgid, hfind]

theorem specHashes_reach {spec : KVCacheSpec} (hdvd : spec.blockSize % c.hashBlockSize = 0)
    (hlen : maxLength / c.hashBlockSize ≤ blockHashes.length) :
    maxLength / spec.blockSize ≤ (c.specHashes spec blockHashes).length := by
  unfold specHashes
  split_ifs with hsize
  · rwa [hsize]
  · unfold blockHashListWithBlockSize
    rw [length_map, length_range]
    calc maxLength / spec.blockSize
        = maxLength / (c.hashBlockSize * (spec.blockSize / c.hashBlockSize)) := by
          rw [Nat.mul_div_cancel' (Nat.dvd_of_mod_eq_zero hdvd)]
      _ = maxLength / c.hashBlockSize / (spec.blockSize / c.hashBlockSize) :=
          (Nat.div_div_eq_div_mul _ _ _).symm
      _ ≤ blockHashes.length / (spec.blockSize / c.hashBlockSize) := Nat.div_le_div_right hlen

end KVCacheCoordinator

namespace KVCacheManagerConfig
variable {cfg : KVCacheManagerConfig} {c : KVCacheCoordinator} {groups : List SpecGroup}

/-- A hybrid coordinator of the constructor, with any content of its cache. -/
structure HybridSetup (cfg : KVCacheManagerConfig) (c : KVCacheCoordinator)
    (groups : List SpecGroup) : Prop where
  built : cfg.getKvCacheCoordinator = .ok c
  kind : c.kind = .hybrid groups
  kinds : ∀ g ∈ cfg.kvCacheGroups, g.kvCacheSpec.isHybridKind = true

namespace HybridSetup

section
variable (h : HybridSetup cfg c groups)
include h

theorem groups_eq : groups = cfg.attentionGroups :=
  (coordinatorKind_hybrid (h.kind ▸ (getKvCacheCoordinator_built h.built).kind)).1

theorem hybridGroups : HybridGroups c groups := by
  have hbuilt := getKvCacheCoordinator_built h.built
  rw [h.groups_eq]
  refine ⟨fun g hg => ?_, fun g hg => ?_⟩
  · obtain ⟨s, hs, hspec⟩ := exists_kvCacheGroup hg
    exact hspec ▸ h.kinds s hs
  · obtain ⟨s, hs, hspec⟩ := exists_kvCacheGroup hg
    rw [hbuilt.schedulerBlockSize, ← hspec]
    exact Nat.dvd_of_mod_eq_zero (hbuilt.divides s hs)

theorem hashesReach {blockHashes : List BlockHash} {maxLength : ℕ}
    (hlen : maxLength / cfg.hashBlockSize ≤ blockHashes.length) :
    c.HashesReach groups blockHashes maxLength := by
  have hbuilt := getKvCacheCoordinator_built h.built
  obtain ⟨-, -, -, hdvd, -⟩ := coordinatorKind_hybrid (h.kind ▸ hbuilt.kind)
  intro g hg
  rw [h.groups_eq] at hg
  obtain ⟨s, hs, hspec⟩ := exists_kvCacheGroup hg
  apply KVCacheCoordinator.specHashes_reach
  · rw [hbuilt.hashBlockSize, ← hspec]
    exact hdvd s hs
  · rwa [hbuilt.hashBlockSize]

theorem ne_nil : groups ≠ [] := by
  obtain ⟨rfl, -, -, -, hlen⟩ :=
    coordinatorKind_hybrid (h.kind ▸ (getKvCacheCoordinator_built h.built).kind)
  exact ne_nil_of_length_pos (Nat.lt_of_succ_lt hlen)

theorem sorted (i j : ℕ) (g g' : SpecGroup) (hij : i < j) (hi : groups[i]? = some g)
    (hj : groups[j]? = some g') (hfull : g'.spec.isFullAttention = true) :
    g.spec.isFullAttention = true := by
  rw [h.groups_eq] at hi hj
  exact attentionGroups_sorted hij hi hj hfull

theorem numGroups : c.singleTypeManagers.length = cfg.kvCacheGroups.length := by
  rw [(getKvCacheCoordinator_built h.built).managers]
  simp

end

end HybridSetup

/-- The hit of a hybrid coordinator is sound for every content of the cache if no EAGLE group
is a mamba group with the granularity of the hits and all lists are cut. -/
theorem findLongestCacheHit_sound (h : HybridSetup cfg c groups)
    (hmamba : NoEagleMamba c groups) (hcut : CutsAllLists groups) {pool : BlockPool}
    (hmap : pool.cachedBlockHashToBlock.NoEmptyDict) {blockHashes : List BlockHash}
    {maxLength : ℕ} (hlen : maxLength / cfg.hashBlockSize ≤ blockHashes.length) :
    ∃ result, { c with blockPool := pool }.findLongestCacheHit blockHashes maxLength =
        .ok result ∧
      HitSound cfg { c with blockPool := pool } blockHashes maxLength result := by
  set c' : KVCacheCoordinator := { c with blockPool := pool } with hc'
  have hgroups : HybridGroups c' groups := ⟨h.hybridGroups.kinds, h.hybridGroups.divides⟩
  have hreach : c'.HashesReach groups blockHashes maxLength := h.hashesReach hlen
  have hsorted := h.sorted
  let start : HybridScan := {
    currHitLength := 0, longestHitLength := 0, eagleVerified := []
    hits := groups.map fun group => { group } }
  have hstart : start.hits.map group = groups := by simp [start, Function.comp_def]
  obtain ⟨⟨hitLength, scan⟩, hloop⟩ := KVCacheCoordinator.hybridLoop_total hmap hgroups.kinds
    hreach (KVCacheCoordinator.isSimpleHybrid groups) (maxLength + 1) (le_refl maxLength) hstart
  have hresult := KVCacheCoordinator.hybridLoop_result hgroups hmamba h.ne_nil hsorted hloop
  have hmanagers : c'.singleTypeManagers.length = cfg.kvCacheGroups.length := h.numGroups
  have hkind : c'.kind = .hybrid groups := h.kind
  refine ⟨_, (KVCacheCoordinator.findLongestCacheHit_eq_ok hkind).mpr ⟨hitLength, scan, hloop, rfl⟩,
    hresult.le, ?_, ?_, fun gid g hg => ?_⟩
  · have := hresult.aligned
    rwa [show c'.schedulerBlockSize = cfg.schedulerBlockSize from
      (getKvCacheCoordinator_built h.built).schedulerBlockSize] at this
  · simp [KVCacheCoordinator.blocksByGroup, hmanagers]
  · have hgid : gid < cfg.kvCacheGroups.length := (List.getElem?_eq_some_iff.mp hg).1
    have hmem := exists_mem_attentionGroups hgid
    rw [← h.groups_eq, ← hresult.groups_eq,
      ← KVCacheCoordinator.truncateFirst_groups hitLength] at hmem
    obtain ⟨hit, hhit, hid, hblocks⟩ := KVCacheCoordinator.blocksByGroup_getElem?
      c'.blockPool.nullBlock (hmanagers ▸ hgid) hmem
    obtain ⟨hin, rows, hrows, hfit⟩ := hresult.rows_fit hsorted hcut hhit
    obtain ⟨s, hs, hspec⟩ := spec_of_mem_attentionGroups (h.groups_eq ▸ hin) hid
    obtain rfl : s = g := Option.some.inj (hs.symm.trans hg)
    exact ⟨_, hblocks, hspec ▸ hfit.column hrows hid⟩

end KVCacheManagerConfig

theorem coordinator_of_init {cfg : KVCacheManagerConfig} {m : KVCacheManager}
    (h : init cfg = .ok m) : cfg.getKvCacheCoordinator = .ok m.coordinator := by
  simp only [init, bind_eq_ok, pure_eq_ok] at h
  obtain ⟨c, hc, rfl⟩ := h
  exact hc

theorem ManagerReachable.noEmptyDict {level : BlockHash → ℕ} {hashLength : ℕ} {m : KVCacheManager}
    {hashes : RequestId → List BlockHash}
    (h : ManagerReachable SparesHits level hashLength m hashes) :
    m.blockPool.cachedBlockHashToBlock.NoEmptyDict := by
  obtain ⟨free, hledger⟩ := h.inv.cache.ledger
  exact hledger.inv.noEmptyDict

/-- The spec groups of a hybrid coordinator. -/
def KVCacheCoordinator.specGroups (c : KVCacheCoordinator) : Option (List SpecGroup) :=
  match c.kind with
  | .hybrid groups => some groups
  | _ => none

theorem KVCacheCoordinator.kind_of_specGroups {c : KVCacheCoordinator} {groups : List SpecGroup}
    (h : c.specGroups = some groups) : c.kind = .hybrid groups := by
  unfold specGroups at h
  split at h
  · simp_all
  · simp at h

/-- A request with the prompt `7, 5` has run, and the coordinator looks its prompt up. -/
def cachedPrefixRun : Raises (KVCacheManager × KVCacheManager × CacheHitResult) := do
  let m₀ ← KVCacheManager.init twoGroupConfig
  let (_, m₁) ← m₀.allocateSlots (smallRequest 1 [7, 5]) { numNewTokens := 2 }
  let hit ← { m₀.coordinator with blockPool := m₁.blockPool }.findLongestCacheHit
    (smallRequest 2 [7, 5]).blockHashes 1
  pure (m₀, m₁, hit)

theorem findLongestCacheHit_sound_cachedPrefix : ∃ c groups pool result,
    KVCacheManagerConfig.HybridSetup twoGroupConfig c groups ∧
      HitSound twoGroupConfig { c with blockPool := pool } (smallRequest 2 [7, 5]).blockHashes 1
        result ∧ result.numTokens = 1 := by
  obtain ⟨s, hok, hfacts⟩ := exists_ok (show cachedPrefixRun.toOption.map (fun s =>
      (s.1.coordinator.specGroups.map fun groups =>
        (groups.countP (fun g => g.spec.isFullAttention), groups.all fun g => ¬ g.spec.isMamba),
        s.2.2.numTokens)) = some (some (1, true), 1) by decide +kernel)
  simp only [Prod.mk.injEq, Option.map_eq_some_iff] at hfacts
  obtain ⟨⟨groups, hgroups, hcount, hmamba⟩, hnum⟩ := hfacts
  simp only [cachedPrefixRun, bind_eq_ok, pure_eq_ok] at hok
  obtain ⟨m₀, h₀, ⟨b₁, m₁⟩, h₁, hit, hhit, rfl⟩ := hok
  have hreach : ManagerReachable SparesHits firstByte 2 m₀ fun _ => [] := .start h₀
  have hreach₁ := hreach.allocateSlots (smallRequest_grow (by decide) rfl) (by simp)
    (by intro hcall; simp [emptyKvCacheBlocks] at hcall) h₁
  have hsetup : KVCacheManagerConfig.HybridSetup twoGroupConfig m₀.coordinator groups :=
    ⟨coordinator_of_init h₀, KVCacheCoordinator.kind_of_specGroups hgroups, by decide⟩
  have hno : NoEagleMamba m₀.coordinator groups := by
    intro g hg _ hm
    have := all_eq_true.mp hmamba g hg
    simp [hm] at this
  obtain ⟨result, hresult, hsound⟩ := KVCacheManagerConfig.findLongestCacheHit_sound hsetup hno
    (.inl hcount.le) hreach₁.noEmptyDict
    (show 1 / twoGroupConfig.hashBlockSize ≤ (smallRequest 2 [7, 5]).blockHashes.length by decide)
  obtain rfl : hit = result := Except.ok.inj (hhit.symm.trans hresult)
  exact ⟨_, groups, _, hit, hsetup, hsound, hnum⟩

/-- A sliding window and two full attention groups of different layouts. -/
def threeGroupConfig : KVCacheManagerConfig where
  numBlocks := 6
  kvCacheGroups := [
    { kvCacheSpec := { kind := .slidingWindow 2, blockSize := 1, blockSize_pos := Nat.one_pos } },
    { kvCacheSpec := {
        kind := .fullAttention .fullAttention, blockSize := 1, blockSize_pos := Nat.one_pos } },
    { kvCacheSpec := {
        kind := .fullAttention .fullAttention, blockSize := 1, layout := 1
        blockSize_pos := Nat.one_pos } }]
  maxModelLen := 16
  schedulerBlockSize := 1
  hashBlockSize := 1
  maxNumBatchedTokens := 16

/-- The prompt `7` has run and its sliding window block has been evicted when `7, 5` is
looked up. -/
def evictedWindowRun : Raises (KVCacheManager × KVCacheManager × CacheHitResult) := do
  let m₀ ← KVCacheManager.init threeGroupConfig
  let (_, m₁) ← m₀.allocateSlots (smallRequest 1 [7]) { numNewTokens := 1 }
  let m₂ ← m₁.free (smallRequest 1 [7])
  let (_, m₃) ← m₂.allocateSlots (smallRequest 2 [8]) { numNewTokens := 1 }
  let hit ← { m₀.coordinator with blockPool := m₃.blockPool }.findLongestCacheHit
    (smallRequest 3 [7, 5]).blockHashes 1
  pure (m₀, m₃, hit)

/-- The hit has no tokens, but the list of the second full attention group still has one
block. -/
theorem findLongestCacheHit_unsound : ∃ c groups pool result,
    KVCacheManagerConfig.HybridSetup threeGroupConfig c groups ∧
      pool.cachedBlockHashToBlock.NoEmptyDict ∧
      { c with blockPool := pool }.findLongestCacheHit (smallRequest 3 [7, 5]).blockHashes 1 =
        .ok result ∧
      ¬ HitSound threeGroupConfig { c with blockPool := pool }
        (smallRequest 3 [7, 5]).blockHashes 1 result := by
  obtain ⟨s, hok, hfacts⟩ := exists_ok (show evictedWindowRun.toOption.map (fun s =>
      (s.1.coordinator.specGroups.isSome, s.2.2.numTokens, s.2.2.blocks)) =
        some (true, 0, [[], [], [3]]) by decide +kernel)
  simp only [Prod.mk.injEq] at hfacts
  obtain ⟨hsome, hnum, hblocks⟩ := hfacts
  obtain ⟨groups, hgroups⟩ := Option.isSome_iff_exists.mp hsome
  simp only [evictedWindowRun, bind_eq_ok, pure_eq_ok] at hok
  obtain ⟨m₀, h₀, ⟨b₁, m₁⟩, h₁, m₂, h₂, ⟨b₃, m₃⟩, h₃, hit, hhit, rfl⟩ := hok
  have hreach : ManagerReachable SparesHits firstByte 2 m₀ fun _ => [] := .start h₀
  have hreach₁ := hreach.allocateSlots (smallRequest_grow (by decide) rfl) (by simp)
    (by intro hcall; simp [emptyKvCacheBlocks] at hcall) h₁
  have hreach₃ := (hreach₁.free h₂).allocateSlots (smallRequest_grow (by decide) rfl) (by simp)
    (by intro hcall; simp [emptyKvCacheBlocks] at hcall) h₃
  refine ⟨_, groups, m₃.blockPool, hit,
    ⟨coordinator_of_init h₀, KVCacheCoordinator.kind_of_specGroups hgroups, by decide⟩,
    hreach₃.noEmptyDict, hhit, fun hsound => ?_⟩
  obtain ⟨blocks, hget, hlist⟩ := hsound.each 2 _ rfl
  rw [hblocks] at hget
  obtain rfl : [3] = blocks := Option.some.inj hget
  have hlength := hlist.length
  rw [hnum] at hlength
  simp at hlength

end Vllm
