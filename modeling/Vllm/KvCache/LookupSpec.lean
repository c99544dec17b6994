import Vllm.KvCache.HitSoundness

/-! What the lookup of one spec group returns: an aligned number of rows within the bound, and the
rows that the attention needs next found, with a dropped EAGLE block. -/
namespace Vllm
open Raises List Nat

namespace KVCacheSpec

def isMamba (spec : KVCacheSpec) : Bool :=
  match spec.kind with
  | .mamba _ _ => true
  | _ => false

/-- The kinds of groups a hybrid lookup is for. -/
def isHybridKind (spec : KVCacheSpec) : Bool :=
  spec.isFullAttention || spec.isSlidingWindow || spec.isMamba

/-- The first block that the attention needs for the token behind `numBlocks` blocks: all
blocks for full attention, those of the last `window - 1` tokens for a sliding window, the
last block for mamba. -/
def neededFrom (spec : KVCacheSpec) (numBlocks : ℕ) : ℕ :=
  match spec.kind with
  | .slidingWindow w => numBlocks - cdiv (w - 1) spec.blockSize
  | .mamba _ _ => numBlocks - 1
  | _ => 0

end KVCacheSpec

namespace CacheHit
variable {pool : BlockPool} {blockHashes : List BlockHash} {groupIds : List ℕ}
  {rows : List HitRow} {blockSize alignmentTokens : ℕ}

/-- The groups have a cached block each at an index. -/
def Found (pool : BlockPool) (blockHashes : List BlockHash) (groupIds : List ℕ) (i : ℕ)
    (row : HitRow) : Prop :=
  lookup pool blockHashes groupIds i = .ok (some row)

/-- The rows between two indices are what the lookup finds there. -/
def FoundIn (pool : BlockPool) (blockHashes : List BlockHash) (groupIds : List ℕ)
    (rows : List HitRow) (first last : ℕ) : Prop :=
  ∀ i, first ≤ i → i < last → ∃ row, rows[i]? = some row ∧ Found pool blockHashes groupIds i row

theorem FoundIn.mono {first last first' last' : ℕ}
    (h : FoundIn pool blockHashes groupIds rows first last) (hfirst : first ≤ first')
    (hlast : last' ≤ last) : FoundIn pool blockHashes groupIds rows first' last' :=
  fun i hi hi' => h i (hfirst.trans hi) (hi'.trans_le hlast)

theorem FoundIn.take {first last n : ℕ} (h : FoundIn pool blockHashes groupIds rows first last)
    (hn : last ≤ n) : FoundIn pool blockHashes groupIds (rows.take n) first last := by
  intro i hi hi'
  obtain ⟨row, hget, hfound⟩ := h i hi hi'
  exact ⟨row, by rw [List.getElem?_take, if_pos (hi'.trans_le hn), hget], hfound⟩

theorem alignedLength_le (n : ℕ) : alignedLength blockSize alignmentTokens n ≤ n := by
  induction n with
  | zero => exact le_refl 0
  | succ n ih =>
    unfold alignedLength
    split_ifs
    · exact ih.trans (le_succ n)
    · exact le_refl _

theorem alignedLength_aligned (n : ℕ) :
    alignedLength blockSize alignmentTokens n * blockSize % alignmentTokens = 0 := by
  induction n with
  | zero => simp [alignedLength]
  | succ n ih =>
    unfold alignedLength
    split_ifs with h
    · exact ih
    · by_cases hsize : blockSize = alignmentTokens
      · rw [hsize, mul_mod_left]
      · by_contra hmod
        exact h ⟨hsize, hmod⟩

theorem alignedLength_eq_self {n : ℕ} (h : n * blockSize % alignmentTokens = 0) :
    alignedLength blockSize alignmentTokens n = n := by
  cases n with
  | zero => rfl
  | succ n =>
    unfold alignedLength
    rw [if_neg]
    exact fun hne => hne.2 h

theorem popUnaligned_length :
    (popUnaligned blockSize alignmentTokens rows).length =
      alignedLength blockSize alignmentTokens rows.length := by
  rw [popUnaligned, length_take, min_eq_left (alignedLength_le _)]

end CacheHit

/-- The lookup of a spec group with the given bound. -/
structure SpecHit (pool : BlockPool) (blockHashes : List BlockHash) (groupIds : List ℕ)
    (spec : KVCacheSpec) (maxLength : ℕ) (dropEagleBlock : Bool) (alignmentTokens : ℕ)
    (rows : List HitRow) : Prop where
  aligned : rows.length * spec.blockSize % alignmentTokens = 0
  le : rows.length * spec.blockSize ≤ maxLength
  needed : CacheHit.FoundIn pool blockHashes groupIds rows (spec.neededFrom rows.length) rows.length
  lookahead : dropEagleBlock = true → spec.isMamba = false → rows ≠ [] →
    (rows.length + 1) * spec.blockSize ≤ maxLength ∧
      ∃ row, CacheHit.Found pool blockHashes groupIds rows.length row

namespace CacheHit
variable {pool : BlockPool} {blockHashes : List BlockHash} {groupIds : List ℕ}
  {rows : List HitRow} {blockSize alignmentTokens maxLength : ℕ} {dropEagleBlock : Bool}

theorem popped_spec {scanned : List HitRow}
    (hfound : FoundIn pool blockHashes groupIds scanned 0 scanned.length)
    (hle : scanned.length * blockSize ≤ maxLength)
    (hrows : rows = popUnaligned blockSize alignmentTokens
      (if dropEagleBlock then scanned.dropLast else scanned)) :
    rows.length * blockSize % alignmentTokens = 0 ∧ rows.length ≤ scanned.length ∧
      FoundIn pool blockHashes groupIds rows 0 rows.length ∧
      (dropEagleBlock = true → rows ≠ [] → (rows.length + 1) * blockSize ≤ maxLength ∧
        ∃ row, Found pool blockHashes groupIds rows.length row) := by
  set kept := if dropEagleBlock then scanned.dropLast else scanned with hkept
  have hkeptLen : kept.length ≤ scanned.length := by
    rw [hkept]
    split_ifs
    · simp
    · exact le_refl _
  have hlen : rows.length ≤ kept.length := by
    rw [hrows, popUnaligned_length]
    exact alignedLength_le _
  have htake : rows = scanned.take rows.length := by
    have hkeptTake : kept = scanned.take kept.length := by
      rw [hkept]
      split_ifs
      · rw [dropLast_eq_take, length_take, min_eq_left (sub_le _ _)]
      · rw [take_length]
    have hrowsTake : rows = kept.take rows.length := by
      conv_lhs => rw [hrows, popUnaligned]
      rw [hrows, popUnaligned_length]
    rw [hrowsTake, hkeptTake, take_take, length_take]
    congr 1
    omega
  refine ⟨?_, hlen.trans hkeptLen, ?_, fun hdrop hne => ?_⟩
  · rw [hrows, popUnaligned_length]
    exact alignedLength_aligned _
  · have := (hfound.mono le_rfl (hlen.trans hkeptLen)).take (le_refl rows.length)
    rwa [← htake] at this
  · have hpos : 0 < rows.length := length_pos_of_ne_nil hne
    have hlt : rows.length < scanned.length := by
      rw [hkept, if_pos hdrop, length_dropLast] at hlen
      omega
    refine ⟨(mul_le_mul_right _ hlt).trans hle, ?_⟩
    obtain ⟨row, -, hrow⟩ := hfound rows.length (zero_le _) hlt
    exact ⟨row, hrow⟩

theorem fullAttention_spec {spec : KVCacheSpec} (hkind : spec.isFullAttention = true)
    (hr : fullAttention pool blockHashes maxLength groupIds spec.blockSize dropEagleBlock
      alignmentTokens = .ok rows) :
    SpecHit pool blockHashes groupIds spec maxLength dropEagleBlock alignmentTokens rows := by
  simp only [fullAttention, bind_eq_ok, pure_eq_ok] at hr
  obtain ⟨scanned, hscan, hrows⟩ := hr
  rw [range_eq_range'] at hscan
  obtain ⟨hlen, hfound⟩ := scanForward_found hscan
  have hin : FoundIn pool blockHashes groupIds scanned 0 scanned.length := by
    intro i _ hi
    refine ⟨_, List.getElem?_eq_getElem hi, ?_⟩
    have := hfound i _ (List.getElem?_eq_getElem hi)
    rwa [zero_add] at this
  have hle : scanned.length * spec.blockSize ≤ maxLength :=
    (mul_le_mul_right _ (hlen.trans (min_le_left _ _))).trans (div_mul_le_self _ _)
  obtain ⟨haligned, hshort, hkept, hlook⟩ := popped_spec hin hle hrows.symm
  have hfrom : spec.neededFrom rows.length = 0 := by
    unfold KVCacheSpec.isFullAttention at hkind
    unfold KVCacheSpec.neededFrom
    split at hkind
    · rename_i hk
      rw [hk]
    · simp at hkind
  refine ⟨haligned, (mul_le_mul_right _ hshort).trans hle, ?_, fun hdrop _ hne => hlook hdrop hne⟩
  rw [hfrom]
  exact hkept

theorem FoundIn.set {first last i : ℕ} {row : HitRow}
    (h : FoundIn pool blockHashes groupIds rows (i + 1) last) (hi : i < rows.length)
    (hrow : Found pool blockHashes groupIds i row) (hfirst : i ≤ first) :
    FoundIn pool blockHashes groupIds (rows.set i row) first last := by
  intro j hj hj'
  by_cases hij : i = j
  · subst hij
    exact ⟨row, List.getElem?_set_self hi, hrow⟩
  · obtain ⟨row', hget, hfound⟩ := h j (by omega) hj'
    exact ⟨row', by rw [List.getElem?_set_ne hij, hget], hfound⟩

/-- A run of found rows that ends at an aligned number of rows, behind the dropped one. -/
structure WindowRun (pool : BlockPool) (blockHashes : List BlockHash) (groupIds : List ℕ)
    (blockSize contiguousBlocks : ℕ) (dropEagleBlock : Bool) (alignmentTokens : ℕ)
    (rows : List HitRow) : Prop where
  pos : 0 < rows.length
  found : FoundIn pool blockHashes groupIds rows (rows.length - contiguousBlocks) rows.length
  last : ∃ row, Found pool blockHashes groupIds (rows.length - 1) row
  aligned : (rows.length - if dropEagleBlock then 1 else 0) * blockSize % alignmentTokens = 0

theorem slidingWindowScan_spec {contiguousBlocks i numContiguousBlocks : ℕ}
    {scanned : List HitRow × ℕ × Bool}
    (hrun : FoundIn pool blockHashes groupIds rows i (i + numContiguousBlocks))
    (hlen : i + numContiguousBlocks ≤ rows.length)
    (haligned : 0 < numContiguousBlocks →
      (i + numContiguousBlocks - if dropEagleBlock then 1 else 0) * blockSize %
        alignmentTokens = 0)
    (hr : slidingWindowScan pool blockHashes groupIds blockSize contiguousBlocks dropEagleBlock
      alignmentTokens i rows numContiguousBlocks = .ok scanned) :
    if scanned.2.2 then WindowRun pool blockHashes groupIds blockSize contiguousBlocks
      dropEagleBlock alignmentTokens scanned.1 ∧ scanned.1.length ≤ rows.length
    else FoundIn pool blockHashes groupIds scanned.1 0 scanned.2.1 ∧
      scanned.2.1 ≤ rows.length ∧ scanned.1.length = rows.length := by
  induction i generalizing rows numContiguousBlocks with
  | zero =>
    obtain rfl : (rows, numContiguousBlocks, false) = scanned := by
      simpa [slidingWindowScan] using hr
    rw [zero_add] at hrun hlen
    exact ⟨hrun, hlen, rfl⟩
  | succ i ih =>
    simp only [slidingWindowScan, bind_eq_ok] at hr
    obtain ⟨cachedBlock, hlookup, hr⟩ := hr
    cases cachedBlock with
    | none =>
      have hnone : FoundIn pool blockHashes groupIds rows i (i + 0) := fun j hj hj' => by omega
      exact ih hnone (by omega) (fun h => absurd h (lt_irrefl 0)) hr
    | some row =>
      dsimp only at hr
      have hi : i < rows.length := by omega
      have hset : FoundIn pool blockHashes groupIds (rows.set i row) i
          (i + (numContiguousBlocks + 1)) := by
        have := hrun.set hi hlookup le_rfl
        rwa [add_right_comm, add_assoc] at this
      have htop : ¬ (numContiguousBlocks = 0 ∧ blockSize ≠ alignmentTokens ∧
          (if dropEagleBlock then i else i + 1) * blockSize % alignmentTokens ≠ 0) →
          (i + (numContiguousBlocks + 1) - if dropEagleBlock then 1 else 0) * blockSize %
            alignmentTokens = 0 := by
        intro hskip
        rcases Nat.eq_zero_or_pos numContiguousBlocks with rfl | hpos
        · by_cases hsize : blockSize = alignmentTokens
          · rw [hsize, mul_mod_left]
          · by_contra hmod
            refine hskip ⟨rfl, hsize, ?_⟩
            cases dropEagleBlock <;> simpa using hmod
        · have := haligned hpos
          rwa [add_right_comm, add_assoc] at this
      by_cases hskip : numContiguousBlocks = 0 ∧ blockSize ≠ alignmentTokens ∧
          (if dropEagleBlock then i else i + 1) * blockSize % alignmentTokens ≠ 0
      · rw [if_pos hskip] at hr
        obtain ⟨rfl, -, -⟩ := hskip
        have hnone : FoundIn pool blockHashes groupIds rows i (i + 0) := fun j hj hj' => by omega
        exact ih hnone (by omega) (fun h => absurd h (lt_irrefl 0)) hr
      rw [if_neg hskip] at hr
      by_cases hfull : numContiguousBlocks + 1 ≥ contiguousBlocks
      · rw [if_pos hfull] at hr
        cases hr
        have hlength : ((rows.set i row).take (i + (numContiguousBlocks + 1))).length =
            i + (numContiguousBlocks + 1) := by
          rw [length_take, length_set]
          omega
        have hfound := hset.take (le_refl (i + (numContiguousBlocks + 1)))
        rw [if_pos rfl]
        dsimp only
        refine ⟨⟨by omega, ?_, ?_, ?_⟩, by omega⟩
        · rw [hlength]
          exact hfound.mono (by omega) le_rfl
        · rw [hlength]
          obtain ⟨row', -, hrow'⟩ := hfound (i + (numContiguousBlocks + 1) - 1) (by omega) (by omega)
          exact ⟨row', hrow'⟩
        · rw [hlength]
          exact htop hskip
      · rw [if_neg hfull] at hr
        have := ih hset (by rw [length_set]; omega) (fun _ => htop hskip) hr
        rwa [length_set] at this

theorem slidingWindow_spec {spec : KVCacheSpec} {w : ℕ} (hkind : spec.kind = .slidingWindow w)
    (hr : slidingWindow pool blockHashes maxLength groupIds w spec.blockSize dropEagleBlock
      alignmentTokens = .ok rows) :
    SpecHit pool blockHashes groupIds spec maxLength dropEagleBlock alignmentTokens rows := by
  simp only [slidingWindow, bind_eq_ok, pure_eq_ok] at hr
  obtain ⟨⟨scanned, numContiguousBlocks, matchFound⟩, hscan, hrows⟩ := hr
  have hstart : FoundIn pool blockHashes groupIds (List.replicate (maxLength / spec.blockSize)
      (List.replicate groupIds.length pool.nullBlock)) (maxLength / spec.blockSize)
      (maxLength / spec.blockSize + 0) := fun j hj hj' => by omega
  have hspec := slidingWindowScan_spec hstart (by rw [length_replicate]; omega)
    (fun h => absurd h (lt_irrefl 0)) hscan
  rw [length_replicate] at hspec
  have hbound : maxLength / spec.blockSize * spec.blockSize ≤ maxLength := div_mul_le_self _ _
  have hfrom (n : ℕ) : spec.neededFrom n = n - cdiv (w - 1) spec.blockSize := by
    rw [KVCacheSpec.neededFrom, hkind]
  cases matchFound with
  | true =>
    simp only [↓reduceIte] at hspec hrows
    obtain ⟨hrun, hlen⟩ := hspec
    have hle : scanned.length * spec.blockSize ≤ maxLength := (mul_le_mul_right _ hlen).trans hbound
    cases dropEagleBlock with
    | false =>
      obtain rfl : scanned = rows := by simpa using hrows
      refine ⟨by simpa using hrun.aligned, hle, ?_, fun h => by simp at h⟩
      rw [hfrom]
      exact hrun.found.mono (by simp [SingleTypeKVCacheManager.contiguousBlocksForHit]) le_rfl
    | true =>
      have haligned : (scanned.length - 1) * spec.blockSize % alignmentTokens = 0 := by
        simpa using hrun.aligned
      have hpos := hrun.pos
      obtain rfl : scanned.dropLast = rows := by
        rw [if_pos rfl, popUnaligned, length_dropLast, alignedLength_eq_self haligned,
          dropLast_eq_take, take_take, min_self] at hrows
        rw [dropLast_eq_take, hrows]
      have hlength : scanned.dropLast.length = scanned.length - 1 := length_dropLast
      refine ⟨by rw [hlength]; exact haligned,
        (Nat.mul_le_mul_right _ (by omega)).trans hle, ?_, fun _ _ _ => ⟨?_, ?_⟩⟩
      · rw [hfrom, hlength, dropLast_eq_take]
        refine FoundIn.take (hrun.found.mono ?_ (sub_le _ _)) le_rfl
        simp only [SingleTypeKVCacheManager.contiguousBlocksForHit, ↓reduceIte]
        omega
      · rw [hlength, Nat.sub_add_cancel hpos]
        exact hle
      · rw [hlength]
        exact hrun.last
  | false =>
    simp only [Bool.false_eq_true, ↓reduceIte] at hspec hrows
    obtain ⟨hfound, hnum, hlen⟩ := hspec
    have htaken : (scanned.take numContiguousBlocks).length = numContiguousBlocks := by
      rw [length_take, hlen, min_eq_left hnum]
    have hprefix : FoundIn pool blockHashes groupIds (scanned.take numContiguousBlocks) 0
        (scanned.take numContiguousBlocks).length := by
      rw [htaken]
      exact hfound.take le_rfl
    have hle : (scanned.take numContiguousBlocks).length * spec.blockSize ≤ maxLength := by
      rw [htaken]
      exact (mul_le_mul_right _ hnum).trans hbound
    let cut := popUnaligned spec.blockSize alignmentTokens (scanned.take numContiguousBlocks)
    have hcut : cut = popUnaligned spec.blockSize alignmentTokens
        (if false then (scanned.take numContiguousBlocks).dropLast
          else scanned.take numContiguousBlocks) := rfl
    obtain ⟨haligned, hshort, hin, -⟩ := popped_spec hprefix hle hcut
    have hle' := (mul_le_mul_right spec.blockSize hshort).trans hle
    cases dropEagleBlock with
    | false =>
      rw [if_neg (by decide)] at hrows
      subst hrows
      exact ⟨haligned, hle', hin.mono (zero_le _) le_rfl, fun h => by simp at h⟩
    | true =>
      have hdropped : rows = popUnaligned spec.blockSize alignmentTokens
          (if true then cut.dropLast else cut) := hrows.symm
      obtain ⟨haligned', hshort', hin', hlook⟩ := popped_spec hin hle' hdropped
      exact ⟨haligned', (mul_le_mul_right _ hshort').trans hle',
        hin'.mono (zero_le _) le_rfl, fun h _ hne => hlook h hne⟩

theorem mambaScan_spec {n : ℕ}
    (hr : mambaScan pool blockHashes groupIds blockSize alignmentTokens n = .ok rows) :
    rows.length * blockSize % alignmentTokens = 0 ∧ rows.length ≤ n ∧
      FoundIn pool blockHashes groupIds rows (rows.length - 1) rows.length := by
  induction n with
  | zero =>
    obtain rfl : [] = rows := by simpa [mambaScan] using hr
    exact ⟨by simp, le_refl 0, fun i _ hi => absurd hi (not_lt_zero i)⟩
  | succ i ih =>
    simp only [mambaScan, bind_eq_ok] at hr
    obtain ⟨cachedBlock, hlookup, hr⟩ := hr
    have hrest : mambaScan pool blockHashes groupIds blockSize alignmentTokens i = .ok rows →
        rows.length * blockSize % alignmentTokens = 0 ∧ rows.length ≤ i + 1 ∧
          FoundIn pool blockHashes groupIds rows (rows.length - 1) rows.length := by
      intro hr
      obtain ⟨h1, h2, h3⟩ := ih hr
      exact ⟨h1, h2.trans (le_succ i), h3⟩
    cases cachedBlock with
    | none => exact hrest hr
    | some row =>
      split_ifs at hr with hskip
      · exact hrest hr
      · cases hr
        rw [length_append, length_replicate, length_singleton]
        refine ⟨?_, le_refl _, fun j hj hj' => ?_⟩
        · by_cases hsize : blockSize = alignmentTokens
          · rw [hsize, mul_mod_left]
          · by_contra hmod
            exact hskip ⟨hsize, hmod⟩
        · obtain rfl : j = i := by omega
          exact ⟨row, by simp, hlookup⟩

end CacheHit

/-- The lookup of a full attention, sliding window or mamba group. -/
theorem findLongestCacheHit_spec {pool : BlockPool} {blockHashes : List BlockHash}
    {maxLength : ℕ} {groupIds : List ℕ} {spec : KVCacheSpec} {dropEagleBlock : Bool}
    {alignmentTokens : ℕ} {rows : List HitRow} (hkind : spec.isHybridKind = true)
    (hr : findLongestCacheHit pool blockHashes maxLength groupIds spec dropEagleBlock
      alignmentTokens 1 1 = .ok rows) :
    SpecHit pool blockHashes groupIds spec maxLength dropEagleBlock alignmentTokens rows := by
  unfold findLongestCacheHit at hr
  split at hr
  · rename_i hk
    exact CacheHit.fullAttention_spec (by simp [KVCacheSpec.isFullAttention, hk]) hr
  · rename_i w hk
    simp only [bind_eq_ok] at hr
    obtain ⟨-, -, hr⟩ := hr
    exact CacheHit.slidingWindow_spec hk hr
  · rename_i hk
    simp [KVCacheSpec.isHybridKind, KVCacheSpec.isFullAttention, KVCacheSpec.isSlidingWindow,
      KVCacheSpec.isMamba, hk] at hkind
  · rename_i hk
    simp only [bind_eq_ok] at hr
    obtain ⟨-, -, hr⟩ := hr
    obtain ⟨haligned, hlen, hfound⟩ := CacheHit.mambaScan_spec hr
    refine ⟨haligned, (mul_le_mul_right _ hlen).trans (div_mul_le_self _ _), ?_, ?_⟩
    · rw [KVCacheSpec.neededFrom, hk]
      exact hfound
    · simp [KVCacheSpec.isMamba, hk]
  · simp at hr

section total
variable {pool : BlockPool} {blockHashes : List BlockHash}

theorem getCachedBlock_total (h : pool.cachedBlockHashToBlock.NoEmptyDict) (blockHash : BlockHash)
    (groupIds : List ℕ) : ∃ blocks, pool.getCachedBlock blockHash groupIds = .ok blocks := by
  induction groupIds with
  | nil => exact ⟨_, rfl⟩
  | cons g groupIds ih =>
    obtain ⟨rest, hrest⟩ := ih
    have hone : ∃ block, pool.cachedBlockHashToBlock.getOneBlock
        (makeBlockHashWithGroupId blockHash g) = .ok block := by
      unfold BlockHashToBlockMap.getOneBlock
      cases hget : pool.cachedBlockHashToBlock.cache.get? (makeBlockHashWithGroupId blockHash g)
        with
      | none => exact ⟨_, rfl⟩
      | some entry =>
        cases entry with
        | single block => exact ⟨_, rfl⟩
        | dict blocks =>
          cases hkeys : blocks.keys with
          | nil =>
            have hempty := h _ _ hget
            rw [Dict.isEmpty, map_eq_nil_iff.mp hkeys] at hempty
            simp at hempty
          | cons k' ks =>
            refine ⟨some k', ?_⟩
            simp only [hkeys]
            rfl
    obtain ⟨block, hblock⟩ := hone
    simp only [BlockPool.getCachedBlock, hblock]
    cases block with
    | none => exact ⟨none, rfl⟩
    | some block => exact ⟨rest.map (block :: ·),
    by simp [hrest, bind, Except.bind, pure, Except.pure]⟩

namespace CacheHit

section
variable (h : pool.cachedBlockHashToBlock.NoEmptyDict) (groupIds : List ℕ)
include h groupIds

theorem lookup_total {i : ℕ} (hi : i < blockHashes.length) :
    ∃ row, lookup pool blockHashes groupIds i = .ok row := by
  unfold lookup
  rw [List.getElem?_eq_getElem hi]
  exact getCachedBlock_total h _ _

theorem scanForward_total {indices : List ℕ} (hlt : ∀ i ∈ indices, i < blockHashes.length) :
    ∃ rows, scanForward pool blockHashes groupIds indices = .ok rows := by
  induction indices with
  | nil => exact ⟨_, rfl⟩
  | cons i rest ih =>
    obtain ⟨row, hrow⟩ := lookup_total h groupIds (hlt i (by simp))
    obtain ⟨rows, hrows⟩ := ih fun j hj => hlt j (by simp [hj])
    rw [scanForward, hrow]
    cases row with
    | none => exact ⟨[], rfl⟩
    | some row =>
      refine ⟨row :: rows, ?_⟩
      simp [hrows, bind, Except.bind, pure, Except.pure]

theorem slidingWindowScan_total (blockSize contiguousBlocks : ℕ) (dropEagleBlock : Bool)
    (alignmentTokens : ℕ) {i : ℕ} (hi : i ≤ blockHashes.length) (rows : List HitRow)
    (numContiguousBlocks : ℕ) :
    ∃ scanned, slidingWindowScan pool blockHashes groupIds blockSize contiguousBlocks
      dropEagleBlock alignmentTokens i rows numContiguousBlocks = .ok scanned := by
  induction i generalizing rows numContiguousBlocks with
  | zero => exact ⟨_, rfl⟩
  | succ i ih =>
    have hrest := ih (by omega)
    obtain ⟨row, hrow⟩ := lookup_total h groupIds (show i < blockHashes.length by omega)
    rw [slidingWindowScan, hrow]
    cases row with
    | none => exact hrest rows 0
    | some row =>
      simp only [bind, Except.bind]
      split_ifs
      all_goals first
        | exact hrest _ _
        | exact ⟨_, rfl⟩

theorem mambaScan_total (blockSize alignmentTokens : ℕ) {i : ℕ} (hi : i ≤ blockHashes.length) :
    ∃ rows, mambaScan pool blockHashes groupIds blockSize alignmentTokens i = .ok rows := by
  induction i with
  | zero => exact ⟨_, rfl⟩
  | succ i ih =>
    have hrest := ih (by omega)
    obtain ⟨row, hrow⟩ := lookup_total h groupIds (show i < blockHashes.length by omega)
    rw [mambaScan, hrow]
    cases row with
    | none => exact hrest
    | some row =>
      simp only [bind, Except.bind]
      split_ifs
      · exact hrest
      · exact ⟨_, rfl⟩

end

end CacheHit

theorem findLongestCacheHit_total (h : pool.cachedBlockHashToBlock.NoEmptyDict) {spec : KVCacheSpec}
    (hkind : spec.isHybridKind = true) {maxLength : ℕ}
    (hlen : maxLength / spec.blockSize ≤ blockHashes.length) (groupIds : List ℕ)
    (dropEagleBlock : Bool) (alignmentTokens : ℕ) :
    ∃ rows, findLongestCacheHit pool blockHashes maxLength groupIds spec dropEagleBlock
      alignmentTokens 1 1 = .ok rows := by
  unfold findLongestCacheHit
  split
  · have hlt : ∀ i ∈ List.range (min (maxLength / spec.blockSize) blockHashes.length),
        i < blockHashes.length := fun i hi =>
      (mem_range.mp hi).trans_le (min_le_right _ _)
    obtain ⟨rows, hrows⟩ := CacheHit.scanForward_total h groupIds hlt
    exact ⟨_, by simp only [CacheHit.fullAttention]; rw [if_neg (by decide), hrows]; rfl⟩
  · rename_i w hk
    obtain ⟨scanned, hscanned⟩ := CacheHit.slidingWindowScan_total h groupIds spec.blockSize
      (SingleTypeKVCacheManager.contiguousBlocksForHit w spec.blockSize dropEagleBlock)
      dropEagleBlock alignmentTokens hlen (List.replicate (maxLength / spec.blockSize)
        (List.replicate groupIds.length pool.nullBlock)) 0
    exact ⟨_, by simp only [CacheHit.slidingWindow]; rw [hscanned]; rfl⟩
  · rename_i hk
    simp [KVCacheSpec.isHybridKind, KVCacheSpec.isFullAttention, KVCacheSpec.isSlidingWindow,
      KVCacheSpec.isMamba, hk] at hkind
  · exact CacheHit.mambaScan_total h groupIds _ _ hlen
  · rename_i hk
    simp [KVCacheSpec.isHybridKind, KVCacheSpec.isFullAttention, KVCacheSpec.isSlidingWindow,
      KVCacheSpec.isMamba, hk] at hkind

end total

end Vllm
