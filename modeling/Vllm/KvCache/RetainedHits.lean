import Vllm.KvCache.EventStream
import Vllm.KvCache.PrefixSoundness
import Vllm.KvCache.Retention

/-! Hits of a sliding window with the blocks registered under the mask: with dense retention as long
as with all full blocks, and with sparse retention as long for a replay, up to the listed cases. -/
namespace Vllm
open Raises BlockHashToBlockMap List Nat

/-- The blocks with a tail: all aligned segments, none, or larger segments. -/
def segmentTokens (alignmentTokens : ℕ) : Option ℕ → Option ℕ
  | none => some alignmentTokens
  | some 0 => none
  | some interval => some interval

/-- Whether a mask over the blocks from `start` on leaves a block in. -/
def maskAllows (mask : Option (List Bool)) (start i : ℕ) : Bool :=
  mask.all fun mask => mask.getD (i - start) true

theorem maskAllows_ite {start stop i : ℕ} {keepAll : Bool} {keep : ℕ → Bool} (hlow : start ≤ i)
    (hhigh : i < stop) : maskAllows (if keepAll = true then none
      else some ((List.range' start (stop - start)).map keep)) start i = (keepAll || keep i) := by
  cases keepAll with
  | true => rfl
  | false =>
    have hget : (List.range' start (stop - start))[i - start]? = some i := by
      rw [List.getElem?_range' (by omega), Nat.one_mul, Nat.add_sub_cancel' hlow]
    rw [if_neg Bool.false_ne_true, maskAllows, Option.all_some, getD_eq_getElem?_getD,
      List.getElem?_map, hget]
    rfl

namespace SingleTypeKVCacheManager
variable {m : SingleTypeKVCacheManager} {w : ℕ} {retentionInterval : Option ℕ}

def eagleShift (m : SingleTypeKVCacheManager) : ℕ := if m.useEagle then 1 else 0

/-- The block at which the tail of the prompt ends, with sparse retention. -/
def replayStop (m : SingleTypeKVCacheManager) (retentionInterval : Option ℕ)
    (numPromptTokens : ℕ) : Option ℕ :=
  retentionInterval.map fun _ => (numPromptTokens - 1) / m.schedulerBlockSize *
    m.schedulerBlockSize / m.kvCacheSpec.blockSize + m.eagleShift

/-- Whether a block is kept, wherever the call that caches it starts. -/
def keepsBlock (m : SingleTypeKVCacheManager) (w : ℕ) (retentionInterval : Option ℕ)
    (numPromptTokens i : ℕ) : Bool :=
  CacheHit.keeps (contiguousBlocksForHit w m.kvCacheSpec.blockSize m.useEagle) m.eagleShift
    ((segmentTokens m.schedulerBlockSize retentionInterval).map (· / m.kvCacheSpec.blockSize))
    (m.replayStop retentionInterval numPromptTokens) i

theorem maskAllows_slidingWindowMask {start stop numPromptTokens i : ℕ} (hlow : start ≤ i)
    (hhigh : i < stop) : maskAllows (m.slidingWindowMask w start stop retentionInterval
      numPromptTokens) start i = m.keepsBlock w retentionInterval numPromptTokens i := by
  unfold slidingWindowMask keepsBlock CacheHit.keeps replayStop eagleShift
  rcases retentionInterval with _ | _ | interval
  · refine (maskAllows_ite hlow hhigh).trans ?_
    simp [segmentTokens]
  · refine (maskAllows_ite hlow hhigh).trans ?_
    simp [segmentTokens]
  · refine (maskAllows_ite hlow hhigh).trans ?_
    simp [segmentTokens]

end SingleTypeKVCacheManager

/-- A request of which blocks have been cached: its block hashes, and the numbers of computed tokens
with which `cache_blocks` was called. -/
structure SeenRequest where
  blockHashes : List BlockHash
  numPromptTokens : ℕ
  computed : List ℕ

namespace SeenRequest
variable (c : KVCacheCoordinator) (m : SingleTypeKVCacheManager) (w : ℕ)
  (retentionInterval : Option ℕ) (r : SeenRequest)

/-- One call of `cache_blocks`: how many blocks count as cached, and the registered ones. -/
def cacheCall (state : ℕ × List ℕ) (numComputedTokens : ℕ) : ℕ × List ℕ :=
  let numFullBlocks := c.numTokensToCache m numComputedTokens / m.blockSize
  if state.1 ≥ numFullBlocks then state
  else
    let mask := m.slidingWindowMask w state.1 numFullBlocks retentionInterval r.numPromptTokens
    (numFullBlocks, state.2 ++
      (List.range' state.1 (numFullBlocks - state.1)).filter (maskAllows mask state.1))

def calls : ℕ × List ℕ := r.computed.foldl (r.cacheCall c m w retentionInterval) (0, [])

/-- The indices of the blocks that the calls register. -/
def registered : List ℕ := (r.calls c m w retentionInterval).2

/-- The request has computed the block. -/
def Full (i : ℕ) : Prop := ∃ numComputedTokens ∈ r.computed, i < numComputedTokens / m.blockSize

variable {c m w retentionInterval r}

/-- What holds after some calls when the first `start` blocks were counted before them: the
registered blocks are the kept ones of those that count as cached since. -/
structure CallsInv (c : KVCacheCoordinator) (m : SingleTypeKVCacheManager) (w : ℕ)
    (retentionInterval : Option ℕ) (r : SeenRequest) (start : ℕ) (computed : List ℕ)
    (state : ℕ × List ℕ) : Prop where
  mem_iff : ∀ i, i ∈ state.2 ↔
    start ≤ i ∧ i < state.1 ∧ m.keepsBlock w retentionInterval r.numPromptTokens i = true
  start_le : start ≤ state.1
  reached : ∀ numComputedTokens ∈ computed,
    c.numTokensToCache m numComputedTokens / m.blockSize ≤ state.1
  attained : state.1 = start ∨ ∃ numComputedTokens ∈ computed,
    state.1 = c.numTokensToCache m numComputedTokens / m.blockSize

theorem CallsInv.step {start : ℕ} {computed : List ℕ} {state : ℕ × List ℕ}
    (h : CallsInv c m w retentionInterval r start computed state) (numComputedTokens : ℕ) :
    CallsInv c m w retentionInterval r start (computed ++ [numComputedTokens])
      (r.cacheCall c m w retentionInterval state numComputedTokens) := by
  unfold cacheCall
  dsimp only
  split_ifs with hge
  · refine ⟨h.mem_iff, h.start_le, fun x hx => ?_, ?_⟩
    · rcases mem_append.mp hx with hx | hx
      · exact h.reached x hx
      · rw [mem_singleton.mp hx]
        exact hge
    · rcases h.attained with hstart | ⟨x, hx, heq⟩
      · exact .inl hstart
      · exact .inr ⟨x, mem_append_left _ hx, heq⟩
  · have hstart := h.start_le
    refine ⟨fun i => ?_, by omega, fun x hx => ?_, ?_⟩
    · simp only [mem_append, mem_filter, mem_range'_1, h.mem_iff]
      constructor
      · rintro (⟨hfrom, hi, hkeep⟩ | ⟨⟨hlow, hhigh⟩, hmask⟩)
        · exact ⟨hfrom, by omega, hkeep⟩
        · rw [SingleTypeKVCacheManager.maskAllows_slidingWindowMask hlow (by omega)] at hmask
          exact ⟨by omega, by omega, hmask⟩
      · rintro ⟨hfrom, hi, hkeep⟩
        rcases lt_or_ge i state.1 with hlt | hlow
        · exact .inl ⟨hfrom, hlt, hkeep⟩
        · right
          refine ⟨⟨hlow, by omega⟩, ?_⟩
          rw [SingleTypeKVCacheManager.maskAllows_slidingWindowMask hlow hi]
          exact hkeep
    · rcases mem_append.mp hx with hx | hx
      · exact (h.reached x hx).trans (by omega)
      · rw [mem_singleton.mp hx]
    · exact .inr ⟨numComputedTokens, by simp, rfl⟩

theorem callsInv_from (c : KVCacheCoordinator) (m : SingleTypeKVCacheManager) (w : ℕ)
    (retentionInterval : Option ℕ) (r : SeenRequest) (start : ℕ) (computed : List ℕ) :
    CallsInv c m w retentionInterval r start computed
      (computed.foldl (r.cacheCall c m w retentionInterval) (start, [])) := by
  have hstart : CallsInv c m w retentionInterval r start [] (start, []) :=
    ⟨fun i => ⟨fun h => absurd h not_mem_nil, fun ⟨hfrom, hlt, _⟩ => absurd hlt (by omega)⟩,
      le_rfl, by simp, .inl rfl⟩
  induction computed using reverseRecOn with
  | nil => exact hstart
  | append_singleton computed x ih =>
    rw [foldl_append]
    exact ih.step x

theorem callsInv (c : KVCacheCoordinator) (m : SingleTypeKVCacheManager) (w : ℕ)
    (retentionInterval : Option ℕ) (r : SeenRequest) :
    CallsInv c m w retentionInterval r 0 r.computed (r.calls c m w retentionInterval) :=
  callsInv_from c m w retentionInterval r 0 r.computed

/-- A hybrid coordinator with a sliding window group: its segments have `per` blocks. -/
structure WindowSetting (c : KVCacheCoordinator) (m : SingleTypeKVCacheManager) (w per : ℕ) :
    Prop where
  hybrid : ∃ groups, c.kind = .hybrid groups
  kind : m.kvCacheSpec.kind = .slidingWindow w
  blockSize : m.blockSize = m.kvCacheSpec.blockSize
  scheduler : c.schedulerBlockSize = m.schedulerBlockSize
  segment : m.schedulerBlockSize = per * m.kvCacheSpec.blockSize
  pos : 0 < per

section Setting
variable {per : ℕ}

section
variable (h : WindowSetting c m w per)
include h

theorem WindowSetting.segments (n : ℕ) :
    n / m.schedulerBlockSize * m.schedulerBlockSize / m.kvCacheSpec.blockSize =
      n / m.kvCacheSpec.blockSize / per * per := by
  rw [h.segment, ← Nat.mul_assoc, Nat.mul_div_cancel _ m.kvCacheSpec.blockSize_pos,
    Nat.mul_comm per m.kvCacheSpec.blockSize, ← Nat.div_div_eq_div_mul]

theorem WindowSetting.cached_eq (n : ℕ) :
    c.numTokensToCache m n / m.blockSize =
      if m.useEagle = true ∧ 0 < n / m.blockSize / per
      then min (n / m.blockSize) (n / m.blockSize / per * per + 1)
      else n / m.blockSize / per * per := by
  rcases h.hybrid with ⟨groups, hgroups⟩
  have hbs := m.kvCacheSpec.blockSize_pos
  have hseg := h.segments n
  have hpos : n / m.schedulerBlockSize * m.schedulerBlockSize > 0 ↔
      0 < n / m.kvCacheSpec.blockSize / per := by
    have hA : 0 < m.schedulerBlockSize := by
      rw [h.segment]
      exact mul_pos h.pos hbs
    rw [gt_iff_lt, pos_iff_ne_zero, pos_iff_ne_zero, mul_ne_zero_iff,
      Nat.div_div_eq_div_mul, Nat.mul_comm _ per, ← h.segment]
    exact and_iff_left hA.ne'
  rw [KVCacheCoordinator.numTokensToCache, hgroups, h.blockSize]
  simp only [h.scheduler, hpos]
  split_ifs
  · have hadd : (n / m.schedulerBlockSize * m.schedulerBlockSize + m.kvCacheSpec.blockSize) /
        m.kvCacheSpec.blockSize = n / m.kvCacheSpec.blockSize / per * per + 1 := by
      rw [add_div_right _ hbs, hseg]
    rw [← hadd]
    rcases le_total n (n / m.schedulerBlockSize * m.schedulerBlockSize +
      m.kvCacheSpec.blockSize) with hle | hle
    · rw [min_eq_left hle, min_eq_left (Nat.div_le_div_right hle)]
    · rw [min_eq_right hle, min_eq_right (Nat.div_le_div_right hle)]
  · exact hseg

theorem WindowSetting.full_of_lt {i : ℕ} (hi : i < (r.calls c m w retentionInterval).1) :
    r.Full m i := by
  rcases (callsInv c m w retentionInterval r).attained with hzero | ⟨n, hn, heq⟩
  · omega
  · refine ⟨n, hn, ?_⟩
    rw [heq, h.cached_eq] at hi
    have hle := div_mul_le_self (n / m.blockSize) per
    split_ifs at hi <;> omega

theorem WindowSetting.reached {e j : ℕ} (hdvd : per ∣ if m.useEagle then e else e + 1)
    (hne : m.useEagle = true → e ≠ 0) (hfull : r.Full m e) (hj : j ≤ e) :
    j < (r.calls c m w retentionInterval).1 := by
  rcases hfull with ⟨n, hn, he⟩
  refine lt_of_lt_of_le ?_ ((callsInv c m w retentionInterval r).reached n hn)
  have hfloor : ∀ {x : ℕ}, per ∣ x → x ≤ n / m.blockSize → x ≤ n / m.blockSize / per * per := by
    rintro x ⟨q, rfl⟩ hle
    rw [mul_comm per q] at hle ⊢
    exact mul_le_mul_right _ ((le_div_iff_mul_le h.pos).mpr hle)
  rw [h.cached_eq]
  cases heagle : m.useEagle with
  | false =>
    rw [heagle] at hdvd
    simp only [Bool.false_eq_true, ↓reduceIte, false_and] at hdvd ⊢
    have hle := hfloor hdvd he
    omega
  | true =>
    rw [heagle] at hdvd hne
    simp only [↓reduceIte, forall_const, true_and] at hdvd hne ⊢
    have hle := hfloor hdvd he.le
    have hseg : 0 < n / m.blockSize / per := by
      by_contra hzero
      rw [Nat.eq_zero_of_not_pos hzero, Nat.zero_mul] at hle
      exact hne (le_zero.mp hle)
    rw [if_pos hseg]
    omega

end

end Setting

end SeenRequest

/-- A hash stands for its block and all blocks before it, in all the lists. -/
def PrefixHashes (lists : List (List BlockHash)) : Prop :=
  ∀ l ∈ lists, ∀ l' ∈ lists, ∀ (i j : ℕ) hash, l[i]? = some hash → l'[j]? = some hash →
    i = j ∧ ∀ k ≤ i, l[k]? = l'[k]?

/-- In each of the groups, the pool has blocks under exactly these hashes. -/
structure Holds (pool : BlockPool) (groupIds : List ℕ) (hashes : BlockHash → Prop) : Prop where
  noEmptyDict : pool.cachedBlockHashToBlock.NoEmptyDict
  iff : ∀ hash, ∀ g ∈ groupIds, (∃ block, pool.cachedBlockHashToBlock.getOneBlock
    (makeBlockHashWithGroupId hash g) = .ok (some block)) ↔ hashes hash

/-- The hashes of the blocks at the listed indices of the requests. -/
def HashesOf (history : List SeenRequest) (indices : SeenRequest → ℕ → Prop) (hash : BlockHash) :
    Prop :=
  ∃ r ∈ history, ∃ i, indices r i ∧ r.blockHashes[i]? = some hash

/-- The request starts with the same blocks, up to block `i`. -/
def SeenRequest.Shares (r : SeenRequest) (blockHashes : List BlockHash) (i : ℕ) : Prop :=
  ∃ hash, blockHashes[i]? = some hash ∧ r.blockHashes[i]? = some hash

section Lookup
variable {pool : BlockPool} {groupIds : List ℕ} {history : List SeenRequest}
  {indices : SeenRequest → ℕ → Prop} {blockHashes : List BlockHash}

theorem SeenRequest.Shares.mono {r : SeenRequest} {i j : ℕ} (h : r.Shares blockHashes i)
    (hpre : PrefixHashes (blockHashes :: history.map SeenRequest.blockHashes)) (hr : r ∈ history)
    (hj : j ≤ i) : r.Shares blockHashes j := by
  rcases h with ⟨hash, hlookup, hseen⟩
  have hsame := (hpre _ mem_cons_self _
    (mem_cons_of_mem _ (mem_map_of_mem hr)) i i hash hlookup hseen).2 j hj
  have hlt : j < blockHashes.length := hj.trans_lt (List.getElem?_eq_some_iff.mp hlookup).1
  refine ⟨blockHashes[j], List.getElem?_eq_getElem hlt, ?_⟩
  rw [← hsame, List.getElem?_eq_getElem hlt]

theorem cachedAt_holds (hne : groupIds ≠ [])
    (hpool : Holds pool groupIds (HashesOf history indices))
    (hpre : PrefixHashes (blockHashes :: history.map SeenRequest.blockHashes)) (i : ℕ) :
    CacheHit.cachedAt pool blockHashes groupIds i = true ↔
      ∃ r ∈ history, indices r i ∧ r.Shares blockHashes i := by
  rw [CacheHit.cachedAt_iff]
  constructor
  · rintro ⟨hash, hlookup, hgroups⟩
    rcases exists_mem_of_ne_nil groupIds hne with ⟨g, hg⟩
    rcases (hpool.iff hash g hg).mp (hgroups g hg) with ⟨r, hr, j, hj, hseen⟩
    rcases hpre _ mem_cons_self _ (mem_cons_of_mem _ (mem_map_of_mem hr)) i j
      hash hlookup hseen with ⟨rfl, -⟩
    exact ⟨r, hr, hj, hash, hlookup, hseen⟩
  · rintro ⟨r, hr, hi, hash, hlookup, hseen⟩
    exact ⟨hash, hlookup, fun g hg => (hpool.iff hash g hg).mpr ⟨r, hr, i, hi, hseen⟩⟩

variable {c : KVCacheCoordinator} {m : SingleTypeKVCacheManager} {w per maxLength : ℕ}

open SeenRequest CacheHit

/-- The lookup of the group, with the alignment of its coordinator. -/
def windowLookup (pool : BlockPool) (blockHashes : List BlockHash) (maxLength : ℕ)
    (groupIds : List ℕ) (m : SingleTypeKVCacheManager) : Raises (List HitRow) :=
  findLongestCacheHit pool blockHashes maxLength groupIds m.kvCacheSpec m.useEagle
    m.schedulerBlockSize 1 1

/-- The number of rows of the lookup, from the indices that count as cached. -/
def hitLength (m : SingleTypeKVCacheManager) (w per maxNumBlocks : ℕ) (cached : ℕ → Bool) : ℕ :=
  windowHitLength cached (cdiv (w - 1) m.kvCacheSpec.blockSize + if m.useEagle then 1 else 0)
    m.kvCacheSpec.blockSize (per * m.kvCacheSpec.blockSize) m.useEagle maxNumBlocks

theorem windowLookup_length (h : WindowSetting c m w per)
    (hmap : pool.cachedBlockHashToBlock.NoEmptyDict)
    (hlen : maxLength / m.kvCacheSpec.blockSize ≤ blockHashes.length) (groupIds : List ℕ) :
    ∃ rows, windowLookup pool blockHashes maxLength groupIds m = .ok rows ∧
      rows.length = hitLength m w per (maxLength / m.kvCacheSpec.blockSize)
        (cachedAt pool blockHashes groupIds) := by
  rcases @slidingWindow_length pool blockHashes groupIds m.kvCacheSpec.blockSize
    m.schedulerBlockSize maxLength m.useEagle w
    (fun i hi => lookup_total hmap groupIds (hi.trans_le hlen)) with ⟨rows, hrows, hlength⟩
  refine ⟨rows, ?_, ?_⟩
  · rw [windowLookup, findLongestCacheHit, h.kind, ← hrows]
    rfl
  · rw [hlength, h.segment]
    rfl

theorem SeenRequest.WindowSetting.keepsBlock_dense (h : WindowSetting c m w per)
    (numPromptTokens i : ℕ) : m.keepsBlock w none numPromptTokens i =
      keeps (cdiv (w - 1) m.kvCacheSpec.blockSize + if m.useEagle then 1 else 0)
        (if m.useEagle then 1 else 0) (some per) none i := by
  rw [SingleTypeKVCacheManager.keepsBlock, segmentTokens, Option.map_some, h.segment,
    Nat.mul_div_cancel _ m.kvCacheSpec.blockSize_pos]
  rfl

theorem keeps_zero {segment : Option ℕ} (hpos : ∀ P ∈ segment, 0 < P) (replay : Option ℕ) (i : ℕ) :
    keeps 0 0 segment replay i = false := by
  have hmod : ∀ P ∈ segment, i % P < P := fun P hP => mod_lt i (hpos P hP)
  rw [keeps, Bool.or_eq_false_iff, Bool.or_eq_false_iff]
  refine ⟨?_, ?_, ?_⟩
  · cases segment with
    | none => rfl
    | some P => simpa using (hpos P rfl).ne'
  · cases segment with
    | none => rfl
    | some P => simpa using hmod P rfl
  · cases replay with
    | none => rfl
    | some stop => simp

theorem hitLength_false (m : SingleTypeKVCacheManager) (w per maxNumBlocks : ℕ) :
    hitLength m w per maxNumBlocks (fun _ => false) = 0 := by
  have hscan : ∀ (ends : ℕ → Bool) (c i num : ℕ),
      (RightmostRun.scan (fun _ => false) ends c (i + 1) num) = (0, false) := by
    intro ends c i
    induction i with
    | zero => intro num; rfl
    | succ i ih => intro num; exact ih 0
  cases maxNumBlocks with
  | zero => exact windowHitLength_none rfl
  | succ n => exact windowHitLength_none (hscan _ _ n 0)

/-- Some request of the history has cached the first segment of the lookup. -/
def SegmentSeen (m : SingleTypeKVCacheManager) (history : List SeenRequest)
    (blockHashes : List BlockHash) (maxLength : ℕ) : Prop :=
  m.schedulerBlockSize ≤ maxLength ∧ ∃ r ∈ history,
    (∃ numComputedTokens ∈ r.computed, m.schedulerBlockSize ≤ numComputedTokens) ∧
      r.Shares blockHashes (m.schedulerBlockSize / m.kvCacheSpec.blockSize - 1)

theorem hitLength_zero_iff (h : WindowSetting c m w per) (heagle : m.useEagle = false)
    (hwindow : cdiv (w - 1) m.kvCacheSpec.blockSize = 0) {cached : ℕ → Bool}
    (hpre : PrefixHashes (blockHashes :: history.map SeenRequest.blockHashes))
    (hcached : ∀ i, cached i = true ↔ ∃ r ∈ history, r.Full m i ∧ r.Shares blockHashes i) :
    hitLength m w per (maxLength / m.kvCacheSpec.blockSize) cached = 0 ↔
      ¬SegmentSeen m history blockHashes maxLength := by
  have hbs := m.kvCacheSpec.blockSize_pos
  have hper : m.schedulerBlockSize / m.kvCacheSpec.blockSize = per := by
    rw [h.segment, Nat.mul_div_cancel _ hbs]
  have hblocks : ∀ n, m.schedulerBlockSize ≤ n ↔ per ≤ n / m.kvCacheSpec.blockSize := by
    intro n
    rw [le_div_iff_mul_le hbs, h.segment]
  have hone : hitLength m w per (maxLength / m.kvCacheSpec.blockSize) cached =
      windowHitLength cached 1 m.kvCacheSpec.blockSize (per * m.kvCacheSpec.blockSize) false
        (maxLength / m.kvCacheSpec.blockSize) := by
    rw [hitLength, heagle, hwindow, windowHitLength, windowHitLength]
    simp only [Bool.false_eq_true, ↓reduceIte, add_zero, RightmostRun.scan_zero]
  have hseen : SegmentSeen m history blockHashes maxLength ↔
      per - 1 < maxLength / m.kvCacheSpec.blockSize ∧ cached (per - 1) = true := by
    have hpos := h.pos
    rw [SegmentSeen, hper, hblocks, hcached]
    have hfull : ∀ r : SeenRequest, (∃ n ∈ r.computed, m.schedulerBlockSize ≤ n) ↔
        r.Full m (per - 1) := by
      intro r
      simp only [SeenRequest.Full, h.blockSize, hblocks]
      constructor <;> rintro ⟨n, hn, hle⟩ <;> exact ⟨n, hn, by omega⟩
    simp only [hfull]
    constructor
    · rintro ⟨hle, hany⟩
      exact ⟨by omega, hany⟩
    · rintro ⟨hlt, hany⟩
      exact ⟨by omega, hany⟩
  rw [hone, hseen]
  rcases @RightmostRun.scan_spec cached (mayEnd m.kvCacheSpec.blockSize
    (per * m.kvCacheSpec.blockSize) false) 1 one_pos (maxLength / m.kvCacheSpec.blockSize) with
    ⟨hscan, hnone⟩ | ⟨e, hbest, -⟩
  · refine iff_of_true (windowHitLength_none hscan) ?_
    rintro ⟨hlt, hlast⟩
    refine hnone (per - 1) hlt ?_ fun j hj hj' => ?_
    · rw [mayEnd_iff hbs, if_neg Bool.false_ne_true, Nat.sub_add_cancel h.pos]
    · rw [show j = per - 1 by omega]
      exact hlast
  · rw [windowHitLength_eq_hitOf hbs h.pos one_pos hbest]
    refine iff_of_false (by simp [hitOf]) ?_
    rw [not_not]
    have hend := (mayEnd_iff hbs).mp hbest.isEnd
    rw [if_neg Bool.false_ne_true] at hend
    have hle := le_of_dvd (succ_pos e) hend
    have hlt := hbest.lt
    refine ⟨by omega, ?_⟩
    rcases (hcached e).mp (hbest.run e (by omega) le_rfl) with ⟨r, hr, ⟨n, hn, hfull⟩, hshares⟩
    exact (hcached _).mpr ⟨r, hr, ⟨n, hn, by omega⟩, hshares.mono hpre hr (by omega)⟩

theorem cdiv_pos_iff {b : ℕ} (hb : 0 < b) (a : ℕ) : 0 < cdiv a b ↔ 0 < a := by
  rw [GridLoop.lt_ceilDiv_iff hb, zero_mul]

/-- The blocks of the history that are registered with a retention interval. -/
def Registered (c : KVCacheCoordinator) (m : SingleTypeKVCacheManager) (w : ℕ)
    (retentionInterval : Option ℕ) (history : List SeenRequest) : BlockHash → Prop :=
  HashesOf history fun r i => i ∈ r.registered c m w retentionInterval

end Lookup

theorem prefixHashes_of_nodup {lists : List (List BlockHash)} {longest : List BlockHash}
    (hnodup : longest.Nodup) (hlists : ∀ l ∈ lists, l <+: longest) : PrefixHashes lists := by
  have hget : ∀ l ∈ lists, ∀ i < l.length, l[i]? = longest[i]? := by
    intro l hl i hi
    rcases hlists l hl with ⟨rest, rfl⟩
    rw [List.getElem?_append_left hi]
  intro l hl l' hl' i j hash hi hj
  have hi' := (List.getElem?_eq_some_iff.mp hi).1
  have hj' := (List.getElem?_eq_some_iff.mp hj).1
  rw [hget l hl i hi'] at hi
  rw [hget l' hl' j hj'] at hj
  obtain rfl : i = j := by
    rcases List.getElem?_eq_some_iff.mp hi with ⟨hlt, rfl⟩
    rcases List.getElem?_eq_some_iff.mp hj with ⟨hlt', heq⟩
    exact (hnodup.getElem_inj_iff.mp heq).symm
  refine ⟨rfl, fun k hk => ?_⟩
  rw [hget l hl k (hk.trans_lt hi'), hget l' hl' k (hk.trans_lt hj')]

section Chains
variable {hasher : BlockHasher}

section
variable (hinj : Function.Injective hasher.cachingHashFn) (hne : ∀ x, hasher.cachingHashFn x ≠ [])
  (hroot : ∀ x, hasher.cachingHashFn x ≠ hasher.noneHash)
include hinj hne hroot

theorem chainHash_depth {tokens tokens' : List TokenId} {keys keys' : ℕ → Option (List ExtraKey)}
    {i j : ℕ} (h : chainHash hasher tokens keys i = chainHash hasher tokens' keys' j) : i = j := by
  have hdigest : ∀ tokens keys n, ∃ x, chainHash hasher tokens keys n = hasher.cachingHashFn x :=
    fun tokens keys n => ⟨_, chainHash_eq hasher tokens keys n⟩
  have hparent : ∀ tokens keys n, (if chainHash hasher tokens keys n = [] then hasher.noneHash
      else chainHash hasher tokens keys n) = chainHash hasher tokens keys n := by
    intro tokens keys n
    rcases hdigest tokens keys n with ⟨x, hx⟩
    rw [hx, if_neg (hne x)]
  induction i generalizing j with
  | zero =>
    cases j with
    | zero => rfl
    | succ j =>
      have hhead := congrArg HashInput.parent (hinj h)
      simp only [hparent] at hhead
      rcases hdigest tokens' keys' j with ⟨x, hx⟩
      exact absurd (hx.symm.trans hhead.symm) (hroot x)
  | succ i ih =>
    cases j with
    | zero =>
      have hhead := congrArg HashInput.parent (hinj h)
      simp only [hparent] at hhead
      rcases hdigest tokens keys i with ⟨x, hx⟩
      exact absurd (hx.symm.trans hhead) (hroot x)
    | succ j =>
      have hhead := congrArg HashInput.parent (hinj h)
      simp only [hparent] at hhead
      exact congrArg (· + 1) (ih hhead)

/-- The hashes of a request stand for prefixes, whatever the requests are. -/
theorem prefixHashes_hashesUpTo {lists : List (List BlockHash)}
    (h : ∀ l ∈ lists, ∃ tokens keys n, l = hashesUpTo hasher tokens keys n) :
    PrefixHashes lists := by
  have hget : ∀ tokens keys n k, (hashesUpTo hasher tokens keys n)[k]? =
      if k < n then some (chainHash hasher tokens keys k) else none := by
    intro tokens keys n k
    rw [hashesUpTo, List.getElem?_map]
    split_ifs with hk
    · rw [List.getElem?_range hk, Option.map_some]
    · rw [List.getElem?_eq_none (by simpa using hk), Option.map_none]
  intro l hl l' hl' i j hash hi hj
  rcases h l hl with ⟨tokens, keys, n, rfl⟩
  rcases h l' hl' with ⟨tokens', keys', n', rfl⟩
  rw [hget] at hi hj
  split_ifs at hi hj with hin hjn
  have hsame := (Option.some.inj hi).trans (Option.some.inj hj).symm
  obtain rfl := chainHash_depth hinj hne hroot hsame
  have hblocks := chainHash_injective hinj hne hsame
  refine ⟨rfl, fun k hk => ?_⟩
  rw [hget, hget, if_pos (by omega), if_pos (by omega)]
  exact congrArg some (chainHash_congr hasher fun j hj => hblocks j (hj.trans hk))

/-- However they have been hashed, any number of requests agree on what a hash stands for: one
block, and all the blocks before it. -/
theorem requestHashes_prefixHashes {requests : List Request}
    (hhashed : ∀ r ∈ requests, ∃ listed, Hashed hasher r listed) :
    PrefixHashes (requests.map Request.blockHashes) := by
  apply prefixHashes_hashesUpTo hinj hne hroot
  intro l hl
  rcases mem_map.mp hl with ⟨r, hr, rfl⟩
  rcases hhashed r hr with ⟨listed, h⟩
  exact ⟨_, _, _, h.chain.2⟩

end

/-- The adapter's request after one call of the hasher and after two. -/
theorem requestHashes_prefixHashes_adapters :
    let hasher := unaryHasher 2 Nat.two_pos
    let keys := some [ExtraKey.str "tenant"]
    PrefixHashes [(adapterRequest.hashedFirst hasher keys).blockHashes,
      (adapterRequest.hashedTwice hasher keys).blockHashes] := by
  intro hasher keys
  have hne : ∀ x, hasher.cachingHashFn x ≠ [] := by simp [hasher, unaryHasher]
  have hsorted : SortedFeatures adapterRequest.mmFeatures := .nil
  have hcall : adapterRequest.updateBlockHashes (some hasher) =
    .ok (adapterRequest.hashedFirst hasher keys) := rfl
  have hfirst := Hashed.call (.new rfl fun _ => visible adapterRequest.mmFeatures) (prefix_refl _)
    rfl rfl rfl rfl hsorted hcall
  have htwice := hfirst.append hsorted (show (adapterRequest.hashedFirst hasher
    keys).appendOutputTokenIds (some hasher) [9, 10] =
      .ok (adapterRequest.hashedTwice hasher keys) from rfl)
  show PrefixHashes ([adapterRequest.hashedFirst hasher keys,
    adapterRequest.hashedTwice hasher keys].map Request.blockHashes)
  apply requestHashes_prefixHashes (unaryHasher_injective _) hne hne
  intro r hr
  simp only [mem_cons, not_mem_nil, or_false] at hr
  rcases hr with rfl | rfl
  · exact ⟨_, hfirst⟩
  · exact htwice

end Chains

section Examples
open SeenRequest CacheHit

/-- A block for each of the hashes, in group 0. -/
def mapOf : List BlockHash → BlockHashToBlockMap
  | [] => .empty
  | hash :: rest => (mapOf rest).insert (makeBlockHashWithGroupId hash 0) (rest.length + 1)

def poolOf (hashes : List BlockHash) : BlockPool where
  numGpuBlocks := 16
  enableCaching := true
  hashBlockSize := 2
  refCnt _ := 0
  blockHash _ := none
  freeBlockQueue := FreeKVCacheBlockQueue.init (List.range 16)
  cachedBlockHashToBlock := mapOf hashes
  nullBlock := 0
  enableKvCacheEvents := false
  kvEventQueue := []
  useIntBlockHashes := false
  sha256 := id

theorem mapOf_noEmptyDict (hashes : List BlockHash) : (mapOf hashes).NoEmptyDict := by
  induction hashes with
  | nil =>
    intro key blocks hget
    cases hget
  | cons hash rest ih => exact ih.insert _ _

theorem mapOf_stored (hashes : List BlockHash) (hash : BlockHash) :
    (∃ block, (mapOf hashes).Stored (makeBlockHashWithGroupId hash 0) block) ↔ hash ∈ hashes := by
  induction hashes with
  | nil =>
    refine iff_of_false ?_ not_mem_nil
    rintro ⟨block, hstored⟩
    exact hstored
  | cons head rest ih =>
    simp only [mapOf, stored_insert, exists_or, exists_and_left, exists_eq, and_true, mem_cons]
    refine or_congr ?_ ih
    rw [makeBlockHashWithGroupId, makeBlockHashWithGroupId, BlockHashWithGroupId.mk.injEq]
    exact and_iff_left rfl

theorem getOneBlock_iff {map : BlockHashToBlockMap} (hmap : map.NoEmptyDict)
    (key : BlockHashWithGroupId) : (∃ block, map.getOneBlock key = .ok (some block)) ↔
      ∃ block, map.Stored key block := by
  constructor
  · rintro ⟨block, hblock⟩
    exact ⟨block, PoolInv.getOneBlock_stored hblock⟩
  · rintro ⟨block, hstored⟩
    unfold Stored at hstored
    unfold getOneBlock
    cases hget : map.cache.get? key with
    | none =>
      rw [hget] at hstored
      exact hstored.elim
    | some entry =>
      cases entry with
      | single other => exact ⟨other, rfl⟩
      | dict blocks =>
        cases hkeys : blocks.keys with
        | nil =>
          have hempty := hmap key blocks hget
          rw [Dict.isEmpty, map_eq_nil_iff.mp hkeys] at hempty
          simp at hempty
        | cons head rest => exact ⟨head, by simp only [hkeys]; rfl⟩

theorem holds_poolOf (r : SeenRequest) (listed : List ℕ) {indices : SeenRequest → ℕ → Prop}
    (h : ∀ i, indices r i ↔ i ∈ listed) :
    Holds (poolOf (listed.filterMap fun i => r.blockHashes[i]?)) [0] (HashesOf [r] indices) := by
  refine ⟨mapOf_noEmptyDict _, fun hash g hg => ?_⟩
  cases mem_singleton.mp hg
  refine (getOneBlock_iff (mapOf_noEmptyDict _) _).trans ((mapOf_stored _ _).trans ?_)
  simp only [mem_filterMap, HashesOf, mem_singleton, exists_eq_left, h]

/-- The pool with the blocks of a request that are registered. -/
def registeredPool (c : KVCacheCoordinator) (m : SingleTypeKVCacheManager) (w : ℕ)
    (retentionInterval : Option ℕ) (r : SeenRequest) : BlockPool :=
  poolOf ((r.registered c m w retentionInterval).filterMap fun i => r.blockHashes[i]?)

theorem holds_registeredPool (c : KVCacheCoordinator) (m : SingleTypeKVCacheManager) (w : ℕ)
    (retentionInterval : Option ℕ) (r : SeenRequest) :
    Holds (registeredPool c m w retentionInterval r) [0] (Registered c m w retentionInterval [r]) :=
  holds_poolOf r _ fun _ => Iff.rfl

/-- Blocks of two tokens, and segments of `tokens` tokens. -/
def pairCoordinator (tokens : ℕ) : KVCacheCoordinator where
  kind := .hybrid []
  enableCaching := true
  schedulerBlockSize := tokens
  hashBlockSize := 2
  dcpWorldSize := 1
  pcpWorldSize := 1
  blockPool := poolOf []
  eagleGroupIds := []
  singleTypeManagers := []
  retentionInterval := none

def pairManager (w tokens : ℕ) (useEagle : Bool) : SingleTypeKVCacheManager where
  kvCacheSpec := ⟨.slidingWindow w, 2, 0, Nat.two_pos⟩
  enableCaching := true
  kvCacheGroupId := 0
  schedulerBlockSize := tokens
  useEagle := useEagle

theorem windowSetting_pair (w per : ℕ) (useEagle : Bool) (hper : 0 < per) :
    WindowSetting (pairCoordinator (per * 2)) (pairManager w (per * 2) useEagle) w per where
  hybrid := ⟨[], rfl⟩
  kind := rfl
  blockSize := rfl
  scheduler := rfl
  segment := rfl
  pos := hper

/-- A request that has computed `numTokens` tokens. -/
def countingRequest (numTokens : ℕ) : SeenRequest where
  blockHashes := (List.range (numTokens / 2)).map fun i => [i.toUInt8]
  numPromptTokens := numTokens
  computed := [numTokens]

/-- The pool with all full blocks of the request. -/
def fullPool (numTokens : ℕ) : BlockPool :=
  poolOf ((List.range (numTokens / 2)).filterMap fun i =>
    (countingRequest numTokens).blockHashes[i]?)

theorem holds_fullPool (w tokens numTokens : ℕ) (useEagle : Bool) :
    Holds (fullPool numTokens) [0] (HashesOf [countingRequest numTokens]
      fun r i => r.Full (pairManager w tokens useEagle) i) := by
  apply holds_poolOf
  intro i
  simp only [SeenRequest.Full, countingRequest, mem_singleton, exists_eq_left, mem_range]
  exact Iff.rfl

theorem prefixHashes_counting {numTokens : ℕ}
    (hnodup : (countingRequest numTokens).blockHashes.Nodup) :
    PrefixHashes [(countingRequest numTokens).blockHashes,
      (countingRequest numTokens).blockHashes] :=
  prefixHashes_of_nodup hnodup (by simp)

end Examples

section Lookup
variable {pool : BlockPool} {groupIds : List ℕ} {history : List SeenRequest}
  {blockHashes : List BlockHash} {c : KVCacheCoordinator} {m : SingleTypeKVCacheManager}
  {w per maxLength : ℕ}

open SeenRequest CacheHit

/-- With dense retention the lookup finds a hit of the same length as with all full blocks, unless
the window needs no block, EAGLE peeks at none and a segment was seen. -/
theorem windowLookup_dense_iff (h : WindowSetting c m w per) (hne : groupIds ≠ [])
    (hpre : PrefixHashes (blockHashes :: history.map SeenRequest.blockHashes))
    {masked full : BlockPool} (hmasked : Holds masked groupIds (Registered c m w none history))
    (hfull : Holds full groupIds (HashesOf history fun r i => r.Full m i))
    (hlen : maxLength / m.kvCacheSpec.blockSize ≤ blockHashes.length) :
    ∃ rows rows', windowLookup masked blockHashes maxLength groupIds m = .ok rows ∧
      windowLookup full blockHashes maxLength groupIds m = .ok rows' ∧
      (rows.length = rows'.length ↔
        m.useEagle = true ∨ 1 < w ∨ ¬SegmentSeen m history blockHashes maxLength) := by
  rcases windowLookup_length h hmasked.noEmptyDict hlen groupIds with ⟨rows, hrows, hlength⟩
  rcases windowLookup_length h hfull.noEmptyDict hlen groupIds with ⟨rows', hrows', hlength'⟩
  refine ⟨rows, rows', hrows, hrows', ?_⟩
  rw [hlength, hlength']
  have hbs := m.kvCacheSpec.blockSize_pos
  have hall := cachedAt_holds hne hfull hpre
  -- a block is kept or not whatever request it belongs to
  have hkept : ∀ i, cachedAt masked blockHashes groupIds i = true ↔
      keeps (cdiv (w - 1) m.kvCacheSpec.blockSize + if m.useEagle then 1 else 0)
        (if m.useEagle then 1 else 0) (some per) none i = true ∧
      ∃ r ∈ history, i < (r.calls c m w none).1 ∧ r.Shares blockHashes i := by
    intro i
    rw [cachedAt_holds hne hmasked hpre]
    simp only [SeenRequest.registered, (callsInv c m w none _).mem_iff, h.keepsBlock_dense,
      Nat.zero_le, true_and]
    constructor
    · rintro ⟨r, hr, ⟨hlt, hkeep⟩, hshares⟩
      exact ⟨hkeep, r, hr, hlt, hshares⟩
    · rintro ⟨hkeep, r, hr, hlt, hshares⟩
      exact ⟨r, hr, ⟨hlt, hkeep⟩, hshares⟩
  have hpos := cdiv_pos_iff hbs (w - 1)
  by_cases hneed : 0 < cdiv (w - 1) m.kvCacheSpec.blockSize ∨ m.useEagle = true
  · refine iff_of_true ?_ ?_
    · refine windowHitLength_dense hbs h.pos hneed hkept (fun i hi => ?_)
        fun e hend hnz hcached j hj => ?_
      · rcases (hkept i).mp hi with ⟨-, r, hr, hlt, hshares⟩
        exact (hall i).mpr ⟨r, hr, h.full_of_lt hlt, hshares⟩
      · rcases (hall e).mp hcached with ⟨r, hr, hfulle, hshares⟩
        exact ⟨r, hr, h.reached hend hnz hfulle hj, hshares.mono hpre hr hj⟩
    · rcases hneed with hk | heagle
      · right
        left
        rw [hpos] at hk
        omega
      · exact .inl heagle
  · rw [not_or, not_lt, le_zero, Bool.not_eq_true] at hneed
    rcases hneed with ⟨hwindow, heagle⟩
    have hnone : cachedAt masked blockHashes groupIds = fun _ => false := by
      funext i
      rw [Bool.eq_false_iff]
      intro hi
      have hkeep := ((hkept i).mp hi).1
      rw [heagle, hwindow] at hkeep
      simp only [Bool.false_eq_true, ↓reduceIte, add_zero] at hkeep
      rw [keeps_zero (fun P hP => (by cases hP; exact h.pos))] at hkeep
      cases hkeep
    have hsmall : ¬1 < w := by
      intro hw
      have hk := hpos.mpr (by omega)
      omega
    rw [hnone, hitLength_false, eq_comm, hitLength_zero_iff h heagle hwindow hpre hall, heagle]
    simp [hsmall]

theorem tailOfSegment_dense_iff : ∃ rows rows',
    windowLookup (registeredPool (pairCoordinator 4) (pairManager 3 4 false) 3 none
        (countingRequest 8)) (countingRequest 8).blockHashes 7 [0] (pairManager 3 4 false) =
      .ok rows ∧
    windowLookup (fullPool 8) (countingRequest 8).blockHashes 7 [0] (pairManager 3 4 false) =
      .ok rows' ∧
    (rows.length = rows'.length ↔ (pairManager 3 4 false).useEagle = true ∨ 1 < 3 ∨
      ¬SegmentSeen (pairManager 3 4 false) [countingRequest 8] (countingRequest 8).blockHashes 7) :=
  windowLookup_dense_iff (windowSetting_pair 3 2 false two_pos) (by decide)
    (prefixHashes_counting (by decide)) (holds_registeredPool _ _ _ _ _) (holds_fullPool _ _ _ _)
    (by decide)

/-- A window of one token: the mask keeps no block, but the lookup takes any run of one block. -/
theorem oneTokenWindow_dense_shorter :
    PrefixHashes [(countingRequest 4).blockHashes, (countingRequest 4).blockHashes] ∧
    Holds (registeredPool (pairCoordinator 4) (pairManager 1 4 false) 1 none
      (countingRequest 4)) [0]
      (Registered (pairCoordinator 4) (pairManager 1 4 false) 1 none [countingRequest 4]) ∧
    Holds (fullPool 4) [0] (HashesOf [countingRequest 4]
      fun r i => r.Full (pairManager 1 4 false) i) ∧
    windowLookup (registeredPool (pairCoordinator 4) (pairManager 1 4 false) 1 none
      (countingRequest 4)) (countingRequest 4).blockHashes 4 [0] (pairManager 1 4 false) = .ok [] ∧
    ∃ rows, windowLookup (fullPool 4) (countingRequest 4).blockHashes 4 [0]
      (pairManager 1 4 false) = .ok rows ∧ rows.length = 2 := by
  refine ⟨prefixHashes_counting (by decide), holds_registeredPool _ _ _ _ _, holds_fullPool _ _ _ _,
    ?_, ?_⟩
  · rcases exists_ok (show (windowLookup (registeredPool (pairCoordinator 4)
      (pairManager 1 4 false) 1 none (countingRequest 4)) (countingRequest 4).blockHashes 4 [0]
      (pairManager 1 4 false)).toOption.map id = some [] by decide +kernel) with ⟨rows, hrows, rfl⟩
    exact hrows
  · exact exists_ok (by decide +kernel)

/-- A later request with the same prompt: the lookup stops before the last token. -/
structure Replay (m : SingleTypeKVCacheManager) (r : SeenRequest) (blockHashes : List BlockHash) :
    Prop where
  prompt : 0 < r.numPromptTokens
  prefilled : ∃ numComputedTokens ∈ r.computed, r.numPromptTokens ≤ numComputedTokens
  hashes : r.numPromptTokens / m.kvCacheSpec.blockSize ≤ r.blockHashes.length
  lookup : blockHashes = r.blockHashes.take (r.numPromptTokens / m.kvCacheSpec.blockSize)

theorem Replay.le_length {r : SeenRequest} (h : Replay m r blockHashes) :
    (r.numPromptTokens - 1) / m.kvCacheSpec.blockSize ≤ blockHashes.length := by
  rw [h.lookup, length_take, min_eq_left h.hashes]
  exact Nat.div_le_div_right (Nat.sub_le _ _)

theorem Replay.cachedAt_iff {r : SeenRequest} (h : Replay m r blockHashes) (hne : groupIds ≠ [])
    (hpre : PrefixHashes [blockHashes, r.blockHashes]) {retentionInterval : Option ℕ}
    (hpool : Holds pool groupIds (Registered c m w retentionInterval [r])) {i : ℕ}
    (hi : i < (r.numPromptTokens - 1) / m.kvCacheSpec.blockSize) :
    cachedAt pool blockHashes groupIds i = true ↔
      m.keepsBlock w retentionInterval r.numPromptTokens i = true ∧
        i < (r.calls c m w retentionInterval).1 := by
  rw [cachedAt_holds hne hpool hpre]
  simp only [mem_singleton, exists_eq_left, SeenRequest.registered,
    (callsInv c m w retentionInterval r).mem_iff, Nat.zero_le, true_and]
  have hlt := hi.trans_le h.le_length
  have hshares : r.Shares blockHashes i := by
    refine ⟨blockHashes[i], List.getElem?_eq_getElem hlt, ?_⟩
    rw [← List.getElem?_eq_getElem hlt, h.lookup, List.getElem?_take_of_lt]
    exact hi.trans_le (Nat.div_le_div_right (Nat.sub_le _ _))
  constructor
  · rintro ⟨⟨hcalls, hkeep⟩, -⟩
    exact ⟨hkeep, hcalls⟩
  · rintro ⟨hkeep, hcalls⟩
    exact ⟨⟨hcalls, hkeep⟩, hshares⟩

/-- What sparse retention keeps for a replay: `M` full blocks lie before the last token. -/
theorem SeenRequest.WindowSetting.keepsBlock_sparse (h : WindowSetting c m w per) (interval : ℕ)
    (numPromptTokens i : ℕ) : m.keepsBlock w (some interval) numPromptTokens i =
      keeps (cdiv (w - 1) m.kvCacheSpec.blockSize + if m.useEagle then 1 else 0)
        (if m.useEagle then 1 else 0)
        ((segmentTokens m.schedulerBlockSize (some interval)).map (· / m.kvCacheSpec.blockSize))
        (some ((numPromptTokens - 1) / m.kvCacheSpec.blockSize / per * per +
          if m.useEagle then 1 else 0)) i := by
  rw [SingleTypeKVCacheManager.keepsBlock, SingleTypeKVCacheManager.replayStop, Option.map_some,
    h.segments]
  rfl

/-- The calls reach the last boundary before the end of the prompt, and with EAGLE the block behind
it if it is full. -/
theorem Replay.reached {r : SeenRequest} (hreplay : Replay m r blockHashes)
    (h : WindowSetting c m w per) {retentionInterval : Option ℕ} {j : ℕ}
    (hj : j < (r.numPromptTokens - 1) / m.kvCacheSpec.blockSize / per * per ∨
      m.useEagle = true ∧ 0 < (r.numPromptTokens - 1) / m.kvCacheSpec.blockSize / per ∧
      j ≤ (r.numPromptTokens - 1) / m.kvCacheSpec.blockSize / per * per ∧
      j < (r.numPromptTokens - 1) / m.kvCacheSpec.blockSize) :
    j < (r.calls c m w retentionInterval).1 := by
  rcases hreplay.prefilled with ⟨n, hn, hle⟩
  refine lt_of_lt_of_le ?_ ((callsInv c m w retentionInterval r).reached n hn)
  have hblocks : (r.numPromptTokens - 1) / m.kvCacheSpec.blockSize ≤ n / m.kvCacheSpec.blockSize :=
    Nat.div_le_div_right (by omega)
  have hsegments := Nat.div_le_div_right (c := per) hblocks
  have htokens := mul_le_mul_right per hsegments
  have hfloor := div_mul_le_self (n / m.kvCacheSpec.blockSize) per
  rw [h.cached_eq, h.blockSize]
  rcases hj with hlt | ⟨heagle, hpos, hle', hlt⟩
  · split_ifs <;> omega
  · rw [if_pos ⟨heagle, hpos.trans_le hsegments⟩]
    omega

theorem Replay.hitLength_eq {r : SeenRequest} (hreplay : Replay m r blockHashes)
    (hne : groupIds ≠ []) (hpre : PrefixHashes [blockHashes, r.blockHashes])
    {retentionInterval : Option ℕ}
    (hpool : Holds pool groupIds (Registered c m w retentionInterval [r])) :
    hitLength m w per ((r.numPromptTokens - 1) / m.kvCacheSpec.blockSize)
        (cachedAt pool blockHashes groupIds) =
      hitLength m w per ((r.numPromptTokens - 1) / m.kvCacheSpec.blockSize) fun i =>
        m.keepsBlock w retentionInterval r.numPromptTokens i &&
          decide (i < (r.calls c m w retentionInterval).1 ∧
            i < (r.numPromptTokens - 1) / m.kvCacheSpec.blockSize) := by
  apply windowHitLength_congr
  intro j hj
  rw [Bool.eq_iff_iff, hreplay.cachedAt_iff hne hpre hpool hj]
  simp [hj]

theorem Replay.hitLength_dense {r : SeenRequest} (hreplay : Replay m r blockHashes)
    (h : WindowSetting c m w per) (hne : groupIds ≠ [])
    (hpre : PrefixHashes [blockHashes, r.blockHashes])
    (hpool : Holds pool groupIds (Registered c m w none [r]))
    (hneed : 0 < cdiv (w - 1) m.kvCacheSpec.blockSize ∨ m.useEagle = true) :
    hitLength m w per ((r.numPromptTokens - 1) / m.kvCacheSpec.blockSize)
        (cachedAt pool blockHashes groupIds) =
      hitLength m w per ((r.numPromptTokens - 1) / m.kvCacheSpec.blockSize) fun _ => true := by
  set M := (r.numPromptTokens - 1) / m.kvCacheSpec.blockSize with hM
  have htrue : hitLength m w per M (fun _ => true) = hitLength m w per M fun i => decide (i < M) :=
    windowHitLength_congr fun j hj => by simp [hj]
  rw [hreplay.hitLength_eq hne hpre hpool, htrue, ← hM]
  refine windowHitLength_dense m.kvCacheSpec.blockSize_pos h.pos hneed
    (fun j => by rw [Bool.and_eq_true, decide_eq_true_eq, h.keepsBlock_dense])
    (fun j hj => by simp only [Bool.and_eq_true, decide_eq_true_eq] at hj ⊢; exact hj.2.2)
    fun e hend hnz hfull j hj => ?_
  rw [decide_eq_true_eq] at hfull
  rcases hreplay.prefilled with ⟨n, hn, hle⟩
  refine ⟨h.reached hend hnz ⟨n, hn, ?_⟩ hj, by omega⟩
  rw [h.blockSize]
  exact hfull.trans_le (Nat.div_le_div_right (by omega))

/-- A replay of a prompt finds with sparse retention what it finds with dense retention: always
without EAGLE, and with EAGLE if the tail of the boundary that it may end at is kept. -/
theorem windowLookup_replay_iff (h : WindowSetting c m w per) (hne : groupIds ≠ [])
    {r : SeenRequest} (hreplay : Replay m r blockHashes)
    (hpre : PrefixHashes [blockHashes, r.blockHashes]) {interval : ℕ}
    (hinterval : interval % m.schedulerBlockSize = 0) {sparse dense : BlockPool}
    (hsparse : Holds sparse groupIds (Registered c m w (some interval) [r]))
    (hdense : Holds dense groupIds (Registered c m w none [r])) :
    ∃ rows rows', windowLookup sparse blockHashes (r.numPromptTokens - 1) groupIds m = .ok rows ∧
      windowLookup dense blockHashes (r.numPromptTokens - 1) groupIds m = .ok rows' ∧
      (rows.length = rows'.length ↔ (m.useEagle = true →
        ReplayKept (cdiv (w - 1) m.kvCacheSpec.blockSize) per
          ((r.numPromptTokens - 1) / m.kvCacheSpec.blockSize)
          ((segmentTokens m.schedulerBlockSize (some interval)).map
            (· / m.kvCacheSpec.blockSize)))) := by
  rcases windowLookup_length h hsparse.noEmptyDict hreplay.le_length groupIds with
    ⟨rows, hrows, hlength⟩
  rcases windowLookup_length h hdense.noEmptyDict hreplay.le_length groupIds with
    ⟨rows', hrows', hlength'⟩
  refine ⟨rows, rows', hrows, hrows', ?_⟩
  rw [hlength, hlength', hreplay.hitLength_eq hne hpre hsparse]
  have hbs := m.kvCacheSpec.blockSize_pos
  set M := (r.numPromptTokens - 1) / m.kvCacheSpec.blockSize with hM
  cases heagle : m.useEagle with
  | true =>
    rw [hreplay.hitLength_dense h hne hpre hdense (.inr heagle), ← hM]
    simp only [forall_const]
    rw [hitLength, hitLength, heagle]
    have hregistered : ∀ j < M, 0 < M / per → j ≤ M / per * per →
        j < (r.calls c m w (some interval)).1 ∧ j < M := fun j hj hpos hle =>
      ⟨hreplay.reached h (.inr ⟨heagle, hpos, hle, hj⟩), hj⟩
    refine windowHitLength_replay_eagle_iff hbs h.pos (fun j hj => ?_) hregistered
    rw [Bool.and_eq_true, decide_eq_true_eq, h.keepsBlock_sparse, heagle]
    rfl
  | false =>
    refine iff_of_true ?_ fun hno => by cases hno
    rcases Nat.eq_zero_or_pos (cdiv (w - 1) m.kvCacheSpec.blockSize) with hwindow | hwindow
    · have hsegment : ∀ P ∈ (segmentTokens m.schedulerBlockSize (some interval)).map
          (· / m.kvCacheSpec.blockSize), 0 < P := by
        intro P hP
        cases interval with
        | zero => cases hP
        | succ n =>
          cases hP
          rw [Nat.div_pos_iff]
          refine ⟨hbs, le_trans ?_ (Nat.le_of_dvd (Nat.succ_pos n)
            (Nat.dvd_of_mod_eq_zero hinterval))⟩
          rw [h.segment]
          exact Nat.le_mul_of_pos_left _ h.pos
      have hdenseSegment : ∀ P ∈ some per, 0 < P := by
        intro P hP
        cases hP
        exact h.pos
      rw [hreplay.hitLength_eq hne hpre hdense, ← hM]
      simp only [h.keepsBlock_sparse, h.keepsBlock_dense, heagle, hwindow, Bool.false_eq_true,
        ↓reduceIte, add_zero, keeps_zero hsegment, keeps_zero hdenseSegment, Bool.false_and]
    · rw [hreplay.hitLength_dense h hne hpre hdense (.inl hwindow), ← hM, hitLength, hitLength,
        heagle]
      have hregistered : ∀ j < M / per * per, j < (r.calls c m w (some interval)).1 ∧ j < M :=
        fun j hj => ⟨hreplay.reached h (.inl hj), hj.trans_le (div_mul_le_self _ _)⟩
      have hkept : ∀ j < M, (m.keepsBlock w (some interval) r.numPromptTokens j &&
          decide (j < (r.calls c m w (some interval)).1 ∧ j < M)) = true ↔
          keeps (cdiv (w - 1) m.kvCacheSpec.blockSize) 0
            ((segmentTokens m.schedulerBlockSize (some interval)).map
              (· / m.kvCacheSpec.blockSize)) (some (M / per * per)) j = true ∧
          j < (r.calls c m w (some interval)).1 ∧ j < M := by
        intro j hj
        rw [Bool.and_eq_true, decide_eq_true_eq, h.keepsBlock_sparse, heagle]
        rfl
      exact windowHitLength_replay_window hbs h.pos hwindow hkept hregistered

theorem replay_counting (w tokens : ℕ) (useEagle : Bool) {numTokens : ℕ} (hpos : 0 < numTokens) :
    Replay (pairManager w tokens useEagle) (countingRequest numTokens)
      (countingRequest numTokens).blockHashes := by
  have hlength : (countingRequest numTokens).blockHashes.length = numTokens / 2 := by
    rw [countingRequest, length_map, length_range]
  refine ⟨hpos, ⟨numTokens, mem_singleton_self _, le_rfl⟩, hlength.symm.le, ?_⟩
  exact (take_of_length_le hlength.le).symm

theorem eagleReplay_iff : ∃ rows rows',
    windowLookup (registeredPool (pairCoordinator 8) (pairManager 2 8 true) 2 (some 0)
        (countingRequest 19)) (countingRequest 19).blockHashes (19 - 1) [0] (pairManager 2 8 true) =
      .ok rows ∧
    windowLookup (registeredPool (pairCoordinator 8) (pairManager 2 8 true) 2 none
        (countingRequest 19)) (countingRequest 19).blockHashes (19 - 1) [0] (pairManager 2 8 true) =
      .ok rows' ∧
    (rows.length = rows'.length ↔ ((pairManager 2 8 true).useEagle = true →
      ReplayKept (cdiv (2 - 1) 2) 4 ((19 - 1) / 2)
        ((segmentTokens 8 (some 0)).map (· / 2)))) :=
  windowLookup_replay_iff (windowSetting_pair 2 4 true (by decide)) (by decide)
    (replay_counting _ _ _ (by decide)) (prefixHashes_counting (by decide)) (by decide)
    (holds_registeredPool _ _ _ _ _) (holds_registeredPool _ _ _ _ _)

/-- The boundary lies at 16 tokens, and the block behind it is not full for a prompt of 17 tokens:
dense retention falls back to the boundary at 8 tokens, sparse retention has not kept it. -/
theorem eagleReplay_sparse_shorter :
    Replay (pairManager 2 8 true) (countingRequest 17) (countingRequest 17).blockHashes ∧
    PrefixHashes [(countingRequest 17).blockHashes, (countingRequest 17).blockHashes] ∧
    Holds (registeredPool (pairCoordinator 8) (pairManager 2 8 true) 2 (some 0)
      (countingRequest 17)) [0]
      (Registered (pairCoordinator 8) (pairManager 2 8 true) 2 (some 0) [countingRequest 17]) ∧
    Holds (registeredPool (pairCoordinator 8) (pairManager 2 8 true) 2 none
      (countingRequest 17)) [0]
      (Registered (pairCoordinator 8) (pairManager 2 8 true) 2 none [countingRequest 17]) ∧
    windowLookup (registeredPool (pairCoordinator 8) (pairManager 2 8 true) 2 (some 0)
      (countingRequest 17)) (countingRequest 17).blockHashes (17 - 1) [0] (pairManager 2 8 true) =
      .ok [] ∧
    ∃ rows, windowLookup (registeredPool (pairCoordinator 8) (pairManager 2 8 true) 2 none
      (countingRequest 17)) (countingRequest 17).blockHashes (17 - 1) [0] (pairManager 2 8 true) =
      .ok rows ∧ rows.length = 4 := by
  refine ⟨replay_counting _ _ _ (by decide), prefixHashes_counting (by decide),
    holds_registeredPool _ _ _ _ _, holds_registeredPool _ _ _ _ _, ?_, ?_⟩
  · rcases exists_ok (show (windowLookup (registeredPool (pairCoordinator 8)
      (pairManager 2 8 true) 2 (some 0) (countingRequest 17)) (countingRequest 17).blockHashes
      (17 - 1) [0] (pairManager 2 8 true)).toOption.map id = some [] by decide +kernel) with
      ⟨rows, hrows, rfl⟩
    exact hrows
  · exact exists_ok (by decide +kernel)

end Lookup

section Books
variable {pool pool' : BlockPool} {m m' : SingleTypeKVCacheManager} {request : Request} {w : ℕ}
  {retentionInterval : Option ℕ}

/-- Some block is stored under the key. -/
def BlockPool.HasKey (pool : BlockPool) (key : BlockHashWithGroupId) : Prop :=
  ∃ block, pool.cachedBlockHashToBlock.Stored key block

theorem cacheLoop_hasKey {groupId : ℕ} {items : List (BlockId × Option BlockHash × Option Bool)}
    (hr : BlockPool.cacheLoop groupId pool items = .ok pool') (key : BlockHashWithGroupId) :
    pool'.HasKey key ↔ pool.HasKey key ∨ key.groupId = groupId ∧ ∃ item ∈ items,
      pool.cacheable item.1 item.2.2 = true ∧ item.2.1 = some key.blockHash := by
  induction items generalizing pool with
  | nil =>
    cases hr
    simp
  | cons item items ih =>
    rcases item with ⟨block, blockHash, mask⟩
    simp only [BlockPool.cacheLoop] at hr
    split_ifs at hr with hcache
    · simp only [bind_eq_ok, require_eq_ok] at hr
      rcases hr with ⟨-, -, hr⟩
      cases blockHash with
      | none => cases hr
      | some hash =>
        have hrest := ih hr
        rw [hrest]
        have hhead : ({ pool with
            blockHash := Function.update pool.blockHash block
              (some (makeBlockHashWithGroupId hash groupId))
            cachedBlockHashToBlock := pool.cachedBlockHashToBlock.insert
              (makeBlockHashWithGroupId hash groupId) block } : BlockPool).HasKey key ↔
            (key.groupId = groupId ∧ hash = key.blockHash) ∨ pool.HasKey key := by
          simp only [BlockPool.HasKey, stored_insert, exists_or,
            exists_and_left, exists_eq, and_true]
          apply or_congr_left
          cases key
          rw [makeBlockHashWithGroupId, BlockHashWithGroupId.mk.injEq, and_comm]
          exact and_congr_right fun _ => eq_comm
        rw [hhead]
        simp only [mem_cons, exists_eq_or_imp, hcache, true_and, Option.some.injEq]
        tauto
    · rw [ih hr]
      simp only [mem_cons, exists_eq_or_imp, hcache, Bool.false_eq_true, false_and, false_or]

variable {blockSize : ℕ} {blocks : List BlockId} {mask : Option (List Bool)}

theorem mem_cacheItems_iff {start stop : ℕ} (hlen : stop ≤ blocks.length)
    (hmask : ∀ l ∈ mask, l.length = (slice blocks start stop).length)
    (hnull : ∀ i, start ≤ i → i < stop → maskAllows mask start i = true →
      blocks[i]? ≠ some pool.nullBlock) (hash : BlockHash) :
    (∃ item ∈ pool.cacheItems request blocks start stop blockSize mask,
        pool.cacheable item.1 item.2.2 = true ∧ item.2.1 = some hash) ↔
      ∃ i, start ≤ i ∧ i < stop ∧ maskAllows mask start i = true ∧
        (pool.requestHashes request blockSize)[i]? = some hash := by
  have hcount : (pool.cacheItems request blocks start stop blockSize mask).length = stop - start :=
    cacheItems_length hlen
  have hallows : ∀ i, i < stop - start → ((mask.bind fun l => l[i]?) ≠ some false ↔
      maskAllows mask start (start + i) = true) := by
    intro i hi
    cases mask with
    | none => simp [maskAllows]
    | some l =>
      have hlt : i < l.length := by
        rw [hmask l rfl, slice, length_take, length_drop]
        omega
      simp only [Option.bind_some, maskAllows, Option.all_some, Nat.add_sub_cancel_left,
        List.getElem?_eq_getElem hlt, ne_eq, Option.some.injEq, Bool.not_eq_false,
        getD_eq_getElem?_getD, Option.getD_some]
  constructor
  · rintro ⟨item, hitem, hcache, hhash⟩
    rcases mem_iff_getElem?.mp hitem with ⟨i, hget⟩
    have hi : i < stop - start := hcount ▸ (List.getElem?_eq_some_iff.mp hget).1
    rcases cacheItems_getElem? hget with ⟨hrequest, -, hentry⟩
    simp only [BlockPool.cacheable, decide_eq_true_eq] at hcache
    refine ⟨start + i, by omega, by omega, (hallows i hi).mp (hentry ▸ hcache.2), ?_⟩
    rw [← hrequest, hhash]
  · rintro ⟨i, hlow, hhigh, hallowed, hhash⟩
    have hi : i - start < stop - start := by omega
    rcases List.getElem?_eq_some_iff.mpr ⟨hcount.symm ▸ hi, rfl⟩ with hget
    rcases cacheItems_getElem? hget with ⟨hrequest, hblock, hentry⟩
    rw [Nat.add_sub_cancel' hlow] at hrequest
    refine ⟨_, mem_of_getElem? hget, ?_, by rw [hrequest, hhash]⟩
    simp only [BlockPool.cacheable, decide_eq_true_eq]
    constructor
    · intro hblock_null
      rw [hblock_null] at hblock
      rw [slice, getElem?_take, if_pos hi, getElem?_drop, Nat.add_sub_cancel' hlow] at hblock
      exact hnull i hlow hhigh hallowed hblock
    · rw [hentry, hallows _ hi, Nat.add_sub_cancel' hlow]
      exact hallowed

/-- What `cache_full_blocks` stores, if no block that the mask allows is null. -/
theorem cacheFullBlocks_hasKey {start stop groupId : ℕ} (hlt : start < stop)
    (hlen : stop ≤ blocks.length) (hnull : ∀ i, start ≤ i → i < stop →
      maskAllows mask start i = true → blocks[i]? ≠ some pool.nullBlock)
    (hr : pool.cacheFullBlocks request blocks start stop blockSize groupId mask = .ok pool')
    (key : BlockHashWithGroupId) : pool'.HasKey key ↔ pool.HasKey key ∨ key.groupId = groupId ∧
      ∃ i, start ≤ i ∧ i < stop ∧ maskAllows mask start i = true ∧
        (pool.requestHashes request blockSize)[i]? = some key.blockHash := by
  rw [BlockPool.cacheFullBlocks, if_neg (Nat.not_le_of_lt hlt)] at hr
  simp only [bind_eq_ok, require_eq_ok] at hr
  rcases hr with ⟨-, -, -, hmask, -, -, cached, hloop, hr⟩
  rw [← mem_cacheItems_iff hlen hmask hnull, ← cacheLoop_hasKey hloop key]
  by_cases hon : cached.enableKvCacheEvents = true
  · rw [if_neg (not_not.mpr hon), if_neg (Nat.not_lt_of_le hlen)] at hr
    simp only [bind_eq_ok, pure_eq_ok] at hr
    rcases hr with ⟨keys, -, rfl⟩
    exact Iff.rfl
  · rw [if_pos hon] at hr
    rw [pure_eq_ok.mp hr]

/-- The manager and its pool have the books of a request after some calls: how many of its blocks
count as cached, and which are registered beside what others have stored. -/
structure BooksOf (pool : BlockPool) (m : SingleTypeKVCacheManager) (requestId : RequestId)
    (others : BlockHashWithGroupId → Prop) (r : SeenRequest) (state : ℕ × List ℕ) : Prop where
  cached : m.numCachedBlock.getD requestId 0 = state.1
  stored : ∀ key, pool.HasKey key ↔ others key ∨ key.groupId = m.kvCacheGroupId ∧
    ∃ i ∈ state.2, r.blockHashes[i]? = some key.blockHash

/-- The blocks and hashes of the request are there for a call of `cache_blocks`: those so far are
those of `r`, and the blocks to keep are not null. -/
structure CallOf (c : KVCacheCoordinator) (w : ℕ) (retentionInterval : Option ℕ) (r : SeenRequest)
    (pool : BlockPool) (m : SingleTypeKVCacheManager) (request : Request) (numComputedTokens : ℕ) :
    Prop where
  prompt : request.numPromptTokens = r.numPromptTokens
  hashes : ∀ i < c.numTokensToCache m numComputedTokens / m.blockSize,
    (pool.requestHashes request m.blockSize)[i]? = r.blockHashes[i]?
  blocks : c.numTokensToCache m numComputedTokens / m.blockSize ≤
    (m.blocksOf request.requestId).length
  kept : ∀ i, m.keepsBlock w retentionInterval r.numPromptTokens i = true →
    m.numCachedBlock.getD request.requestId 0 ≤ i →
    (m.blocksOf request.requestId)[i]? ≠ some pool.nullBlock

/-- A call of `cache_blocks` does to the books what `cacheCall` says. -/
theorem BooksOf.cacheBlocks {c : KVCacheCoordinator} {others : BlockHashWithGroupId → Prop}
    {r : SeenRequest} {state : ℕ × List ℕ} {numComputedTokens : ℕ}
    (h : BooksOf pool m request.requestId others r state)
    (hkind : m.kvCacheSpec.kind = .slidingWindow w)
    (hcall : CallOf c w retentionInterval r pool m request numComputedTokens)
    (hr : m.cacheBlocks pool request (c.numTokensToCache m numComputedTokens) retentionInterval =
      .ok (m', pool')) :
    BooksOf pool' m' request.requestId others r
      (r.cacheCall c m w retentionInterval state numComputedTokens) ∧
    ∃ cached, m' = { m with numCachedBlock := cached } := by
  simp only [SingleTypeKVCacheManager.cacheBlocks, hkind,
    SingleTypeKVCacheManager.baseCacheBlocks, h.cached] at hr
  unfold SeenRequest.cacheCall
  dsimp only
  split_ifs at hr ⊢ with hge
  · cases hr
    exact ⟨h, _, rfl⟩
  · simp only [SingleTypeKVCacheManager.reachableBlockMask, hkind, bind_eq_ok,
      require_eq_ok, pure_eq_ok, Prod.mk.injEq] at hr
    rcases hr with ⟨mask, ⟨-, -, rfl⟩, pool₁, hcache, rfl, rfl⟩
    rw [hcall.prompt] at hcache
    refine ⟨⟨by simp [Dict.getD], fun key => ?_⟩, _, rfl⟩
    rw [cacheFullBlocks_hasKey (Nat.lt_of_not_le hge) hcall.blocks ?_ hcache, h.stored]
    · simp only [mem_append, mem_filter, mem_range'_1, or_and_right, exists_or]
      rw [or_assoc, ← and_or_left]
      apply or_congr_right
      apply and_congr_right
      intro _
      apply or_congr_right
      constructor
      · rintro ⟨i, hlow, hhigh, hallowed, hhash⟩
        exact ⟨i, ⟨⟨hlow, by omega⟩, hallowed⟩, hcall.hashes i hhigh ▸ hhash⟩
      · rintro ⟨i, ⟨⟨hlow, hhigh⟩, hallowed⟩, hhash⟩
        have hlt : i < c.numTokensToCache m numComputedTokens / m.blockSize := by omega
        exact ⟨i, hlow, hlt, hallowed, (hcall.hashes i hlt).trans hhash⟩
    · intro i hlow hhigh hallowed
      rw [SingleTypeKVCacheManager.maskAllows_slidingWindowMask hlow hhigh] at hallowed
      exact hcall.kept i hallowed (h.cached.le.trans hlow)

/-- Calls of `cache_blocks` for one request, with any changes of the tables in between. -/
inductive CacheRun (c : KVCacheCoordinator) (w : ℕ) (retentionInterval : Option ℕ)
    (r : SeenRequest) (requestId : RequestId) (pool : BlockPool) (m : SingleTypeKVCacheManager) :
    List ℕ → BlockPool → SingleTypeKVCacheManager → Prop
  | start : CacheRun c w retentionInterval r requestId pool m [] pool m
  | setTable {computed : List ℕ} {pool₁ : BlockPool} {m₁ : SingleTypeKVCacheManager}
      (h : CacheRun c w retentionInterval r requestId pool m computed pool₁ m₁)
      (reqToBlocks : Dict RequestId (List BlockId)) :
      CacheRun c w retentionInterval r requestId pool m computed pool₁ { m₁ with reqToBlocks }
  | call {computed : List ℕ} {pool₁ pool₂ : BlockPool} {m₁ m₂ : SingleTypeKVCacheManager}
      {request : Request} {numComputedTokens : ℕ}
      (h : CacheRun c w retentionInterval r requestId pool m computed pool₁ m₁)
      (hid : request.requestId = requestId)
      (hcall : CallOf c w retentionInterval r pool₁ m₁ request numComputedTokens)
      (hr : m₁.cacheBlocks pool₁ request (c.numTokensToCache m₁ numComputedTokens)
        retentionInterval = .ok (m₂, pool₂)) :
      CacheRun c w retentionInterval r requestId pool m (computed ++ [numComputedTokens]) pool₂ m₂

theorem CacheRun.booksOf {c : KVCacheCoordinator} {r : SeenRequest} {requestId : RequestId}
    {computed : List ℕ} (hkind : m.kvCacheSpec.kind = .slidingWindow w)
    (h : CacheRun c w retentionInterval r requestId pool m computed pool' m') :
    (∃ reqToBlocks numCachedBlock, m' = { m with reqToBlocks, numCachedBlock }) ∧
    BooksOf pool' m' requestId pool.HasKey r (computed.foldl (r.cacheCall c m w retentionInterval)
      (m.numCachedBlock.getD requestId 0, [])) := by
  induction h with
  | start => exact ⟨⟨_, _, rfl⟩, rfl, by simp⟩
  | setTable _ _ ih =>
    rcases ih with ⟨⟨_, _, rfl⟩, hbooks⟩
    exact ⟨⟨_, _, rfl⟩, hbooks.cached, hbooks.stored⟩
  | call _ hid hcall hr ih =>
    subst hid
    rcases ih with ⟨⟨_, _, rfl⟩, hbooks⟩
    rcases hbooks.cacheBlocks hkind hcall hr with ⟨hnext, _, rfl⟩
    rw [foldl_append]
    exact ⟨⟨_, _, rfl⟩, hnext⟩

/-- However the calls of `cache_blocks` cut up the tokens, a request has registered just the blocks
to keep among those that have come to count as cached, and each call's full blocks count. -/
theorem cacheRun_registers {c : KVCacheCoordinator} {r : SeenRequest} {requestId : RequestId}
    {computed : List ℕ} (hkind : m.kvCacheSpec.kind = .slidingWindow w)
    (h : CacheRun c w retentionInterval r requestId pool m computed pool' m') :
    (∀ key, pool'.HasKey key ↔ pool.HasKey key ∨ key.groupId = m.kvCacheGroupId ∧
      ∃ i, m.numCachedBlock.getD requestId 0 ≤ i ∧ i < m'.numCachedBlock.getD requestId 0 ∧
        m.keepsBlock w retentionInterval r.numPromptTokens i = true ∧
        r.blockHashes[i]? = some key.blockHash) ∧
    m.numCachedBlock.getD requestId 0 ≤ m'.numCachedBlock.getD requestId 0 ∧
    ∀ n ∈ computed, c.numTokensToCache m n / m.blockSize ≤ m'.numCachedBlock.getD requestId 0 := by
  rcases h.booksOf hkind with ⟨⟨table, cached, rfl⟩, hbooks⟩
  have hcalls := SeenRequest.callsInv_from c m w retentionInterval r
    (m.numCachedBlock.getD requestId 0) computed
  rw [hbooks.cached]
  refine ⟨fun key => ?_, hcalls.start_le, hcalls.reached⟩
  rw [hbooks.stored]
  apply or_congr_right
  apply and_congr_right
  intro _
  apply exists_congr
  intro i
  rw [hcalls.mem_iff, and_assoc, and_assoc]

def twelveTokens : Request :=
  { requestId := 0, promptTokenIds := none, numPromptTokens := 12, allTokenIds := []
    blockHashes := (countingRequest 12).blockHashes }

/-- A manager in which a request has found its first two blocks; the window skips the first. -/
def hitManager : SingleTypeKVCacheManager :=
  { pairManager 3 4 false with numCachedBlock := Dict.empty.set 0 2 }

/-- Two calls for it; in between the window moves past the blocks of the first. -/
def hitRun : Raises ((SingleTypeKVCacheManager × BlockPool) ×
    SingleTypeKVCacheManager × BlockPool) := do
  let s ← (hitManager.setBlocks 0 [0, 1, 2, 3]).cacheBlocks (poolOf [[1]]) twelveTokens 8 none
  let s' ← (s.1.setBlocks 0 [0, 0, 0, 3, 4, 5]).cacheBlocks s.2 twelveTokens 12 none
  pure (s, s')

/-- Of six blocks every second one ends a segment; the first such is the hit. -/
theorem cacheRun_registers_hit : ∃ pool m, CacheRun (pairCoordinator 4) 3 none
    (countingRequest 12) 0 (poolOf [[1]]) hitManager [8, 12] pool m ∧
      ∀ i < 6, pool.HasKey ⟨[i.toUInt8], 0⟩ ↔ i = 1 ∨ i = 3 ∨ i = 5 := by
  rcases exists_ok (show hitRun.toOption.map (fun s => (s.1.1.numCachedBlock.getD 0 0,
    s.2.1.numCachedBlock.getD 0 0, s.1.2.nullBlock, s.1.2.requestHashes twelveTokens 2)) =
      some (4, 6, 0, (countingRequest 12).blockHashes) by decide +kernel) with
    ⟨⟨⟨m₁, pool₁⟩, m, pool⟩, hr, hfacts⟩
  simp only [Prod.mk.injEq] at hfacts
  rcases hfacts with ⟨hcached₁, hcached, hnull, hhashes⟩
  simp only [hitRun, bind_eq_ok, pure_eq_ok, Prod.mk.injEq] at hr
  rcases hr with ⟨_, hr₁, _, hr₂, rfl, rfl⟩
  have hrun₁ : CacheRun (pairCoordinator 4) 3 none (countingRequest 12) 0 (poolOf [[1]])
      hitManager [8] pool₁ m₁ := by
    refine .call (.setTable .start _) (show twelveTokens.requestId = 0 from rfl)
      ⟨rfl, by decide, by decide, ?_⟩ hr₁
    intro i _ hlow hget
    have hlt : 2 ≤ i := hlow
    rcases i with _ | _ | i
    · omega
    · omega
    · exact absurd (mem_of_getElem? (l := [2, 3]) hget) (by decide)
  rcases (hrun₁.booksOf rfl).1 with ⟨reqToBlocks, numCachedBlock, rfl⟩
  have htable : (SingleTypeKVCacheManager.setBlocks { hitManager with
      reqToBlocks, numCachedBlock } 0 [0, 0, 0, 3, 4, 5]).blocksOf 0 = [0, 0, 0, 3, 4, 5] := by
    rw [SingleTypeKVCacheManager.blocksOf_setBlocks, if_pos rfl]
  have hcount : (pairCoordinator 4).numTokensToCache hitManager 12 / hitManager.blockSize = 6 := by
    decide
  have hrun : CacheRun (pairCoordinator 4) 3 none (countingRequest 12) 0 (poolOf [[1]])
      hitManager [8, 12] pool m := by
    refine .call (.setTable hrun₁ _) (show twelveTokens.requestId = 0 from rfl)
      ⟨rfl, fun i _ => ?_, ?_, ?_⟩ hr₂
    · exact congrArg (·[i]?) hhashes
    · exact le_of_eq (hcount.trans (congrArg length htable).symm)
    · intro i _ hlow hnone
      have hget : ([0, 0, 0, 3, 4, 5] : List BlockId)[i]? = some 0 :=
        (congrArg (·[i]?) htable).symm.trans (hnone.trans (congrArg some hnull))
      have hlt : 4 ≤ i := hcached₁.symm.le.trans hlow
      rcases i with _ | _ | _ | _ | i
      · omega
      · omega
      · omega
      · omega
      · exact absurd (mem_of_getElem? (l := [4, 5]) hget) (by decide)
  have hkept : ∀ i < 6, (∃ j, 2 ≤ j ∧ j < 6 ∧ hitManager.keepsBlock 3 none 12 j = true ∧
      (countingRequest 12).blockHashes[j]? = some [i.toUInt8]) ↔ i = 3 ∨ i = 5 := by
    intro i hi
    have hsix : ∀ i < 6, (∃ j < 6, 2 ≤ j ∧ hitManager.keepsBlock 3 none 12 j = true ∧
        (countingRequest 12).blockHashes[j]? = some [i.toUInt8]) ↔ i = 3 ∨ i = 5 := by
      decide
    exact (exists_congr fun j => and_left_comm).trans (hsix i hi)
  have hfirst : ∀ i < 6, [i.toUInt8] ∈ [[(1 : UInt8)]] ↔ i = 1 := by
    decide
  refine ⟨pool, m, hrun, fun i hi => ?_⟩
  rw [(cacheRun_registers rfl hrun).1, hcached]
  exact or_congr ((mapOf_stored [[1]] _).trans (hfirst i hi))
    ((and_iff_right rfl).trans (hkept i hi))

end Books

end Vllm
