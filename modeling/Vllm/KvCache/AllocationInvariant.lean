import Vllm.KvCache.ManagerInvariant

/-! Allocation keeps the ledger: hits and blocks for external tokens, new blocks, moved
speculative blocks and new hashes. -/
namespace Vllm
open SingleTypeKVCacheManager Raises List

namespace SingleTypeKVCacheManager

/-- The request is neither running nor of a cross-attention group. -/
def isNew (m : SingleTypeKVCacheManager) (requestId : RequestId) : Bool :=
  ¬ (m.kvCacheSpec.isCrossAttention ∨ m.numCachedBlock.contains requestId)

/-- What a request takes in `allocate_new_computed_blocks`: the hits it touches and how many
blocks it draws for external tokens. -/
def computedDraw (m : SingleTypeKVCacheManager) (nullBlock : BlockId)
    (requestId : RequestId) (newComputedBlocks : List BlockId)
    (numLocalComputedTokens numExternalComputedTokens : ℕ) : List BlockId × ℤ :=
  if m.isNew requestId then
    (m.keptHits (numLocalComputedTokens + numExternalComputedTokens) newComputedBlocks,
      m.externalDraw nullBlock newComputedBlocks numLocalComputedTokens numExternalComputedTokens)
  else ([], 0)

end SingleTypeKVCacheManager

/-- The free queue without the hits that are touched. -/
def untouched (free kept : List BlockId) : List BlockId := free.filter (· ∉ kept)

@[simp] theorem untouched_nil (free : List BlockId) : untouched free [] = free := by
  simp [untouched]

@[simp] theorem clearHashes_nil (blockHash : BlockId → Option BlockHashWithGroupId) :
    clearHashes blockHash [] = blockHash := by
  funext b
  simp [clearHashes]

/-- The outcome of `allocate_new_computed_blocks`. -/
structure ComputedResult (rest : BlockId → ℕ) (hashes : RequestId → List BlockHash)
    (pool : BlockPool) (m : SingleTypeKVCacheManager) (free : List BlockId) (r : RequestId)
    (tableLength : ℕ) (taken : List BlockId × ℤ) (pool' : BlockPool)
    (m' : SingleTypeKVCacheManager) : Prop where
  ledger : Ledger pool' ((untouched free taken.1).drop taken.2.toNat) rest hashes [m']
  config : SameConfig pool pool'
  setup : SameSetup m m'
  blockHash : pool'.blockHash =
    clearHashes pool.blockHash ((untouched free taken.1).take taken.2.toNat)
  allocated : m'.allocatedBlockReqs = m.allocatedBlockReqs
  others : ∀ r', r' ≠ r → m'.blocksOf r' = m.blocksOf r'
  own : m' = m ∨ m.isNew r = true ∧ m.blocksOf r = [] ∧
    (m'.blocksOf r).length = tableLength + taken.2.toNat

/-- The outcome of an operation that draws blocks for a request. -/
structure DrawResult (rest : BlockId → ℕ) (hashes : RequestId → List BlockHash)
    (pool : BlockPool) (m : SingleTypeKVCacheManager) (r : RequestId) (pool' : BlockPool)
    (m' : SingleTypeKVCacheManager) : Prop where
  ledger : ∃ free', Ledger pool' free' rest hashes [m']
  config : SameConfig pool pool'
  setup : SameSetup m m'
  held : ∀ b, b ≠ pool.nullBlock → 0 < rest b ∨ 0 < m.refs b → pool'.blockHash b = pool.blockHash b
  others : ∀ r', r' ≠ r → m'.blocksOf r' = m.blocksOf r'

theorem DrawResult.frame {rest : BlockId → ℕ} {hashes : RequestId → List BlockHash}
    {pool pool' : BlockPool} {m m' : SingleTypeKVCacheManager} {r : RequestId}
    (h : DrawResult rest hashes pool m r pool' m') : Frame rest pool pool' :=
  ⟨h.config, fun b hb hr => h.held b hb (.inl hr)⟩

namespace Ledger
variable {pool pool' : BlockPool} {free free' : List BlockId} {rest : BlockId → ℕ}
  {hashes : RequestId → List BlockHash} {m m' : SingleTypeKVCacheManager} {r : RequestId}

section
variable (h : Ledger pool free rest hashes [m])
include h

theorem touchHits (hempty : m.blocksOf r = [])
    {total : ℕ} {hits : List BlockId}
    (hhits : KeyedHits pool (hashesAt pool.hashBlockSize m.blockSize (hashes r))
      m.kvCacheGroupId (m.hitTable pool.nullBlock total hits))
    (hr : (if m.enableCaching then pool.touch (m.keptHits total hits) else do
      require (m.keptHits total hits = [])
      pure pool) = .ok pool') :
    Ledger pool' (untouched free (m.keptHits total hits)) rest hashes
        [m.setBlocks r (m.hitTable pool.nullBlock total hits)] ∧
      SameConfig pool pool' ∧ pool'.blockHash = pool.blockHash := by
  split_ifs at hr with hc
  · exact h.touch hempty hhits hr
  · simp only [bind_eq_ok, require_eq_ok, pure_eq_ok] at hr
    obtain ⟨-, hnil, rfl⟩ := hr
    have htouch : pool.touch (m.keptHits total hits) = .ok pool := by
      rw [hnil]
      rfl
    exact h.touch hempty hhits htouch

theorem allocateNewComputedBlocks {hits : List BlockId} {loc ext : ℕ}
    (hhits : KeyedHits pool (hashesAt pool.hashBlockSize m.blockSize (hashes r))
      m.kvCacheGroupId (List.replicate (m.numSkippedBlocks (loc + ext : ℕ)) pool.nullBlock ++
        (m.computedDraw pool.nullBlock r hits loc ext).1))
    (hdraw : 0 ≤ (m.computedDraw pool.nullBlock r hits loc ext).2)
    (hr : m.allocateNewComputedBlocks pool r hits loc ext = .ok (m', pool')) :
    ComputedResult rest hashes pool m free r
      (m.hitTable pool.nullBlock (loc + ext) hits).length
      (m.computedDraw pool.nullBlock r hits loc ext) pool' m' := by
  unfold SingleTypeKVCacheManager.allocateNewComputedBlocks at hr
  unfold SingleTypeKVCacheManager.computedDraw at hhits hdraw ⊢
  by_cases hfast : m.kvCacheSpec.isCrossAttention ∨ m.numCachedBlock.contains r
  · have hnew : m.isNew r = false := decide_eq_false (not_not_intro hfast)
    rw [if_pos hfast] at hr
    rw [hnew]
    simp only [bind_eq_ok, require_eq_ok, pure_eq_ok, Prod.mk.injEq] at hr
    obtain ⟨-, -, rfl, rfl⟩ := hr
    exact ⟨by simpa using h, SameConfig.rfl, SameSetup.rfl, by simp, rfl, fun _ _ => rfl, .inl rfl⟩
  · have hnew : m.isNew r = true := decide_eq_true hfast
    rw [if_neg hfast] at hr
    rw [if_pos hnew] at hhits hdraw ⊢
    simp only [bind_eq_ok, require_eq_ok] at hr
    obtain ⟨-, hlen, pool₁, htouch, hr⟩ := hr
    have hempty : m.blocksOf r = [] := eq_nil_of_length_eq_zero hlen
    obtain ⟨hledger, hcfg, hhash⟩ := h.touchHits hempty hhits htouch
    rw [hcfg.nullBlock] at hr
    set table := m.hitTable pool.nullBlock (loc + ext) hits with htable
    set marked : SingleTypeKVCacheManager := { m.setBlocks r table with
      numCachedBlock := m.numCachedBlock.set r table.length } with hmarked
    have hmarkedLedger : Ledger pool₁ _ rest hashes [marked] :=
      hledger.sameTables (.of_reqToBlocks rfl rfl rfl)
    have hmarkedSetup : SameSetup m marked := ⟨rfl, rfl, rfl, rfl, rfl, rfl⟩
    have hown : marked.blocksOf r = table := by
      have : marked.blocksOf r = (m.setBlocks r table).blocksOf r := rfl
      simp [this]
    have hothers (r' : RequestId) (hr' : r' ≠ r) : marked.blocksOf r' = m.blocksOf r' := by
      have : marked.blocksOf r' = (m.setBlocks r table).blocksOf r' := rfl
      simp [this, hr']
    have hext : marked.keptExternalTokens loc ext = m.keptExternalTokens loc ext := rfl
    have hdrawEq : marked.externalDraw pool.nullBlock hits loc ext =
      m.externalDraw pool.nullBlock hits loc ext := rfl
    rw [hext, hdrawEq] at hr
    by_cases hpos : m.keptExternalTokens loc ext > 0
    · rw [if_pos hpos] at hr
      simp only [bind_eq_ok, pure_eq_ok, Prod.mk.injEq] at hr
      obtain ⟨⟨new, pool₂⟩, hget, hm', rfl⟩ := hr
      obtain ⟨hdrawnEq, hnewLen, hres⟩ := getNewBlocks_eq hmarkedLedger.inv hdraw hget
      have hdrawn := hmarkedLedger.draw (r := r) hdraw hget
      rw [hown] at hdrawn
      subst hm'
      refine ⟨hdrawn.sameTables (.recordNewBlocks _ new), hcfg.trans hres.config,
        (hmarkedSetup.trans (.setBlocks _ r _)).trans (.recordNewBlocks _ new), ?_, ?_, ?_,
        .inr ⟨hnew, hempty, ?_⟩⟩
      · rw [hres.blockHash, hhash, hdrawnEq]
      · unfold SingleTypeKVCacheManager.recordNewBlocks
        split_ifs <;> rfl
      · intro r' hr'
        rw [(SameTables.recordNewBlocks _ new).blocksOf, blocksOf_setBlocks, if_neg hr',
          hothers r' hr']
      · rw [(SameTables.recordNewBlocks _ new).blocksOf, blocksOf_setBlocks, if_pos rfl,
          length_append, hnewLen]
    · rw [if_neg hpos] at hr
      obtain ⟨rfl, rfl⟩ : marked = m' ∧ pool₁ = pool' := by simpa using hr
      have hzero : m.externalDraw pool.nullBlock hits loc ext = 0 := by
        simp [externalDraw, hpos]
      rw [hzero]
      refine ⟨by simpa using hmarkedLedger, hcfg, hmarkedSetup, by simpa using hhash, rfl,
        hothers, .inr ⟨hnew, hempty, ?_⟩⟩
      rw [hown]
      simp

theorem drawResult {n : ℤ} (h0 : 0 ≤ n) {new : List BlockId}
    (hget : pool.getNewBlocks n = .ok (new, pool')) :
    DrawResult rest hashes pool m r pool' (m.setBlocks r (m.blocksOf r ++ new)) := by
  obtain ⟨hnew, -, hres⟩ := getNewBlocks_eq h.inv h0 hget
  refine ⟨⟨_, h.draw h0 hget⟩, hres.config, .setBlocks m r _, fun b _ hheld => ?_,
    fun r' hr' => ?_⟩
  · rw [hres.blockHash]
    exact h.drawn_held (fun b hb => mem_of_mem_take (hnew ▸ hb)) hheld
  · rw [blocksOf_setBlocks, if_neg hr']

theorem unchangedBlocks : DrawResult rest hashes pool m r pool (m.setBlocks r (m.blocksOf r)) := by
  have hsame : Ledger pool free rest hashes [m.setBlocks r (m.blocksOf r)] := by
    apply h.rearrange
    · intro b _
      rfl
    · intro i b hget _
      exact .inl hget
  refine ⟨⟨free, hsame⟩, SameConfig.rfl, .setBlocks m r _, fun b _ _ => rfl, fun r' hr' => ?_⟩
  rw [blocksOf_setBlocks, if_neg hr']

theorem baseAllocateNewBlocks {numTokens : ℕ} {new : List BlockId}
    (hr : m.baseAllocateNewBlocks pool r numTokens = .ok (new, m', pool')) :
    DrawResult rest hashes pool m r pool' m' := by
  unfold SingleTypeKVCacheManager.baseAllocateNewBlocks at hr
  dsimp only at hr
  split_ifs at hr with hle
  · simp only [pure_eq_ok, Prod.mk.injEq] at hr
    obtain ⟨-, rfl, rfl⟩ := hr
    exact h.unchangedBlocks
  · simp only [bind_eq_ok, pure_eq_ok, Prod.mk.injEq] at hr
    obtain ⟨⟨new', pool₂⟩, hget, rfl, rfl, rfl⟩ := hr
    have hdrawn := h.drawResult (r := r) (by omega) hget
    obtain ⟨free₂, hledger⟩ := hdrawn.ledger
    refine ⟨⟨free₂, hledger.sameTables (.recordNewBlocks _ new')⟩, hdrawn.config,
      hdrawn.setup.trans (.recordNewBlocks _ new'), hdrawn.held, fun r' hr' => ?_⟩
    rw [(SameTables.recordNewBlocks _ new').blocksOf]
    exact hdrawn.others r' hr'

end

end Ledger

/-- Moving blocks within a table: the same blocks, and whatever changes its place has no
hash. -/
structure Moved (nullBlock : BlockId) (unhashed : BlockId → Prop)
    (blocks blocks' : List BlockId) : Prop where
  count : ∀ b, b ≠ nullBlock → blocks'.count b = blocks.count b
  place : ∀ (i : ℕ) b, blocks'[i]? = some b → b ≠ nullBlock → blocks[i]? = some b ∨ unhashed b

variable {blocks : List BlockId} {nullBlock : BlockId} {unhashed : BlockId → Prop}

theorem Moved.rfl : Moved nullBlock unhashed blocks blocks :=
  ⟨fun _ _ => Eq.refl _, fun _ _ h _ => .inl h⟩

theorem Moved.trans {blocks' blocks'' : List BlockId} (h : Moved nullBlock unhashed blocks blocks')
    (h' : Moved nullBlock unhashed blocks' blocks'') :
    Moved nullBlock unhashed blocks blocks'' where
  count := fun b hb => (h'.count b hb).trans (h.count b hb)
  place := fun i b hget hb => (h'.place i b hget hb).elim (fun h₁ => h.place i b h₁ hb) .inr

theorem Moved.pad (blocks : List BlockId) (n : ℕ) :
    Moved nullBlock unhashed blocks (blocks ++ List.replicate n nullBlock) where
  count := by
    intro b hb
    have hnull : (List.replicate n nullBlock).count b = 0 :=
      count_eq_zero.mpr fun hm => hb (mem_replicate.mp hm).2
    rw [count_append, hnull, Nat.add_zero]
  place := by
    intro i b hget hb
    rw [List.getElem?_append] at hget
    split_ifs at hget
    · exact .inl hget
    · rw [List.getElem?_replicate] at hget
      split_ifs at hget
      exact absurd (Option.some.inj hget).symm hb

theorem Moved.toEnd {i : ℕ} (hi : i < blocks.length) (hU : unhashed (blocks.getD i nullBlock)) :
    Moved nullBlock unhashed blocks
      ((blocks ++ [blocks.getD i nullBlock]).set i nullBlock) where
  count := by
    intro b hb
    have hlen : i < (blocks ++ [blocks.getD i nullBlock]).length := by
      rw [length_append]
      omega
    have hgetD : (blocks ++ [blocks.getD i nullBlock]).getD i nullBlock =
        blocks.getD i nullBlock := by
      rw [getD_eq_getElem?_getD, List.getElem?_append_left hi, ← getD_eq_getElem?_getD]
    have hcount := (Released.set nullBlock hlen).count b hb
    rw [hgetD, count_append] at hcount
    omega
  place := by
    intro j b hget hb
    rw [List.getElem?_set] at hget
    split_ifs at hget with hij hlt
    · exact absurd (Option.some.inj hget).symm hb
    · rw [List.getElem?_append] at hget
      split_ifs at hget with hj
      · exact .inl hget
      · obtain ⟨-, rfl⟩ : j - blocks.length = 0 ∧ blocks.getD i nullBlock = b := by
          rw [List.getElem?_singleton] at hget
          split_ifs at hget with hz
          exact ⟨hz, Option.some.inj hget⟩
        exact .inr hU

theorem moveSpeculativeBlocks_spec (numSkipped : ℕ) {start n : ℕ} (hlen : start + n ≤ blocks.length)
    (hU : ∀ i, start ≤ i → i < start + n → unhashed (blocks.getD i nullBlock)) :
    Moved nullBlock unhashed blocks
        (moveSpeculativeBlocks nullBlock numSkipped (List.range' start n) blocks) ∧
      (moveSpeculativeBlocks nullBlock numSkipped (List.range' start n) blocks).length =
        blocks.length + min n (numSkipped - start) := by
  induction n generalizing start blocks with
  | zero => simp [moveSpeculativeBlocks, Moved.rfl]
  | succ n ih =>
    rw [range'_succ, moveSpeculativeBlocks]
    split_ifs with hlt
    · set next := (blocks ++ [blocks.getD start nullBlock]).set start nullBlock with hnext
      have hnextLen : next.length = blocks.length + 1 := by simp [hnext]
      have hstep : Moved nullBlock unhashed blocks next :=
        .toEnd (by omega) (hU start (le_refl _) (by omega))
      have hU' : ∀ i, start + 1 ≤ i → i < start + 1 + n → unhashed (next.getD i nullBlock) := by
        intro i hi1 hi2
        have hgetD : next.getD i nullBlock = blocks.getD i nullBlock := by
          rw [hnext, getD_eq_getElem?_getD, List.getElem?_set_ne (by omega),
            List.getElem?_append_left (by omega), ← getD_eq_getElem?_getD]
        rw [hgetD]
        exact hU i (by omega) (by omega)
      obtain ⟨hmoved, hlength⟩ := ih (by omega) hU'
      refine ⟨hstep.trans hmoved, ?_⟩
      rw [hlength, hnextLen]
      omega
    · exact ⟨Moved.rfl, by omega⟩

/-- The null block, or a block without a hash. -/
def Unhashed (pool : BlockPool) (b : BlockId) : Prop :=
  b = pool.nullBlock ∨ pool.blockHash b = none

/-- The last `numSpec` blocks of an allocated request have no hash. -/
def SpareBlocks (pool : BlockPool) (m : SingleTypeKVCacheManager) (numSpec : ℕ)
    (r : RequestId) : Prop :=
  numSpec ≤ (m.blocksOf r).length ∧ ∀ (i : ℕ) b, (m.blocksOf r).length - numSpec ≤ i →
    (m.blocksOf r)[i]? = some b → b ≠ pool.nullBlock → pool.blockHash b = none

theorem movedTable_spec {pool : BlockPool} {m : SingleTypeKVCacheManager} {r : RequestId}
    {numSpec required : ℕ} (hspare : r ∈ m.allocatedBlockReqs → SpareBlocks pool m numSpec r)
    (hlt : (m.blocksOf r).length < required + numSpec) :
    Moved pool.nullBlock (Unhashed pool) (m.blocksOf r)
        (m.movedTable pool.nullBlock numSpec r (required + numSpec - numSpec - 1)) ∧
      (m.movedTable pool.nullBlock numSpec r (required + numSpec - numSpec - 1)).length ≤
        required + numSpec := by
  unfold movedTable
  dsimp only
  generalize hblocks : m.blocksOf r = blocks at hlt ⊢
  set padded := blocks ++ List.replicate (required + numSpec - numSpec - 1 - blocks.length)
    pool.nullBlock with hpadded
  have hpad : Moved pool.nullBlock (Unhashed pool) blocks padded := Moved.pad blocks _
  have hpadLen : padded.length = max blocks.length (required - 1) := by
    rw [hpadded, length_append, length_replicate]
    omega
  split_ifs with halloc
  · obtain ⟨hlen, hnone⟩ := hspare halloc
    rw [hblocks] at hlen hnone
    have hU : ∀ i, blocks.length - numSpec ≤ i → i < blocks.length - numSpec + numSpec →
        Unhashed pool (padded.getD i pool.nullBlock) := by
      intro i hi1 hi2
      have hi : i < blocks.length := by omega
      rw [getD_eq_getElem?_getD, hpadded, List.getElem?_append_left hi,
        List.getElem?_eq_getElem hi, Option.getD_some]
      by_cases hnull : blocks[i] = pool.nullBlock
      · exact .inl hnull
      · exact .inr (hnone i blocks[i] hi1 (List.getElem?_eq_getElem hi) hnull)
    have hfit : blocks.length - numSpec + numSpec ≤ padded.length := by omega
    obtain ⟨hspec, hlength⟩ := moveSpeculativeBlocks_spec (required + numSpec - numSpec - 1) hfit hU
    exact ⟨hpad.trans hspec, by omega⟩
  · exact ⟨hpad, by omega⟩

/-- `allocate_new_blocks` in `align` mode: nothing to do, or a longer table in which whatever
is new or has moved has no hash. -/
theorem Ledger.alignAllocateNewBlocks {pool pool' : BlockPool} {free : List BlockId}
    {rest : BlockId → ℕ} {hashes : RequestId → List BlockHash} {m m' : SingleTypeKVCacheManager}
    {r : RequestId} (h : Ledger pool free rest hashes [m]) {numSpec numTokens : ℕ}
    {new : List BlockId} (hspare : r ∈ m.allocatedBlockReqs → SpareBlocks pool m numSpec r)
    (hr : m.alignAllocateNewBlocks pool numSpec r numTokens = .ok (new, m', pool')) :
    DrawResult rest hashes pool m r pool' m' ∧
      (cdiv numTokens m.blockSize + numSpec ≤ (m.blocksOf r).length ∧ pool' = pool ∧
          m' = m.setBlocks r (m.blocksOf r) ∨
        (m.blocksOf r).length < cdiv numTokens m.blockSize + numSpec ∧
          m'.allocatedBlockReqs = m.allocatedBlockReqs.insert r ∧
          (m'.blocksOf r).length = cdiv numTokens m.blockSize + numSpec ∧
          ∀ (i : ℕ) b, (m'.blocksOf r)[i]? = some b → b ≠ pool.nullBlock →
            (m.blocksOf r)[i]? = some b ∨ pool'.blockHash b = none) := by
  unfold SingleTypeKVCacheManager.alignAllocateNewBlocks at hr
  by_cases hle : cdiv numTokens m.blockSize + numSpec ≤ (m.blocksOf r).length
  · rw [if_pos hle] at hr
    simp only [pure_eq_ok, Prod.mk.injEq] at hr
    obtain ⟨-, rfl, rfl⟩ := hr
    exact ⟨h.unchangedBlocks, .inl ⟨hle, rfl, rfl⟩⟩
  · rw [if_neg hle] at hr
    obtain ⟨hmove, hmoveLen⟩ := movedTable_spec hspare (not_le.mp hle)
    set moved := m.movedTable pool.nullBlock numSpec r
      (cdiv numTokens m.blockSize + numSpec - numSpec - 1)
    simp only [bind_eq_ok, require_eq_ok, pure_eq_ok, Prod.mk.injEq] at hr
    obtain ⟨-, -, ⟨new', pool₂⟩, hget, -, hm', rfl⟩ := hr
    have h0 : (0 : ℤ) ≤ (cdiv numTokens m.blockSize + numSpec : ℕ) - moved.length := by omega
    have hplaced : Ledger pool free rest hashes [m.setBlocks r moved] := by
      apply h.rearrange hmove.count
      intro i b hgetb hb
      exact (hmove.place i b hgetb hb).imp_right fun hU => hU.resolve_left hb
    obtain ⟨hnew, hnewLen, hres⟩ := Ledger.getNewBlocks_eq hplaced.inv h0 hget
    have hdrawn := hplaced.drawResult (r := r) h0 hget
    rw [blocksOf_setBlocks, if_pos rfl] at hdrawn
    have hsame : SameTables ((m.setBlocks r moved).setBlocks r (moved ++ new')) m' := by
      have hset := SameTables.setBlocks_setBlocks m r moved (moved ++ new')
      rw [← hm']
      exact ⟨hset.blocksOf, hset.refs, rfl, rfl⟩
    have hown : m'.blocksOf r = moved ++ new' := by
      rw [hsame.blocksOf, blocksOf_setBlocks, if_pos rfl]
    obtain ⟨free₂, hledger⟩ := hdrawn.ledger
    refine ⟨⟨⟨free₂, hledger.sameTables hsame⟩, hdrawn.config, ?_, ?_, ?_⟩,
      .inr ⟨not_le.mp hle, ?_, ?_, ?_⟩⟩
    · rw [← hm']
      exact ⟨rfl, rfl, rfl, rfl, rfl, rfl⟩
    · intro b hb hheld
      have hrefs : (m.setBlocks r moved).refs b = m.refs b := by
        have h1 := m.refs_setBlocks r moved b
        have h2 := hmove.count b hb
        omega
      apply hdrawn.held b hb
      rw [hrefs]
      exact hheld
    · intro r' hr'
      rw [hsame.blocksOf, blocksOf_setBlocks, if_neg hr', blocksOf_setBlocks, if_neg hr']
    · rw [← hm']
    · rw [hown, length_append, hnewLen]
      omega
    · intro i b hgetb hb
      rw [hres.blockHash, clearHashes]
      by_cases hmem : b ∈ new'
      · exact .inr (if_pos hmem)
      · rw [hown, List.getElem?_append] at hgetb
        rw [if_neg hmem]
        split_ifs at hgetb with hi
        · exact (hmove.place i b hgetb hb).imp_right fun hU => hU.resolve_left hb
        · exact absurd (mem_of_getElem? hgetb) hmem

end Vllm
