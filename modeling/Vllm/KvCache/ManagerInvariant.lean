import Vllm.KvCache.Ledger

/-! The operations of a single-type manager keep the ledger. In `align` mode a mamba manager
also keeps its speculative blocks free of hashes, so that it can move them. -/
namespace Vllm
open SingleTypeKVCacheManager Raises List

/-- What no operation of a manager changes. -/
structure SameSetup (m m' : SingleTypeKVCacheManager) : Prop where
  spec : m'.kvCacheSpec = m.kvCacheSpec
  groupId : m'.kvCacheGroupId = m.kvCacheGroupId
  dcp : m'.dcpWorldSize = m.dcpWorldSize
  pcp : m'.pcpWorldSize = m.pcpWorldSize
  caching : m'.enableCaching = m.enableCaching
  eagle : m'.useEagle = m.useEagle

namespace SameSetup
variable {m m' m'' : SingleTypeKVCacheManager}

theorem rfl : SameSetup m m := ⟨Eq.refl _, Eq.refl _, Eq.refl _, Eq.refl _, Eq.refl _, Eq.refl _⟩

theorem trans (h : SameSetup m m') (h' : SameSetup m' m'') : SameSetup m m'' where
  spec := h'.spec.trans h.spec
  groupId := h'.groupId.trans h.groupId
  dcp := h'.dcp.trans h.dcp
  pcp := h'.pcp.trans h.pcp
  caching := h'.caching.trans h.caching
  eagle := h'.eagle.trans h.eagle

theorem blockSize (h : SameSetup m m') : m'.blockSize = m.blockSize := by
  rw [SingleTypeKVCacheManager.blockSize, SingleTypeKVCacheManager.blockSize, h.spec, h.dcp, h.pcp]

theorem setBlocks (m : SingleTypeKVCacheManager) (r : RequestId) (blocks : List BlockId) :
    SameSetup m (m.setBlocks r blocks) :=
  ⟨Eq.refl _, Eq.refl _, Eq.refl _, Eq.refl _, Eq.refl _, Eq.refl _⟩

theorem recordNewBlocks (m : SingleTypeKVCacheManager) (blocks : List BlockId) :
    SameSetup m (m.recordNewBlocks blocks) := by
  unfold SingleTypeKVCacheManager.recordNewBlocks
  split_ifs <;> exact ⟨Eq.refl _, Eq.refl _, Eq.refl _, Eq.refl _, Eq.refl _, Eq.refl _⟩

end SameSetup

/-- Some blocks of a table are replaced by null blocks. -/
structure Released (nullBlock : BlockId) (blocks blocks' removed : List BlockId) : Prop where
  length : blocks'.length = blocks.length
  sub : ∀ (i : ℕ) b, blocks'[i]? = some b → b = nullBlock ∨ blocks[i]? = some b
  count : ∀ b, b ≠ nullBlock → blocks'.count b + removed.count b = blocks.count b
  mem : ∀ b ∈ removed, b ∈ blocks

variable {blocks : List BlockId} {i : ℕ} {nullBlock : BlockId}

/-- The blocks from `k` to `i` are replaced. -/
theorem Released.range (nullBlock : BlockId) {k : ℕ} (hk : k ≤ i) (hi : i ≤ blocks.length) :
    Released nullBlock blocks
      (blocks.take k ++ List.replicate (i - k) nullBlock ++ blocks.drop i)
      ((blocks.drop k).take (i - k)).reverse := by
  have hsplit : blocks.take k ++ ((blocks.drop k).take (i - k) ++ blocks.drop i) = blocks := by
    have hdrop : blocks.drop i = (blocks.drop k).drop (i - k) := by
      rw [drop_drop]
      congr 1
      omega
    rw [hdrop, take_append_drop, take_append_drop]
  refine ⟨?_, ?_, ?_, ?_⟩
  · simp only [length_append, length_take, length_replicate, length_drop]
    omega
  · intro j b hj
    simp only [append_assoc, List.getElem?_append, length_take, List.getElem?_take,
      length_replicate, List.getElem?_replicate, List.getElem?_drop] at hj
    split_ifs at hj with h1 h2 h3
    · exact .inr hj
    · exact .inl (Option.some.inj hj).symm
    · right
      rw [← hj]
      congr 1
      omega
  · intro b hb
    have hnull : (List.replicate (i - k) nullBlock).count b = 0 :=
      count_eq_zero.mpr fun hm => hb (mem_replicate.mp hm).2
    conv_rhs => rw [← hsplit]
    simp only [count_append, count_reverse, hnull]
    omega
  · intro b hb
    exact mem_of_mem_drop (mem_of_mem_take (mem_reverse.mp hb))

theorem skipLoop_eq (nullBlock : BlockId) (hi : i ≤ blocks.length) :
    ∃ k ≤ i, skipLoop nullBlock i blocks =
        (blocks.take k ++ List.replicate (i - k) nullBlock ++ blocks.drop i,
          ((blocks.drop k).take (i - k)).reverse) ∧
      (k = 0 ∨ blocks[k - 1]? = some nullBlock) := by
  induction i generalizing blocks with
  | zero => exact ⟨0, le_refl _, by simp [skipLoop], .inl rfl⟩
  | succ i ih =>
    have hlt : i < blocks.length := by omega
    have hget : blocks[i]? = some blocks[i] := List.getElem?_eq_getElem hlt
    have hgetD : blocks.getD i nullBlock = blocks[i] := by
      rw [getD_eq_getElem?_getD, hget, Option.getD_some]
    by_cases hnull : blocks[i] = nullBlock
    · refine ⟨i + 1, le_refl _, ?_, .inr ?_⟩
      · rw [skipLoop, hgetD, if_pos hnull]
        simp
      · rw [Nat.add_sub_cancel, hget, hnull]
    · have hlen : i ≤ (blocks.set i nullBlock).length := by simpa using hlt.le
      obtain ⟨k, hk, heq, hstop⟩ := ih hlen
      refine ⟨k, by omega, ?_, ?_⟩
      · have htake : (blocks.set i nullBlock).take k = blocks.take k := by
          rw [take_set, set_eq_of_length_le (by rw [length_take]; omega)]
        have hdrop : (blocks.set i nullBlock).drop i = nullBlock :: blocks.drop (i + 1) := by
          rw [drop_set, if_neg (lt_irrefl i), Nat.sub_self, drop_eq_getElem_cons hlt]
          rfl
        have hmid : ((blocks.set i nullBlock).drop k).take (i - k) =
            (blocks.drop k).take (i - k) := by
          rw [drop_set, if_neg (by omega), take_set,
            set_eq_of_length_le (by rw [length_take]; omega)]
        have hlast : (blocks.drop k).take (i + 1 - k) =
            (blocks.drop k).take (i - k) ++ [blocks[i]] := by
          rw [show i + 1 - k = i - k + 1 by omega, take_add_one, List.getElem?_drop,
            show k + (i - k) = i by omega, hget]
          rfl
        rw [skipLoop]
        simp only [hgetD, hnull, ↓reduceIte, heq, htake, hdrop, hmid, hlast]
        rw [show i + 1 - k = i - k + 1 by omega, replicate_succ']
        simp
      · rcases hstop with h0 | hget'
        · exact .inl h0
        · by_cases hki : k = 0
          · exact .inl hki
          · rw [List.getElem?_set_ne (by omega)] at hget'
            exact .inr hget'

theorem Released.skipLoop (nullBlock : BlockId) (hi : i ≤ blocks.length) :
    Released nullBlock blocks (skipLoop nullBlock i blocks).1 (skipLoop nullBlock i blocks).2 := by
  obtain ⟨k, hk, heq, -⟩ := skipLoop_eq nullBlock hi
  rw [heq]
  exact Released.range nullBlock hk hi

theorem Released.set (nullBlock : BlockId) (hi : i < blocks.length) :
    Released nullBlock blocks (blocks.set i nullBlock) [blocks.getD i nullBlock] := by
  have hrange := Released.range nullBlock (Nat.le_succ i) (Nat.succ_le_of_lt hi)
  have hset : blocks.set i nullBlock =
      blocks.take i ++ List.replicate (i.succ - i) nullBlock ++ blocks.drop i.succ := by
    rw [set_eq_take_append_cons_drop, if_pos hi]
    simp
  have hmid : [blocks.getD i nullBlock] = ((blocks.drop i).take (i.succ - i)).reverse := by
    rw [getD_eq_getElem?_getD, List.getElem?_eq_getElem hi, drop_eq_getElem_cons hi,
      Nat.succ_sub (le_refl i), Nat.sub_self, take_succ_cons, take_zero,
      reverse_singleton, Option.getD_some]
  rw [hset, hmid]
  exact hrange

/-- Tables that only lose blocks. -/
structure Shrinks (nullBlock : BlockId) (m m' : SingleTypeKVCacheManager) : Prop where
  setup : SameSetup m m'
  allocated : m'.allocatedBlockReqs = m.allocatedBlockReqs
  length : ∀ r, (m'.blocksOf r).length = (m.blocksOf r).length
  sub : ∀ r (i : ℕ) b, (m'.blocksOf r)[i]? = some b →
    b = nullBlock ∨ (m.blocksOf r)[i]? = some b

theorem Shrinks.rfl {m : SingleTypeKVCacheManager} : Shrinks nullBlock m m :=
  ⟨SameSetup.rfl, Eq.refl _, fun _ => Eq.refl _, fun _ _ _ h => .inr h⟩

theorem Shrinks.trans {m m' m'' : SingleTypeKVCacheManager} (h : Shrinks nullBlock m m')
    (h' : Shrinks nullBlock m' m'') : Shrinks nullBlock m m'' where
  setup := h.setup.trans h'.setup
  allocated := h'.allocated.trans h.allocated
  length := fun r => (h'.length r).trans (h.length r)
  sub := fun r i b hget => (h'.sub r i b hget).elim .inl (h.sub r i b)

theorem Released.shrinks {m : SingleTypeKVCacheManager} {r : RequestId} {removed : List BlockId}
    (h : Released nullBlock (m.blocksOf r) blocks removed) :
    Shrinks nullBlock m (m.setBlocks r blocks) where
  setup := .setBlocks m r blocks
  allocated := Eq.refl _
  length := by
    intro r'
    rw [blocksOf_setBlocks]
    split_ifs with hr
    · rw [hr, h.length]
    · rfl
  sub := by
    intro r' i b hget
    rw [blocksOf_setBlocks] at hget
    split_ifs at hget with hr
    · rw [hr]
      exact h.sub i b hget
    · exact .inr hget

/-- An operation that only gives blocks back. -/
structure Shrunk (rest : BlockId → ℕ) (hashes : RequestId → List BlockHash) (pool : BlockPool)
    (m : SingleTypeKVCacheManager) (pool' : BlockPool) (m' : SingleTypeKVCacheManager) :
    Prop where
  ledger : ∃ free', Ledger pool' free' rest hashes [m']
  config : SameConfig pool pool'
  blockHash : pool'.blockHash = pool.blockHash
  shrinks : Shrinks pool.nullBlock m m'

namespace Shrunk
variable {rest : BlockId → ℕ} {hashes : RequestId → List BlockHash} {pool pool' pool'' : BlockPool}
  {m m' m'' : SingleTypeKVCacheManager}

theorem refl {free : List BlockId} (h : Ledger pool free rest hashes [m]) :
    Shrunk rest hashes pool m pool m :=
  ⟨⟨free, h⟩, SameConfig.rfl, Eq.refl _, Shrinks.rfl⟩

theorem trans (h : Shrunk rest hashes pool m pool' m')
    (h' : Shrunk rest hashes pool' m' pool'' m'') : Shrunk rest hashes pool m pool'' m'' where
  ledger := h'.ledger
  config := h.config.trans h'.config
  blockHash := h'.blockHash.trans h.blockHash
  shrinks := h.shrinks.trans (h.config.nullBlock ▸ h'.shrinks)

theorem frame (h : Shrunk rest hashes pool m pool' m') : Frame rest pool pool' :=
  ⟨h.config, fun b _ _ => congrFun h.blockHash b⟩

end Shrunk

namespace Ledger
variable {pool pool' : BlockPool} {free free' : List BlockId} {rest : BlockId → ℕ}
  {hashes : RequestId → List BlockHash} {m m' : SingleTypeKVCacheManager} {r : RequestId}

theorem releasedFreeable (h : Ledger pool free rest hashes [m]) {blocks removed : List BlockId}
    (hrel : Released pool.nullBlock (m.blocksOf r) blocks removed) :
    PoolInv.Freeable pool removed := by
  apply h.freeable (mem_singleton_self m) hrel.mem
  intro b hb
  have := hrel.count b hb
  omega

theorem released (h : Ledger pool free rest hashes [m]) {blocks removed : List BlockId}
    (hrel : Released pool.nullBlock (m.blocksOf r) blocks removed)
    (hres : PoolResult pool pool' free' (fun b => pool.refCnt b - removed.count b)
      pool.blockHash) :
    Shrunk rest hashes pool m pool' (m.setBlocks r blocks) :=
  ⟨⟨free', h.release hres hrel.sub hrel.count⟩, hres.config, hres.blockHash, hrel.shrinks⟩

theorem baseRemoveSkippedBlocks (h : Ledger pool free rest hashes [m]) {n : ℕ}
    (hr : m.baseRemoveSkippedBlocks pool r n = .ok (m', pool')) :
    Shrunk rest hashes pool m pool' m' := by
  unfold SingleTypeKVCacheManager.baseRemoveSkippedBlocks at hr
  split_ifs at hr with hskip
  · obtain ⟨rfl, rfl⟩ : m = m' ∧ pool = pool' := by simpa using hr
    exact Shrunk.refl h
  · have hrel := Released.skipLoop pool.nullBlock
      (Nat.min_le_right (m.numSkippedBlocks n) (m.blocksOf r).length)
    obtain ⟨pool₂, free₂, hfree, hres⟩ := h.inv.freeByHash (h.releasedFreeable hrel)
    simp only [hfree, bind_eq_ok, pure_eq_ok, Except.ok.injEq] at hr
    obtain ⟨_, rfl, hpair⟩ := hr
    obtain ⟨rfl, rfl⟩ : _ = m' ∧ _ = pool' := Prod.mk.inj hpair
    exact h.released hrel hres

theorem freeLastState (h : Ledger pool free rest hashes [m]) {n : ℕ}
    (hr : m.freeLastState pool r n = .ok (m', pool')) : Shrunk rest hashes pool m pool' m' := by
  have hsame (hpair : (m, pool) = (m', pool')) : Shrunk rest hashes pool m pool' m' := by
    cases hpair
    exact Shrunk.refl h
  unfold SingleTypeKVCacheManager.freeLastState at hr
  split at hr
  · exact hsame (by simpa using hr)
  · rename_i lastStateBlockIdx hlast
    split_ifs at hr with hbehind
    · dsimp only at hr
      split at hr
      · simp at hr
      · rename_i index hindex
        have hlt : index < (m.blocksOf r).length := by
          unfold pyIndex at hindex
          dsimp only at hindex
          split_ifs at hindex <;> simp only [Option.some.injEq] at hindex <;> omega
        split_ifs at hr with hnull
        · have hrel := Released.set pool.nullBlock hlt
          obtain ⟨pool₂, hfree, hres⟩ := h.inv.freeBlocks (h.releasedFreeable hrel) false
          simp only [hfree, bind_eq_ok, pure_eq_ok, Except.ok.injEq] at hr
          obtain ⟨_, rfl, hpair⟩ := hr
          cases hpair
          rw [hres.config.nullBlock]
          exact h.released hrel hres
        · exact hsame (by simpa using hr)
    · exact hsame (by simpa using hr)

theorem removeSkippedBlocks (h : Ledger pool free rest hashes [m]) {n : ℕ}
    (hr : m.removeSkippedBlocks pool r n = .ok (m', pool')) :
    Shrunk rest hashes pool m pool' m' := by
  unfold SingleTypeKVCacheManager.removeSkippedBlocks at hr
  split at hr
  · rename_i mode numSpeculativeBlocks hkind
    simp only [bind_eq_ok] at hr
    obtain ⟨⟨m₁, pool₁⟩, hbase, hr⟩ := hr
    have hshrunk := h.baseRemoveSkippedBlocks hbase
    split_ifs at hr with hmode
    · obtain ⟨free₁, hledger⟩ := hshrunk.ledger
      exact hshrunk.trans (hledger.freeLastState hr)
    · obtain ⟨rfl, rfl⟩ : m₁ = m' ∧ pool₁ = pool' := by simpa using hr
      exact hshrunk
  · exact h.baseRemoveSkippedBlocks hr

theorem freeAll (h : Ledger pool free rest hashes [m])
    (hres : PoolResult pool pool' free'
      (fun b => pool.refCnt b - (m.blocksOf r).reverse.count b) pool.blockHash) :
    Ledger pool' free' rest hashes [m.forget r] := by
  have hledger : Ledger pool' free' rest hashes [m.setBlocks r []] := by
    apply h.release hres
    · intro i b hget
      simp at hget
    · intro b _
      simp
  exact hledger.sameTables (.forget m r)

theorem free_ok (h : Ledger pool free rest hashes [m]) (hr : m.free pool r = .ok (m', pool')) :
    (∃ free', Ledger pool' free' rest hashes [m']) ∧ SameConfig pool pool' ∧
      pool'.blockHash = pool.blockHash ∧ SameSetup m m' ∧
      (∀ r', m'.blocksOf r' = (m.forget r).blocksOf r') ∧
      (∀ n, m.kvCacheSpec.kind = .mamba .align n →
        m'.allocatedBlockReqs = m.allocatedBlockReqs.filter (· ≠ r)) := by
  have hfreeable : PoolInv.Freeable pool (m.blocksOf r).reverse := by
    apply h.freeable (mem_singleton_self m) (fun b hb => mem_reverse.mp hb)
    intro b _
    rw [count_reverse]
  have hforget : SameSetup m (m.forget r) :=
    ⟨Eq.refl _, Eq.refl _, Eq.refl _, Eq.refl _, Eq.refl _, Eq.refl _⟩
  unfold SingleTypeKVCacheManager.free at hr
  split at hr
  · rename_i w hkind
    obtain ⟨pool₂, free₂, hfree, hres⟩ := h.inv.freeByHash hfreeable
    simp only [hfree, bind_eq_ok, pure_eq_ok, Except.ok.injEq] at hr
    obtain ⟨_, rfl, hpair⟩ := hr
    cases hpair
    exact ⟨⟨free₂, h.freeAll hres⟩, hres.config, hres.blockHash, hforget, fun _ => rfl,
      fun n hn => by simp [hkind] at hn⟩
  · obtain ⟨pool₂, hfree, hres⟩ := h.inv.freeBlocks hfreeable false
    simp only [hfree, bind_eq_ok, pure_eq_ok, Except.ok.injEq] at hr
    obtain ⟨_, rfl, hpair⟩ := hr
    cases hpair
    refine ⟨⟨_, (h.freeAll hres).sameTables (.of_reqToBlocks rfl rfl rfl)⟩, hres.config,
      hres.blockHash, ⟨rfl, rfl, rfl, rfl, rfl, rfl⟩, fun _ => rfl, fun n _ => rfl⟩
  · rename_i hnot
    obtain ⟨pool₂, hfree, hres⟩ := h.inv.freeBlocks hfreeable false
    simp only [hfree, bind_eq_ok, pure_eq_ok, Except.ok.injEq] at hr
    obtain ⟨_, rfl, hpair⟩ := hr
    cases hpair
    exact ⟨⟨_, h.freeAll hres⟩, hres.config, hres.blockHash, hforget, fun _ => rfl,
      fun n hn => absurd hn (hnot n)⟩

theorem drawn_held (h : Ledger pool free rest hashes [m]) {new : List BlockId}
    (hnew : ∀ b ∈ new, b ∈ free) {b : BlockId} (hheld : 0 < rest b ∨ 0 < m.refs b) :
    clearHashes pool.blockHash new b = pool.blockHash b := by
  rw [clearHashes, if_neg]
  intro hmem
  obtain ⟨-, hrest, hrefs⟩ := h.free_unheld (hnew b hmem)
  rw [heldBy_singleton] at hrefs
  omega

end Ledger

end Vllm
