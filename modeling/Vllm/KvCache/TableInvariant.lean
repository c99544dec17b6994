import Vllm.KvCache.BlockPoolInvariant
import Vllm.KvCache.SingleTypeManager

/-! The block tables against the pool: every reference is counted, and a hashed block sits
at the index whose hash it carries. One lemma for each way in which a table changes. -/
namespace Vllm
open List Nat

/-- The hashes of a request at the granularity of a block size. -/
def hashesAt (hashBlockSize blockSize : ℕ) (blockHashes : List BlockHash) : List BlockHash :=
  if blockSize = hashBlockSize then blockHashes
  else blockHashListWithBlockSize blockHashes hashBlockSize blockSize

theorem requestHashes_eq (pool : BlockPool) (request : Request) (blockSize : ℕ) :
    pool.requestHashes request blockSize =
      hashesAt pool.hashBlockSize blockSize request.blockHashes := rfl

variable {hash : BlockHash} {hashBlockSize i blockSize hashLength : ℕ} {l l' : List BlockHash}
  {level : BlockHash → ℕ} {pool : BlockPool} {rest : BlockId → ℕ}

theorem blockHashListWithBlockSize_getElem? {blockHashes : List BlockHash} {targetBlockSize : ℕ} :
    (blockHashListWithBlockSize blockHashes hashBlockSize targetBlockSize)[i]? = some hash ↔
      i < blockHashes.length / (targetBlockSize / hashBlockSize) ∧
        scaledHash blockHashes (targetBlockSize / hashBlockSize) i = hash := by
  simp only [blockHashListWithBlockSize, List.getElem?_map, Option.map_eq_some_iff,
    List.getElem?_eq_some_iff, getElem_range, length_range, exists_prop]
  constructor
  · rintro ⟨a, ⟨hlt, rfl⟩, rfl⟩
    exact ⟨hlt, rfl⟩
  · rintro ⟨hlt, rfl⟩
    exact ⟨i, ⟨hlt, rfl⟩, rfl⟩

theorem scaledHash_extend (h : l <+: l') {s : ℕ} (hi : i < l.length / s) :
    scaledHash l' s i = scaledHash l s i := by
  obtain ⟨t, rfl⟩ := h
  have hle : i * s + s ≤ l.length := by
    have := div_mul_le_self l.length s
    have := mul_le_mul_right s (succ_le_of_lt hi)
    rw [succ_mul] at this
    omega
  simp only [scaledHash, slice]
  rw [drop_append_of_le_length (by omega), take_append_of_le_length]
  rw [length_drop]
  omega

theorem hashesAt_prefix (h : l <+: l') (hi : (hashesAt hashBlockSize blockSize l)[i]? = some hash) :
    (hashesAt hashBlockSize blockSize l')[i]? = some hash := by
  unfold hashesAt at hi ⊢
  split_ifs at hi ⊢ with hbs
  · obtain ⟨t, rfl⟩ := h
    rw [List.getElem?_append_left (List.getElem?_eq_some_iff.mp hi).1]
    exact hi
  · rw [blockHashListWithBlockSize_getElem?] at hi ⊢
    have hlen := Nat.div_le_div_right (c := blockSize / hashBlockSize) h.length_le
    exact ⟨by omega, (scaledHash_extend h hi.1).trans hi.2⟩

/-- The hashes of a chain: all of one length, each with its own place in the chain. -/
def LevelledHashes (level : BlockHash → ℕ) (hashLength : ℕ) (blockHashes : List BlockHash) :
    Prop :=
  ∀ i hash, blockHashes[i]? = some hash → level hash = i ∧ hash.length = hashLength

section
variable (h : LevelledHashes level hashLength l)
include h

theorem LevelledHashes.scaledHash_take {s : ℕ} (hs : 0 < s) (hi : i < l.length / s) :
    l[i * s]? = some ((scaledHash l s i).take hashLength) := by
  have hlt : i * s < l.length := by
    have := div_mul_le_self l.length s
    have := mul_le_mul_right s (succ_le_of_lt hi)
    rw [succ_mul] at this
    omega
  obtain ⟨s, rfl⟩ : ∃ t, s = t + 1 := ⟨s - 1, by omega⟩
  have hget : l[i * (s + 1)]? = some l[i * (s + 1)] := List.getElem?_eq_getElem hlt
  have hlen := (h _ _ hget).2
  rw [hget, scaledHash, slice, drop_eq_getElem_cons hlt]
  simp only [Nat.add_sub_cancel_left, take_succ_cons, flatten_cons]
  rw [take_append_of_le_length hlen.ge, ← hlen, take_length]

theorem LevelledHashes.index_eq (h' : LevelledHashes level hashLength l') {j : ℕ}
    (hi : (hashesAt hashBlockSize blockSize l)[i]? = some hash)
    (hj : (hashesAt hashBlockSize blockSize l')[j]? = some hash) : i = j := by
  unfold hashesAt at hi hj
  split_ifs at hi hj with hbs
  · rw [← (h _ _ hi).1, ← (h' _ _ hj).1]
  · rw [blockHashListWithBlockSize_getElem?] at hi hj
    set s := blockSize / hashBlockSize
    have hs : 0 < s := by
      rcases Nat.eq_zero_or_pos s with hz | hpos
      · rw [hz, Nat.div_zero] at hi
        omega
      · exact hpos
    have hgi := h.scaledHash_take hs hi.1
    have hgj := h'.scaledHash_take hs hj.1
    rw [hi.2] at hgi
    rw [hj.2] at hgj
    have hlevel : i * s = j * s := by rw [← (h _ _ hgi).1, ← (h' _ _ hgj).1]
    exact eq_of_mul_eq_mul_right hs hlevel

theorem LevelledHashes.nodup : (hashesAt hashBlockSize blockSize l).Nodup := by
  rw [nodup_iff_injective_get]
  intro i j hij
  have hi := List.getElem?_eq_getElem i.isLt
  have hj := List.getElem?_eq_getElem j.isLt
  rw [get_eq_getElem, get_eq_getElem] at hij
  rw [← hij] at hj
  exact Fin.ext (h.index_eq h hi hj)

end

namespace SingleTypeKVCacheManager

theorem blockSize_pos (m : SingleTypeKVCacheManager) : 0 < m.blockSize := by
  have hspec := m.kvCacheSpec.blockSize_pos
  unfold blockSize
  split_ifs with h
  · exact mul_pos hspec (by omega)
  · exact hspec

/-- The references that the tables of a manager hold. -/
def refs (m : SingleTypeKVCacheManager) (b : BlockId) : ℕ := m.reqToBlocks.sumValues (List.count b)

section
variable (m : SingleTypeKVCacheManager)
include m

theorem blocksOf_count (r : RequestId) (b : BlockId) :
    (m.blocksOf r).count b = ((m.reqToBlocks.get? r).map (List.count b)).getD 0 := by
  cases h : m.reqToBlocks.get? r <;> simp [blocksOf, Dict.getD, h]

@[simp] theorem blocksOf_setBlocks (r r' : RequestId) (blocks : List BlockId) :
    (m.setBlocks r blocks).blocksOf r' = if r' = r then blocks else m.blocksOf r' := by
  simp only [blocksOf, setBlocks, Dict.getD, Dict.get?_set]
  split_ifs <;> rfl

@[simp] theorem blocksOf_forget (r r' : RequestId) :
    (m.forget r).blocksOf r' = if r' = r then [] else m.blocksOf r' := by
  simp only [blocksOf, forget, Dict.getD, Dict.get?_erase]
  split_ifs <;> rfl

theorem refs_setBlocks (r : RequestId) (blocks : List BlockId) (b : BlockId) :
    (m.setBlocks r blocks).refs b + (m.blocksOf r).count b = m.refs b + blocks.count b := by
  rw [blocksOf_count]
  exact m.reqToBlocks.sumValues_set (List.count b) r blocks

theorem refs_forget (r : RequestId) (b : BlockId) :
    (m.forget r).refs b + (m.blocksOf r).count b = m.refs b := by
  rw [blocksOf_count]
  exact m.reqToBlocks.sumValues_erase (List.count b) r

theorem count_le_refs (r : RequestId) (b : BlockId) : (m.blocksOf r).count b ≤ m.refs b := by
  rw [blocksOf_count]
  exact m.reqToBlocks.le_sumValues (List.count b) r

theorem count_add_count_le_refs {r r' : RequestId} (h : r ≠ r') (b : BlockId) :
    (m.blocksOf r).count b + (m.blocksOf r').count b ≤ m.refs b := by
  rw [blocksOf_count, blocksOf_count]
  exact m.reqToBlocks.add_le_sumValues (List.count b) h

end

theorem refs_pos_of_mem {m : SingleTypeKVCacheManager} {r : RequestId} {b : BlockId}
    (h : b ∈ m.blocksOf r) : 0 < m.refs b :=
  (count_pos_iff.mpr h).trans_le (m.count_le_refs r b)

end SingleTypeKVCacheManager

/-- A hashed block stands at the index whose hash it carries, in its own group. -/
def Keyed (pool : BlockPool) (hashes : List BlockHash) (groupId : ℕ) (blocks : List BlockId) :
    Prop :=
  ∀ (i : ℕ) b key, blocks[i]? = some b → b ≠ pool.nullBlock → pool.blockHash b = some key →
    ∃ hash, hashes[i]? = some hash ∧ key = ⟨hash, groupId⟩

/-- The tables of one manager, for requests with the given block hashes. -/
structure TableInv (pool : BlockPool) (hashes : RequestId → List BlockHash)
    (m : SingleTypeKVCacheManager) : Prop where
  lt : ∀ r, ∀ b ∈ m.blocksOf r, b < pool.numGpuBlocks
  keyed : ∀ r, Keyed pool (hashesAt pool.hashBlockSize m.blockSize (hashes r))
    m.kvCacheGroupId (m.blocksOf r)
  nodup : ∀ r, (hashesAt pool.hashBlockSize m.blockSize (hashes r)).Nodup

/-- The references that the tables of several managers hold. -/
def heldBy (ms : List SingleTypeKVCacheManager) (b : BlockId) : ℕ := (ms.map fun m => m.refs b).sum

/-- The books of some managers: the pool counts their references and `rest` others, and a
block that is held twice has a hash. -/
structure Ledger (pool : BlockPool) (free : List BlockId) (rest : BlockId → ℕ)
    (hashes : RequestId → List BlockHash) (ms : List SingleTypeKVCacheManager) : Prop where
  inv : PoolInv pool free
  refs : ∀ b, b ≠ pool.nullBlock → pool.refCnt b = rest b + heldBy ms b
  unshared : ∀ b, b ≠ pool.nullBlock → pool.blockHash b = none → pool.refCnt b ≤ 1
  table : ∀ m ∈ ms, TableInv pool hashes m

/-- What an operation leaves alone: the hashes of blocks that others hold. -/
structure Frame (rest : BlockId → ℕ) (pool pool' : BlockPool) : Prop where
  config : SameConfig pool pool'
  hash : ∀ b, b ≠ pool.nullBlock → 0 < rest b → pool'.blockHash b = pool.blockHash b

theorem Frame.rfl : Frame rest pool pool :=
  ⟨SameConfig.rfl, fun _ _ _ => Eq.refl _⟩

theorem Frame.trans {pool' pool'' : BlockPool} (h : Frame rest pool pool')
    (h' : Frame rest pool' pool'') : Frame rest pool pool'' where
  config := h.config.trans h'.config
  hash := fun b hb hr =>
    (h'.hash b (h.config.nullBlock ▸ hb) hr).trans (h.hash b hb hr)

theorem Frame.mono {rest' : BlockId → ℕ} {pool' : BlockPool} (h : Frame rest' pool pool')
    (hle : ∀ b, rest b ≤ rest' b) : Frame rest pool pool' where
  config := h.config
  hash := fun b hb hr => h.hash b hb (hr.trans_le (hle b))

end Vllm
