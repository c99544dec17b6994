import Vllm.KvCache.LookupSpec
import Vllm.KvCache.SharedBooks
import Vllm.Sched.Runs

/-! The common prefix of all requests with blocks, inferred from reference counts. It is right
exactly when no other holder's reference stands in for a request. -/
namespace Vllm
open Raises List

/-- The elements that `takeWhile` keeps. -/
theorem lt_length_takeWhile_iff {α : Type} (p : α → Bool) (l : List α) (i : ℕ) :
    i < (l.takeWhile p).length ↔ i < l.length ∧ ∀ j ≤ i, ∀ a, l[j]? = some a → p a = true := by
  induction l generalizing i with
  | nil => simp
  | cons a l ih =>
    by_cases hp : p a = true
    · rw [takeWhile_cons_of_pos hp, length_cons, length_cons]
      cases i with
      | zero => simp [hp]
      | succ i =>
        rw [Nat.add_lt_add_iff_right, ih, Nat.add_lt_add_iff_right]
        constructor
        · rintro ⟨hlt, hall⟩
          refine ⟨hlt, ?_⟩
          intro j hj a' hget
          cases j with
          | zero =>
            obtain rfl : a = a' := by simpa using hget
            exact hp
          | succ j => exact hall j (by omega) a' (by simpa using hget)
        · rintro ⟨hlt, hall⟩
          exact ⟨hlt, fun j hj a' hget => hall (j + 1) (by omega) a' (by simpa using hget)⟩
    · rw [takeWhile_cons_of_neg hp]
      constructor
      · intro h
        cases h
      · rintro ⟨-, hall⟩
        exact absurd (hall 0 (Nat.zero_le i) a rfl) hp

namespace SingleTypeKVCacheManager

/-- Only full attention counts the blocks that are referenced once for every request. -/
def getNumCommonPrefixBlocks (m : SingleTypeKVCacheManager) (pool : BlockPool)
    (runningRequestId : RequestId) : ℕ :=
  match m.kvCacheSpec.kind with
  | .fullAttention _ => ((m.blocksOf runningRequestId).takeWhile fun block =>
      pool.refCnt block = m.reqToBlocks.size).length
  | _ => 0

/-- A read of the `defaultdict`, which makes an entry for a new request. -/
def readBlocks (m : SingleTypeKVCacheManager) (requestId : RequestId) :
    SingleTypeKVCacheManager := m.setBlocks requestId (m.blocksOf requestId)

variable {m : SingleTypeKVCacheManager} {pool pool' : BlockPool} {r : RequestId}

section
variable (hfull : m.kvCacheSpec.isFullAttention = true)
include hfull

theorem numSkippedBlocks_full (n : ℤ) : m.getNumSkippedTokens n = 0 ∧ m.numSkippedBlocks n = 0 := by
  have hzero : m.getNumSkippedTokens n = 0 := by
    unfold KVCacheSpec.isFullAttention at hfull
    unfold getNumSkippedTokens
    split at hfull
    · next hkind => rw [hkind]
    · cases hfull
  refine ⟨hzero, ?_⟩
  rw [numSkippedBlocks, hzero]
  simp

theorem isFullAttention_kind : ∃ c, m.kvCacheSpec.kind = .fullAttention c := by
  unfold KVCacheSpec.isFullAttention at hfull
  split at hfull
  · exact ⟨_, ‹_›⟩
  · cases hfull

theorem keptHits_full (total : ℕ) (hits : List BlockId) : m.keptHits total hits = hits := by
  rw [keptHits, (numSkippedBlocks_full hfull _).2, drop_zero]

theorem hitTable_full (nullBlock : BlockId) (total : ℕ) (hits : List BlockId) :
    m.hitTable nullBlock total hits = hits := by
  rw [hitTable, keptHits_full hfull, (numSkippedBlocks_full hfull _).2]
  rfl

theorem keptExternalTokens_full (loc ext : ℕ) : m.keptExternalTokens loc ext = ext := by
  unfold keptExternalTokens
  simp only [(numSkippedBlocks_full hfull _).2]
  rfl

theorem externalDraw_full {hits : List BlockId} {loc ext : ℕ}
    (hloc : hits.length * m.blockSize ≤ loc) (nullBlock : BlockId) :
    0 ≤ m.externalDraw nullBlock hits loc ext := by
  unfold externalDraw
  simp only [hitTable_full hfull]
  split_ifs with hmore
  · rw [keptExternalTokens_full hfull] at hmore
    have hlt : hits.length < cdiv (loc + ext) m.blockSize := by
      apply (GridLoop.lt_ceilDiv_iff m.blockSize_pos).mpr
      omega
    omega
  · exact le_refl 0

end

end SingleTypeKVCacheManager

theorem SameTables.symm_setBlocks (m : SingleTypeKVCacheManager) (r : RequestId) :
    SameTables m (m.setBlocks r (m.blocksOf r)) := by
  have hself := SameTables.setBlocks_self m r
  exact ⟨fun r' => (hself.blocksOf r').symm, fun b => (hself.refs b).symm, rfl, rfl⟩

namespace SharedBooks
open SingleTypeKVCacheManager
variable {level : BlockHash → ℕ} {pool pool' : BlockPool} {rest : BlockId → ℕ}
  {m m' : SingleTypeKVCacheManager} {r : RequestId}

section
variable (h : SharedBooks level pool rest m)
include h

theorem drawNewBlocks {n : ℤ} (hn : 0 ≤ n) {blocks new : List BlockId}
    (hblocks : m.blocksOf r = blocks) (hr : pool.getNewBlocks n = .ok (new, pool')) :
    SharedBooks level pool' rest ((m.setBlocks r (blocks ++ new)).recordNewBlocks new) ∧
      SameSetup m ((m.setBlocks r (blocks ++ new)).recordNewBlocks new) ∧
      SameConfig pool pool' := by
  rcases h.inv with ⟨free, hinv⟩
  rcases Ledger.getNewBlocks_eq hinv hn hr with ⟨-, -, hres⟩
  have hdrawn := h.draw (r := r) hn hr
  rw [hblocks] at hdrawn
  exact ⟨hdrawn.sameTables (.recordNewBlocks _ new),
    (SameSetup.setBlocks m r _).trans (.recordNewBlocks _ new), hres.config⟩

theorem allocateNewComputedBlocks (hfull : m.kvCacheSpec.isFullAttention = true)
    {hits : List BlockId} {loc ext : ℕ}
    (hhits : ∀ (i : ℕ) b, hits[i]? = some b → ∃ key, pool.blockHash b = some key ∧
      level key.blockHash = i)
    (hloc : hits.length * m.blockSize ≤ loc)
    (hr : m.allocateNewComputedBlocks pool r hits loc ext = .ok (m', pool')) :
    SharedBooks level pool' rest m' ∧ SameSetup m m' ∧ SameConfig pool pool' := by
  unfold SingleTypeKVCacheManager.allocateNewComputedBlocks at hr
  by_cases hold : m.kvCacheSpec.isCrossAttention = true ∨ m.numCachedBlock.contains r = true
  · rw [if_pos hold] at hr
    simp only [bind_eq_ok, require_eq_ok, pure_eq_ok, Prod.mk.injEq] at hr
    rcases hr with ⟨-, -, rfl, rfl⟩
    exact ⟨h, .rfl, .rfl⟩
  · rw [if_neg hold] at hr
    simp only [bind_eq_ok, require_eq_ok, keptHits_full hfull, hitTable_full hfull] at hr
    rcases hr with ⟨-, hempty, pool₁, hpool₁, hr⟩
    rw [length_eq_zero_iff] at hempty
    have htouched : SharedBooks level pool₁ rest (m.setBlocks r hits) ∧ SameConfig pool pool₁ := by
      split_ifs at hpool₁ with hcaching
      · rcases h.inv with ⟨free, hinv⟩
        have hlt : ∀ b ∈ hits, b < pool.numGpuBlocks := by
          intro b hb
          rcases mem_iff_getElem?.mp hb with ⟨i, hi⟩
          rcases hhits i b hi with ⟨key, hkey, -⟩
          apply (hinv.hash_lt b _).1
          rw [hkey]
          exact Option.some_ne_none key
        rcases hinv.touch hlt with ⟨pool₂, htouch, hres⟩
        obtain rfl := Except.ok.inj (htouch.symm.trans hpool₁)
        exact ⟨h.touch hempty hhits hpool₁, hres.config⟩
      · simp only [bind_eq_ok, require_eq_ok, pure_eq_ok] at hpool₁
        rcases hpool₁ with ⟨-, hnil, rfl⟩
        constructor
        · rw [hnil, ← hempty]
          exact h.sameTables (.symm_setBlocks m r)
        · exact .rfl
    rcases htouched with ⟨hbooks, hcfg⟩
    split_ifs at hr with hmore
    · simp only [bind_eq_ok, pure_eq_ok, Prod.mk.injEq] at hr
      rcases hr with ⟨⟨new, pool₂⟩, hget, rfl, rfl⟩
      have hcount : 0 ≤ m.externalDraw pool₁.nullBlock hits loc ext :=
        externalDraw_full hfull hloc _
      have hmarked : SharedBooks level pool₁ rest { m.setBlocks r hits with
          numCachedBlock := m.numCachedBlock.set r hits.length } :=
        hbooks.sameTables (.of_reqToBlocks rfl rfl rfl)
      have hhits : (m.setBlocks r hits).blocksOf r = hits := by
        rw [blocksOf_setBlocks, if_pos rfl]
      rcases hmarked.drawNewBlocks hcount hhits hget with ⟨hdrawn, hsetup, hcfg'⟩
      exact ⟨hdrawn, ⟨hsetup.spec, hsetup.groupId, hsetup.dcp, hsetup.pcp, hsetup.caching,
        hsetup.eagle⟩, hcfg.trans hcfg'⟩
    · simp only [pure_eq_ok, Prod.mk.injEq] at hr
      rcases hr with ⟨rfl, rfl⟩
      exact ⟨hbooks.sameTables (.of_reqToBlocks rfl rfl rfl), ⟨rfl, rfl, rfl, rfl, rfl, rfl⟩, hcfg⟩

theorem allocateNewBlocks (hfull : m.kvCacheSpec.isFullAttention = true) {n n' : ℕ}
    {new : List BlockId} (hr : m.allocateNewBlocks pool r n n' = .ok (new, m', pool')) :
    SharedBooks level pool' rest m' ∧ SameSetup m m' ∧ SameConfig pool pool' := by
  rcases isFullAttention_kind hfull with ⟨c, hkind⟩
  unfold SingleTypeKVCacheManager.allocateNewBlocks at hr
  rw [hkind] at hr
  unfold baseAllocateNewBlocks at hr
  dsimp only at hr
  split_ifs at hr with hnone
  · simp only [pure_eq_ok, Prod.mk.injEq] at hr
    rcases hr with ⟨-, rfl, rfl⟩
    exact ⟨h.sameTables (.symm_setBlocks m r), .setBlocks m r _, .rfl⟩
  · simp only [bind_eq_ok, pure_eq_ok, Prod.mk.injEq] at hr
    rcases hr with ⟨⟨new₁, pool₁⟩, hget, -, rfl, rfl⟩
    exact h.drawNewBlocks (not_le.mp hnone).le rfl hget

theorem cacheBlocks (hfull : m.kvCacheSpec.isFullAttention = true) (hc : pool.enableCaching = true)
    {request : Request} {n : ℕ} {retentionInterval : Option ℕ}
    (hhashes : ∀ (i : ℕ) hash, (pool.requestHashes request m.blockSize)[i]? = some hash →
      level hash = i)
    (hr : m.cacheBlocks pool request n retentionInterval = .ok (m', pool')) :
    SharedBooks level pool' rest m' ∧ SameSetup m m' ∧ SameConfig pool pool' := by
  rcases isFullAttention_kind hfull with ⟨c, hkind⟩
  unfold SingleTypeKVCacheManager.cacheBlocks at hr
  rw [hkind] at hr
  unfold baseCacheBlocks at hr
  dsimp only at hr
  split_ifs at hr with hnone
  · simp only [pure_eq_ok, Prod.mk.injEq] at hr
    rcases hr with ⟨rfl, rfl⟩
    exact ⟨h, .rfl, .rfl⟩
  · simp only [bind_eq_ok, pure_eq_ok, Prod.mk.injEq] at hr
    rcases hr with ⟨mask, -, pool₁, hcache, rfl, rfl⟩
    rcases h.inv with ⟨free, hinv⟩
    rcases hinv.cacheFullBlocks hc (fun b hb => (h.known _ b hb).1) hcache with ⟨-, hcfg, -⟩
    constructor
    · exact (h.cache hc hhashes hcache).sameTables (.of_reqToBlocks rfl rfl rfl)
    · exact ⟨⟨rfl, rfl, rfl, rfl, rfl, rfl⟩, hcfg⟩

theorem freeRequest (hfull : m.kvCacheSpec.isFullAttention = true)
    (hr : m.free pool r = .ok (m', pool')) :
    SharedBooks level pool' rest m' ∧ SameSetup m m' ∧ SameConfig pool pool' := by
  rcases isFullAttention_kind hfull with ⟨c, hkind⟩
  unfold SingleTypeKVCacheManager.free at hr
  rw [hkind] at hr
  simp only [bind_eq_ok, pure_eq_ok, Prod.mk.injEq] at hr
  rcases hr with ⟨pool₁, hfree, rfl, rfl⟩
  rcases h.free hfree with ⟨hbooks, hcfg⟩
  constructor
  · exact hbooks.sameTables (.forget m r)
  · exact ⟨⟨rfl, rfl, rfl, rfl, rfl, rfl⟩, hcfg⟩

end

theorem removeSkippedBlocks_full (hfull : m.kvCacheSpec.isFullAttention = true) {n : ℕ}
    (hr : m.removeSkippedBlocks pool r n = .ok (m', pool')) : m' = m ∧ pool' = pool := by
  rcases isFullAttention_kind hfull with ⟨c, hkind⟩
  unfold SingleTypeKVCacheManager.removeSkippedBlocks at hr
  rw [hkind] at hr
  unfold baseRemoveSkippedBlocks at hr
  rw [if_pos (numSkippedBlocks_full hfull _).1.le] at hr
  simp only [pure_eq_ok, Prod.mk.injEq] at hr
  exact ⟨hr.1.symm, hr.2.symm⟩

section
variable (h : SharedBooks level pool rest m)
include h

theorem clearHashes (hinv : ∃ free, PoolInv pool' free) (hcfg : SameConfig pool pool')
    (hrefs : pool'.refCnt = pool.refCnt)
    (hhash : ∀ b key, pool'.blockHash b = some key → pool.blockHash b = some key) :
    SharedBooks level pool' rest m := by
  apply h.repool hinv hcfg
  · intro b _
    rw [hrefs]
  · intro r i b key _ hkey
    exact .inl (hhash b key hkey)

/-- When a block is referenced as often as there are entries, nobody else holds it iff it stands
at the same index in the tables of all entries. -/
theorem rest_eq_zero_iff {i : ℕ} {b : BlockId} (hget : (m.blocksOf r)[i]? = some b)
    (hsize : pool.refCnt b = m.reqToBlocks.size) :
    rest b = 0 ↔ ∀ q, m.reqToBlocks.contains q = true → (m.blocksOf q)[i]? = some b := by
  have hrefs := h.refs b (h.known r b (mem_of_getElem? hget)).2
  have htable : ∀ q blocks, m.reqToBlocks.get? q = some blocks → m.blocksOf q = blocks := by
    intro q blocks hq
    rw [blocksOf, Dict.getD, hq, Option.getD_some]
  have hone : ∀ q blocks, m.reqToBlocks.get? q = some blocks → blocks.count b ≤ 1 := by
    intro q blocks hq
    rw [← htable q blocks hq]
    exact h.count_le_one q b
  have hplaces : (∀ q blocks, m.reqToBlocks.get? q = some blocks → blocks.count b = 1) ↔
      ∀ q, m.reqToBlocks.contains q = true → (m.blocksOf q)[i]? = some b := by
    constructor
    · intro hcounts q hq
      rcases Option.isSome_iff_exists.mp hq with ⟨blocks, hblocks⟩
      have hmem : b ∈ m.blocksOf q := by
        rw [htable q blocks hblocks]
        apply count_pos_iff.mp
        rw [hcounts q blocks hblocks]
        exact Nat.one_pos
      rcases mem_iff_getElem?.mp hmem with ⟨j, hj⟩
      rwa [h.placed r q i j b hget hj]
    · intro hat q blocks hblocks
      have hq : m.reqToBlocks.contains q = true := by
        rw [Dict.contains, hblocks]
        rfl
      have hmem := mem_of_getElem? (hat q hq)
      rw [htable q blocks hblocks] at hmem
      have hpos := count_pos_iff.mpr hmem
      have hle := hone q blocks hblocks
      omega
  rw [← hplaces, ← m.reqToBlocks.sumValues_eq_size_iff (List.count b) hone]
  have hsum : m.refs b = m.reqToBlocks.sumValues (List.count b) := rfl
  omega

theorem commonPrefix_iff (hfull : m.kvCacheSpec.isFullAttention = true) :
    (∀ q, m.reqToBlocks.contains q = true →
      (m.blocksOf q).take (m.getNumCommonPrefixBlocks pool r) =
        (m.blocksOf r).take (m.getNumCommonPrefixBlocks pool r)) ↔
      ∀ (i : ℕ) b, (m.blocksOf r)[i]? = some b →
        (∀ j ≤ i, ∀ b', (m.blocksOf r)[j]? = some b' → pool.refCnt b' = m.reqToBlocks.size) →
        rest b = 0 := by
  rcases isFullAttention_kind hfull with ⟨c, hkind⟩
  have hn : m.getNumCommonPrefixBlocks pool r = ((m.blocksOf r).takeWhile fun block =>
      pool.refCnt block = m.reqToBlocks.size).length := by
    unfold SingleTypeKVCacheManager.getNumCommonPrefixBlocks
    rw [hkind]
  have hcounted : ∀ i, i < m.getNumCommonPrefixBlocks pool r ↔ i < (m.blocksOf r).length ∧
      ∀ j ≤ i, ∀ b', (m.blocksOf r)[j]? = some b' → pool.refCnt b' = m.reqToBlocks.size := by
    intro i
    rw [hn, lt_length_takeWhile_iff]
    simp only [decide_eq_true_eq]
  constructor
  · intro hsame i b hget hcounts
    have hi := (hcounted i).mpr ⟨(List.getElem?_eq_some_iff.mp hget).1, hcounts⟩
    apply (h.rest_eq_zero_iff hget (hcounts i (le_refl i) b hget)).mpr
    intro q hq
    have hrow := congrArg (fun blocks => blocks[i]?) (hsame q hq)
    simp only [List.getElem?_take, if_pos hi] at hrow
    rw [hrow, hget]
  · intro hfreeOfOthers q hq
    apply ext_getElem?
    intro i
    rw [List.getElem?_take, List.getElem?_take]
    split_ifs with hi
    · rcases (hcounted i).mp hi with ⟨hlt, hcounts⟩
      have hget := List.getElem?_eq_getElem hlt
      have hrest := hfreeOfOthers i _ hget hcounts
      rw [(h.rest_eq_zero_iff hget (hcounts i (le_refl i) _ hget)).mp hrest q hq, hget]
    · rfl

end

end SharedBooks

end Vllm
