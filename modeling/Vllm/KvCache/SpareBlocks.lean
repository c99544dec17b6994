import Vllm.KvCache.AllocationInvariant

/-! The speculative blocks of a mamba manager in `align` mode stay free of hashes from one
call to the next: allocation makes room for them and caching stops before them. -/
namespace Vllm
open SingleTypeKVCacheManager

/-- A request without blocks, or one with spare blocks at the end of its table. -/
def SpareAt (pool : BlockPool) (m : SingleTypeKVCacheManager) (numSpec : ℕ) (r : RequestId) :
    Prop :=
  m.blocksOf r = [] ∧ r ∉ m.allocatedBlockReqs ∨
    r ∈ m.allocatedBlockReqs ∧ SpareBlocks pool m numSpec r

/-- The property `p` of the number of speculative blocks, for managers that move them. -/
def InAlignMode (m : SingleTypeKVCacheManager) (p : ℕ → Prop) : Prop :=
  ∀ numSpec, m.kvCacheSpec.kind = .mamba .align numSpec → 0 < numSpec → p numSpec

def SpareInv (pool : BlockPool) (m : SingleTypeKVCacheManager) : Prop :=
  InAlignMode m fun numSpec => ∀ r, SpareAt pool m numSpec r

/-- Between `allocate_new_computed_blocks` and `allocate_new_blocks`. -/
def SparePending (r : RequestId) (numTokens : ℕ) (pool : BlockPool)
    (m : SingleTypeKVCacheManager) : Prop :=
  InAlignMode m fun numSpec => ∀ r', SpareAt pool m numSpec r' ∨
    r' = r ∧ r ∉ m.allocatedBlockReqs ∧ (m.blocksOf r).length ≤ cdiv numTokens m.blockSize

/-- Between `allocate_new_blocks` and `cache_blocks`. -/
def SpareCovered (r : RequestId) (numTokens : ℕ) (pool : BlockPool)
    (m : SingleTypeKVCacheManager) : Prop :=
  SpareInv pool m ∧ InAlignMode m fun numSpec =>
    cdiv numTokens m.blockSize + numSpec ≤ (m.blocksOf r).length

theorem InAlignMode.mono {m m' : SingleTypeKVCacheManager} {p q : ℕ → Prop}
    (h : InAlignMode m p) (hspec : m'.kvCacheSpec = m.kvCacheSpec)
    (hpq : ∀ n, m.kvCacheSpec.kind = .mamba .align n → 0 < n → p n → q n) : InAlignMode m' q := by
  intro n hkind hn
  rw [hspec] at hkind
  exact hpq n hkind hn (h n hkind hn)

section
variable {pool pool' : BlockPool} {m m' : SingleTypeKVCacheManager} {r : RequestId} {n : ℕ}

section
variable (hcfg : SameConfig pool pool')
  (hhash : ∀ b, b ≠ pool.nullBlock → 0 < m.refs b → pool'.blockHash b = pool.blockHash b)
include hcfg hhash

theorem SpareBlocks.congr (h : SpareBlocks pool m n r) (hblocks : m'.blocksOf r = m.blocksOf r) :
    SpareBlocks pool' m' n r := by
  unfold SpareBlocks
  rw [hblocks]
  refine ⟨h.1, fun i b hi hget hb => ?_⟩
  rw [hcfg.nullBlock] at hb
  rw [hhash b hb (refs_pos_of_mem (List.mem_of_getElem? hget))]
  exact h.2 i b hi hget hb

theorem SpareAt.congr (h : SpareAt pool m n r) (hblocks : m'.blocksOf r = m.blocksOf r)
    (halloc : r ∈ m'.allocatedBlockReqs ↔ r ∈ m.allocatedBlockReqs) : SpareAt pool' m' n r := by
  rcases h with ⟨hempty, hnot⟩ | ⟨hmem, hspare⟩
  · exact .inl ⟨hblocks.trans hempty, fun hm => hnot (halloc.mp hm)⟩
  · exact .inr ⟨halloc.mpr hmem, hspare.congr hcfg hhash hblocks⟩

theorem SpareInv.congr (h : SpareInv pool m) : SpareInv pool' m :=
  InAlignMode.mono h rfl fun _ _ _ hp r' => (hp r').congr hcfg hhash rfl Iff.rfl

theorem SparePending.congr {numTokens : ℕ} (h : SparePending r numTokens pool m) :
    SparePending r numTokens pool' m :=
  InAlignMode.mono h rfl fun _ _ _ hp r' =>
    (hp r').imp_left fun hat => hat.congr hcfg hhash rfl Iff.rfl

theorem SpareCovered.congr {numTokens : ℕ} (h : SpareCovered r numTokens pool m) :
    SpareCovered r numTokens pool' m :=
  ⟨h.1.congr hcfg hhash, h.2⟩

end

theorem SpareInv.shrinks (h : SpareInv pool m) (hs : Shrinks pool.nullBlock m m')
    (hcfg : SameConfig pool pool') (hhash : pool'.blockHash = pool.blockHash) :
    SpareInv pool' m' := by
  refine InAlignMode.mono h hs.setup.spec fun n _ _ hp r' => ?_
  rcases hp r' with ⟨hempty, hnot⟩ | ⟨hmem, hlen, hnone⟩
  · refine .inl ⟨List.eq_nil_of_length_eq_zero ?_, by rw [hs.allocated]; exact hnot⟩
    rw [hs.length, hempty]
    rfl
  · refine .inr ⟨by rw [hs.allocated]; exact hmem, by rw [hs.length]; exact hlen, ?_⟩
    intro i b hi hget hb
    rw [hs.length] at hi
    rw [hcfg.nullBlock] at hb
    rw [hhash]
    exact hnone i b hi ((hs.sub r' i b hget).resolve_left hb) hb

end

namespace Ledger
variable {pool pool' : BlockPool} {free free' : List BlockId} {rest : BlockId → ℕ}
  {hashes : RequestId → List BlockHash} {m m' : SingleTypeKVCacheManager} {r : RequestId}

theorem free_spare (h : Ledger pool free rest hashes [m]) (hs : SpareInv pool m)
    (hr : m.free pool r = .ok (m', pool')) : SpareInv pool' m' := by
  obtain ⟨-, hcfg, hhash, hsetup, hblocks, halloc⟩ := h.free_ok hr
  refine InAlignMode.mono hs hsetup.spec fun n hkind _ hp r' => ?_
  have hmem : r' ∈ m'.allocatedBlockReqs ↔ r' ∈ m.allocatedBlockReqs ∧ r' ≠ r := by
    rw [halloc n hkind, List.mem_filter, decide_eq_true_eq]
  by_cases hrr : r' = r
  · refine .inl ⟨?_, fun hm => (hmem.mp hm).2 hrr⟩
    rw [hblocks, blocksOf_forget, if_pos hrr]
  · apply (hp r').congr
    · exact hcfg
    · intro b _ _
      rw [hhash]
    · rw [hblocks, blocksOf_forget, if_neg hrr]
    · simp [hmem, hrr]

variable {numTokens numTokensMain : ℕ}

section
variable (h : Ledger pool free rest hashes [m])
include h

theorem computed_spare (hs : SpareInv pool m) {tableLength : ℕ} {taken : List BlockId × ℤ}
    (hres : ComputedResult rest hashes pool m free r tableLength taken pool' m')
    (hfit : InAlignMode m fun _ => m.isNew r = true →
      tableLength + taken.2.toNat ≤ cdiv numTokens m.blockSize) :
    SparePending r numTokens pool' m' := by
  have hheld : ∀ b, b ≠ pool.nullBlock → 0 < m.refs b → pool'.blockHash b = pool.blockHash b := by
    intro b _ hrefs
    rw [hres.blockHash]
    apply h.drawn_held _ (.inr hrefs)
    intro b hb
    exact (List.mem_filter.mp (List.mem_of_mem_take hb)).1
  refine InAlignMode.mono hs hres.setup.spec fun n hkind hn hp r' => ?_
  by_cases hrr : r' = r
  · subst hrr
    rcases hres.own with rfl | ⟨hnew, hempty, hlen⟩
    · exact .inl ((hp r').congr hres.config hheld rfl Iff.rfl)
    · rcases hp r' with ⟨-, hnot⟩ | ⟨-, hlenSpare, -⟩
      · refine .inr ⟨rfl, by rw [hres.allocated]; exact hnot, ?_⟩
        rw [hlen, hres.setup.blockSize]
        exact hfit n hkind hn hnew
      · rw [hempty] at hlenSpare
        simp only [List.length_nil] at hlenSpare
        omega
  · exact .inl ((hp r').congr hres.config hheld (hres.others r' hrr) (by rw [hres.allocated]))

theorem alignAllocate_spare {n : ℕ} (hkind : m.kvCacheSpec.kind = .mamba .align n)
    (hs : SparePending r numTokens pool m) {new : List BlockId}
    (hr : m.alignAllocateNewBlocks pool n r numTokens = .ok (new, m', pool')) :
    DrawResult rest hashes pool m r pool' m' ∧ SpareCovered r numTokens pool' m' := by
  have hspare (hmem : r ∈ m.allocatedBlockReqs) : SpareBlocks pool m n r := by
    rcases Nat.eq_zero_or_pos n with rfl | hn
    · refine ⟨Nat.zero_le _, fun i b hi hget _ => ?_⟩
      have := (List.getElem?_eq_some_iff.mp hget).1
      omega
    · rcases hs n hkind hn r with (⟨-, hnot⟩ | ⟨-, hspare⟩) | ⟨-, hnot, -⟩
      · exact absurd hmem hnot
      · exact hspare
      · exact absurd hmem hnot
  obtain ⟨hdraw, hcase⟩ := h.alignAllocateNewBlocks hspare hr
  refine ⟨hdraw, ?_⟩
  have hrefs : ∀ b, b ≠ pool.nullBlock → 0 < m.refs b → pool'.blockHash b = pool.blockHash b :=
    fun b hb hheld => hdraw.held b hb (.inr hheld)
  rcases hcase with ⟨hle, rfl, rfl⟩ | ⟨hlt, halloc, hlen, hplace⟩
  · have hsame := SameTables.setBlocks_self m r
    refine ⟨InAlignMode.mono hs rfl fun k hk hpos hp r' => ?_, InAlignMode.mono hs rfl
      fun k hk _ _ => ?_⟩
    · obtain rfl : n = k := by simpa [hkind] using hk
      rcases hp r' with hat | ⟨rfl, -, hshort⟩
      · exact hat.congr hdraw.config hrefs (hsame.blocksOf r').symm Iff.rfl
      · omega
    · obtain rfl : n = k := by simpa [hkind] using hk
      rw [← hsame.blocksOf r]
      exact hle
  · refine ⟨InAlignMode.mono hs hdraw.setup.spec fun k hk hpos hp r' => ?_,
      InAlignMode.mono hs hdraw.setup.spec fun k hk _ _ => ?_⟩
    · obtain rfl : n = k := by simpa [hkind] using hk
      by_cases hrr : r' = r
      · subst hrr
        refine .inr ⟨by simp [halloc], by omega, fun i b hi hget hb => ?_⟩
        rw [hdraw.config.nullBlock] at hb
        rcases hplace i b hget hb with hold | hnone
        · have hi' := (List.getElem?_eq_some_iff.mp hold).1
          rw [hrefs b hb (refs_pos_of_mem (List.mem_of_getElem? hold))]
          rcases hp r' with (⟨hempty, -⟩ | ⟨-, hspareBlocks⟩) | ⟨-, -, hshort⟩
          · simp [hempty] at hi'
          · exact hspareBlocks.2 i b (by omega) hold hb
          · omega
        · exact hnone
      · rcases hp r' with hat | ⟨hrr', -⟩
        · exact hat.congr hdraw.config hrefs (hdraw.others r' hrr) (by simp [halloc, hrr])
        · exact absurd hrr' hrr
    · obtain rfl : n = k := by simpa [hkind] using hk
      rw [hdraw.setup.blockSize, hlen]

/-- `allocate_new_blocks` keeps the ledger and makes room for the speculative blocks. -/
theorem allocateNewBlocks (hs : SparePending r numTokensMain pool m) {new : List BlockId}
    (hr : m.allocateNewBlocks pool r numTokens numTokensMain = .ok (new, m', pool')) :
    DrawResult rest hashes pool m r pool' m' ∧ SpareCovered r numTokensMain pool' m' := by
  have hother (hdraw : DrawResult rest hashes pool m r pool' m')
      (hkind : ∀ n, m.kvCacheSpec.kind ≠ .mamba .align n) :
      SpareCovered r numTokensMain pool' m' :=
    ⟨fun n hn => absurd (hdraw.setup.spec ▸ hn) (hkind n),
      fun n hn => absurd (hdraw.setup.spec ▸ hn) (hkind n)⟩
  unfold SingleTypeKVCacheManager.allocateNewBlocks at hr
  split at hr
  · rename_i n hkind
    exact h.alignAllocate_spare hkind hs hr
  · rename_i mode n hnot hkind
    have hdraw := h.baseAllocateNewBlocks hr
    refine ⟨hdraw, hother hdraw fun k hk => ?_⟩
    rw [hkind] at hk
    simp only [SpecKind.mamba.injEq] at hk
    exact hnot hk.1
  · rename_i hnot hnot'
    have hdraw := h.baseAllocateNewBlocks hr
    exact ⟨hdraw, hother hdraw fun k hk => hnot k hk⟩

variable {request : Request} {retentionInterval : Option ℕ}

theorem baseCacheBlocks (hc : pool.enableCaching = true)
    (hreq : hashes request.requestId = request.blockHashes) (hle : numTokens ≤ numTokensMain)
    (hs : SpareCovered request.requestId numTokensMain pool m)
    (hr : m.baseCacheBlocks pool request numTokens retentionInterval = .ok (m', pool')) :
    (∃ free', Ledger pool' free' rest hashes [m']) ∧ Frame rest pool pool' ∧ SameSetup m m' ∧
      SpareInv pool' m' := by
  unfold SingleTypeKVCacheManager.baseCacheBlocks at hr
  dsimp only at hr
  split_ifs at hr with hcached
  · obtain ⟨rfl, rfl⟩ : m = m' ∧ pool = pool' := by simpa using hr
    exact ⟨⟨free, h⟩, Frame.rfl, SameSetup.rfl, hs.1⟩
  · simp only [Raises.bind_eq_ok, Raises.pure_eq_ok, Prod.mk.injEq] at hr
    obtain ⟨mask, -, pool₂, hcache, rfl, rfl⟩ := hr
    obtain ⟨hledger, hframe, hnew⟩ := h.cache hc hreq hcache
    refine ⟨⟨free, hledger.sameTables (.of_reqToBlocks rfl rfl rfl)⟩, hframe,
      ⟨rfl, rfl, rfl, rfl, rfl, rfl⟩, InAlignMode.mono hs.1 rfl fun n hkind hn hp r' => ?_⟩
    rcases hp r' with hempty | ⟨hmem, hlen, hnone⟩
    · exact .inl hempty
    · refine .inr ⟨hmem, hlen, fun i b hi hget hb => ?_⟩
      change (m.blocksOf r').length - n ≤ i at hi
      rw [hframe.config.nullBlock] at hb
      have hb0 := hnone i b hi hget hb
      by_contra hchanged
      have hne : pool₂.blockHash b ≠ pool.blockHash b := by
        rw [hb0]
        exact hchanged
      obtain ⟨j, hj, hgetj⟩ := hnew b hb hne
      by_cases hrr : r' = request.requestId
      · subst hrr
        have hij := index_unique (h.count_le_one (List.mem_singleton_self m) hb _) hget hgetj
        have hcov := hs.2 n hkind hn
        have hdiv : numTokens / m.blockSize ≤ cdiv numTokensMain m.blockSize := by
          have hpos := m.blockSize_pos
          apply Nat.div_le_div_right
          omega
        omega
      · exact h.hashed_of_held_twice hb (List.mem_of_getElem? hgetj)
          (.inr ⟨r', hrr, List.mem_of_getElem? hget⟩) hb0

theorem cacheBlocks (hc : pool.enableCaching = true)
    (hreq : hashes request.requestId = request.blockHashes) (hle : numTokens ≤ numTokensMain)
    (hs : SpareCovered request.requestId numTokensMain pool m)
    (hr : m.cacheBlocks pool request numTokens retentionInterval = .ok (m', pool')) :
    (∃ free', Ledger pool' free' rest hashes [m']) ∧ Frame rest pool pool' ∧ SameSetup m m' ∧
      SpareInv pool' m' := by
  unfold SingleTypeKVCacheManager.cacheBlocks at hr
  split at hr
  · simp at hr
  · simp only [Raises.bind_eq_ok, Raises.pure_eq_ok, Prod.mk.injEq] at hr
    obtain ⟨⟨m₁, pool₁⟩, hbase, keys, -, rfl, rfl⟩ := hr
    obtain ⟨⟨free₁, hledger⟩, hframe, hsetup, hspare⟩ := h.baseCacheBlocks hc hreq hle hs hbase
    exact ⟨⟨free₁, hledger.sameTables (.of_reqToBlocks rfl rfl rfl)⟩, hframe,
      hsetup.trans ⟨rfl, rfl, rfl, rfl, rfl, rfl⟩, hspare⟩
  · exact h.baseCacheBlocks hc hreq hle hs hr

end

end Ledger

end Vllm
