import Vllm.KvCache.SpareBlocks
import Vllm.KvCache.HitSoundness

/-! The coordinator: an operation that each manager performs on its own tables keeps the
ledger of all of them, because it leaves the hashes of blocks held elsewhere alone. -/
namespace Vllm
open KVCacheCoordinator Raises List Nat

namespace Ledger
variable {pool pool' : BlockPool} {free free' : List BlockId} {rest : BlockId → ℕ}
  {hashes : RequestId → List BlockHash} {m m' : SingleTypeKVCacheManager}
  {ms : List SingleTypeKVCacheManager}

theorem focus (h : Ledger pool free rest hashes (m :: ms)) :
    Ledger pool free (fun b => rest b + heldBy ms b) hashes [m] where
  inv := h.inv
  refs := fun b hb => by
    rw [h.refs b hb, heldBy_cons, heldBy_singleton]
    push_cast
    ring
  unshared := h.unshared
  table := fun x hx => h.table x (by simp_all)

theorem next (h : Ledger pool free rest hashes (m :: ms))
    (h' : Ledger pool' free' (fun b => rest b + heldBy ms b) hashes [m'])
    (hframe : Frame (fun b => rest b + heldBy ms b) pool pool') :
    Ledger pool' free' (fun b => rest b + m'.refs b) hashes ms where
  inv := h'.inv
  refs := fun b hb => by
    rw [h'.refs b hb, heldBy_singleton]
    push_cast
    ring
  unshared := h'.unshared
  table := fun x hx => by
    apply (h.table x (by simp [hx])).congr hframe.config
    intro b hb hrefs
    apply hframe.hash b hb
    have := refs_le_heldBy hx b
    omega

theorem join (ht : TableInv pool hashes m)
    (h : Ledger pool' free' (fun b => rest b + m.refs b) hashes ms)
    (hframe : Frame (fun b => rest b + m.refs b) pool pool') :
    Ledger pool' free' rest hashes (m :: ms) where
  inv := h.inv
  refs := fun b hb => by
    rw [h.refs b hb, heldBy_cons]
    push_cast
    ring
  unshared := h.unshared
  table := fun x hx => by
    rcases mem_cons.mp hx with rfl | hx
    · apply ht.congr hframe.config
      intro b hb hrefs
      exact hframe.hash b hb (hrefs.trans_le (le_add_left _ _))
    · exact h.table x hx

end Ledger

/-- A property of a manager that only looks at the hashes of the blocks it holds. -/
def Framed (P : BlockPool → SingleTypeKVCacheManager → Prop) : Prop :=
  ∀ ⦃pool pool' : BlockPool⦄ ⦃m : SingleTypeKVCacheManager⦄, P pool m → SameConfig pool pool' →
    (∀ b, b ≠ pool.nullBlock → 0 < m.refs b → pool'.blockHash b = pool.blockHash b) → P pool' m

theorem Framed.of_frame {P : BlockPool → SingleTypeKVCacheManager → Prop} (hP : Framed P)
    {rest : BlockId → ℕ} {pool pool' : BlockPool} {m : SingleTypeKVCacheManager} (h : P pool m)
    (hframe : Frame rest pool pool') (hle : ∀ b, m.refs b ≤ rest b) : P pool' m :=
  hP h hframe.config fun b hb hrefs => hframe.hash b hb (hrefs.trans_le (hle b))

section forEach
variable {α β : Type} {op : α → BlockPool → Raises (β × BlockPool)}
  {before : α → SingleTypeKVCacheManager} {after : β → SingleTypeKVCacheManager}
  {P Q : BlockPool → SingleTypeKVCacheManager → Prop} {hashes : RequestId → List BlockHash}

/-- What an operation does to the tables of one manager. -/
def OpKeeps (hashes : RequestId → List BlockHash) (op : α → BlockPool → Raises (β × BlockPool))
    (before : α → SingleTypeKVCacheManager) (after : β → SingleTypeKVCacheManager)
    (P Q : BlockPool → SingleTypeKVCacheManager → Prop) (a : α) : Prop :=
  ∀ ⦃pool : BlockPool⦄ ⦃free : List BlockId⦄ ⦃rest : BlockId → ℕ⦄ ⦃b : β⦄ ⦃pool' : BlockPool⦄,
    Ledger pool free rest hashes [before a] → P pool (before a) → op a pool = .ok (b, pool') →
    (∃ free', Ledger pool' free' rest hashes [after b]) ∧ Frame rest pool pool' ∧
      SameSetup (before a) (after b) ∧ Q pool' (after b)

theorem forEach_keeps (hP : Framed P) (hQ : Framed Q) {as : List α}
    (hop : ∀ a ∈ as, OpKeeps hashes op before after P Q a) {pool pool' : BlockPool}
    {free : List BlockId} {rest : BlockId → ℕ} {bs : List β}
    (h : Ledger pool free rest hashes (as.map before)) (hp : ∀ a ∈ as, P pool (before a))
    (hr : forEach op as pool = .ok (bs, pool')) :
    (∃ free', Ledger pool' free' rest hashes (bs.map after)) ∧ Frame rest pool pool' ∧
      List.Forall₂ SameSetup (as.map before) (bs.map after) ∧ ∀ b ∈ bs, Q pool' (after b) := by
  induction as generalizing pool free rest bs with
  | nil =>
    obtain ⟨rfl, rfl⟩ : [] = bs ∧ pool = pool' := by
      simpa [forEach] using hr
    exact ⟨⟨free, h⟩, Frame.rfl, .nil, by simp⟩
  | cons a as ih =>
    simp only [forEach, bind_eq_ok, pure_eq_ok, Prod.mk.injEq] at hr
    obtain ⟨⟨b, pool₁⟩, hone, ⟨bs', pool₂⟩, hrest, rfl, rfl⟩ := hr
    obtain ⟨⟨free₁, hledger⟩, hframe, hsetup, hq⟩ := hop a (by simp) h.focus (hp a (by simp)) hone
    have hnext := h.next hledger hframe
    have hp' : ∀ x ∈ as, P pool₁ (before x) := by
      intro x hx
      apply hP.of_frame (hp x (by simp [hx])) hframe
      intro b'
      have := refs_le_heldBy (mem_map_of_mem (f := before) hx) b'
      omega
    obtain ⟨⟨free₂, hledger₂⟩, hframe₂, hsetup₂, hq₂⟩ :=
      ih (fun x hx => hop x (by simp [hx])) hnext hp' hrest
    refine ⟨⟨free₂, ?_⟩, ?_, .cons hsetup hsetup₂, ?_⟩
    · exact Ledger.join (hledger.table _ (by simp)) hledger₂ hframe₂
    · exact (hframe.mono fun b' => le_add_right _ _).trans (hframe₂.mono fun b' => le_add_right _ _)
    · intro x hx
      rcases mem_cons.mp hx with rfl | hx
      · exact hQ.of_frame hq hframe₂ fun b' => le_add_left _ _
      · exact hq₂ x hx

end forEach

theorem CoordinatorSetup.update {c : KVCacheCoordinator} (h : CoordinatorSetup c)
    {ms : List SingleTypeKVCacheManager} {pool : BlockPool}
    (hms : List.Forall₂ SameSetup c.singleTypeManagers ms) (hcfg : SameConfig c.blockPool pool) :
    CoordinatorSetup (c.update (ms, pool)) := by
  have hget {i : ℕ} {m' : SingleTypeKVCacheManager} (hm' : ms[i]? = some m') :
      ∃ m, c.singleTypeManagers[i]? = some m ∧ SameSetup m m' := by
    obtain ⟨hlt, rfl⟩ := List.getElem?_eq_some_iff.mp hm'
    have hlt' : i < c.singleTypeManagers.length := hms.length_eq ▸ hlt
    exact ⟨_, List.getElem?_eq_getElem hlt', hms.get hlt' hlt⟩
  refine ⟨fun i m' hm' => ?_, hcfg.enableCaching.trans h.caching,
    hcfg.hashBlockSize.trans h.hashBlockSize, fun hkind m' hm' => ?_,
    fun groups hkind g hg gid hgid m' hm' => ?_⟩
  · obtain ⟨m, hm, hs⟩ := hget hm'
    exact hs.groupId.trans (h.groupIds i m hm)
  · obtain ⟨i, hi⟩ := mem_iff_getElem?.mp hm'
    obtain ⟨m, hm, hs⟩ := hget hi
    exact hs.blockSize.trans (h.unitary hkind m (mem_of_getElem? hm))
  · obtain ⟨m, hm, hs⟩ := hget hm'
    exact hs.blockSize.trans (h.hybrid groups hkind g hg gid hgid m hm)

/-- The invariant of the coordinator, for requests with the given block hashes. In the
middle of an operation the managers satisfy another property than between two calls. -/
structure CacheInv (P : BlockPool → SingleTypeKVCacheManager → Prop) (c : KVCacheCoordinator)
    (hashes : RequestId → List BlockHash) : Prop where
  setup : CoordinatorSetup c
  ledger : ∃ free, Ledger c.blockPool free (fun _ => 0) hashes c.singleTypeManagers
  each : ∀ m ∈ c.singleTypeManagers, P c.blockPool m

theorem CacheInv.forEach {P Q : BlockPool → SingleTypeKVCacheManager → Prop} (hP : Framed P)
    (hQ : Framed Q) {c : KVCacheCoordinator} {hashes : RequestId → List BlockHash}
    (h : CacheInv P c hashes)
    {β : Type} {op : SingleTypeKVCacheManager → BlockPool → Raises (β × BlockPool)}
    (after : β → SingleTypeKVCacheManager) {bs : List β} {pool' : BlockPool}
    (hop : ∀ m ∈ c.singleTypeManagers, OpKeeps hashes op id after P Q m)
    (hr : forEach op c.singleTypeManagers c.blockPool = .ok (bs, pool')) :
    CacheInv Q (c.update (bs.map after, pool')) hashes ∧
      List.Forall₂ SameSetup c.singleTypeManagers (bs.map after) := by
  obtain ⟨free, hledger⟩ := h.ledger
  obtain ⟨hledger', hframe, hsetup, hq⟩ := forEach_keeps hP hQ hop
    (by simpa using hledger) h.each hr
  rw [map_id] at hsetup
  refine ⟨⟨h.setup.update hsetup hframe.config, hledger', fun m hm => ?_⟩, hsetup⟩
  obtain ⟨b, hb, rfl⟩ := mem_map.mp hm
  exact hq b hb

theorem spareInv_framed : Framed SpareInv := fun _ _ _ h hcfg hhash => h.congr hcfg hhash

theorem sparePending_framed (r : RequestId) (numTokens : ℕ) : Framed (SparePending r numTokens) :=
  fun _ _ _ h hcfg hhash => h.congr hcfg hhash

theorem spareCovered_framed (r : RequestId) (numTokens : ℕ) : Framed (SpareCovered r numTokens) :=
  fun _ _ _ h hcfg hhash => h.congr hcfg hhash

namespace CacheInv
variable {c c' : KVCacheCoordinator} {hashes : RequestId → List BlockHash} {r : RequestId}

theorem removeSkippedBlocks (h : CacheInv SpareInv c hashes) {n : ℕ}
    (hr : c.removeSkippedBlocks r n = .ok c') : CacheInv SpareInv c' hashes ∧
      List.Forall₂ SameSetup c.singleTypeManagers c'.singleTypeManagers := by
  simp only [KVCacheCoordinator.removeSkippedBlocks, bind_eq_ok, pure_eq_ok] at hr
  obtain ⟨⟨ms, pool'⟩, hforEach, rfl⟩ := hr
  have hkeep := h.forEach spareInv_framed spareInv_framed id (fun m _ => ?_) hforEach
  · rw [map_id] at hkeep
    exact hkeep
  · intro pool free rest m' pool' hledger hspare hop
    have hshrunk := hledger.removeSkippedBlocks hop
    exact ⟨hshrunk.ledger, hshrunk.frame, hshrunk.shrinks.setup,
      hspare.shrinks hshrunk.shrinks hshrunk.config hshrunk.blockHash⟩

theorem free (h : CacheInv SpareInv c hashes) (hr : c.free r = .ok c') :
    CacheInv SpareInv c' hashes := by
  simp only [KVCacheCoordinator.free, bind_eq_ok, pure_eq_ok] at hr
  obtain ⟨⟨ms, pool'⟩, hforEach, rfl⟩ := hr
  have hkeep := h.forEach spareInv_framed spareInv_framed id (fun m _ => ?_) hforEach
  · rw [map_id] at hkeep
    exact hkeep.1
  · intro pool free rest m' pool' hledger hspare hop
    obtain ⟨hledger', hcfg, hhash, hsetup, -⟩ := hledger.free_ok hop
    exact ⟨hledger', ⟨hcfg, fun b _ _ => congrFun hhash b⟩, hsetup, hledger.free_spare hspare hop⟩

theorem allocateNewBlocks {numTokens numTokensMain numEncoderTokens : ℕ}
    (h : CacheInv (SparePending r numTokensMain) c hashes) {new : List (List BlockId)}
    (hr : c.allocateNewBlocks r numTokens numTokensMain numEncoderTokens = .ok (new, c')) :
    CacheInv (SpareCovered r numTokensMain) c' hashes := by
  simp only [KVCacheCoordinator.allocateNewBlocks, bind_eq_ok, pure_eq_ok, Prod.mk.injEq] at hr
  obtain ⟨⟨results, pool'⟩, hforEach, -, rfl⟩ := hr
  refine (h.forEach (sparePending_framed r numTokensMain) (spareCovered_framed r numTokensMain)
    Prod.snd (fun m _ => ?_) hforEach).1
  intro pool free rest result pool' hledger hspare hop
  simp only [bind_eq_ok, pure_eq_ok, Prod.mk.injEq] at hop
  obtain ⟨⟨blocks, m', pool₁⟩, hone, rfl, rfl⟩ := hop
  obtain ⟨hdraw, hcovered⟩ := hledger.allocateNewBlocks hspare hone
  exact ⟨hdraw.ledger, hdraw.frame, hdraw.setup, hcovered⟩

theorem numTokensToCache_le (c : KVCacheCoordinator) (m : SingleTypeKVCacheManager) (n : ℕ) :
    c.numTokensToCache m n ≤ n := by
  unfold numTokensToCache
  split
  · have := div_mul_le_self n c.schedulerBlockSize
    dsimp only
    split_ifs
    · exact min_le_left _ _
    · exact this
  · exact le_refl n

theorem cacheBlocks {request : Request} {numTokens numTokensMain : ℕ}
    (h : CacheInv (SpareCovered request.requestId numTokensMain) c hashes)
    (hc : c.enableCaching = true) (hreq : hashes request.requestId = request.blockHashes)
    (hle : numTokens ≤ numTokensMain) (hr : c.cacheBlocks request numTokens = .ok c') :
    CacheInv SpareInv c' hashes := by
  simp only [KVCacheCoordinator.cacheBlocks, bind_eq_ok, pure_eq_ok] at hr
  obtain ⟨⟨ms, pool'⟩, hforEach, rfl⟩ := hr
  have hcaching : CacheInv (fun pool m => pool.enableCaching = true ∧
      SpareCovered request.requestId numTokensMain pool m) c hashes :=
    ⟨h.setup, h.ledger, fun m hm => ⟨h.setup.caching.trans hc, h.each m hm⟩⟩
  have hframed : Framed (fun pool m => pool.enableCaching = true ∧
      SpareCovered request.requestId numTokensMain pool m) := fun _ _ _ hp hcfg hhash =>
    ⟨hcfg.enableCaching.trans hp.1, hp.2.congr hcfg hhash⟩
  have hkeep := hcaching.forEach hframed spareInv_framed id (fun m _ => ?_) hforEach
  · rw [map_id] at hkeep
    exact hkeep.1
  · intro pool free rest m' pool' hledger hspare hop
    exact hledger.cacheBlocks hspare.1 hreq ((numTokensToCache_le c m _).trans hle) hspare.2 hop

end CacheInv

/-- Freeing blocks changes no hash. -/
structure SameHashes (pool pool' : BlockPool) : Prop where
  config : SameConfig pool pool'
  blockHash : pool'.blockHash = pool.blockHash

theorem SameHashes.rfl {pool : BlockPool} : SameHashes pool pool := ⟨SameConfig.rfl, Eq.refl _⟩

theorem SameHashes.trans {pool pool' pool'' : BlockPool} (h : SameHashes pool pool')
    (h' : SameHashes pool' pool'') : SameHashes pool pool'' :=
  ⟨h.config.trans h'.config, h'.blockHash.trans h.blockHash⟩

theorem freeBlocks_sameHashes {pool pool' : BlockPool} {blocks : List BlockId} {prepend : Bool}
    (hr : pool.freeBlocks blocks prepend = .ok pool') : SameHashes pool pool' := by
  simp only [BlockPool.freeBlocks, bind_eq_ok, pure_eq_ok] at hr
  obtain ⟨queue, -, rfl⟩ := hr
  exact ⟨⟨rfl, rfl, rfl, rfl⟩, rfl⟩

theorem removeSkippedBlocks_sameHashes {m m' : SingleTypeKVCacheManager} {pool pool' : BlockPool}
    {r : RequestId} {n : ℕ} (hr : m.removeSkippedBlocks pool r n = .ok (m', pool')) :
    SameHashes pool pool' := by
  have hbase {n : ℕ} {m' : SingleTypeKVCacheManager} {pool' : BlockPool}
      (hr : m.baseRemoveSkippedBlocks pool r n = .ok (m', pool')) : SameHashes pool pool' := by
    unfold SingleTypeKVCacheManager.baseRemoveSkippedBlocks at hr
    split_ifs at hr
    · obtain ⟨-, rfl⟩ : m = m' ∧ pool = pool' := by simpa using hr
      exact .rfl
    · simp only [SingleTypeKVCacheManager.freeByHash, bind_eq_ok, pure_eq_ok, Prod.mk.injEq] at hr
      obtain ⟨pool₂, ⟨pool₁, h1, h2⟩, -, rfl⟩ := hr
      exact (freeBlocks_sameHashes h1).trans (freeBlocks_sameHashes h2)
  unfold SingleTypeKVCacheManager.removeSkippedBlocks at hr
  split at hr
  · simp only [bind_eq_ok] at hr
    obtain ⟨⟨m₁, pool₁⟩, h1, hr⟩ := hr
    apply (hbase h1).trans
    split_ifs at hr
    · unfold SingleTypeKVCacheManager.freeLastState at hr
      split at hr
      · obtain ⟨-, rfl⟩ : m₁ = m' ∧ pool₁ = pool' := by simpa using hr
        exact .rfl
      · split_ifs at hr
        · dsimp only at hr
          split at hr
          · simp at hr
          · split_ifs at hr
            · simp only [bind_eq_ok, pure_eq_ok, Prod.mk.injEq] at hr
              obtain ⟨pool₂, h2, -, rfl⟩ := hr
              exact freeBlocks_sameHashes h2
            · obtain ⟨-, rfl⟩ : m₁ = m' ∧ pool₁ = pool' := by simpa using hr
              exact .rfl
        · obtain ⟨-, rfl⟩ : m₁ = m' ∧ pool₁ = pool' := by simpa using hr
          exact .rfl
    · obtain ⟨-, rfl⟩ : m₁ = m' ∧ pool₁ = pool' := by simpa using hr
      exact .rfl
  · exact hbase hr

/-- No group draws a block that is a hit of a later group, on a free queue that loses the
hits and the draws of one group after the other. -/
def DrawsSpareHits : List BlockId → List (List BlockId × ℤ) → Prop
  | _, [] => True
  | free, taken :: rest =>
    0 ≤ taken.2 ∧
      (∀ later ∈ rest, ∀ b ∈ later.1, b ∉ (untouched free taken.1).take taken.2.toNat) ∧
      DrawsSpareHits ((untouched free taken.1).drop taken.2.toNat) rest

section computed
variable {hashes : RequestId → List BlockHash} {r : RequestId} {loc ext numTokens : ℕ}

/-- What `allocate_new_computed_blocks` needs to know about the hits of one group. -/
structure HitsReady (pool : BlockPool) (hashes : RequestId → List BlockHash) (r : RequestId)
    (loc ext numTokens : ℕ) (a : SingleTypeKVCacheManager × List BlockId) : Prop where
  spare : SpareInv pool a.1
  keyed : KeyedHits pool (hashesAt pool.hashBlockSize a.1.blockSize (hashes r))
    a.1.kvCacheGroupId (List.replicate (a.1.numSkippedBlocks (loc + ext : ℕ)) pool.nullBlock ++
      (a.1.computedDraw pool.nullBlock r a.2 loc ext).1)
  fits : InAlignMode a.1 fun _ => a.1.isNew r = true →
    (a.1.hitTable pool.nullBlock (loc + ext) a.2).length +
      (a.1.computedDraw pool.nullBlock r a.2 loc ext).2.toNat ≤ cdiv numTokens a.1.blockSize

theorem HitsReady.step {pool pool' : BlockPool} {a : SingleTypeKVCacheManager × List BlockId}
    {drawn : List BlockId} (h : HitsReady pool hashes r loc ext numTokens a)
    (hcfg : SameConfig pool pool') (hhash : pool'.blockHash = clearHashes pool.blockHash drawn)
    (hspared : ∀ b ∈ (a.1.computedDraw pool.nullBlock r a.2 loc ext).1, b ∉ drawn)
    (hheld : ∀ b, b ≠ pool.nullBlock → 0 < a.1.refs b → pool'.blockHash b = pool.blockHash b) :
    HitsReady pool' hashes r loc ext numTokens a := by
  refine ⟨h.spare.congr hcfg hheld, ?_, ?_⟩
  · rw [hcfg.hashBlockSize, hcfg.nullBlock]
    intro i b hget hne
    rw [hcfg.nullBlock] at hne
    obtain ⟨hash, hi, hb⟩ := h.keyed i b hget hne
    refine ⟨hash, hi, ?_⟩
    rw [hhash, clearHashes, if_neg]
    · exact hb
    · intro hmem
      rcases mem_append.mp (mem_of_getElem? hget) with hnull | hkept
      · exact hne (mem_replicate.mp hnull).2
      · exact hspared b hkept hmem
  · rw [hcfg.nullBlock]
    exact h.fits

theorem forEach_computed {as : List (SingleTypeKVCacheManager × List BlockId)}
    {pool pool' : BlockPool} {free : List BlockId} {rest : BlockId → ℕ}
    {ms : List SingleTypeKVCacheManager}
    (h : Ledger pool free rest hashes (as.map Prod.fst))
    (hready : ∀ a ∈ as, HitsReady pool hashes r loc ext numTokens a)
    (hdraws : DrawsSpareHits free
      (as.map fun a => a.1.computedDraw pool.nullBlock r a.2 loc ext))
    (hr : forEach (fun a pool =>
      SingleTypeKVCacheManager.allocateNewComputedBlocks a.1 pool r a.2 loc ext) as pool =
        .ok (ms, pool')) :
    (∃ free', Ledger pool' free' rest hashes ms) ∧ Frame rest pool pool' ∧
      List.Forall₂ SameSetup (as.map Prod.fst) ms ∧
      ∀ m ∈ ms, SparePending r numTokens pool' m := by
  induction as generalizing pool free rest ms with
  | nil =>
    obtain ⟨rfl, rfl⟩ : [] = ms ∧ pool = pool' := by
      simpa [forEach] using hr
    exact ⟨⟨free, h⟩, Frame.rfl, .nil, by simp⟩
  | cons a as ih =>
    simp only [forEach, bind_eq_ok, pure_eq_ok, Prod.mk.injEq] at hr
    obtain ⟨⟨m', pool₁⟩, hone, ⟨ms', pool₂⟩, hrest, rfl, rfl⟩ := hr
    obtain ⟨hnonneg, hspared, hlater⟩ := hdraws
    have ha := hready a (by simp)
    have hfocus := h.focus
    have hres := hfocus.allocateNewComputedBlocks ha.keyed hnonneg hone
    have hpending := hfocus.computed_spare ha.spare hres ha.fits
    set taken := a.1.computedDraw pool.nullBlock r a.2 loc ext
    have hsub : ∀ b ∈ (untouched free taken.1).take taken.2.toNat, b ∈ free := fun b hb =>
      (mem_filter.mp (mem_of_mem_take hb)).1
    have hframe : Frame (fun b => rest b + heldBy (as.map Prod.fst) b) pool pool₁ := by
      refine ⟨hres.config, fun b _ hheld => ?_⟩
      rw [hres.blockHash]
      exact hfocus.drawn_held hsub (.inl hheld)
    have hnext := h.next hres.ledger hframe
    have hready' : ∀ x ∈ as, HitsReady pool₁ hashes r loc ext numTokens x := by
      intro x hx
      apply (hready x (by simp [hx])).step hres.config hres.blockHash
      · exact hspared _ (mem_map_of_mem (f := fun a => a.1.computedDraw pool.nullBlock r
          a.2 loc ext) hx)
      · intro b hb hrefs
        apply hframe.hash b hb
        have := refs_le_heldBy (mem_map_of_mem (f := Prod.fst) hx) b
        omega
    obtain ⟨⟨free₂, hledger₂⟩, hframe₂, hsetup₂, hpending₂⟩ :=
      ih hnext hready' (by rw [hres.config.nullBlock]; exact hlater) hrest
    refine ⟨⟨free₂, Ledger.join (hres.ledger.table _ (by simp)) hledger₂ hframe₂⟩, ?_,
      .cons hres.setup hsetup₂, ?_⟩
    · exact (hframe.mono fun b => le_add_right _ _).trans (hframe₂.mono fun b => le_add_right _ _)
    · intro x hx
      rcases mem_cons.mp hx with rfl | hx
      · exact (sparePending_framed r numTokens).of_frame hpending hframe₂ fun b => le_add_left _ _
      · exact hpending₂ x hx

end computed

end Vllm
