import Vllm.KvCache.FullAttentionPlan
import Vllm.KvCache.SoloRun
import Vllm.KvCache.WorkerLayout

/-! What the startup check promises: a request of `max_model_len` tokens that is alone gets its
slots if and only if the memory holds one block more than it needs. -/
namespace Vllm
open KVCacheManagerConfig Raises List Nat

/-- The scheduler steps through one request on a pool that nobody else uses. Its tokens may grow
and its draft tokens may be rejected between the calls. -/
inductive SoloRun (m₀ : KVCacheManager) : KVCacheManager → Request → Prop
  | start {request : Request} (hnew : request.numComputedTokens = 0)
      (hrequest : Servable m₀ request) : SoloRun m₀ m₀ request
  | step {m m' : KVCacheManager} {request request' : Request} {args : AllocateSlotsArgs}
      {blocks : List (List BlockId)} (h : SoloRun m₀ m request) (hchunk : Chunk m request args)
      (hslots : m.allocateSlots request args = .ok (some blocks, m'))
      (hid : request'.requestId = request.requestId)
      (hcomputed : (request'.numComputedTokens : ℤ) ≤
        request.numComputedTokens + args.numNewTokens)
      (hrequest : Servable m' request') : SoloRun m₀ m' request'

/-- No call of `allocate_slots` returns `None`, in any chunking of any request. -/
def GetsSlots (m₀ : KVCacheManager) : Prop :=
  ∀ m request args, SoloRun m₀ m request → Chunk m request args →
    ∃ blocks m', m.allocateSlots request args = .ok (some blocks, m')

section Fresh
variable {cfg : KVCacheManagerConfig} {m : KVCacheManager}

/-- The blocks of a request of `max_model_len` tokens, in all groups. -/
def KVCacheManagerConfig.longestRequestBlocks (cfg : KVCacheManagerConfig) : ℕ :=
  (cfg.kvCacheGroups.map fun g => cdiv cfg.maxModelLen (cfg.blockSize g.kvCacheSpec)).sum

theorem numGpuBlocks_of_init {numGpuBlocks hashBlockSize : ℕ}
    {enableCaching enableKvCacheEvents ints : Bool} {sha256 : List UInt8 → List UInt8}
    {pool : BlockPool} (h : BlockPool.init numGpuBlocks enableCaching hashBlockSize
      enableKvCacheEvents ints sha256 = .ok pool) :
    pool.numGpuBlocks = numGpuBlocks ∧ 0 < numGpuBlocks := by
  unfold BlockPool.init at h
  obtain ⟨_, hpos, h⟩ := of_bind h
  obtain ⟨_, -, h⟩ := of_bind h
  cases h
  exact ⟨rfl, require_eq_ok.mp hpos⟩

theorem managerBlockSize_pos (cfg : KVCacheManagerConfig) (spec : KVCacheSpec) :
    0 < cfg.blockSize spec := by
  have hspec := spec.blockSize_pos
  unfold blockSize
  split
  · next hranks => exact mul_pos hspec (by omega)
  · exact hspec

theorem hashBlockSize_dvd {kind : CoordinatorKind} (hcaching : cfg.enableCaching = true)
    (h : cfg.coordinatorKind = .ok kind) : 0 < cfg.hashBlockSize ∧
      ∀ g ∈ cfg.kvCacheGroups, cfg.blockSize g.kvCacheSpec % cfg.hashBlockSize = 0 := by
  have hpos : ∀ g : KVCacheGroupSpec, g.kvCacheSpec.blockSize % cfg.hashBlockSize = 0 →
      0 < cfg.hashBlockSize := by
    intro g hdvd
    by_contra hzero
    have hsize := g.kvCacheSpec.blockSize_pos
    rw [Nat.eq_zero_of_not_pos hzero, Nat.mod_zero] at hdvd
    omega
  cases kind with
  | noPrefixCache =>
    unfold coordinatorKind at h
    rw [if_neg (by simp [hcaching])] at h
    split at h
    · simp [bind_eq_ok, -bind_pure_comp] at h
    · simp [bind_eq_ok, -bind_pure_comp] at h
  | unitary =>
    have hsizes := coordinatorKind_unitary h
    have hone : cfg.kvCacheGroups.length = 1 := by
      unfold coordinatorKind at h
      rw [if_neg (by simp [hcaching])] at h
      split at h
      · next hone => exact hone
      · simp [bind_eq_ok, -bind_pure_comp] at h
    obtain ⟨g, hg⟩ := length_eq_one_iff.mp hone
    have hsize := hsizes g (hg ▸ mem_singleton_self g)
    refine ⟨?_, ?_⟩
    · rw [hsize]
      exact managerBlockSize_pos cfg g.kvCacheSpec
    · intro g' hg'
      rw [← hsizes g' hg', mod_self]
  | hybrid groups =>
    obtain ⟨-, hdcp, hpcp, hdvd, hlength⟩ := coordinatorKind_hybrid h
    have hne : cfg.kvCacheGroups ≠ [] := by
      intro hnil
      simp [attentionGroups, hnil] at hlength
    obtain ⟨g, hg⟩ := exists_mem_of_ne_nil _ hne
    refine ⟨hpos g (hdvd g hg), ?_⟩
    intro g' hg'
    rw [blockSize, hdcp, hpcp, if_neg (by omega)]
    exact hdvd g' hg'

theorem soloInv_init (h : KVCacheManager.init cfg = .ok m)
    (hfull : ∀ g ∈ cfg.kvCacheGroups, g.kvCacheSpec.isFullAttention = true) (r : RequestId) :
    SoloInv m r ∧ m.maxModelLen = cfg.maxModelLen ∧
      m.longestRequestBlocks = cfg.longestRequestBlocks ∧
      m.blockPool.numGpuBlocks = cfg.numBlocks ∧ 0 < cfg.numBlocks ∧
      ∀ x ∈ m.coordinator.singleTypeManagers, x.blocksOf r = [] := by
  unfold KVCacheManager.init at h
  obtain ⟨c, hc, h⟩ := of_bind h
  cases h
  have hbuilt := getKvCacheCoordinator_built hc
  obtain ⟨⟨free, hinv⟩, hfresh⟩ := PoolInv.init_fresh hbuilt.pool
  obtain ⟨hnum, hpos⟩ := numGpuBlocks_of_init hbuilt.pool
  have hmanagers : ∀ x ∈ c.singleTypeManagers, ∃ g ∈ cfg.kvCacheGroups, ∃ i eagle,
      x = cfg.getManagerForKvCacheSpec g.kvCacheSpec i eagle := by
    intro x hx
    obtain ⟨i, hi⟩ := mem_iff_getElem?.mp hx
    obtain ⟨g, hg, rfl⟩ := manager_of_getElem? (hbuilt.managers ▸ hi)
    exact ⟨g, mem_of_getElem? hg, i, _, rfl⟩
  have hempty : ∀ x ∈ c.singleTypeManagers, x.blocksOf r = [] := by
    intro x hx
    obtain ⟨g, -, i, eagle, rfl⟩ := hmanagers x hx
    rfl
  have htables : c.singleTypeManagers.flatMap (fun x => x.blocksOf r) = [] := by
    rw [flatMap_eq_nil_iff]
    exact hempty
  have hperm : (c.blockPool.nullBlock :: free).Perm (List.range c.blockPool.numGpuBlocks) := by
    rw [perm_ext_iff_of_nodup (nodup_cons.mpr ⟨hinv.null_notMem, hinv.nodup⟩) nodup_range]
    intro b
    rw [mem_cons, hinv.mem_free, mem_range, hfresh.refCnt]
    constructor
    · rintro (rfl | ⟨hlt, -, -⟩)
      · exact hinv.null_lt
      · exact hlt
    · intro hlt
      by_cases hb : b = c.blockPool.nullBlock
      · exact .inl hb
      · exact .inr ⟨hlt, hb, rfl⟩
  refine ⟨⟨⟨free, hinv, ?_, ?_⟩, ?_, ?_⟩, rfl, ?_, hnum, hpos, hempty⟩
  · show (c.blockPool.nullBlock :: ([] ++ _ ++ free)).Perm _
    rw [htables]
    exact hperm
  · intro x hx b hb
    rw [hempty x hx, drop_nil] at hb
    exact absurd hb not_mem_nil
  · intro x hx
    obtain ⟨g, hg, i, eagle, rfl⟩ := hmanagers x hx
    have hkind : ∃ specClass, g.kvCacheSpec.kind = .fullAttention specClass := by
      have := hfull g hg
      unfold KVCacheSpec.isFullAttention at this
      split at this
      · next specClass hspec => exact ⟨specClass, hspec⟩
      · simp at this
    obtain ⟨specClass, hspec⟩ := hkind
    refine ⟨⟨specClass, hspec⟩, ?_, zero_le _⟩
    show g.kvCacheSpec.maxAdmissionBlocksPerRequest _ _ = none
    rw [KVCacheSpec.maxAdmissionBlocksPerRequest, hspec]
  · intro hcaching
    obtain ⟨hhash, hdvd⟩ := hashBlockSize_dvd hcaching hbuilt.kind
    refine ⟨hfresh.enableCaching.trans hcaching, hfresh.hashBlockSize.symm ▸ hhash, ?_⟩
    intro x hx
    obtain ⟨g, hg, i, eagle, rfl⟩ := hmanagers x hx
    show _ % c.blockPool.hashBlockSize = 0
    rw [hfresh.hashBlockSize]
    exact hdvd g hg
  · show (c.singleTypeManagers.map fun x => cdiv cfg.maxModelLen x.blockSize).sum = _
    rw [hbuilt.managers, map_map, longestRequestBlocks]
    conv_rhs => rw [← zipIdx_map_fst 0 cfg.kvCacheGroups, map_map]
    rfl

theorem SoloRun.inv {m₀ m : KVCacheManager} {request : Request} (h : SoloRun m₀ m request)
    (hstart : ∀ r, SoloInv m₀ r) (hfit : m₀.longestRequestBlocks + 1 ≤ m₀.blockPool.numGpuBlocks) :
    SoloInv m request.requestId ∧ Servable m request ∧
      m.longestRequestBlocks + 1 ≤ m.blockPool.numGpuBlocks := by
  induction h with
  | start _ hrequest => exact ⟨hstart _, hrequest, hfit⟩
  | step _ hchunk hslots hid _ hrequest' ih =>
    obtain ⟨hsolo, hrequest, hfit⟩ := ih
    obtain ⟨blocks, m', hrun, hkeeps⟩ := hsolo.allocateSlots hfit hrequest hchunk
    obtain ⟨-, rfl⟩ := Prod.mk.inj (Except.ok.inj (hslots.symm.trans hrun))
    refine ⟨hid ▸ hkeeps.solo, hrequest', ?_⟩
    rw [hkeeps.longest, hkeeps.config.numGpuBlocks]
    exact hfit

/-- A request of so many tokens, in one chunk. -/
def longestRequest (numTokens : ℕ) : Request where
  requestId := 0
  promptTokenIds := some (List.replicate numTokens 0)
  numPromptTokens := numTokens
  allTokenIds := List.replicate numTokens 0
  blockHashes := List.replicate numTokens []

def wholeChunk (numTokens : ℕ) : AllocateSlotsArgs where
  numNewTokens := numTokens
  hasScheduledReqs := false

/-- On a fresh pool with full attention, a request that is alone gets its slots if and only if the
longest one fits next to the null block. -/
theorem getsSlots_iff (h : KVCacheManager.init cfg = .ok m)
    (hfull : ∀ g ∈ cfg.kvCacheGroups, g.kvCacheSpec.isFullAttention = true) :
    GetsSlots m ↔ cfg.longestRequestBlocks + 1 ≤ cfg.numBlocks := by
  have hinit := soloInv_init h hfull
  constructor
  · intro hslots
    obtain ⟨hsolo, hmax, hlongest, hnum, hpos, hempty⟩ := hinit 0
    by_cases hzero : cfg.maxModelLen = 0
    · have hnone : cfg.longestRequestBlocks = 0 := by
        unfold longestRequestBlocks
        rw [hzero]
        refine sum_eq_zero ?_
        intro n hn
        obtain ⟨g, -, rfl⟩ := mem_map.mp hn
        exact le_zero.mp (GridLoop.ceilDiv_le_self (managerBlockSize_pos cfg g.kvCacheSpec))
      omega
    · have hlength : (longestRequest m.maxModelLen).numTokens = m.maxModelLen := length_replicate
      have hrequest : Servable m (longestRequest m.maxModelLen) := by
        refine ⟨hlength.le, fun _ => ?_⟩
        rw [hlength, show (longestRequest m.maxModelLen).blockHashes.length = m.maxModelLen from
          length_replicate]
        exact div_le_self _ _
      have hchunk : Chunk m (longestRequest m.maxModelLen) (wholeChunk m.maxModelLen) := by
        refine ⟨?_, ?_, rfl, by simp [wholeChunk], rfl, rfl, .inl rfl⟩
        · show (1 : ℤ) ≤ m.maxModelLen
          omega
        · show ((0 : ℕ) : ℤ) + m.maxModelLen ≤ m.maxModelLen
          omega
      obtain ⟨blocks, m', hrun⟩ := hslots m _ _ (.start rfl hrequest) hchunk
      obtain ⟨free, halone⟩ := hsolo.alone
      rw [SoloInv.allocateSlots_eq hsolo halone hchunk (by simp [wholeChunk])] at hrun
      split at hrun
      · simp [pure, Except.pure] at hrun
      · next hle =>
        have htokens : chunkTokens m (longestRequest m.maxModelLen) (wholeChunk m.maxModelLen) =
            m.maxModelLen := by
          simp [chunkTokens, longestRequest, wholeChunk]
        have hlacking : (m.coordinator.singleTypeManagers.map
            (lackingBlocks 0 m.maxModelLen)).sum = m.longestRequestBlocks := by
          unfold KVCacheManager.longestRequestBlocks
          refine congrArg List.sum (map_congr_left ?_)
          intro x hx
          rw [lackingBlocks, hempty x hx, length_nil, Nat.sub_zero]
        have hheld : (m.coordinator.singleTypeManagers.map fun x =>
            (x.blocksOf 0).length).sum = 0 := by
          refine sum_eq_zero ?_
          intro n hn
          obtain ⟨x, hx, rfl⟩ := mem_map.mp hn
          rw [hempty x hx, length_nil]
        have hcount := halone.count
        rw [hheld] at hcount
        rw [htokens, show (longestRequest m.maxModelLen).requestId = 0 from rfl, hlacking] at hle
        omega
  · intro hfit m' request args hrun hchunk
    obtain ⟨-, -, hlongest, hnum, -, -⟩ := hinit 0
    obtain ⟨hsolo, hrequest, hfit'⟩ := hrun.inv (fun r => (hinit r).1) (by omega)
    obtain ⟨blocks, m'', hrun', -⟩ := hsolo.allocateSlots hfit' hrequest hchunk
    exact ⟨blocks, m'', hrun'⟩

end Fresh

/-- The scheduler's manager is made for the configuration of the first worker. -/
structure Serves (cfg : KVCacheManagerConfig) (config : VllmConfig)
    (kvCacheConfig : KVCacheConfig) : Prop where
  numBlocks : cfg.numBlocks = kvCacheConfig.numBlocks
  maxModelLen : cfg.maxModelLen = config.maxModelLen
  dcp : cfg.dcpWorldSize = config.decodeContextParallelSize
  pcp : cfg.pcpWorldSize = config.prefillContextParallelSize
  groups : List.Forall₂ (fun group managed => ∃ spec specClass,
    group.kvCacheSpec.schedulerSpec? = some spec ∧ spec.fullAttentionClass? = some specClass ∧
    managed.kvCacheSpec.kind = .fullAttention specClass ∧
    managed.kvCacheSpec.blockSize = spec.blockSize) kvCacheConfig.kvCacheGroups cfg.kvCacheGroups

theorem cdiv_cdiv (a : ℕ) {b c : ℕ} (hb : 0 < b) (hc : 0 < c) :
    cdiv (cdiv a b) c = cdiv a (c * b) := by
  refine eq_of_forall_lt_iff ?_
  intro k
  rw [GridLoop.lt_ceilDiv_iff hc, GridLoop.lt_ceilDiv_iff hb,
    GridLoop.lt_ceilDiv_iff (mul_pos hc hb), mul_assoc]

section Startup
variable {config config' : VllmConfig} {workerSpecs : List (Dict LayerName LayerSpec)}
  {availableMemory : List ℤ} {configs : List KVCacheConfig} {kvCacheConfig : KVCacheConfig}
  {cfg : KVCacheManagerConfig} {m : KVCacheManager}

theorem Serves.isFullAttention (h : Serves cfg config kvCacheConfig) :
    ∀ g ∈ cfg.kvCacheGroups, g.kvCacheSpec.isFullAttention = true := by
  intro g hg
  obtain ⟨group, -, spec, specClass, -, -, hkind, -⟩ := exists_left_of_forall₂ h.groups hg
  rw [KVCacheSpec.isFullAttention, hkind]

theorem Serves.blocksNeeded_eq (h : Serves cfg config kvCacheConfig) :
    blocksNeeded config kvCacheConfig.kvCacheGroups = cfg.longestRequestBlocks := by
  have hsize : ∀ spec : KVCacheSpec, cdiv config.tokensPerRank spec.blockSize =
      cdiv cfg.maxModelLen (cfg.blockSize spec) := by
    intro spec
    unfold VllmConfig.tokensPerRank blockSize
    rw [h.maxModelLen, h.dcp, h.pcp]
    dsimp only
    split
    · next hranks => exact cdiv_cdiv _ (by omega) spec.blockSize_pos
    · rfl
  unfold blocksNeeded longestRequestBlocks
  refine congrArg List.sum ?_
  have hgroups := h.groups
  generalize kvCacheConfig.kvCacheGroups = groups at hgroups
  generalize cfg.kvCacheGroups = managed at hgroups
  induction hgroups with
  | nil => rfl
  | cons hgroup _ ih =>
    obtain ⟨spec, specClass, hspec, -, -, hblockSize⟩ := hgroup
    rw [map_cons, map_cons, ih, hspec, ← hsize, hblockSize]
    rfl

/-- The startup accepts `max_model_len`. A request of that length that is alone gets its slots, in
any chunking, if and only if every worker has memory for one block more than it needs. -/
theorem startup_getsSlots (hfull : ∀ worker ∈ workerSpecs, ∀ spec ∈ worker.values,
      spec.fullAttentionClass?.isSome = true)
    (h : getKvCacheConfigs config workerSpecs availableMemory = .ok (configs, config'))
    (hfirst : configs[0]? = some kvCacheConfig) (hserves : Serves cfg config' kvCacheConfig)
    (hinit : KVCacheManager.init cfg = .ok m) :
    GetsSlots m ↔ OneBlockSpare config config' workerSpecs availableMemory := by
  obtain ⟨merged, groups, projected, memory, initial, minNumBlocks, hmemory, hplan⟩ :=
    getKvCacheConfigs_planned h
  have hgroups := getKvCacheGroups_full (mergedSpecs_full hplan.merges hfull) hplan.grouped
  obtain ⟨specs, mem, worker, initial', -, -, hworker, -, hproject, -, hrun, hshrink⟩ :=
    hplan.worker hfirst
  obtain ⟨hblocks, hsame, -, -, -⟩ := shrinkConfig_eq_ok hshrink
  have hprojects := project_forall₂ (getKvCacheGroups_nodup hplan.grouped) hproject
  obtain ⟨-, hneeded⟩ := hgroups.project config' hprojects
  rw [getKvCacheConfigFromGroups_groups hrun] at hsame
  rw [getsSlots_iff hinit hserves.isFullAttention, ← hserves.blocksNeeded_eq, hserves.numBlocks,
    hblocks, hsame, hneeded]
  by_cases hempty : groups = []
  · obtain ⟨-, -, -, -, hpos, -⟩ := soloInv_init hinit hserves.isFullAttention 0
    rw [hserves.numBlocks, hblocks] at hpos
    have hneeded₀ : blocksNeeded config' groups = 0 := by
      rw [hempty]
      rfl
    constructor
    · intro _ merged' groups' projected' memory' hmerges' hgroups' hprojects' _
      obtain rfl := Except.ok.inj (hplan.merges.symm.trans hmerges')
      obtain rfl := Except.ok.inj (hplan.grouped.symm.trans hgroups')
      intro worker' hworker' hne
      obtain ⟨specs', -, hproject'⟩ := mem_of_mapM hprojects' (of_mem_zip hworker').1
      have hlength := (mapM_eq_ok.mp hproject').length_eq
      rw [hempty, length_nil] at hlength
      exact absurd (length_eq_zero_iff.mp hlength.symm) hne
    · intro _
      omega
  · exact hplan.spare_iff hgroups hmemory hempty

end Startup

/-- Four blocks of 16 tokens hold the longest request. -/
def denseConfig : VllmConfig where
  maxModelLen := 64
  maxNumBatchedTokens := 64

def denseSpecs : Dict LayerName LayerSpec := Dict.ofList [
  ("layers.0", .fullAttention hybridAttention { headSizeV := 8 }),
  ("layers.1", .fullAttention hybridAttention { headSizeV := 8 })]

def denseManagerConfig (numBlocks : ℕ) : KVCacheManagerConfig where
  numBlocks := numBlocks
  kvCacheGroups := [{ kvCacheSpec :=
    { kind := .fullAttention .fullAttention, blockSize := 16, blockSize_pos := by decide } }]
  maxModelLen := 64
  schedulerBlockSize := 16
  hashBlockSize := 16
  maxNumBatchedTokens := 64

theorem denseSpecs_full : ∀ worker ∈ [denseSpecs], ∀ spec ∈ worker.values,
    spec.fullAttentionClass?.isSome = true := by
  intro worker hworker spec hspec
  rw [mem_singleton.mp hworker] at hspec
  have hvalues : denseSpecs.values = [.fullAttention hybridAttention { headSizeV := 8 },
      .fullAttention hybridAttention { headSizeV := 8 }] := by
    decide +kernel
  rw [hvalues] at hspec
  fin_cases hspec <;> rfl

theorem dense_starts (memory : ℤ) (numBlocks : ℕ)
    (h : (getKvCacheConfigs denseConfig [denseSpecs] [memory]).toOption.map (fun r =>
      (r.1.map fun c => (c.numBlocks, c.kvCacheGroups.map fun g => g.kvCacheSpec.schedulerSpec?),
        r.2.maxModelLen, r.2.decodeContextParallelSize, r.2.prefillContextParallelSize)) =
      some ([(numBlocks, [some (.fullAttention hybridAttention { headSizeV := 8 })])], 64, 1, 1)) :
    ∃ configs config' kvCacheConfig,
      getKvCacheConfigs denseConfig [denseSpecs] [memory] = .ok (configs, config') ∧
      configs[0]? = some kvCacheConfig ∧
      Serves (denseManagerConfig numBlocks) config' kvCacheConfig := by
  obtain ⟨⟨configs, config'⟩, hrun, hresult⟩ := exists_ok h
  obtain ⟨hconfigs, hparallel⟩ := Prod.mk.inj hresult
  obtain ⟨hmax, hparallel⟩ := Prod.mk.inj hparallel
  obtain ⟨hdcp, hpcp⟩ := Prod.mk.inj hparallel
  obtain ⟨kvCacheConfig, rest, rfl, hfirst, -⟩ := map_eq_cons_iff.mp hconfigs
  obtain ⟨hblocks, hgroups⟩ := Prod.mk.inj hfirst
  obtain ⟨group, rest', hgroup, hspec, hrest⟩ := map_eq_cons_iff.mp hgroups
  obtain rfl := map_eq_nil_iff.mp hrest
  refine ⟨_, config', kvCacheConfig, hrun, rfl, hblocks.symm, hmax.symm, hdcp.symm, hpcp.symm, ?_⟩
  rw [hgroup]
  exact .cons ⟨_, .fullAttention, hspec, rfl, rfl, rfl⟩ .nil

theorem startup_getsSlots_dense : ∃ configs config' m,
    getKvCacheConfigs denseConfig [denseSpecs] [5120] = .ok (configs, config') ∧
    KVCacheManager.init (denseManagerConfig 5) = .ok m ∧
    (GetsSlots m ↔ OneBlockSpare denseConfig config' [denseSpecs] [5120]) := by
  obtain ⟨configs, config', kvCacheConfig, hrun, hfirst, hserves⟩ :=
    dense_starts 5120 5 (by decide +kernel)
  obtain ⟨m, hinit, -⟩ := exists_ok
    (show (KVCacheManager.init (denseManagerConfig 5)).toOption.map (fun m => m.maxModelLen) =
      some 64 by decide +kernel)
  exact ⟨configs, config', m, hrun, hinit,
    startup_getsSlots denseSpecs_full hrun hfirst hserves hinit⟩

/-- The memory holds the longest request exactly. The startup accepts it, and `allocate_slots`
returns `None`. -/
theorem exactFit_no_slots : ∃ configs config' kvCacheConfig m,
    getKvCacheConfigs denseConfig [denseSpecs] [4096] = .ok (configs, config') ∧
    configs[0]? = some kvCacheConfig ∧
    Serves (denseManagerConfig 4) config' kvCacheConfig ∧
    KVCacheManager.init (denseManagerConfig 4) = .ok m ∧ ¬ GetsSlots m := by
  obtain ⟨configs, config', kvCacheConfig, hrun, hfirst, hserves⟩ :=
    dense_starts 4096 4 (by decide +kernel)
  obtain ⟨m, hinit, -⟩ := exists_ok
    (show (KVCacheManager.init (denseManagerConfig 4)).toOption.map (fun m => m.maxModelLen) =
      some 64 by decide +kernel)
  refine ⟨configs, config', kvCacheConfig, m, hrun, hfirst, hserves, hinit, ?_⟩
  rw [getsSlots_iff hinit hserves.isFullAttention]
  decide

end Vllm
