import Vllm.KvCache.ConfigLayout

/-! The startup of a model with full attention only: how its layers are grouped, and how many blocks
the memory of a worker holds next to those that a request of `max_model_len` tokens needs. -/
namespace Vllm
open Raises List Nat

/-- The classes that `FullAttentionManager` manages. -/
def LayerSpec.fullAttentionClass? : LayerSpec → Option FullAttentionClass
  | .fullAttention _ _ => some .fullAttention
  | .tqFullAttention _ _ _ => some .tqFullAttention
  | .mlaAttention _ _ _ => some .mlaAttention
  | .hiddenStateCache _ _ _ => some .hiddenStateCache
  | _ => none

/-- Groups of full attention layers: each with a spec of one layer, or one group with several specs
of one block size. -/
inductive FullGroups (groups : List LayerGroup) : Prop
  | layers (h : ∀ group ∈ groups, ∃ spec, group.kvCacheSpec = .layer spec ∧
      spec.fullAttentionClass?.isSome = true)
  | uniformType {names : List LayerName} {specs : UniformTypeKVCacheSpecs} {flag : Bool}
      {blockSize : ℕ} (h : groups = [⟨names, .uniformType specs, flag⟩])
      (hfull : ∀ spec ∈ specs.kvCacheSpecs.values, spec.fullAttentionClass?.isSome = true ∧
        spec.blockSize = blockSize)
      (hne : specs.kvCacheSpecs.values ≠ [])

section Classes
variable {spec spec' : LayerSpec}

theorem full?_of_class (h : spec.fullAttentionClass?.isSome = true) :
    spec.full?.isSome = true ∧ spec.slidingWindow? = none ∧ spec.slidingWindowMla? = none ∧
      spec.chunkedLocal? = none := by
  cases spec <;> simp_all [LayerSpec.fullAttentionClass?, LayerSpec.full?,
    LayerSpec.slidingWindow?, LayerSpec.slidingWindowMla?, LayerSpec.chunkedLocal?]

theorem replaceAttention_class {a : AttentionSpec} (h : spec.replaceAttention a = .ok spec') :
    spec'.fullAttentionClass? = spec.fullAttentionClass? := by
  unfold LayerSpec.replaceAttention at h
  cases spec with
  | mlaAttention | hiddenStateCache | slidingWindowMla =>
    obtain ⟨padded, -, h⟩ := of_bind h
    cases h
    rfl
  | _ =>
    cases h
    rfl

theorem unifyPageSize_class {maxPageSize : ℕ} (h : unifyPageSize maxPageSize spec = .ok spec') :
    spec'.fullAttentionClass? = spec.fullAttentionClass? := by
  unfold unifyPageSize at h
  obtain ⟨pageSize, -, h⟩ := of_bind h
  split at h
  · rw [pure_eq_ok.mp h]
  split at h
  · simp at h
  split at h
  · simp at h
  obtain ⟨replaced, hreplaced, h⟩ := of_bind h
  obtain ⟨_, -, h⟩ := of_bind h
  obtain ⟨_, -, h⟩ := of_bind h
  cases h
  unfold LayerSpec.replaceBlockSize at hreplaced
  split at hreplaced
  · cases hreplaced
    rfl
  · exact replaceAttention_class hreplaced
  · rw [pure_eq_ok.mp hreplaced]

theorem merge_class {first merged : LayerSpec} {rest : List LayerSpec}
    (hfirst : first.fullAttentionClass?.isSome = true)
    (h : LayerSpec.merge (first :: rest) = .ok merged) :
    merged.fullAttentionClass?.isSome = true := by
  unfold LayerSpec.merge at h
  cases first with
  | fullAttention =>
    obtain ⟨full, -, h⟩ := of_bind h
    cases h
    rfl
  | tqFullAttention =>
    obtain ⟨full, -, h⟩ := of_bind h
    obtain ⟨_, -, h⟩ := of_bind h
    cases h
    rfl
  | mlaAttention | hiddenStateCache =>
    obtain ⟨⟨full, mla⟩, -, h⟩ := of_bind h
    cases h
    rfl
  | _ => simp [LayerSpec.fullAttentionClass?] at hfirst

end Classes

section Groups
variable {config : VllmConfig} {specs specs' : Dict LayerName LayerSpec} {groups : List LayerGroup}

theorem groupedSpecs_of_full (hfull : ∀ spec ∈ specs.values, spec.fullAttentionClass?.isSome = true)
    (h : groupedSpecs config specs = .ok specs') : specs' = specs := by
  have hwindow : (specs.values.any fun spec =>
      spec.slidingWindow?.isSome || spec.chunkedLocal?.isSome) = false := by
    rw [any_eq_false]
    intro spec hspec
    obtain ⟨-, hwindow, -, hchunk⟩ := full?_of_class (hfull spec hspec)
    simp [hwindow, hchunk]
  unfold groupedSpecs at h
  split at h
  · unfold unifyHybridKvCacheSpecs at h
    obtain ⟨unified, -, h⟩ := of_bind h
    split at h
    · exact (pure_eq_ok.mp h).symm
    obtain ⟨blockSize, -, h⟩ := of_bind h
    obtain ⟨specs₁, hspecs₁, h⟩ := of_bind h
    rw [hwindow, if_neg (by simp)] at hspecs₁
    cases hspecs₁
    obtain ⟨unified', -, h⟩ := of_bind h
    split at h
    · exact (pure_eq_ok.mp h).symm
    · simp at h
  · exact (pure_eq_ok.mp h).symm

theorem values_specsWhere {p : LayerSpec → Bool} {spec : LayerSpec}
    (h : spec ∈ (specsWhere p specs).values) : spec ∈ specs.values := by
  rw [Dict.values, entries_specsWhere p] at h
  obtain ⟨entry, hentry, rfl⟩ := mem_map.mp h
  exact mem_map_of_mem (mem_filter.mp hentry).1

theorem mem_values_of_get? {x : LayerName} {spec : LayerSpec} (h : specs.get? x = some spec) :
    spec ∈ specs.values :=
  mem_map.mpr ⟨(x, spec), (Dict.mem_entries_iff specs).mpr h, rfl⟩

section
variable (hfull : ∀ spec ∈ specs.values, spec.fullAttentionClass?.isSome = true)
include hfull

theorem unifyKvCacheSpecPageSize_class (h : unifyKvCacheSpecPageSize specs = .ok specs') :
    ∀ spec ∈ specs'.values, spec.fullAttentionClass?.isSome = true := by
  unfold unifyKvCacheSpecPageSize at h
  obtain ⟨sizes, -, h⟩ := of_bind h
  split at h
  · cases h
    exact hfull
  · obtain ⟨maxPageSize, -, h⟩ := of_bind h
    intro spec' hspec'
    obtain ⟨⟨x, spec'⟩, hmem, rfl⟩ := mem_map.mp hspec'
    obtain ⟨spec, hspec, hunify⟩ :=
      (mapSpecs_eq_ok h).2 x spec' ((Dict.mem_entries_iff specs').mp hmem)
    show spec'.fullAttentionClass?.isSome = true
    rw [unifyPageSize_class hunify]
    exact hfull spec (mem_values_of_get? hspec)

theorem createKvCacheGroupSpecs_class {grouped : List (List LayerName)}
    (h : createKvCacheGroupSpecs specs grouped = .ok groups) :
    ∀ group ∈ groups, ∃ spec, group.kvCacheSpec = .layer spec ∧
      spec.fullAttentionClass?.isSome = true := by
  intro group hgroup
  obtain ⟨names, -, h⟩ := mem_of_mapM h hgroup
  obtain ⟨layerSpecs, hlayerSpecs, h⟩ := of_bind h
  obtain ⟨merged, hmerged, h⟩ := of_bind h
  cases h
  refine ⟨merged, rfl, ?_⟩
  cases layerSpecs with
  | nil => simp [LayerSpec.merge] at hmerged
  | cons first rest =>
    obtain ⟨x, -, hx⟩ := mem_of_mapM hlayerSpecs (mem_cons_self (a := first))
    exact merge_class (hfull first (mem_values_of_get? (getSpec_eq_ok.mp hx))) hmerged

end

theorem hiddenStateGroup_class {commonPage : ℕ} {entry : LayerName × LayerSpec} {group : LayerGroup}
    (hfull : entry.2.fullAttentionClass?.isSome = true)
    (h : hiddenStateGroup commonPage entry = .ok group) :
    ∃ spec, group.kvCacheSpec = .layer spec ∧ spec.fullAttentionClass?.isSome = true := by
  unfold hiddenStateGroup at h
  split at h
  · simp at h
  · obtain ⟨blockSize, -, h⟩ := of_bind h
    obtain ⟨aligned, haligned, h⟩ := of_bind h
    cases h
    refine ⟨aligned, rfl, ?_⟩
    rw [replaceAttention_class haligned]
    exact hfull

theorem getKvCacheGroupsHybrid_class
    (hfull : ∀ spec ∈ specs.values, spec.fullAttentionClass?.isSome = true)
    (h : getKvCacheGroupsHybrid specs = .ok groups) :
    ∀ group ∈ groups, ∃ spec, group.kvCacheSpec = .layer spec ∧
      spec.fullAttentionClass?.isSome = true := by
  unfold getKvCacheGroupsHybrid at h
  obtain ⟨filtered, hfiltered, h⟩ := of_bind h
  obtain ⟨groups', hgroups, h⟩ := of_bind h
  have hfiltered' := unifyKvCacheSpecPageSize_class
    (fun spec hspec => hfull spec (values_specsWhere hspec)) hfiltered
  unfold getKvCacheGroupsUniformPageSize at hgroups
  obtain ⟨size, -, hgroups⟩ := of_bind hgroups
  have hlayers := createKvCacheGroupSpecs_class hfiltered' hgroups
  split at h
  · cases h
    exact hlayers
  · obtain ⟨commonPage, -, h⟩ := of_bind h
    obtain ⟨hiddenGroups, hhidden, h⟩ := of_bind h
    cases h
    intro group hgroup
    obtain hgroup | hgroup := mem_append.mp hgroup
    · exact hlayers group hgroup
    · obtain ⟨entry, hentry, hgroup⟩ := mem_of_mapM hhidden hgroup
      exact hiddenStateGroup_class (hfull _ (mem_map_of_mem (mem_filter.mp hentry).1)) hgroup

theorem fromSpecs_blockSize {uniform : UniformTypeKVCacheSpecs}
    (h : UniformTypeKVCacheSpecs.fromSpecs specs = .ok (some uniform)) :
    specs.values ≠ [] ∧ ∀ spec ∈ specs.values, ∀ spec' ∈ specs.values,
      spec.blockSize = spec'.blockSize := by
  unfold UniformTypeKVCacheSpecs.fromSpecs at h
  obtain ⟨isUniform, huniform, h⟩ := of_bind h
  split at h
  · next htrue =>
    subst htrue
    unfold UniformTypeKVCacheSpecs.isUniformType at huniform
    split at huniform
    · simp at huniform
    · next hlength =>
      refine ⟨?_, ?_⟩
      · intro hnil
        rw [hnil] at huniform
        simp at huniform
      · intro spec hspec spec' hspec'
        have hmem : ∀ spec ∈ specs.values,
            spec.blockSize ∈ (specs.values.map LayerSpec.blockSize).dedup :=
          fun spec hspec => mem_dedup.mpr (mem_map_of_mem hspec)
        have h₁ := hmem spec hspec
        have h₂ := hmem spec' hspec'
        obtain ⟨i, hi, hi'⟩ := mem_iff_getElem.mp h₁
        obtain ⟨j, hj, hj'⟩ := mem_iff_getElem.mp h₂
        obtain rfl : i = j := by omega
        exact hi'.symm.trans hj'
  · simp at h

theorem getKvCacheGroups_full
    (hfull : ∀ spec ∈ specs.values, spec.fullAttentionClass?.isSome = true)
    (h : getKvCacheGroups config specs = .ok groups) : FullGroups groups := by
  obtain ⟨specs', hspecs', hcases⟩ := getKvCacheGroups_cases h
  obtain rfl := groupedSpecs_of_full hfull hspecs'
  obtain ⟨-, rfl⟩ | ⟨merged, hmerged, rfl⟩ | ⟨-, uniform, huniform, rfl, rfl⟩ | ⟨-, -, hrest⟩ :=
    hcases
  · exact .layers (by simp)
  · refine .layers ?_
    intro group hgroup
    rw [mem_singleton.mp hgroup]
    refine ⟨merged, rfl, ?_⟩
    cases hvalues : specs'.values with
    | nil => simp [hvalues, LayerSpec.merge] at hmerged
    | cons first rest =>
      rw [hvalues] at hmerged hfull
      exact merge_class (hfull first mem_cons_self) hmerged
  · obtain ⟨hne, hsizes⟩ := fromSpecs_blockSize huniform
    obtain ⟨first, hfirst⟩ := exists_mem_of_ne_nil _ hne
    exact .uniformType rfl
      (fun spec hspec => ⟨hfull spec hspec, hsizes spec hspec first hfirst⟩) hne
  · obtain ⟨grouped, groups', hgrouped, -, -⟩ | ⟨-, hhybrid⟩ := hrest
    · unfold groupAndUnifyKvCacheSpecs at hgrouped
      rw [if_pos] at hgrouped
      · simp at hgrouped
      · rw [all_eq_true]
        intro spec hspec
        rw [(full?_of_class (hfull spec hspec)).2.2.1]
        rfl
    · exact .layers (getKvCacheGroupsHybrid_class hfull hhybrid)

end Groups

section Blocks
variable {config : VllmConfig} {groups projected : List LayerGroup}
  {worker : Dict LayerName LayerSpec}

/-- The tokens of a request that one rank of a context parallel group holds. -/
def VllmConfig.tokensPerRank (config : VllmConfig) : ℕ :=
  let ranks := config.decodeContextParallelSize * config.prefillContextParallelSize
  if ranks > 1 then cdiv config.maxModelLen ranks else config.maxModelLen

/-- The block size of a group as the scheduler sees it: `generate_scheduler_kv_cache_config` takes
the first of several specs. -/
def GroupSpec.schedulerSpec? : GroupSpec → Option LayerSpec
  | .layer spec => some spec
  | .uniformType specs => specs.kvCacheSpecs.values.head?

/-- The blocks that a request of `max_model_len` tokens needs in all groups. -/
def blocksNeeded (config : VllmConfig) (groups : List LayerGroup) : ℕ :=
  (groups.map fun group => (group.kvCacheSpec.schedulerSpec?.elim 0 fun spec =>
    cdiv config.tokensPerRank spec.blockSize)).sum

theorem maxMemoryUsageBytes_full {spec : LayerSpec} {usage : ℕ}
    (hfull : spec.fullAttentionClass?.isSome = true)
    (h : spec.maxMemoryUsageBytes config = .ok usage) :
    ∃ page, spec.pageSizeBytes = .ok page ∧ 0 < spec.blockSize ∧
      usage = cdiv config.tokensPerRank spec.blockSize * page := by
  have hrun : (do
      pure ((← cdivChecked config.tokensPerRank spec.blockSize) * (← spec.pageSizeBytes))) =
      (.ok usage : Raises ℕ) := by
    cases spec with
    | fullAttention | tqFullAttention | mlaAttention | hiddenStateCache => exact h
    | _ => simp [LayerSpec.fullAttentionClass?] at hfull
  obtain ⟨blocks, hblocks, hrun⟩ := of_bind hrun
  obtain ⟨page, hpage, hrun⟩ := of_bind hrun
  cases hrun
  unfold cdivChecked at hblocks
  split at hblocks
  · simp at hblocks
  · next hne =>
    cases hblocks
    exact ⟨page, hpage, pos_of_ne_zero hne, rfl⟩

theorem cdiv_mul_self {k p : ℕ} (hp : 0 < p) : cdiv (k * p) p = k := by
  have hle := GridLoop.le_ceilDiv_mul (x := k * p) hp
  have hlt := GridLoop.ceilDiv_mul_lt (x := k * p) hp
  have h₁ : k ≤ cdiv (k * p) p := le_of_mul_le_mul_right hle hp
  have h₂ : cdiv (k * p) p * p < (k + 1) * p := by
    rw [add_mul, one_mul]
    exact hlt
  have h₃ : cdiv (k * p) p < k + 1 := Nat.lt_of_mul_lt_mul_right h₂
  omega

variable {blockSize : ℕ} {result : ℕ × List KVCacheTensor}

theorem sum_maxMemoryUsageBytes {specs : List LayerSpec} {usages pages : List ℕ}
    (hfull : ∀ spec ∈ specs, spec.fullAttentionClass?.isSome = true ∧ spec.blockSize = blockSize)
    (husages : specs.mapM (LayerSpec.maxMemoryUsageBytes config) = .ok usages)
    (hpages : specs.mapM LayerSpec.pageSizeBytes = .ok pages) :
    usages.sum = cdiv config.tokensPerRank blockSize * pages.sum := by
  rw [mapM_eq_ok] at husages hpages
  induction husages generalizing pages with
  | nil =>
    cases hpages
    rfl
  | @cons spec usage specs usages husage _ ih =>
    cases hpages with
    | cons hpage hpages =>
      obtain ⟨hclass, hsize⟩ := hfull spec mem_cons_self
      obtain ⟨page, hpage', -, rfl⟩ := maxMemoryUsageBytes_full hclass husage
      obtain rfl := Except.ok.inj (hpage.symm.trans hpage')
      rw [sum_cons, sum_cons, hsize, mul_add,
        ih (fun spec hspec => hfull spec (mem_cons_of_mem _ hspec)) hpages]

/-- What a block takes on a worker, how many of them there are, and what the check asks for. -/
structure BlockBudget (config : VllmConfig) (groups : List LayerGroup) (memory numBlocks bytes : ℕ) :
    Prop where
  perBlock : poolBytesPerBlock groups = .ok bytes
  pos : 0 < bytes
  blocks : numBlocks = mayOverrideNumBlocks config (memory / bytes)
  needed : ∀ needed, maxMemoryUsageBytesFromGroups config groups = .ok needed →
    needed = blocksNeeded config groups * bytes

theorem uniformType_budget {names : List LayerName} {specs : UniformTypeKVCacheSpecs} {flag : Bool}
    {memory : ℕ}
    (hfull : ∀ spec ∈ specs.kvCacheSpecs.values, spec.fullAttentionClass?.isSome = true ∧
      spec.blockSize = blockSize) (hne : specs.kvCacheSpecs.values ≠ [])
    (h : getKvCacheConfigUniformType config names specs memory = .ok result) :
    ∃ bytes, BlockBudget config [⟨names, .uniformType specs, flag⟩] memory result.1 bytes := by
  unfold getKvCacheConfigUniformType at h
  obtain ⟨bytes, hbytes, h⟩ := of_bind h
  obtain ⟨n, hn, h⟩ := of_bind h
  obtain ⟨tensors, -, h⟩ := of_bind h
  cases h
  obtain ⟨hpos, rfl⟩ := floorDivChecked_eq_ok hn
  refine ⟨bytes, hbytes, hpos, rfl, ?_⟩
  intro needed hneeded
  obtain ⟨usages, husages, hneeded⟩ := of_bind hneeded
  cases hneeded
  obtain ⟨pages, hpages, hbytes⟩ := of_bind hbytes
  cases hbytes
  rw [sum_maxMemoryUsageBytes hfull husages hpages]
  obtain ⟨first, rest, hvalues⟩ := exists_cons_of_ne_nil hne
  have hfirst : first.blockSize = blockSize := (hfull first (hvalues ▸ mem_cons_self)).2
  simp [blocksNeeded, GroupSpec.schedulerSpec?, hvalues, hfirst]

theorem sum_blocks_eq {page : ℕ} {blocks : List ℕ}
    (hlayers : ∀ group ∈ groups, ∃ spec, group.kvCacheSpec = .layer spec ∧
      spec.fullAttentionClass?.isSome = true)
    (hpage : getUniformPageSize (groups.map LayerGroup.kvCacheSpec) = .ok page) (hpos : 0 < page)
    (h : (groups.mapM fun group => do
      cdivChecked (← group.kvCacheSpec.maxMemoryUsageBytes config) page) = .ok blocks) :
    blocks.sum = blocksNeeded config groups := by
  have hmap : blocks.map id = groups.map fun group =>
      group.kvCacheSpec.schedulerSpec?.elim 0 fun spec =>
        cdiv config.tokensPerRank spec.blockSize := by
    refine map_of_mapM h ?_
    intro group hgroup n hn
    obtain ⟨spec, hspec, hclass⟩ := hlayers group hgroup
    obtain ⟨usage, husage, hn⟩ := of_bind hn
    rw [hspec] at husage
    obtain ⟨page', hpage', -, rfl⟩ := maxMemoryUsageBytes_full hclass husage
    have hsame := (getUniformPageSize_eq_ok hpage).2 _ (mem_map_of_mem hgroup)
    rw [hspec] at hsame
    obtain rfl := Except.ok.inj (hpage'.symm.trans hsame)
    rw [cdivChecked, if_neg hpos.ne', cdiv_mul_self hpos] at hn
    rw [hspec]
    exact (pure_eq_ok.mp hn).symm
  rw [map_id] at hmap
  rw [hmap, blocksNeeded]

theorem general_budget {memory : ℕ} (hne : groups ≠ [])
    (hlayers : ∀ group ∈ groups, ∃ spec, group.kvCacheSpec = .layer spec ∧
      spec.fullAttentionClass?.isSome = true)
    (h : getKvCacheConfigGeneral config groups memory = .ok result) :
    ∃ bytes, BlockBudget config groups memory result.1 bytes := by
  unfold getKvCacheConfigGeneral at h
  obtain ⟨size, hsize, h⟩ := of_bind h
  obtain ⟨page, hpage, h⟩ := of_bind h
  obtain ⟨_, -, h⟩ := of_bind h
  obtain ⟨n, hn, h⟩ := of_bind h
  cases h
  unfold getNumBlocks at hn
  obtain ⟨perPage, hperPage, hn⟩ := of_bind hn
  obtain ⟨quotient, hquotient, hn⟩ := of_bind hn
  cases hn
  obtain ⟨hpagePos, rfl⟩ := floorDivChecked_eq_ok hperPage
  obtain ⟨hsizePos, rfl⟩ := floorDivChecked_eq_ok hquotient
  have htypes := uniformTypes_eq_none hne fun group hgroup =>
    (hlayers group hgroup).imp fun _ h => h.1
  have hnot : ∀ names specs flag, groups ≠ [⟨names, .uniformType specs, flag⟩] := by
    intro names specs flag heq
    obtain ⟨spec, hspec, -⟩ := hlayers _ (heq ▸ mem_singleton_self _)
    simp at hspec
  refine ⟨page * size, ?_, mul_pos hpagePos hsizePos, ?_, ?_⟩
  · unfold poolBytesPerBlock
    split
    · next heq => exact absurd rfl (hnot _ _ _)
    · rw [htypes]
      simp [hsize, hpage, ok_bind]
  · rw [Nat.div_div_eq_div_mul]
  · intro needed hneeded
    unfold maxMemoryUsageBytesFromGroups at hneeded
    split at hneeded
    · exact absurd rfl hne
    · exact absurd rfl (hnot _ _ _)
    · rw [htypes] at hneeded
      obtain ⟨size', hsize', hneeded⟩ := of_bind hneeded
      obtain ⟨page', hpage', hneeded⟩ := of_bind hneeded
      obtain ⟨blocks, hblocks, hneeded⟩ := of_bind hneeded
      cases hneeded
      obtain rfl := Except.ok.inj (hsize.symm.trans hsize')
      obtain rfl := Except.ok.inj (hpage.symm.trans hpage')
      rw [sum_blocks_eq hlayers hpage hpagePos hblocks]
      ring

theorem getKvCacheConfigFromGroups_budget {memory : ℕ} {kvCacheConfig : KVCacheConfig}
    (hne : groups ≠ []) (hfull : FullGroups groups)
    (h : getKvCacheConfigFromGroups config groups memory = .ok kvCacheConfig) :
    ∃ bytes, BlockBudget config groups memory kvCacheConfig.numBlocks bytes := by
  unfold getKvCacheConfigFromGroups at h
  rw [if_neg hne] at h
  obtain ⟨⟨numBlocks, tensors⟩, hresult, h⟩ := of_bind h
  cases h
  cases hfull with
  | layers hlayers =>
    split at hresult
    · obtain ⟨spec, hspec, -⟩ := hlayers _ (mem_singleton_self _)
      simp at hspec
    · rw [uniformTypes_eq_none hne fun group hgroup =>
        (hlayers group hgroup).imp fun _ h => h.1] at hresult
      exact general_budget hne hlayers hresult
  | uniformType hgroups hspecs hvalues =>
    subst hgroups
    exact uniformType_budget hspecs hvalues hresult

theorem FullGroups.project (config : VllmConfig) (hfull : FullGroups groups)
    (h : List.Forall₂ (Projects worker) groups projected) :
    FullGroups projected ∧ blocksNeeded config projected = blocksNeeded config groups := by
  cases hfull with
  | layers hlayers =>
    refine ⟨.layers ?_, ?_⟩
    · intro group' hgroup'
      obtain ⟨group, hgroup, hproject⟩ := exists_left_of_forall₂ h hgroup'
      obtain ⟨spec, hspec, hclass⟩ := hlayers group hgroup
      exact ⟨spec, hproject.layer spec hspec, hclass⟩
    · unfold blocksNeeded
      congr 1
      induction h with
      | nil => rfl
      | @cons group group' groups projected hproject _ ih =>
        obtain ⟨spec, hspec, -⟩ := hlayers group mem_cons_self
        rw [map_cons, map_cons, hproject.layer spec hspec, hspec,
          ih fun group hgroup => hlayers group (mem_cons_of_mem _ hgroup)]
  | @uniformType names specs flag blockSize hgroups hspecs hne =>
    subst hgroups
    cases h with
    | @cons _ group' _ _ hproject hrest =>
      cases hrest
      obtain ⟨specs', hspecs', -, hsub, hne'⟩ := hproject.uniformType _ rfl
      have hsizes : ∀ specs'' : UniformTypeKVCacheSpecs, (∀ spec ∈ specs''.kvCacheSpecs.values,
          spec.blockSize = blockSize) → specs''.kvCacheSpecs.values ≠ [] →
          (GroupSpec.uniformType specs'').schedulerSpec?.map LayerSpec.blockSize =
            some blockSize := by
        intro specs'' hsize hne''
        obtain ⟨first, rest, hvalues⟩ := exists_cons_of_ne_nil hne''
        simp [GroupSpec.schedulerSpec?, hvalues, hsize first (hvalues ▸ mem_cons_self)]
      refine ⟨?_, ?_⟩
      · obtain ⟨names', spec', flag'⟩ := group'
        obtain rfl : spec' = _ := hspecs'
        exact .uniformType rfl (fun spec hspec => hspecs spec (hsub hspec)) (hne' hne)
      · have h₁ := hsizes specs (fun spec hspec => (hspecs spec hspec).2) hne
        have h₂ := hsizes specs' (fun spec hspec => (hspecs spec (hsub hspec)).2) (hne' hne)
        obtain ⟨spec₁, hspec₁, hsize₁⟩ := Option.map_eq_some_iff.mp h₁
        obtain ⟨spec₂, hspec₂, hsize₂⟩ := Option.map_eq_some_iff.mp h₂
        simp [blocksNeeded, hspecs', hspec₁, hspec₂, hsize₁, hsize₂]

end Blocks

/-- The memory of every worker holds one block more than a request of `max_model_len` tokens needs.
The number of blocks that an override asks for counts as memory. -/
def OneBlockSpare (config config' : VllmConfig) (workerSpecs : List (Dict LayerName LayerSpec))
    (availableMemory : List ℤ) : Prop :=
  ∀ merged groups projected memory, mergeWorkerSpecs workerSpecs = .ok merged →
    getKvCacheGroups config merged = .ok groups →
    workerSpecs.mapM (projectKvCacheGroupsToWorker groups) = .ok projected →
    effectiveMemory config projected availableMemory = .ok memory →
    ∀ worker ∈ projected.zip memory, worker.1 ≠ [] → ∀ bytes,
      poolBytesPerBlock worker.1 = .ok bytes →
      (((blocksNeeded config' worker.1 + 1) * bytes : ℕ) : ℤ) ≤ worker.2

section Plan
variable {config config' : VllmConfig} {workerSpecs : List (Dict LayerName LayerSpec)}
  {availableMemory memory : List ℤ} {merged : Dict LayerName LayerSpec} {groups : List LayerGroup}
  {projected : List (List LayerGroup)} {initial configs : List KVCacheConfig} {minNumBlocks : ℕ}

theorem mayOverrideNumBlocks_effective {worker : List LayerGroup} {mem : ℤ} {bytes : ℕ}
    (h : effectiveMemory config projected availableMemory = .ok memory)
    (hworker : (worker, mem) ∈ projected.zip memory) (hne : worker ≠ [])
    (hbytes : poolBytesPerBlock worker = .ok bytes) (hpos : 0 < bytes) :
    mayOverrideNumBlocks config (mem.toNat / bytes) = mem.toNat / bytes := by
  unfold effectiveMemory at h
  split at h
  · next hnone =>
    rw [mayOverrideNumBlocks, hnone]
    rfl
  · next override hsome =>
    obtain ⟨i, hi⟩ := mem_iff_getElem?.mp hworker
    obtain ⟨hi₁, hi₂⟩ := List.getElem?_zip_eq_some.mp hi
    obtain ⟨⟨worker', mem'⟩, hi', hrun⟩ := getElem?_of_mapM h hi₂
    obtain ⟨hi₁', -⟩ := List.getElem?_zip_eq_some.mp hi'
    obtain rfl := Option.some.inj (hi₁.symm.trans hi₁')
    simp only [if_neg hne, hbytes, ok_bind, if_neg hpos.ne'] at hrun
    cases hrun
    rw [mayOverrideNumBlocks, hsome, Int.toNat_natCast, Nat.mul_div_cancel _ hpos]
    rfl

theorem mergedSpecs_full (hmerges : mergeWorkerSpecs workerSpecs = .ok merged)
    (hfull : ∀ worker ∈ workerSpecs, ∀ spec ∈ worker.values,
      spec.fullAttentionClass?.isSome = true) :
    ∀ spec ∈ merged.values, spec.fullAttentionClass?.isSome = true := by
  intro spec hspec
  obtain ⟨⟨x, spec⟩, hmem, rfl⟩ := mem_map.mp hspec
  obtain ⟨worker, hworker, hget⟩ :=
    mergeWorkerSpecs_eq_ok hmerges ((Dict.mem_entries_iff merged).mp hmem)
  exact hfull worker hworker spec (mem_values_of_get? hget)

namespace Planned

variable (hplan : Planned config config' workerSpecs memory merged groups projected initial
  minNumBlocks configs)
include hplan

theorem worker_of_memory {i : ℕ} {worker : List LayerGroup} {mem : ℤ}
    (hi : (projected.zip memory)[i]? = some (worker, mem)) :
    ∃ initial' kvCacheConfig specs, initial[i]? = some initial' ∧
      configs[i]? = some kvCacheConfig ∧ workerSpecs[i]? = some specs ∧
      projectKvCacheGroupsToWorker groups specs = .ok worker ∧
      getKvCacheConfigFromGroups config' worker mem.toNat = .ok initial' := by
  obtain ⟨hworker, hmem⟩ := List.getElem?_zip_eq_some.mp hi
  have hprojects := (mapM_eq_ok.mp hplan.projects).length_eq
  have hplans := (mapM_eq_ok.mp hplan.plans).length_eq
  have hshrinks := (mapM_eq_ok.mp hplan.shrinks).length_eq
  obtain ⟨hlt₁, -⟩ := List.getElem?_eq_some_iff.mp hworker
  obtain ⟨hlt₂, -⟩ := List.getElem?_eq_some_iff.mp hmem
  simp only [length_zip] at hplans
  have hlt : i < configs.length := by omega
  obtain ⟨specs, mem', worker', initial', hspecs, hmem', hworker', hinitial, hproject, -, hrun, -⟩ :=
    hplan.worker (List.getElem?_eq_getElem hlt)
  obtain rfl := Option.some.inj (hmem.symm.trans hmem')
  obtain rfl := Option.some.inj (hworker.symm.trans hworker')
  exact ⟨initial', _, specs, hinitial, List.getElem?_eq_getElem hlt, hspecs, hproject, hrun⟩

section
variable (hfull : FullGroups groups)
  (hmemory : effectiveMemory config projected availableMemory = .ok memory)
include hfull hmemory

/-- The blocks of one worker. -/
theorem budget {i : ℕ} {worker : List LayerGroup} {mem : ℤ}
    (hi : (projected.zip memory)[i]? = some (worker, mem)) (hne : worker ≠ []) :
    ∃ initial' bytes, initial[i]? = some initial' ∧
      poolBytesPerBlock worker = .ok bytes ∧ 0 < bytes ∧
      initial'.numBlocks = mem.toNat / bytes ∧
      blocksNeeded config' worker = blocksNeeded config' groups := by
  obtain ⟨initial', kvCacheConfig, specs, hinitial, -, -, hproject, hrun⟩ :=
    hplan.worker_of_memory hi
  have hprojects := project_forall₂ (getKvCacheGroups_nodup hplan.grouped) hproject
  obtain ⟨hworker, hneeded⟩ := hfull.project config' hprojects
  obtain ⟨bytes, hbudget⟩ := getKvCacheConfigFromGroups_budget hne hworker hrun
  obtain ⟨maxModelLen, hfitted⟩ := hplan.fitted_eq
  refine ⟨initial', bytes, hinitial, hbudget.perBlock, hbudget.pos, ?_, hneeded⟩
  rw [hbudget.blocks]
  rw [hfitted]
  exact mayOverrideNumBlocks_effective hmemory (mem_of_getElem? hi) hne hbudget.perBlock hbudget.pos

theorem spare_iff (hgroups : groups ≠ []) :
    blocksNeeded config' groups + 1 ≤ minNumBlocks ↔
      OneBlockSpare config config' workerSpecs availableMemory := by
  have hsame : ∀ worker ∈ projected, worker ≠ [] := by
    intro worker hworker hnil
    obtain ⟨specs, -, hproject⟩ := mem_of_mapM hplan.projects hworker
    have hlength := (mapM_eq_ok.mp hproject).length_eq
    rw [hnil] at hlength
    exact hgroups (length_eq_zero_iff.mp hlength)
  constructor
  · intro hle merged' groups' projected' memory' hmerges' hgroups' hprojects' hmemory'
    obtain rfl := Except.ok.inj (hplan.merges.symm.trans hmerges')
    obtain rfl := Except.ok.inj (hplan.grouped.symm.trans hgroups')
    obtain rfl := Except.ok.inj (hplan.projects.symm.trans hprojects')
    obtain rfl := Except.ok.inj (hmemory.symm.trans hmemory')
    rintro ⟨worker, mem⟩ hworker hne bytes hbytes
    obtain ⟨i, hi⟩ := mem_iff_getElem?.mp hworker
    obtain ⟨initial', bytes', hinitial, hbytes', hpos, hblocks, hneeded⟩ :=
      hplan.budget hfull hmemory hi hne
    obtain rfl := Except.ok.inj (hbytes.symm.trans hbytes')
    have hmin := hplan.minNumBlocks_le hinitial
    rw [hblocks] at hmin
    have hmul := (le_div_iff_mul_le hpos).mp (hle.trans hmin)
    have hk : 0 < (blocksNeeded config' groups + 1) * bytes := mul_pos (succ_pos _) hpos
    simp only [hneeded]
    generalize (blocksNeeded config' groups + 1) * bytes = k at hmul hk ⊢
    omega
  · intro hspare
    obtain ⟨initial', hmem, hblocks⟩ := mem_map.mp (minChecked_eq_ok hplan.smallest).1
    obtain ⟨i, hi⟩ := mem_iff_getElem?.mp hmem
    obtain ⟨⟨worker, specs, mem⟩, hzip, -⟩ := getElem?_of_mapM hplan.plans hi
    obtain ⟨hworker, hzip'⟩ := List.getElem?_zip_eq_some.mp hzip
    obtain ⟨-, hmem'⟩ := List.getElem?_zip_eq_some.mp hzip'
    have hpair : (projected.zip memory)[i]? = some (worker, mem) :=
      List.getElem?_zip_eq_some.mpr ⟨hworker, hmem'⟩
    have hne := hsame worker (mem_of_getElem? hworker)
    obtain ⟨initial'', bytes, hinitial, hbytes, hpos, hnum, hneeded⟩ :=
      hplan.budget hfull hmemory hpair hne
    obtain rfl := Option.some.inj (hi.symm.trans hinitial)
    have hle := hspare merged groups projected memory hplan.merges hplan.grouped hplan.projects
      hmemory (worker, mem) (mem_of_getElem? hpair) hne bytes hbytes
    rw [← hblocks, hnum, le_div_iff_mul_le hpos]
    simp only [hneeded] at hle
    omega

end

end Planned

end Plan

end Vllm
