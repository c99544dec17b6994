import Vllm.KvCache.ConfigLayout

/-! The layout of every worker, for layers that come with one page size: groups, tensors and their
size, which is that of the page whenever grouping keeps it. -/
namespace Vllm
open Raises List Nat

structure WorkerLayout (numBlocks : ℕ) (specs : Dict LayerName LayerSpec) (memory : ℤ)
    (kvCacheConfig : KVCacheConfig) : Prop where
  blocks : kvCacheConfig.numBlocks = numBlocks
  partition : (layerNamesOf kvCacheConfig.kvCacheGroups).Perm specs.keys
  layers : (kvCacheConfig.kvCacheTensors.flatMap KVCacheTensor.sharedBy).Perm specs.keys
  shared : ∀ t ∈ kvCacheConfig.kvCacheTensors, t.sharedBy ≠ []
  apart : ∀ t ∈ kvCacheConfig.kvCacheTensors, ∀ group ∈ kvCacheConfig.kvCacheGroups,
    ∀ x ∈ t.sharedBy, ∀ y ∈ t.sharedBy, x ∈ group.layerNames → y ∈ group.layerNames → x = y
  size : ∀ t ∈ kvCacheConfig.kvCacheTensors, ∀ group ∈ kvCacheConfig.kvCacheGroups,
    ∀ x ∈ t.sharedBy, x ∈ group.layerNames →
      ∃ page, layerPageSize group.kvCacheSpec x = .ok page ∧ t.size = numBlocks * page
  total : (kvCacheConfig.kvCacheTensors.map KVCacheTensor.size).sum ≤ memory.toNat

/-- The specs as they are grouped, or the one they are merged to, still have the page size. -/
def PageSizeKept (config : VllmConfig) (workerSpecs : List (Dict LayerName LayerSpec)) (p : ℕ) :
    Prop :=
  ∀ merged specs, mergeWorkerSpecs workerSpecs = .ok merged →
    groupedSpecs config merged = .ok specs →
    match LayerSpec.merge specs.values with
    | .ok spec => spec.pageSizeBytes = .ok p
    | .error _ => ∀ spec ∈ specs.values, spec.pageSizeBytes = .ok p

section Shrink
variable {config : VllmConfig} {initial kvCacheConfig : KVCacheConfig} {minNumBlocks : ℕ}

theorem shrinkConfig_eq_ok (h : shrinkConfig config minNumBlocks initial = .ok kvCacheConfig) :
    kvCacheConfig.numBlocks = minNumBlocks ∧
    kvCacheConfig.kvCacheGroups = initial.kvCacheGroups ∧
    kvCacheConfig.kvCacheTensors = initial.kvCacheTensors.map (fun t =>
      { t with size := t.size / initial.numBlocks * minNumBlocks }) ∧
    (initial.kvCacheTensors ≠ [] → 0 < initial.numBlocks) ∧
    checkMaxConcurrency config kvCacheConfig = .ok () := by
  unfold shrinkConfig at h
  obtain ⟨tensors, htensors, h⟩ := of_bind h
  obtain ⟨_, hcheck, h⟩ := of_bind h
  cases h
  have hone : ∀ t ∈ initial.kvCacheTensors, ∀ t', (do
      if initial.numBlocks = 0 then throw PyError.zeroDivisionError
      require (t.size % initial.numBlocks = 0)
      pure { t with size := t.size / initial.numBlocks * minNumBlocks }) = .ok t' →
      0 < initial.numBlocks ∧
        t' = { t with size := t.size / initial.numBlocks * minNumBlocks } := by
    intro t _ t' ht
    split at ht
    · obtain ⟨_, hraise, -⟩ := of_bind ht
      simp at hraise
    · next hne =>
      obtain ⟨_, -, ht⟩ := of_bind ht
      exact ⟨pos_of_ne_zero hne, (pure_eq_ok.mp ht).symm⟩
  refine ⟨rfl, rfl, ?_, ?_, hcheck⟩
  · have hmap : tensors.map id = initial.kvCacheTensors.map (fun t =>
        { t with size := t.size / initial.numBlocks * minNumBlocks }) :=
      map_of_mapM htensors fun t ht t' hrun => (hone t ht t' hrun).2
    simpa using hmap
  · intro hne
    obtain ⟨t, rest, hcons⟩ := exists_cons_of_ne_nil hne
    have ht : t ∈ initial.kvCacheTensors := hcons ▸ mem_cons_self
    obtain ⟨t', -, hrun⟩ := mapM_of_mem htensors ht
    exact (hone t ht t' hrun).1

theorem TensorLayout.shrink {page : LayerName → ℕ} {groups : List LayerGroup} {memory n m : ℕ}
    {tensors : List KVCacheTensor} (h : TensorLayout page groups memory n tensors) (hmn : m ≤ n)
    (hn : tensors ≠ [] → 0 < n) :
    TensorLayout page groups memory m (tensors.map fun t => { t with size := t.size / n * m }) := by
  refine ⟨?_, ?_, ?_, ?_, ?_⟩
  · rw [flatMap_map]
    exact h.layers
  · intro t' ht'
    obtain ⟨t, ht, rfl⟩ := mem_map.mp ht'
    exact h.apart t ht
  · intro t' ht'
    obtain ⟨t, ht, rfl⟩ := mem_map.mp ht'
    exact h.shared t ht
  · intro t' ht' x hx
    obtain ⟨t, ht, rfl⟩ := mem_map.mp ht'
    have hpos : 0 < n := hn (ne_nil_of_mem ht)
    show t.size / n * m = page x * m
    rw [h.size t ht x hx, Nat.mul_div_cancel _ hpos]
  · rw [map_map]
    calc (tensors.map (KVCacheTensor.size ∘ fun t => { t with size := t.size / n * m })).sum
        ≤ (tensors.map KVCacheTensor.size).sum := by
          refine sum_le_sum ?_
          intro t _
          exact (mul_le_mul_left _ hmn).trans (div_mul_le_self t.size n)
      _ ≤ memory := h.total

theorem getKvCacheConfigFromGroups_groups {groups : List LayerGroup} {memory : ℕ}
    (h : getKvCacheConfigFromGroups config groups memory = .ok kvCacheConfig) :
    kvCacheConfig.kvCacheGroups = groups := by
  unfold getKvCacheConfigFromGroups at h
  split at h
  · cases h
    rfl
  · obtain ⟨_, -, h⟩ := of_bind h
    cases h
    rfl

theorem getKvCacheConfigFromGroups_nil {groups : List LayerGroup} {memory : ℕ}
    (h : getKvCacheConfigFromGroups config groups memory = .ok kvCacheConfig)
    (hempty : kvCacheConfig.kvCacheGroups = []) : kvCacheConfig.numBlocks = 1 := by
  unfold getKvCacheConfigFromGroups at h
  split at h
  · cases h
    rfl
  · next hne =>
    obtain ⟨_, -, h⟩ := of_bind h
    cases h
    exact absurd hempty hne

theorem exists_layer_of_checkMaxConcurrency (h : checkMaxConcurrency config kvCacheConfig = .ok ())
    (hne : kvCacheConfig.kvCacheGroups ≠ []) :
    ∃ group ∈ kvCacheConfig.kvCacheGroups, group.layerNames ≠ [] := by
  unfold checkMaxConcurrency at h
  split at h
  · next hempty => exact absurd hempty hne
  obtain ⟨numLayers, hmax, h⟩ := of_bind h
  obtain ⟨usages, -, h⟩ := of_bind h
  obtain ⟨pageSize, -, h⟩ := of_bind h
  obtain ⟨blocks, hblocks, h⟩ := of_bind h
  have hpos : 0 < numLayers := by
    unfold cdivChecked at hblocks
    split at hblocks
    · simp at hblocks
    · next hne' => exact pos_of_ne_zero fun hzero => hne' (by rw [hzero, mul_zero])
  obtain ⟨group, hgroup, hlength⟩ := mem_map.mp (maxChecked_eq_ok hmax).1
  refine ⟨group, hgroup, ?_⟩
  rintro hnil
  rw [hnil, length_nil] at hlength
  omega

end Shrink

section Groups
variable {config : VllmConfig} {workerSpecs : List (Dict LayerName LayerSpec)}
  {merged : Dict LayerName LayerSpec} {groups : List LayerGroup} {p : ℕ}

theorem getKvCacheGroups_shape (h : getKvCacheGroups config merged = .ok groups)
    (hpages : ∀ spec ∈ merged.values, spec.pageSizeBytes = .ok p) : GroupShape groups := by
  obtain ⟨specs, -, ⟨-, rfl⟩ | ⟨spec, -, rfl⟩ | ⟨-, uniform, -, rfl, rfl⟩ | ⟨-, -, hrest⟩⟩ :=
    getKvCacheGroups_cases h
  · exact .layers (by simp)
  · exact .layers (by simp)
  · exact .uniformType rfl (.inr rfl)
  · obtain ⟨grouped, groups', hgrouped, hgroups, rfl⟩ | ⟨hnone, hhybrid⟩ := hrest
    · exact (uniformGroups_shape hpages hgrouped hgroups).1
    · exact .layers (getKvCacheGroupsHybrid_pages hpages (slidingWindowMla?_eq_none hnone) hhybrid).1

theorem GroupShape.layer_of_layer (hshape : GroupShape groups) {group : LayerGroup}
    (hgroup : group ∈ groups) {spec : LayerSpec} (hspec : group.kvCacheSpec = .layer spec) :
    ∀ group' ∈ groups, ∃ spec', group'.kvCacheSpec = .layer spec' := by
  cases hshape with
  | layers hlayers => exact hlayers
  | uniformType hgroups =>
    rw [hgroups, mem_singleton] at hgroup
    simp [hgroup] at hspec
  | uniformTypes htypes =>
    obtain ⟨specs, hspecs⟩ := htypes group hgroup
    simp [hspecs] at hspec

section
variable (hmerges : mergeWorkerSpecs workerSpecs = .ok merged)
  (h : getKvCacheGroups config merged = .ok groups)
  (hpages : ∀ spec ∈ merged.values, spec.pageSizeBytes = .ok p)
include hmerges h hpages

theorem groupPages_of_kept
    (hequal : ∀ group ∈ groups, ∀ spec, group.kvCacheSpec = .layer spec → ∀ group' ∈ groups,
      group'.kvCacheSpec.pageSizeBytes = group.kvCacheSpec.pageSizeBytes)
    (hkept : PageSizeKept config workerSpecs p) : GroupPages groups fun _ => p := by
  obtain ⟨specs, hspecs, hcases⟩ := getKvCacheGroups_cases h
  replace hkept := hkept merged specs hmerges hspecs
  obtain ⟨-, rfl⟩ | ⟨spec, hspec, rfl⟩ | ⟨hnone, uniform, -, rfl, rfl⟩ | ⟨-, -, hrest⟩ := hcases
  · simp [GroupPages]
  · rw [hspec] at hkept
    intro group hgroup x _
    rw [mem_singleton.mp hgroup]
    exact hkept
  · have hall : ∀ spec ∈ uniform.kvCacheSpecs.values, spec.pageSizeBytes = .ok p := by
      split at hkept
      · next spec hspec => exact absurd hspec (hnone spec)
      · exact hkept
    intro group hgroup
    rw [mem_singleton.mp hgroup]
    exact (UniformGroup.of_specs hall).pages
  · obtain ⟨grouped, groups', hgrouped, hgroups, rfl⟩ | ⟨hnone, hhybrid⟩ := hrest
    · exact (uniformGroups_shape hpages hgrouped hgroups).2
    · obtain ⟨hlayers, hfirst⟩ :=
        getKvCacheGroupsHybrid_pages hpages (slidingWindowMla?_eq_none hnone) hhybrid
      intro group hgroup x _
      obtain ⟨first, hmem, hfirst⟩ := hfirst (ne_nil_of_mem hgroup)
      obtain ⟨spec, hspec⟩ := hlayers group hgroup
      have hpage := hequal group hgroup spec hspec first hmem
      rw [hfirst, hspec] at hpage
      rw [hspec]
      exact hpage.symm

theorem kept_of_groupPages (hgroups : ∀ group ∈ groups, ∀ x ∈ group.layerNames, x ∈ merged.keys →
      layerPageSize group.kvCacheSpec x = .ok p) : PageSizeKept config workerSpecs p := by
  intro merged' specs hmerges' hspecs
  obtain rfl := Except.ok.inj (hmerges.symm.trans hmerges')
  obtain ⟨specs', hspecs', hcases⟩ := getKvCacheGroups_cases h
  obtain rfl := Except.ok.inj (hspecs.symm.trans hspecs')
  have hkeys := groupedSpecs_keys hspecs
  obtain ⟨hempty, -⟩ | ⟨spec, hspec, rfl⟩ | ⟨hnone, uniform, -, rfl, rfl⟩ | ⟨hnone, rfl, -⟩ := hcases
  · rw [hempty]
    exact fun spec hspec => absurd hspec not_mem_nil
  · rw [hspec]
    have hne : specs.keys ≠ [] := by
      intro hnil
      have hvalues : specs.values = [] := by
        rw [Dict.keys, map_eq_nil_iff] at hnil
        rw [Dict.values, hnil, map_nil]
      rw [hvalues] at hspec
      simp [LayerSpec.merge] at hspec
    obtain ⟨x, hx⟩ := exists_mem_of_ne_nil _ hne
    exact hgroups _ (mem_singleton_self _) x hx (hkeys ▸ hx)
  · split
    · next spec hspec => exact absurd hspec (hnone spec)
    · intro spec hspec
      obtain ⟨⟨x, spec⟩, hmem, rfl⟩ := mem_map.mp hspec
      have hx : x ∈ uniform.kvCacheSpecs.keys := mem_map_of_mem hmem
      have hpage := hgroups _ (mem_singleton_self _) x hx (hkeys ▸ hx)
      rwa [layerPageSize_uniformType ((Dict.mem_entries_iff _).mp hmem)] at hpage
  · split
    · next spec hspec => exact absurd hspec (hnone spec)
    · exact hpages

end

end Groups

section Configs
variable {config config' : VllmConfig} {workerSpecs : List (Dict LayerName LayerSpec)}
  {availableMemory : List ℤ} {merged : Dict LayerName LayerSpec} {groups : List LayerGroup}
  {projected : List (List LayerGroup)} {initial configs : List KVCacheConfig} {minNumBlocks p : ℕ}

namespace Planned

variable (hplan : Planned config config' workerSpecs availableMemory merged groups projected
  initial minNumBlocks configs)
include hplan

theorem override_eq (hoverride : config.numGpuBlocksOverride = none) :
    config'.numGpuBlocksOverride = none := by
  obtain ⟨maxModelLen, rfl⟩ := hplan.fitted_eq
  exact hoverride

theorem merged_pages
    (hpages : ∀ worker ∈ workerSpecs, ∀ spec ∈ worker.values, spec.pageSizeBytes = .ok p) :
    ∀ spec ∈ merged.values, spec.pageSizeBytes = .ok p := by
  intro spec hspec
  obtain ⟨⟨x, spec⟩, hmem, rfl⟩ := mem_map.mp hspec
  obtain ⟨worker, hworker, hget⟩ :=
    mergeWorkerSpecs_eq_ok hplan.merges ((Dict.mem_entries_iff merged).mp hmem)
  exact hpages worker hworker spec
    (mem_map.mpr ⟨(x, spec), (Dict.mem_entries_iff worker).mpr hget, rfl⟩)

theorem layout (hoverride : config.numGpuBlocksOverride = none) (hshape : GroupShape groups)
    {i : ℕ} {kvCacheConfig : KVCacheConfig} (hi : configs[i]? = some kvCacheConfig) :
    ∃ specs memory initial' page, workerSpecs[i]? = some specs ∧
      availableMemory[i]? = some memory ∧ initial[i]? = some initial' ∧
      shrinkConfig config' minNumBlocks initial' = .ok kvCacheConfig ∧
      List.Forall₂ (Projects specs) groups kvCacheConfig.kvCacheGroups ∧
      (layerNamesOf kvCacheConfig.kvCacheGroups).Perm specs.keys ∧
      (∀ group ∈ kvCacheConfig.kvCacheGroups, ∀ spec, group.kvCacheSpec = .layer spec →
        ∀ group' ∈ kvCacheConfig.kvCacheGroups,
          group'.kvCacheSpec.pageSizeBytes = group.kvCacheSpec.pageSizeBytes) ∧
      GroupPages kvCacheConfig.kvCacheGroups page ∧
      TensorLayout page kvCacheConfig.kvCacheGroups memory.toNat minNumBlocks
        kvCacheConfig.kvCacheTensors := by
  obtain ⟨specs, memory, worker, initial', hspecs, hmemory, -, hinitial, hproject, hcount, hrun,
    hshrink⟩ := hplan.worker hi
  have hnodup := getKvCacheGroups_nodup hplan.grouped
  have hprojects := project_forall₂ hnodup hproject
  have hperm := layerNamesOf_project_perm hnodup hprojects hcount
  have hnodup' : (layerNamesOf worker).Nodup := hperm.nodup_iff.mpr specs.nodupKeys
  obtain ⟨hgroups, hequal, page, hpages, hlayout⟩ := getKvCacheConfigFromGroups_layout
    (hplan.override_eq hoverride) hnodup' (hshape.project hprojects) hrun
  obtain ⟨-, hgroups', htensors, hpos, -⟩ := shrinkConfig_eq_ok hshrink
  rw [hgroups] at hgroups'
  rw [hgroups', htensors]
  exact ⟨specs, memory, initial', page, hspecs, hmemory, hinitial, hshrink, hprojects, hperm,
    hequal, hpages, hlayout.shrink (hplan.minNumBlocks_le hinitial) hpos⟩

theorem exists_config {initial' : KVCacheConfig} (h : initial' ∈ initial) :
    ∃ (i : ℕ) (kvCacheConfig : KVCacheConfig), initial[i]? = some initial' ∧
      configs[i]? = some kvCacheConfig := by
  obtain ⟨i, hi⟩ := mem_iff_getElem?.mp h
  have hlength := (mapM_eq_ok.mp hplan.shrinks).length_eq
  obtain ⟨hlt, -⟩ := List.getElem?_eq_some_iff.mp hi
  exact ⟨i, configs.get ⟨i, hlength ▸ hlt⟩, hi, List.getElem?_eq_getElem (hlength ▸ hlt)⟩

section
variable (hoverride : config.numGpuBlocksOverride = none) (hshape : GroupShape groups)
include hoverride hshape

theorem minNumBlocks_pos : 0 < minNumBlocks := by
  obtain ⟨initial', hmem, hblocks⟩ := mem_map.mp (minChecked_eq_ok hplan.smallest).1
  obtain ⟨i, kvCacheConfig, hi, hconfig⟩ := hplan.exists_config hmem
  obtain ⟨specs, memory, worker, initial'', -, -, -, hinitial, -, -, hrun, hshrink⟩ :=
    hplan.worker hconfig
  obtain rfl := Option.some.inj (hi.symm.trans hinitial)
  obtain ⟨-, hgroups, htensors, hpos, hcheck⟩ := shrinkConfig_eq_ok hshrink
  rw [← hblocks]
  by_cases hempty : kvCacheConfig.kvCacheGroups = []
  · rw [hgroups] at hempty
    rw [getKvCacheConfigFromGroups_nil hrun hempty]
    exact one_pos
  · obtain ⟨group, hgroup, hlayer⟩ := exists_layer_of_checkMaxConcurrency hcheck hempty
    obtain ⟨_, _, _, page, -, -, -, -, -, -, -, -, hlayout⟩ := hplan.layout hoverride hshape hconfig
    obtain ⟨x, hx⟩ := exists_mem_of_ne_nil _ hlayer
    have hmem : x ∈ kvCacheConfig.kvCacheTensors.flatMap KVCacheTensor.sharedBy :=
      hlayout.layers.mem_iff.mpr (mem_flatten.mpr ⟨_, mem_map_of_mem hgroup, hx⟩)
    obtain ⟨t, ht, -⟩ := mem_flatMap.mp hmem
    refine hpos ?_
    rintro hnil
    rw [htensors, hnil] at ht
    exact absurd ht not_mem_nil

theorem equal_pages : ∀ group ∈ groups, ∀ spec, group.kvCacheSpec = .layer spec →
      ∀ group' ∈ groups, group'.kvCacheSpec.pageSizeBytes = group.kvCacheSpec.pageSizeBytes := by
  obtain ⟨initial', hmem, -⟩ := mem_map.mp (minChecked_eq_ok hplan.smallest).1
  obtain ⟨i, kvCacheConfig, -, hconfig⟩ := hplan.exists_config hmem
  obtain ⟨specs, _, _, _, -, -, -, -, hprojects, -, hequal, -, -⟩ :=
    hplan.layout hoverride hshape hconfig
  intro group hgroup spec hspec group' hgroup'
  obtain ⟨spec', hspec'⟩ := hshape.layer_of_layer hgroup hspec group' hgroup'
  obtain ⟨mine, hmine, hproject⟩ := exists_right_of_forall₂ hprojects hgroup
  obtain ⟨other, hother, hproject'⟩ := exists_right_of_forall₂ hprojects hgroup'
  have hpage := hequal mine hmine spec (hproject.layer spec hspec) other hother
  rw [hproject.layer spec hspec, hproject'.layer spec' hspec'] at hpage
  rw [hspec, hspec', hpage]

end

end Planned

theorem WorkerLayout.of_tensorLayout {page : LayerName → ℕ} {specs : Dict LayerName LayerSpec}
    {memory : ℤ} {kvCacheConfig : KVCacheConfig} (hblocks : kvCacheConfig.numBlocks = minNumBlocks)
    (hperm : (layerNamesOf kvCacheConfig.kvCacheGroups).Perm specs.keys)
    (hpages : GroupPages kvCacheConfig.kvCacheGroups page)
    (hlayout : TensorLayout page kvCacheConfig.kvCacheGroups memory.toNat minNumBlocks
      kvCacheConfig.kvCacheTensors) : WorkerLayout minNumBlocks specs memory kvCacheConfig where
  blocks := hblocks
  partition := hperm
  layers := hlayout.layers.trans hperm
  shared := hlayout.shared
  apart := hlayout.apart
  size := by
    intro t ht group hgroup x hx hmem
    refine ⟨page x, hpages group hgroup x hmem, ?_⟩
    rw [hlayout.size t ht x hx, mul_comm]
  total := hlayout.total

section Sizes
variable {specs : Dict LayerName LayerSpec} {memory : ℤ} {kvCacheConfig : KVCacheConfig}
  {numBlocks : ℕ} (hlayout : WorkerLayout numBlocks specs memory kvCacheConfig)
  (hprojects : List.Forall₂ (Projects specs) groups kvCacheConfig.kvCacheGroups)
include hlayout hprojects

theorem WorkerLayout.page_of_sizes (hpos : 0 < numBlocks)
    (hsizes : ∀ t ∈ kvCacheConfig.kvCacheTensors, t.size = numBlocks * p) {group : LayerGroup}
    (hgroup : group ∈ groups) {x : LayerName} (hx : x ∈ group.layerNames) (hkey : x ∈ specs.keys) :
    layerPageSize group.kvCacheSpec x = .ok p := by
  obtain ⟨group', hgroup', hproject⟩ := exists_right_of_forall₂ hprojects hgroup
  obtain ⟨t, ht, hxt⟩ := mem_flatMap.mp (hlayout.layers.mem_iff.mpr hkey)
  have hx' : x ∈ group'.layerNames := by
    rw [hproject.names, mem_filter]
    exact ⟨hx, Dict.mem_keys_iff.mp hkey⟩
  obtain ⟨page, hpage, hsize⟩ := hlayout.size t ht group' hgroup' x hxt hx'
  rw [hsizes t ht] at hsize
  rw [← hproject.pages x hx', hpage, Nat.eq_of_mul_eq_mul_left hpos hsize]

theorem WorkerLayout.sizes_of_pages (hpages : GroupPages groups fun _ => p) :
    ∀ t ∈ kvCacheConfig.kvCacheTensors, t.size = numBlocks * p := by
  intro t ht
  obtain ⟨x, hx⟩ := exists_mem_of_ne_nil _ (hlayout.shared t ht)
  have hkey : x ∈ specs.keys := hlayout.layers.mem_iff.mp (mem_flatMap.mpr ⟨t, ht, hx⟩)
  obtain ⟨names, hnames, hmem⟩ := mem_flatten.mp (hlayout.partition.mem_iff.mpr hkey)
  obtain ⟨group', hgroup', rfl⟩ := mem_map.mp hnames
  obtain ⟨group, hgroup, hproject⟩ := exists_left_of_forall₂ hprojects hgroup'
  have hmem' : x ∈ group.layerNames := by
    rw [hproject.names] at hmem
    exact (mem_filter.mp hmem).1
  obtain ⟨page, hpage, hsize⟩ := hlayout.size t ht group' hgroup' x hx hmem
  rw [hproject.pages x hmem, hpages group hgroup x hmem'] at hpage
  rw [hsize, ← Except.ok.inj hpage]

end Sizes

/-- For layers with one page size, every worker gets the same number of blocks, groups that
partition its layers, and tensors of which each holds at most one layer of a group. The tensors
have the size of the blocks of their layers as grouped, which is that of the common page size if
and only if grouping keeps the page size. -/
theorem getKvCacheConfigs_layout (hoverride : config.numGpuBlocksOverride = none)
    (hlength : availableMemory.length = workerSpecs.length)
    (hpages : ∀ worker ∈ workerSpecs, ∀ spec ∈ worker.values, spec.pageSizeBytes = .ok p)
    (h : getKvCacheConfigs config workerSpecs availableMemory = .ok (configs, config')) :
    ∃ numBlocks, configs.length = workerSpecs.length ∧
      (∀ (i : ℕ) specs memory kvCacheConfig, workerSpecs[i]? = some specs →
        availableMemory[i]? = some memory → configs[i]? = some kvCacheConfig →
        WorkerLayout numBlocks specs memory kvCacheConfig) ∧
      ((∀ kvCacheConfig ∈ configs, ∀ t ∈ kvCacheConfig.kvCacheTensors,
        t.size = numBlocks * p) ↔ PageSizeKept config workerSpecs p) := by
  obtain ⟨merged, groups, projected, initial, minNumBlocks, hplan⟩ :=
    getKvCacheConfigs_eq_ok hoverride h
  have hmerged := hplan.merged_pages hpages
  have hshape := getKvCacheGroups_shape hplan.grouped hmerged
  have hworkers : ∀ (i : ℕ) specs memory kvCacheConfig, workerSpecs[i]? = some specs →
      availableMemory[i]? = some memory → configs[i]? = some kvCacheConfig →
      WorkerLayout minNumBlocks specs memory kvCacheConfig ∧
        List.Forall₂ (Projects specs) groups kvCacheConfig.kvCacheGroups := by
    intro i specs memory kvCacheConfig hspecs hmemory hconfig
    obtain ⟨specs', memory', initial', page, hspecs', hmemory', -, hshrink, hprojects, hperm, -,
      hgroupPages, hlayout⟩ := hplan.layout hoverride hshape hconfig
    obtain rfl := Option.some.inj (hspecs.symm.trans hspecs')
    obtain rfl := Option.some.inj (hmemory.symm.trans hmemory')
    exact ⟨.of_tensorLayout (shrinkConfig_eq_ok hshrink).1 hperm hgroupPages hlayout, hprojects⟩
  have hcount := hplan.length_configs hlength
  refine ⟨minNumBlocks, hcount, ?_, ?_, ?_⟩
  · intro i specs memory kvCacheConfig hspecs hmemory hconfig
    exact (hworkers i specs memory kvCacheConfig hspecs hmemory hconfig).1
  · intro hsizes
    refine kept_of_groupPages hplan.merges hplan.grouped hmerged ?_
    intro group hgroup x hx hkey
    obtain ⟨⟨_, spec⟩, hentry, rfl⟩ := mem_map.mp hkey
    obtain ⟨specs, hspecs, hget⟩ :=
      mergeWorkerSpecs_eq_ok hplan.merges ((Dict.mem_entries_iff merged).mp hentry)
    obtain ⟨i, hi⟩ := mem_iff_getElem?.mp hspecs
    obtain ⟨hlt, -⟩ := List.getElem?_eq_some_iff.mp hi
    have hconfig : configs[i]? = some (configs.get ⟨i, hcount ▸ hlt⟩) :=
      List.getElem?_eq_getElem (hcount ▸ hlt)
    obtain ⟨hlayout, hprojects⟩ := hworkers i specs _ _ hi
      (List.getElem?_eq_getElem (hlength ▸ hlt)) hconfig
    exact hlayout.page_of_sizes hprojects (hplan.minNumBlocks_pos hoverride hshape)
      (hsizes _ (mem_of_getElem? hconfig)) hgroup hx
      (Dict.mem_keys_iff.mpr (by rw [Dict.contains, hget, Option.isSome_some]))
  · intro hkept kvCacheConfig hconfig t ht
    have hgroupPages := groupPages_of_kept hplan.merges hplan.grouped hmerged
      (hplan.equal_pages hoverride hshape) hkept
    obtain ⟨i, hi⟩ := mem_iff_getElem?.mp hconfig
    obtain ⟨specs, memory, _, _, hspecs, hmemory, -⟩ := hplan.worker hi
    obtain ⟨hlayout, hprojects⟩ := hworkers i specs memory kvCacheConfig hspecs hmemory hi
    exact hlayout.sizes_of_pages hprojects hgroupPages t ht

end Configs

def hybridConfig : VllmConfig where
  maxModelLen := 64
  maxNumBatchedTokens := 64

def hybridAttention : AttentionSpec where
  blockSize := 16
  numKvHeads := 2
  headSize := 8
  dtype := ⟨"int8", 1⟩

/-- Two layers with full attention and one with a window. -/
def hybridSpecs : Dict LayerName LayerSpec := Dict.ofList [
  ("layers.0", .fullAttention hybridAttention { headSizeV := 8 }),
  ("layers.1", .slidingWindow hybridAttention 32 8),
  ("layers.2", .fullAttention hybridAttention { headSizeV := 8 })]

theorem getKvCacheConfigs_layout_hybrid : ∃ configs config' numBlocks,
    getKvCacheConfigs hybridConfig [hybridSpecs] [80000] = .ok (configs, config') ∧
    (∀ kvCacheConfig, configs[0]? = some kvCacheConfig →
      WorkerLayout numBlocks hybridSpecs 80000 kvCacheConfig) ∧
    ((∀ kvCacheConfig ∈ configs, ∀ t ∈ kvCacheConfig.kvCacheTensors,
      t.size = numBlocks * 512) ↔ PageSizeKept hybridConfig [hybridSpecs] 512) := by
  obtain ⟨⟨configs, config'⟩, hrun, -⟩ := exists_ok
    (show (getKvCacheConfigs hybridConfig [hybridSpecs] [80000]).toOption.map
      (fun r => r.1.length) = some 1 by decide +kernel)
  have hpages : ∀ worker ∈ [hybridSpecs], ∀ spec ∈ worker.values,
      spec.pageSizeBytes = .ok 512 := by
    intro worker hworker spec hspec
    rw [mem_singleton.mp hworker] at hspec
    have hvalues : hybridSpecs.values = [.fullAttention hybridAttention { headSizeV := 8 },
        .slidingWindow hybridAttention 32 8, .fullAttention hybridAttention { headSizeV := 8 }] := by
      decide +kernel
    rw [hvalues] at hspec
    fin_cases hspec <;> rfl
  obtain ⟨numBlocks, -, hlayout, hsizes⟩ := getKvCacheConfigs_layout rfl rfl hpages hrun
  exact ⟨configs, config', numBlocks, hrun,
    fun kvCacheConfig hconfig => hlayout 0 hybridSpecs 80000 kvCacheConfig rfl rfl hconfig, hsizes⟩

/-- The hybrid manager is disabled. -/
def deepseekConfig : VllmConfig where
  maxModelLen := 256
  disableHybridKvCacheManager := true

def deepseekMla (compressRatio : ℕ) : MlaFields where
  cacheDtypeStr := some "fp8_ds_mla"
  compressRatio := compressRatio
  modelVersion := some "deepseek_v4"

def deepseekAttention (blockSize : ℕ) : AttentionSpec where
  blockSize := blockSize
  numKvHeads := 1
  headSize := 512
  dtype := ⟨"uint8", 1⟩

/-- A layer that stores one token in four, and one with a window: both with pages of 64 entries. -/
def deepseekSpecs : Dict LayerName LayerSpec := Dict.ofList [
  ("layers.0.mla", .mlaAttention (deepseekAttention 256) { headSizeV := 512 } (deepseekMla 4)),
  ("layers.0.swa", .slidingWindowMla (deepseekAttention 64) 128 none (deepseekMla 1))]

/-- The window layer gets the block size of the other one, and with it a page of 256 entries. -/
theorem deepseek_page_changes : ∃ configs config' kvCacheConfig t,
    deepseekConfig.numGpuBlocksOverride = none ∧
    deepseekSpecs.values.mapM LayerSpec.pageSizeBytes = .ok [37376, 37376] ∧
    getKvCacheConfigs deepseekConfig [deepseekSpecs] [400000] = .ok (configs, config') ∧
    kvCacheConfig ∈ configs ∧ t ∈ kvCacheConfig.kvCacheTensors ∧
    t.size ≠ kvCacheConfig.numBlocks * 37376 := by
  obtain ⟨⟨configs, config'⟩, hrun, hfacts⟩ := exists_ok
    (show (getKvCacheConfigs deepseekConfig [deepseekSpecs] [400000]).toOption.map
      (fun r => r.1.any fun kvCacheConfig => kvCacheConfig.kvCacheTensors.any fun t =>
        t.size ≠ kvCacheConfig.numBlocks * 37376) = some true by decide +kernel)
  obtain ⟨kvCacheConfig, hconfig, hfacts⟩ := any_eq_true.mp hfacts
  obtain ⟨t, ht, hsize⟩ := any_eq_true.mp hfacts
  exact ⟨configs, config', kvCacheConfig, t, rfl, by decide +kernel, hrun, hconfig, ht,
    of_decide_eq_true hsize⟩

end Vllm
