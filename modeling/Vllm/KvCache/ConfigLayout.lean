import Vllm.KvCache.TensorLayout

/-! `get_kv_cache_configs`: the layout of every worker, and when its tensors have the page size that
the layers came with. A run of `get_kv_cache_configs`, taken apart: the groups of the whole model,
what every worker keeps of them, and the number of blocks that all workers agree on. -/
namespace Vllm
open Raises LayerSpec Dict

section Projection
variable {worker : Dict LayerName LayerSpec} {groups projected : List LayerGroup}
  {group group' : LayerGroup}

/-- A group keeps the layers of the worker, with their page sizes. -/
structure Projects (worker : Dict LayerName LayerSpec) (group group' : LayerGroup) : Prop where
  names : group'.layerNames = group.layerNames.filter worker.contains
  layer : ∀ spec, group.kvCacheSpec = .layer spec → group'.kvCacheSpec = .layer spec
  uniformType : ∀ specs, group.kvCacheSpec = .uniformType specs →
    ∃ specs', group'.kvCacheSpec = .uniformType specs' ∧
      (group'.layerNames = [] ∨ group'.layerNames = specs'.kvCacheSpecs.keys) ∧
      specs'.kvCacheSpecs.values ⊆ specs.kvCacheSpecs.values ∧
      (specs.kvCacheSpecs.values ≠ [] → specs'.kvCacheSpecs.values ≠ [])
  pages : ∀ x ∈ group'.layerNames,
    layerPageSize group'.kvCacheSpec x = layerPageSize group.kvCacheSpec x

theorem projectGroup_eq_ok (hnodup : group.layerNames.Nodup)
    (h : projectGroup worker group = .ok group') : Projects worker group group' := by
  unfold projectGroup at h
  obtain ⟨spec, hspec, h⟩ := of_bind h
  cases h
  split at hspec
  · next hempty =>
    cases hspec
    exact ⟨rfl, fun _ h => h,
      fun specs h => ⟨specs, h, .inl hempty, List.Subset.refl _, id⟩, fun _ _ => rfl⟩
  · next spec' heq hne =>
    cases hspec
    exact ⟨rfl, fun _ h => heq ▸ h, fun specs h => by simp [heq] at h, fun _ _ => by rw [heq]⟩
  · next specs heq hne =>
    obtain ⟨entries, hentries, hspec⟩ := of_bind hspec
    cases hspec
    have hkeys : entries.map Prod.fst = group.layerNames.filter worker.contains := by
      have hmap := map_of_mapM (g := Prod.fst) (h := id) hentries (by
        intro x _ entry hentry
        obtain ⟨spec, -, hentry⟩ := of_bind hentry
        cases hentry
        rfl)
      simpa using hmap
    have hofList : (Dict.ofList entries).entries = entries :=
      entries_ofList (hkeys ▸ hnodup.filter _)
    refine ⟨rfl, fun spec h => by simp [heq] at h, ?_, ?_⟩
    · intro specs' hspecs'
      obtain rfl := GroupSpec.uniformType.inj (heq.symm.trans hspecs')
      refine ⟨_, rfl, .inr ?_, ?_, fun _ => ?_⟩
      · simp only [Dict.keys, hofList, hkeys]
      · intro spec hspec
        rw [Dict.values, hofList] at hspec
        obtain ⟨entry, hentry, rfl⟩ := List.mem_map.mp hspec
        obtain ⟨x, -, hx⟩ := mem_of_mapM hentries hentry
        obtain ⟨spec, hget, hx⟩ := of_bind hx
        obtain rfl := pure_eq_ok.mp hx
        exact List.mem_map.mpr ⟨(x, spec), (mem_entries_iff _).mpr (getSpec_eq_ok.mp hget), rfl⟩
      · rw [Dict.values, hofList]
        rintro hnil
        rw [List.map_eq_nil_iff] at hnil
        rw [hnil, List.map_nil] at hkeys
        exact hne hkeys.symm
    · intro x hx
      obtain ⟨⟨y, spec⟩, hmem, hentry⟩ := mapM_of_mem hentries hx
      obtain ⟨spec', hget, hentry⟩ := of_bind hentry
      obtain ⟨rfl, rfl⟩ := Prod.mk.inj (pure_eq_ok.mp hentry)
      have hprojected : (Dict.ofList entries).get? x = some spec' := by
        rw [← mem_entries_iff, hofList]
        exact hmem
      rw [heq, layerPageSize_uniformType hprojected,
        layerPageSize_uniformType (getSpec_eq_ok.mp hget)]

theorem nodup_layerNames (hnodup : (layerNamesOf groups).Nodup) (hgroup : group ∈ groups) :
    group.layerNames.Nodup :=
  (List.nodup_flatten.mp hnodup).1 _ (List.mem_map_of_mem hgroup)

theorem project_forall₂ (hnodup : (layerNamesOf groups).Nodup)
    (h : projectKvCacheGroupsToWorker groups worker = .ok projected) :
    List.Forall₂ (Projects worker) groups projected := by
  refine forall₂_of_mapM h ?_
  intro group hgroup group' hproject
  exact projectGroup_eq_ok (nodup_layerNames hnodup hgroup) hproject

theorem layerNamesOf_project (h : List.Forall₂ (Projects worker) groups projected) :
    layerNamesOf projected = (layerNamesOf groups).filter worker.contains := by
  induction h with
  | nil => rfl
  | cons hproject _ ih =>
    simp only [layerNamesOf, List.map_cons, List.flatten_cons, List.filter_append] at ih ⊢
    rw [hproject.names, ih]

theorem layerNamesOf_project_perm (hnodup : (layerNamesOf groups).Nodup)
    (h : List.Forall₂ (Projects worker) groups projected)
    (hcount : (projected.map fun group => group.layerNames.length).sum = worker.size) :
    (layerNamesOf projected).Perm worker.keys := by
  have hnodup' : (layerNamesOf projected).Nodup := by
    rw [layerNamesOf_project h]
    exact hnodup.filter _
  have hsub : layerNamesOf projected ⊆ worker.keys := by
    intro x hx
    rw [layerNamesOf_project h, List.mem_filter] at hx
    exact mem_keys_iff.mpr hx.2
  have hlength : (layerNamesOf projected).length = worker.keys.length := by
    rw [layerNamesOf, List.length_flatten, List.map_map]
    simpa [Dict.size, Dict.keys, Function.comp_def] using hcount
  exact (List.subperm_of_subset hnodup' hsub).perm_of_length_le hlength.ge

theorem GroupShape.project (hshape : GroupShape groups)
    (h : List.Forall₂ (Projects worker) groups projected) : GroupShape projected := by
  cases hshape with
  | layers hlayers =>
    refine .layers ?_
    intro group' hgroup'
    obtain ⟨group, hgroup, hproject⟩ := exists_left_of_forall₂ h hgroup'
    obtain ⟨spec, hspec⟩ := hlayers group hgroup
    exact ⟨spec, hproject.layer spec hspec⟩
  | uniformType hgroups hnames =>
    subst hgroups
    cases h with
    | cons hproject hrest =>
      cases hrest
      obtain ⟨specs', hspecs', hkeys, -⟩ := hproject.uniformType _ rfl
      next group' =>
      obtain ⟨names, spec, flag⟩ := group'
      subst hspecs'
      exact .uniformType rfl hkeys
  | @uniformTypes p htypes hpages hnames =>
    refine .uniformTypes (p := p) ?_ ?_ ?_
    · intro group' hgroup'
      obtain ⟨group, hgroup, hproject⟩ := exists_left_of_forall₂ h hgroup'
      obtain ⟨specs, hspecs⟩ := htypes group hgroup
      obtain ⟨specs', hspecs', -⟩ := hproject.uniformType specs hspecs
      exact ⟨specs', hspecs'⟩
    · intro group' hgroup' x hx
      obtain ⟨group, hgroup, hproject⟩ := exists_left_of_forall₂ h hgroup'
      rw [hproject.pages x hx]
      refine hpages group hgroup x ?_
      rw [hproject.names] at hx
      exact (List.mem_filter.mp hx).1
    · intro group' hgroup' specs'' hspecs''
      obtain ⟨group, hgroup, hproject⟩ := exists_left_of_forall₂ h hgroup'
      obtain ⟨specs, hspecs⟩ := htypes group hgroup
      obtain ⟨specs', hspecs', hkeys, -⟩ := hproject.uniformType specs hspecs
      rw [hspecs'] at hspecs''
      obtain rfl := GroupSpec.uniformType.inj hspecs''
      exact hkeys

end Projection

section Grouped
variable {config : VllmConfig} {specs specs' : Dict LayerName LayerSpec} {groups : List LayerGroup}
  {p : ℕ}

theorem isUnified_of_unifyHybrid (h : unifyHybridKvCacheSpecs specs = .ok specs') :
    isUnified specs' = .ok true ∧ specs'.keys = specs.keys := by
  unfold unifyHybridKvCacheSpecs at h
  obtain ⟨unified, hunified, h⟩ := of_bind h
  split at h
  · next htrue =>
    cases h
    exact ⟨htrue ▸ hunified, rfl⟩
  obtain ⟨blockSize, -, h⟩ := of_bind h
  obtain ⟨specs₁, hspecs₁, h⟩ := of_bind h
  obtain ⟨unified', hunified', h⟩ := of_bind h
  split at h
  · next htrue =>
    cases h
    refine ⟨htrue ▸ hunified', ?_⟩
    split at hspecs₁
    · exact (mapSpecs_eq_ok hspecs₁).1
    · cases hspecs₁
      rfl
  · simp at h

theorem groupedSpecs_keys (h : groupedSpecs config specs = .ok specs') :
    specs'.keys = specs.keys := by
  unfold groupedSpecs at h
  split at h
  · exact (isUnified_of_unifyHybrid h).2
  · cases h
    rfl

theorem mapM_getSpec_keys (specs : Dict LayerName LayerSpec) :
    specs.keys.mapM (getSpec specs) = .ok specs.values := by
  rw [mapM_eq_ok, Dict.keys, Dict.values, List.forall₂_map_left_iff,
    List.forall₂_map_right_iff, List.forall₂_same]
  intro entry hentry
  exact getSpec_eq_ok.mpr ((mem_entries_iff specs).mp hentry)

theorem isKvCacheSpecUniform_eq_ok {isUniform : Bool} (hne : specs.values ≠ [])
    (h : isKvCacheSpecUniform specs = .ok isUniform) :
    isUniform = true ↔ ∃ merged, merge specs.values = .ok merged := by
  unfold isKvCacheSpecUniform at h
  rw [if_neg hne] at h
  split at h
  · next merged hmerge =>
    cases h
    simp [hmerge]
  · next hmerge =>
    cases h
    simp [hmerge]
  · simp at h

/-- The ways in which layers are grouped. Layers that have been unified are merged, or keep their
specs in one group. -/
theorem getKvCacheGroups_cases (h : getKvCacheGroups config specs = .ok groups) :
    ∃ specs', groupedSpecs config specs = .ok specs' ∧
      ((specs'.values = [] ∧ groups = []) ∨
      (∃ merged, merge specs'.values = .ok merged ∧
        groups = [⟨specs'.keys, .layer merged, false⟩]) ∨
      ((∀ merged, merge specs'.values ≠ .ok merged) ∧ ∃ uniform,
        UniformTypeKVCacheSpecs.fromSpecs specs' = .ok (some uniform) ∧
        uniform.kvCacheSpecs = specs' ∧ groups = [⟨specs'.keys, .uniformType uniform, false⟩]) ∨
      ((∀ merged, merge specs'.values ≠ .ok merged) ∧ specs' = specs ∧
        ((∃ grouped groups', groupAndUnifyKvCacheSpecs specs = .ok (some grouped) ∧
          getKvCacheGroupsUniformGroups grouped = .ok groups' ∧
          groups = annotateEagleGroupsDeepseekV4 config specs groups') ∨
        (groupAndUnifyKvCacheSpecs specs = .ok none ∧ getKvCacheGroupsHybrid specs = .ok groups)))) := by
  unfold getKvCacheGroups at h
  obtain ⟨specs', hspecs', h⟩ := of_bind h
  refine ⟨specs', hspecs', ?_⟩
  split at h
  · next hempty =>
    cases h
    refine .inl ⟨?_, rfl⟩
    rw [Dict.isEmpty, List.isEmpty_iff] at hempty
    rw [Dict.values, hempty]
    rfl
  next hempty =>
  have hne : specs'.values ≠ [] := by
    rw [Dict.isEmpty, List.isEmpty_iff] at hempty
    simpa [Dict.values] using hempty
  obtain ⟨isUniform, hisUniform, h⟩ := of_bind h
  have hmerge := isKvCacheSpecUniform_eq_ok hne hisUniform
  split at h
  · next htrue =>
    obtain ⟨merged, hmerged⟩ := hmerge.mp htrue
    refine .inr (.inl ⟨merged, hmerged, ?_⟩)
    unfold createKvCacheGroupSpecs at h
    rw [List.mapM_cons, List.mapM_nil, mapM_getSpec_keys] at h
    simp only [ok_bind, hmerged] at h
    exact (pure_eq_ok.mp h).symm
  next hfalse =>
  have hnone : ∀ merged, merge specs'.values ≠ .ok merged :=
    fun merged hmerged => hfalse (hmerge.mpr ⟨merged, hmerged⟩)
  obtain ⟨uniform, huniform, h⟩ := of_bind h
  cases uniform with
  | some uniform =>
    cases h
    have hspecs := fromSpecs_eq_ok huniform
    exact .inr (.inr (.inl ⟨hnone, uniform, huniform, hspecs, by rw [hspecs]⟩))
  | none =>
    have hsame : specs' = specs := by
      unfold groupedSpecs at hspecs'
      split at hspecs'
      · have hunified := (isUnified_of_unifyHybrid hspecs').1
        unfold isUnified at hunified
        rw [hisUniform, ok_bind, if_neg hfalse] at hunified
        unfold UniformTypeKVCacheSpecs.fromSpecs at huniform
        rw [hunified, ok_bind] at huniform
        simp only [↓reduceIte] at huniform
        split at huniform
        · simp at huniform
        · simp at huniform
      · exact (pure_eq_ok.mp hspecs').symm
    refine .inr (.inr (.inr ⟨hnone, hsame, ?_⟩))
    rw [hsame] at h
    obtain ⟨grouped, hgrouped, h⟩ := of_bind h
    cases grouped with
    | none => exact .inr ⟨hgrouped, h⟩
    | some grouped =>
      obtain ⟨groups', hgroups', h⟩ := of_bind h
      exact .inl ⟨grouped, groups', hgrouped, hgroups', (pure_eq_ok.mp h).symm⟩

variable {full : FullAttentionFields} {uniform : UniformTypeKVCacheSpecs} {allPageSizes : List ℕ}

theorem mergeFull_headSizeV {a : AttentionSpec} {headSizeV : ℕ} {specs : List LayerSpec}
    (h : mergeFull a headSizeV specs = .ok full) :
    full.headSizeV = headSizeV := by
  unfold mergeFull at h
  simp only [bind_eq_ok, pure_eq_ok] at h
  obtain ⟨-, -, -, -, slidingWindow, -, chunkSize, -, -, -, -, -, rfl⟩ := h
  rfl

theorem mergeMla_eq_ok {a : AttentionSpec} {m mla : MlaFields} {specs : List LayerSpec}
    (h : mergeMla a m specs = .ok (full, mla)) :
    mla = { m with alignment := none } := by
  unfold mergeMla at h
  simp only [bind_eq_ok, pure_eq_ok, Prod.mk.injEq] at h
  obtain ⟨-, -, -, -, -, rfl⟩ := h
  rfl

/-- A merged spec has the page size of the first spec, unless its quantisation mode is dropped. -/
theorem merge_pageSizeBytes {first merged : LayerSpec} {rest : List LayerSpec}
    (hfirst : first.slidingWindowMla? = none) (h : merge (first :: rest) = .ok merged) :
    merged.pageSizeBytes = first.pageSizeBytes := by
  have hsame : ∀ {spec : LayerSpec}, (do
      require (∀ spec' ∈ rest, spec' = spec)
      pure spec) = .ok merged → merged.pageSizeBytes = spec.pageSizeBytes := by
    intro spec h
    obtain ⟨_, -, h⟩ := of_bind h
    rw [pure_eq_ok.mp h]
  unfold merge at h
  cases first with
  | fullAttention a f | sinkFullAttention a f len =>
    obtain ⟨full, hfull, h⟩ := of_bind h
    cases h
    simp only [pageSizeBytes, mergeFull_headSizeV hfull]
  | tqFullAttention a f slot =>
    obtain ⟨full, hfull, h⟩ := of_bind h
    obtain ⟨_, -, h⟩ := of_bind h
    cases h
    simp only [pageSizeBytes, mergeFull_headSizeV hfull]
  | mlaAttention a f m | hiddenStateCache a f m =>
    obtain ⟨⟨full, mla⟩, hmla, h⟩ := of_bind h
    cases h
    rw [mergeMla_eq_ok hmla]
    rfl
  | slidingWindowMla a w v m => simp [slidingWindowMla?] at hfirst
  | chunkedLocalAttention a c | slidingWindow a w v | mamba b m | encoderOnlyAttention a
  | crossAttention a => exact hsame h

/-- A group with specs of its own, all of one page size. -/
structure UniformGroup (p : ℕ) (group : LayerGroup) : Prop where
  specs : ∃ specs, group.kvCacheSpec = .uniformType specs ∧
    group.layerNames = specs.kvCacheSpecs.keys
  pages : ∀ x ∈ group.layerNames, layerPageSize group.kvCacheSpec x = .ok p

theorem UniformGroup.of_specs
    (h : ∀ spec ∈ uniform.kvCacheSpecs.values, spec.pageSizeBytes = .ok p) :
    UniformGroup p ⟨uniform.kvCacheSpecs.keys, .uniformType uniform, false⟩ := by
  refine ⟨⟨uniform, rfl, rfl⟩, ?_⟩
  intro x hx
  obtain ⟨⟨y, spec⟩, hmem, rfl⟩ := List.mem_map.mp hx
  rw [layerPageSize_uniformType ((mem_entries_iff _).mp hmem)]
  exact h spec (List.mem_map_of_mem hmem)

theorem mapM_pageSizeBytes_mem {specs : List LayerSpec} {sizes : List ℕ}
    (hpages : ∀ spec ∈ specs, spec.pageSizeBytes = .ok p)
    (h : specs.mapM pageSizeBytes = .ok sizes) : ∀ size ∈ sizes, size = p := by
  intro size hsize
  obtain ⟨spec, hspec, hpage⟩ := mem_of_mapM h hsize
  rw [hpages spec hspec] at hpage
  exact (Except.ok.inj hpage).symm

theorem padLayers_specs {padded : List (LayerName × LayerSpec × ℕ)}
    (hpages : ∀ spec ∈ specs.values, spec.pageSizeBytes = .ok p)
    (hall : ∀ size ∈ allPageSizes, size = p) (h : padLayers allPageSizes specs = .ok padded) :
    ∀ x ∈ padded, x.2.1.pageSizeBytes = .ok p := by
  intro x hx
  obtain ⟨entry, hentry, h⟩ := mem_of_mapM h hx
  obtain ⟨current, hcurrent, h⟩ := of_bind h
  obtain ⟨candidate, hcandidate, h⟩ := of_bind h
  cases h
  have hpage := hpages entry.2 (List.mem_map_of_mem hentry)
  have hcurrent' : current = p := Except.ok.inj (hcurrent.symm.trans hpage)
  have hcandidate' : candidate = p :=
    hall candidate (List.mem_of_mem_filter (minChecked_eq_ok hcandidate).1)
  simp only [hcurrent', hcandidate', lt_self_iff_false, ↓reduceIte]
  exact hpage

theorem splitSlidingWindowMla_uniform {numLayerTuples : ℕ}
    (hpages : ∀ spec ∈ uniform.kvCacheSpecs.values, spec.pageSizeBytes = .ok p)
    (hall : ∀ size ∈ allPageSizes, size = p)
    (h : splitSlidingWindowMla numLayerTuples allPageSizes uniform = .ok groups) :
    ∀ group ∈ groups, UniformGroup p group := by
  have hnodup : ∀ group ∈ groups, group.layerNames.Nodup := by
    intro group hgroup
    refine nodup_layerNames (nodup_of_subperm (splitSlidingWindowMla_subperm h) ?_) hgroup
    exact uniform.kvCacheSpecs.nodupKeys
  unfold splitSlidingWindowMla at h
  obtain ⟨pageSizes, -, h⟩ := of_bind h
  obtain ⟨maxSize, -, h⟩ := of_bind h
  obtain ⟨maxAll, -, h⟩ := of_bind h
  obtain ⟨_, -, h⟩ := of_bind h
  obtain ⟨padded, hpadded, h⟩ := of_bind h
  simp only at h
  have hspecs := padLayers_specs hpages hall hpadded
  have hentries : (Dict.ofList (padded.map fun x => (x.1, x.2.1))).entries =
      padded.map fun x => (x.1, x.2.1) := by
    refine entries_ofList ?_
    rw [List.map_map]
    exact (padLayers_names hpadded).symm ▸ uniform.kvCacheSpecs.nodupKeys
  split at h
  · simp at h
  obtain ⟨_, -, h⟩ := of_bind h
  obtain ⟨numTupleGroups, -, h⟩ := of_bind h
  intro group hgroup
  obtain ⟨i, -, hmake⟩ := mem_of_mapM h hgroup
  obtain ⟨groupSpecs, hgroupSpecs, hmake⟩ := of_bind hmake
  obtain ⟨sub, hsub, hmake⟩ := of_bind hmake
  have hspec := uniformSpecs_eq_ok hsub
  have hnames : groupSpecs.map Prod.fst = group.layerNames := by
    cases hmake
    have hmap := map_of_mapM (g := Prod.fst) (h := id) hgroupSpecs (by
      intro x _ entry hentry
      obtain ⟨spec, -, hentry⟩ := of_bind hentry
      cases hentry
      rfl)
    simpa using hmap
  have hgroupEntries : sub.kvCacheSpecs.entries = groupSpecs := by
    rw [hspec]
    exact entries_ofList (hnames ▸ hnodup group hgroup)
  have hsubPages : ∀ spec ∈ sub.kvCacheSpecs.values, spec.pageSizeBytes = .ok p := by
    intro spec hmem
    rw [Dict.values, hgroupEntries] at hmem
    obtain ⟨entry, hentry, rfl⟩ := List.mem_map.mp hmem
    obtain ⟨x, -, hx⟩ := mem_of_mapM hgroupSpecs hentry
    obtain ⟨spec, hget, hx⟩ := of_bind hx
    cases hx
    have hpair := (mem_entries_iff _).mpr (getSpec_eq_ok.mp hget)
    rw [hentries] at hpair
    obtain ⟨y, hy, heq⟩ := List.mem_map.mp hpair
    cases heq
    exact hspecs y hy
  have hkeys : sub.kvCacheSpecs.keys = group.layerNames := by
    rw [Dict.keys, hgroupEntries, hnames]
  have hgroupEq : group = ⟨sub.kvCacheSpecs.keys, .uniformType sub, false⟩ := by
    cases hmake
    rw [hkeys]
  rw [hgroupEq]
  exact UniformGroup.of_specs hsubPages

theorem getKvCacheGroupsUniformGroups_uniform {first : UniformTypeKVCacheSpecs}
    {rest : List UniformTypeKVCacheSpecs}
    (hpages : ∀ uniform ∈ first :: rest, ∀ spec ∈ uniform.kvCacheSpecs.values,
      spec.pageSizeBytes = .ok p)
    (h : getKvCacheGroupsUniformGroups (first :: rest) = .ok groups) :
    ∀ group ∈ groups, UniformGroup p group := by
  unfold getKvCacheGroupsUniformGroups at h
  obtain ⟨_, -, h⟩ := of_bind h
  obtain ⟨tuples, -, h⟩ := of_bind h
  obtain ⟨numLayerTuples, -, h⟩ := of_bind h
  obtain ⟨_, -, h⟩ := of_bind h
  obtain ⟨allPageSizes, hall, h⟩ := of_bind h
  obtain ⟨swaMlaGroups, hsplit, h⟩ := of_bind h
  cases h
  have hsizes : ∀ size ∈ allPageSizes, size = p := by
    unfold UniformTypeKVCacheSpecs.getPageSizes at hall
    obtain ⟨sizes, hsizes, hall⟩ := of_bind hall
    cases hall
    intro size hsize
    exact mapM_pageSizeBytes_mem (hpages first List.mem_cons_self) hsizes size
      (List.mem_dedup.mp hsize)
  intro group hgroup
  obtain rfl | hgroup := List.mem_cons.mp hgroup
  · exact UniformGroup.of_specs (hpages first List.mem_cons_self)
  · obtain ⟨split, hmem, hgroup⟩ := List.mem_flatten.mp hgroup
    obtain ⟨uniform, huniform, hsplit⟩ := mem_of_mapM hsplit hmem
    exact splitSlidingWindowMla_uniform (hpages uniform (List.mem_cons_of_mem first huniform))
      hsizes hsplit group hgroup

theorem mem_markEagleGroup {lastLayer : LayerName} {group : LayerGroup}
    (h : group ∈ markEagleGroup lastLayer groups) : ∃ group' ∈ groups,
      group.layerNames = group'.layerNames ∧ group.kvCacheSpec = group'.kvCacheSpec := by
  induction groups with
  | nil => simp [markEagleGroup] at h
  | cons first rest ih =>
    unfold markEagleGroup at h
    split at h
    · obtain rfl | h := List.mem_cons.mp h
      · exact ⟨first, List.mem_cons_self, rfl, rfl⟩
      · exact ⟨group, List.mem_cons_of_mem first h, rfl, rfl⟩
    · obtain rfl | h := List.mem_cons.mp h
      · exact ⟨group, List.mem_cons_self, rfl, rfl⟩
      · obtain ⟨group', hmem, hsame⟩ := ih h
        exact ⟨group', List.mem_cons_of_mem first hmem, hsame⟩

theorem mem_annotateEagleGroups {group : LayerGroup}
    (h : group ∈ annotateEagleGroupsDeepseekV4 config specs groups) : ∃ group' ∈ groups,
      group.layerNames = group'.layerNames ∧ group.kvCacheSpec = group'.kvCacheSpec := by
  unfold annotateEagleGroupsDeepseekV4 at h
  split at h
  · exact ⟨group, h, rfl, rfl⟩
  · split at h
    · exact ⟨group, h, rfl, rfl⟩
    · exact mem_markEagleGroup h

section
variable (hpages : ∀ spec ∈ specs.values, spec.pageSizeBytes = .ok p)
include hpages

/-- The groups of specs with one page size. -/
theorem uniformGroups_shape {grouped : List UniformTypeKVCacheSpecs} {groups' : List LayerGroup}
    (hgrouped : groupAndUnifyKvCacheSpecs specs = .ok (some grouped))
    (hgroups : getKvCacheGroupsUniformGroups grouped = .ok groups') :
    GroupShape (annotateEagleGroupsDeepseekV4 config specs groups') ∧
      GroupPages (annotateEagleGroupsDeepseekV4 config specs groups') fun _ => p := by
  obtain ⟨first, rest, rfl, hfirst, hrest⟩ := groupAndUnifyKvCacheSpecs_eq_ok hgrouped
  have hspecs : ∀ uniform ∈ first :: rest, ∀ spec ∈ uniform.kvCacheSpecs.values,
      spec.pageSizeBytes = .ok p := by
    intro uniform huniform spec hspec
    obtain ⟨entry, hentry, rfl⟩ := List.mem_map.mp hspec
    refine hpages entry.2 (List.mem_map_of_mem ?_)
    obtain rfl | huniform := List.mem_cons.mp huniform
    · rw [hfirst] at hentry
      exact (List.mem_filter.mp hentry).1
    · have hmem : entry ∈ rest.flatMap fun uniform => uniform.kvCacheSpecs.entries :=
        List.mem_flatMap.mpr ⟨uniform, huniform, hentry⟩
      exact (List.mem_filter.mp (hrest.mem_iff.mp hmem)).1
  have huniform := getKvCacheGroupsUniformGroups_uniform hspecs hgroups
  have hpages' : GroupPages (annotateEagleGroupsDeepseekV4 config specs groups') fun _ => p := by
    intro group hgroup x hx
    obtain ⟨group', hmem, hnames, hspec⟩ := mem_annotateEagleGroups hgroup
    rw [hspec]
    exact (huniform group' hmem).pages x (hnames ▸ hx)
  refine ⟨.uniformTypes ?_ hpages' ?_, hpages'⟩
  · intro group hgroup
    obtain ⟨group', hmem, -, hspec⟩ := mem_annotateEagleGroups hgroup
    obtain ⟨uniform, huniform, -⟩ := (huniform group' hmem).specs
    exact ⟨uniform, hspec.trans huniform⟩
  · intro group hgroup uniform hspecs
    obtain ⟨group', hmem, hnames, hspec⟩ := mem_annotateEagleGroups hgroup
    obtain ⟨uniform', huniform', hkeys⟩ := (huniform group' hmem).specs
    rw [hspec, huniform'] at hspecs
    obtain rfl := GroupSpec.uniformType.inj hspecs
    exact .inr (hnames.trans hkeys)

theorem createKvCacheGroupSpecs_pages {grouped : List (List LayerName)}
    (hswa : ∀ spec ∈ specs.values, spec.slidingWindowMla? = none)
    (h : createKvCacheGroupSpecs specs grouped = .ok groups) :
    ∀ group ∈ groups, ∃ spec, group.kvCacheSpec = .layer spec ∧ spec.pageSizeBytes = .ok p := by
  intro group hgroup
  obtain ⟨names, -, h⟩ := mem_of_mapM h hgroup
  obtain ⟨layerSpecs, hlayerSpecs, h⟩ := of_bind h
  obtain ⟨merged, hmerged, h⟩ := of_bind h
  cases h
  refine ⟨merged, rfl, ?_⟩
  cases layerSpecs with
  | nil => simp [merge] at hmerged
  | cons first rest =>
    obtain ⟨x, -, hx⟩ := mem_of_mapM hlayerSpecs (List.mem_cons_self (a := first))
    have hfirst : first ∈ specs.values :=
      List.mem_map.mpr ⟨(x, first), (mem_entries_iff _).mpr (getSpec_eq_ok.mp hx), rfl⟩
    rw [merge_pageSizeBytes (hswa first hfirst) hmerged]
    exact hpages first hfirst

theorem unifyKvCacheSpecPageSize_of_pages (h : unifyKvCacheSpecPageSize specs = .ok specs') :
    specs' = specs := by
  unfold unifyKvCacheSpecPageSize at h
  obtain ⟨sizes, hsizes, h⟩ := of_bind h
  have hall := mapM_pageSizeBytes_mem hpages hsizes
  have hlength : sizes.dedup.length ≤ 1 := by
    have hsub : sizes.dedup ⊆ [p] := by
      intro size hsize
      rw [hall size (List.mem_dedup.mp hsize)]
      exact List.mem_singleton_self p
    exact (List.subperm_of_subset (List.nodup_dedup sizes) hsub).length_le
  rw [if_pos hlength] at h
  exact (pure_eq_ok.mp h).symm

end

theorem hiddenStateGroup_layer {commonPage : ℕ} {entry : LayerName × LayerSpec} {group : LayerGroup}
    (h : hiddenStateGroup commonPage entry = .ok group) :
    ∃ spec, group.kvCacheSpec = .layer spec := by
  unfold hiddenStateGroup at h
  split at h
  · simp at h
  · obtain ⟨blockSize, -, h⟩ := of_bind h
    obtain ⟨aligned, -, h⟩ := of_bind h
    cases h
    exact ⟨aligned, rfl⟩

/-- The general case of grouping. -/
theorem getKvCacheGroupsHybrid_pages (hpages : ∀ spec ∈ specs.values, spec.pageSizeBytes = .ok p)
    (hswa : ∀ spec ∈ specs.values, spec.slidingWindowMla? = none)
    (h : getKvCacheGroupsHybrid specs = .ok groups) :
    (∀ group ∈ groups, ∃ spec, group.kvCacheSpec = .layer spec) ∧
      (groups ≠ [] → ∃ group ∈ groups, group.kvCacheSpec.pageSizeBytes = .ok p) := by
  unfold getKvCacheGroupsHybrid at h
  obtain ⟨filtered, hfiltered, h⟩ := of_bind h
  obtain ⟨groups', hgroups, h⟩ := of_bind h
  have hvalues : ∀ spec ∈ (specsWhere (fun spec => !spec.isHiddenState) specs).values,
      spec ∈ specs.values := by
    intro spec hspec
    rw [Dict.values, entries_specsWhere (fun spec => !spec.isHiddenState)] at hspec
    obtain ⟨entry, hentry, rfl⟩ := List.mem_map.mp hspec
    exact List.mem_map_of_mem (List.mem_filter.mp hentry).1
  have hsame := unifyKvCacheSpecPageSize_of_pages
    (fun spec hspec => hpages spec (hvalues spec hspec)) hfiltered
  rw [hsame] at hgroups
  unfold getKvCacheGroupsUniformPageSize at hgroups
  obtain ⟨size, -, hgroups⟩ := of_bind hgroups
  have hlayers := createKvCacheGroupSpecs_pages
    (fun spec hspec => hpages spec (hvalues spec hspec))
    (fun spec hspec => hswa spec (hvalues spec hspec)) hgroups
  have hfirst : groups' ≠ [] → ∃ group ∈ groups', group.kvCacheSpec.pageSizeBytes = .ok p := by
    intro hne
    obtain ⟨group, rest, rfl⟩ := List.exists_cons_of_ne_nil hne
    obtain ⟨spec, hspec, hpage⟩ := hlayers group List.mem_cons_self
    exact ⟨group, List.mem_cons_self, by rw [hspec]; exact hpage⟩
  split at h
  · cases h
    exact ⟨fun group hgroup => (hlayers group hgroup).imp fun _ h => h.1, hfirst⟩
  · obtain ⟨commonPage, hcommon, h⟩ := of_bind h
    obtain ⟨hiddenGroups, hhidden, h⟩ := of_bind h
    cases h
    refine ⟨?_, fun _ => ?_⟩
    · intro group hgroup
      obtain hgroup | hgroup := List.mem_append.mp hgroup
      · exact (hlayers group hgroup).imp fun _ h => h.1
      · obtain ⟨entry, -, hentry⟩ := mem_of_mapM hhidden hgroup
        exact hiddenStateGroup_layer hentry
    · have hne : groups' ≠ [] := by
        rintro rfl
        exact (getUniformPageSize_eq_ok hcommon).1 rfl
      obtain ⟨group, hgroup, hpage⟩ := hfirst hne
      exact ⟨group, List.mem_append_left _ hgroup, hpage⟩

theorem slidingWindowMla?_eq_none (h : groupAndUnifyKvCacheSpecs specs = .ok none) :
    ∀ spec ∈ specs.values, spec.slidingWindowMla? = none := by
  unfold groupAndUnifyKvCacheSpecs at h
  split at h
  · next hall =>
    intro spec hspec
    have := List.all_eq_true.mp hall spec hspec
    simpa using this
  · obtain ⟨_, -, h⟩ := of_bind h
    obtain ⟨first, -, h⟩ := of_bind h
    obtain ⟨rest, -, h⟩ := of_bind h
    simp at h

end Grouped

/-- The intermediate results of `get_kv_cache_configs`. -/
structure Planned (config config' : VllmConfig) (workerSpecs : List (Dict LayerName LayerSpec))
    (availableMemory : List ℤ) (merged : Dict LayerName LayerSpec) (groups : List LayerGroup)
    (projected : List (List LayerGroup)) (initial : List KVCacheConfig) (minNumBlocks : ℕ)
    (configs : List KVCacheConfig) : Prop where
  merges : mergeWorkerSpecs workerSpecs = .ok merged
  grouped : getKvCacheGroups config merged = .ok groups
  projects : workerSpecs.mapM (projectKvCacheGroupsToWorker groups) = .ok projected
  fitted : (if config.autoFit then autoFitMaxModelLen config (projected.zip availableMemory)
    else pure config) = .ok config'
  checked : ∀ worker ∈ projected.zip availableMemory, worker.1 ≠ [] →
    checkEnoughKvCacheMemory config' worker.1 worker.2 = .ok ()
  plans : ((projected.zip (workerSpecs.zip availableMemory)).mapM fun worker => do
    Raises.require ((worker.1.map fun group : LayerGroup => group.layerNames.length).sum =
      worker.2.1.size)
    getKvCacheConfigFromGroups config' worker.1 worker.2.2.toNat) = .ok initial
  smallest : minChecked (initial.map KVCacheConfig.numBlocks) = .ok minNumBlocks
  shrinks : initial.mapM (shrinkConfig config' minNumBlocks) = .ok configs

section Plan
variable {config config' : VllmConfig} {workerSpecs : List (Dict LayerName LayerSpec)}
  {availableMemory : List ℤ} {merged : Dict LayerName LayerSpec} {groups : List LayerGroup}
  {projected : List (List LayerGroup)} {initial configs : List KVCacheConfig} {minNumBlocks : ℕ}

theorem forM_eq_ok {α : Type} {f : α → Raises Unit} {l : List α} {u : Unit}
    (h : l.forM f = .ok u) : ∀ a ∈ l, f a = .ok () := by
  induction l with
  | nil => simp
  | cons a l ih =>
    rw [List.forM_eq_forM, List.forM_cons] at h
    obtain ⟨_, ha, h⟩ := Raises.of_bind h
    intro b hb
    obtain rfl | hb := List.mem_cons.mp hb
    · exact ha
    · exact ih h b hb

theorem getKvCacheConfigs_planned
    (h : getKvCacheConfigs config workerSpecs availableMemory = .ok (configs, config')) :
    ∃ merged groups projected memory initial minNumBlocks,
      effectiveMemory config projected availableMemory = .ok memory ∧
      Planned config config' workerSpecs memory merged groups projected initial minNumBlocks
        configs := by
  unfold getKvCacheConfigs at h
  obtain ⟨merged, hmerged, h⟩ := Raises.of_bind h
  rw [ite_eq_iff'] at h
  by_cases hregistered : (merged.values.any fun spec => !spec.isRegistered) = true
  · obtain ⟨_, hraise, -⟩ := Raises.of_bind (h.1 hregistered)
    simp at hraise
  replace h := h.2 hregistered
  obtain ⟨groups, hgroups, h⟩ := Raises.of_bind h
  obtain ⟨projected, hprojected, h⟩ := Raises.of_bind h
  obtain ⟨memory, hmemory, h⟩ := Raises.of_bind h
  obtain ⟨fitted, hfitted, h⟩ := Raises.of_bind h
  obtain ⟨_, hchecked, h⟩ := Raises.of_bind h
  obtain ⟨initial, hinitial, h⟩ := Raises.of_bind h
  obtain ⟨minNumBlocks, hmin, h⟩ := Raises.of_bind h
  obtain ⟨configs', hconfigs, h⟩ := Raises.of_bind h
  cases h
  refine ⟨merged, groups, projected, memory, initial, minNumBlocks, hmemory, hmerged, hgroups,
    hprojected, hfitted, ?_, hinitial, hmin, hconfigs⟩
  intro worker hworker hne
  have hcheck := forM_eq_ok hchecked worker hworker
  rwa [if_neg hne] at hcheck

/-- A run that does not override the number of blocks. -/
theorem getKvCacheConfigs_eq_ok (hoverride : config.numGpuBlocksOverride = none)
    (h : getKvCacheConfigs config workerSpecs availableMemory = .ok (configs, config')) :
    ∃ merged groups projected initial minNumBlocks, Planned config config' workerSpecs
      availableMemory merged groups projected initial minNumBlocks configs := by
  obtain ⟨merged, groups, projected, memory, initial, minNumBlocks, hmemory, hplan⟩ :=
    getKvCacheConfigs_planned h
  simp only [effectiveMemory, hoverride] at hmemory
  cases hmemory
  exact ⟨merged, groups, projected, initial, minNumBlocks, hplan⟩

/-- Only `max_model_len` is fitted. -/
theorem autoFitMaxModelLen_eq_ok {workers : List (List LayerGroup × ℤ)}
    (h : autoFitMaxModelLen config workers = .ok config') :
    ∃ maxModelLen, config' = { config with maxModelLen } := by
  unfold autoFitMaxModelLen at h
  split at h
  · exact ⟨config.maxModelLen, (Raises.pure_eq_ok.mp h).symm⟩
  · obtain ⟨autoFitMax, -, h⟩ := Raises.of_bind h
    split at h
    · simp at h
    · exact ⟨autoFitMax, (Raises.pure_eq_ok.mp h).symm⟩

theorem mergeWorkerSpecs_eq_ok (h : mergeWorkerSpecs workerSpecs = .ok merged) {x : LayerName}
    {spec : LayerSpec} (hx : merged.get? x = some spec) :
    ∃ worker ∈ workerSpecs, worker.get? x = some spec := by
  have hall : ∀ x spec, merged.get? x = some spec →
      ∃ worker ∈ workerSpecs, worker.get? x = some spec := by
    refine Raises.foldlM_invariant (P := fun merged : Dict LayerName LayerSpec =>
      ∀ x spec, merged.get? x = some spec → ∃ worker ∈ workerSpecs, worker.get? x = some spec)
      ?_ (by simp) h
    intro entry hentry merged₀ merged₁ hmerged₀ hstep x spec hx
    split at hstep
    · cases hstep
      rw [Dict.get?_set] at hx
      split at hx
      · next hsame =>
        obtain ⟨worker, hworker, hmem⟩ := List.mem_flatMap.mp hentry
        refine ⟨worker, hworker, ?_⟩
        rw [hsame, ← Option.some.inj hx]
        exact (Dict.mem_entries_iff worker).mp hmem
      · exact hmerged₀ x spec hx
    · obtain ⟨_, -, hstep⟩ := Raises.of_bind hstep
      cases hstep
      exact hmerged₀ x spec hx
  exact hall x spec hx

namespace Planned

variable (hplan : Planned config config' workerSpecs availableMemory merged groups projected
  initial minNumBlocks configs)
include hplan

theorem fitted_eq : ∃ maxModelLen, config' = { config with maxModelLen } := by
  have hfitted := hplan.fitted
  split at hfitted
  · exact autoFitMaxModelLen_eq_ok hfitted
  · exact ⟨config.maxModelLen, (Raises.pure_eq_ok.mp hfitted).symm⟩

/-- What happens at one worker. -/
theorem worker {i : ℕ} {kvCacheConfig : KVCacheConfig} (hi : configs[i]? = some kvCacheConfig) :
    ∃ specs memory worker initial', workerSpecs[i]? = some specs ∧
      availableMemory[i]? = some memory ∧ projected[i]? = some worker ∧
      initial[i]? = some initial' ∧ projectKvCacheGroupsToWorker groups specs = .ok worker ∧
      (worker.map fun group => group.layerNames.length).sum = specs.size ∧
      getKvCacheConfigFromGroups config' worker memory.toNat = .ok initial' ∧
      shrinkConfig config' minNumBlocks initial' = .ok kvCacheConfig := by
  obtain ⟨initial', hinitial, hshrink⟩ := Raises.getElem?_of_mapM hplan.shrinks hi
  obtain ⟨⟨worker, specs, memory⟩, hzip, hrun⟩ := Raises.getElem?_of_mapM hplan.plans hinitial
  obtain ⟨_, hcount, hrun⟩ := Raises.of_bind hrun
  obtain ⟨hworker, hzip'⟩ := List.getElem?_zip_eq_some.mp hzip
  obtain ⟨hspecs, hmemory⟩ := List.getElem?_zip_eq_some.mp hzip'
  obtain ⟨specs', hspecs', hproject⟩ := Raises.getElem?_of_mapM hplan.projects hworker
  obtain rfl := Option.some.inj (hspecs.symm.trans hspecs')
  exact ⟨specs, memory, worker, initial', hspecs, hmemory, hworker, hinitial, hproject,
    Raises.require_eq_ok.mp hcount, hrun, hshrink⟩

theorem length_configs (hlength : availableMemory.length = workerSpecs.length) :
    configs.length = workerSpecs.length := by
  have hprojected := (Raises.mapM_eq_ok.mp hplan.projects).length_eq
  have hinitial := (Raises.mapM_eq_ok.mp hplan.plans).length_eq
  have hconfigs := (Raises.mapM_eq_ok.mp hplan.shrinks).length_eq
  simp only [List.length_zip] at hinitial
  omega

theorem minNumBlocks_le {i : ℕ} {initial' : KVCacheConfig} (hi : initial[i]? = some initial') :
    minNumBlocks ≤ initial'.numBlocks :=
  (minChecked_eq_ok hplan.smallest).2 _ (List.mem_map_of_mem (List.mem_of_getElem? hi))

end Planned

end Plan

end Vllm
