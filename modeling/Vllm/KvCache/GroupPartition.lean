import Vllm.KvCache.KvCacheConfig

/-! The groups of `get_kv_cache_groups` name no layer twice. Every way of grouping deals out the
names of a dictionary. -/
namespace Vllm
open Raises Grouping List Dict

/-- All names of the groups, group by group. -/
def layerNamesOf (groups : List LayerGroup) : List LayerName :=
  (groups.map LayerGroup.layerNames).flatten

section Lists
variable {α : Type}

theorem nodup_of_subperm {l l' : List α} (h : l.Subperm l') (hl : l'.Nodup) : l.Nodup := by
  obtain ⟨l'', hperm, hsub⟩ := h
  exact hperm.nodup_iff.mp (hsub.nodup hl)

theorem flatten_flatMap {β : Type} (f : α → List (List β)) (l : List α) :
    (l.flatMap f).flatten = l.flatMap fun x => (f x).flatten := by
  induction l with
  | nil => rfl
  | cons x l ih => rw [flatMap_cons, flatten_append, ih, flatMap_cons]

theorem flatMap_subperm {β : Type} {f g : α → List β} {l : List α}
    (h : ∀ x ∈ l, (f x).Subperm (g x)) : (l.flatMap f).Subperm (l.flatMap g) := by
  induction l with
  | nil => exact List.Subperm.refl _
  | cons x l ih =>
    rw [flatMap_cons, flatMap_cons]
    exact (h x mem_cons_self).append (ih fun y hy => h y (mem_cons_of_mem x hy))

theorem stride_subperm (l : List α) (n : ℕ) :
    ((List.range n).flatMap fun i => stride l i n).Subperm l := by
  cases n with
  | zero => simp
  | succ n => exact (stride_perm l (Nat.succ_pos n)).subperm

end Lists

variable {groups : List LayerGroup}

theorem createKvCacheGroupSpecs_names {specs : Dict LayerName LayerSpec}
    {grouped : List (List LayerName)} (h : createKvCacheGroupSpecs specs grouped = .ok groups) :
    groups.map LayerGroup.layerNames = grouped := by
  have hmap := map_of_mapM (g := LayerGroup.layerNames) (h := id) h (by
    intro names _ group hgroup
    obtain ⟨layerSpecs, -, hgroup⟩ := of_bind hgroup
    obtain ⟨merged, -, hgroup⟩ := of_bind hgroup
    cases hgroup
    rfl)
  simpa using hmap

theorem dealLayers_subperm (groupSize : ℕ) (layers : List LayerName) :
    (dealLayers groupSize layers).flatten.Subperm layers := by
  unfold dealLayers
  rw [← flatMap_def]
  exact stride_subperm _ _

theorem getKvCacheGroupsUniformPageSize_subperm {specs : Dict LayerName LayerSpec}
    (h : getKvCacheGroupsUniformPageSize specs = .ok groups) :
    (layerNamesOf groups).Subperm specs.keys := by
  unfold getKvCacheGroupsUniformPageSize at h
  obtain ⟨size, -, h⟩ := of_bind h
  rw [layerNamesOf, createKvCacheGroupSpecs_names h, flatten_flatMap]
  set layers := (buckets Prod.snd specs.entries).values.map (·.map Prod.fst) with hlayers
  have hdeal : (layers.flatMap fun l => (dealLayers size l).flatten).Subperm (layers.flatMap id) :=
    flatMap_subperm fun l _ => dealLayers_subperm size l
  refine hdeal.trans (List.Perm.subperm ?_)
  have hnames := (buckets_perm Prod.snd specs.entries).map Prod.fst
  rw [map_flatten] at hnames
  simpa [flatMap_id, hlayers, Dict.keys] using hnames

section Specs
variable {specs specs' : Dict LayerName LayerSpec}

theorem nodup_filter_keys (specs : Dict LayerName LayerSpec) (p : LayerName × LayerSpec → Bool) :
    ((specs.entries.filter p).map Prod.fst).Nodup :=
  (filter_sublist.map Prod.fst).nodup specs.nodupKeys

theorem entries_specsWhere (p : LayerSpec → Bool) (specs : Dict LayerName LayerSpec) :
    (specsWhere p specs).entries = specs.entries.filter fun entry => p entry.2 :=
  entries_ofList (nodup_filter_keys specs _)

/-- The specs change, the names stay. -/
theorem mapSpecs_eq_ok {f : LayerSpec → Raises LayerSpec} (h : mapSpecs f specs = .ok specs') :
    specs'.keys = specs.keys ∧ ∀ x spec', specs'.get? x = some spec' →
      ∃ spec, specs.get? x = some spec ∧ f spec = .ok spec' := by
  unfold mapSpecs at h
  obtain ⟨entries, hentries, h⟩ := of_bind h
  cases h
  have hkeys : entries.map Prod.fst = specs.entries.map Prod.fst := by
    refine map_of_mapM hentries ?_
    intro entry _ entry' h
    obtain ⟨spec, -, h⟩ := of_bind h
    cases h
    rfl
  have hofList : (Dict.ofList entries).entries = entries := entries_ofList (hkeys ▸ specs.nodupKeys)
  refine ⟨?_, ?_⟩
  · rw [Dict.keys, hofList, hkeys, Dict.keys]
  · intro x spec' hx
    rw [← mem_entries_iff, hofList] at hx
    obtain ⟨⟨y, spec⟩, hmem, h⟩ := mem_of_mapM hentries hx
    obtain ⟨spec'', hspec, h⟩ := of_bind h
    cases h
    exact ⟨spec, (mem_entries_iff _).mp hmem, hspec⟩

theorem unifyKvCacheSpecPageSize_keys (h : unifyKvCacheSpecPageSize specs = .ok specs') :
    specs'.keys = specs.keys := by
  unfold unifyKvCacheSpecPageSize at h
  obtain ⟨sizes, -, h⟩ := of_bind h
  split at h
  · cases h
    rfl
  · obtain ⟨maxPageSize, -, h⟩ := of_bind h
    exact (mapSpecs_eq_ok h).1

variable {uniform : UniformTypeKVCacheSpecs}

theorem fromSpecs_eq_ok (h : UniformTypeKVCacheSpecs.fromSpecs specs = .ok (some uniform)) :
    uniform.kvCacheSpecs = specs := by
  unfold UniformTypeKVCacheSpecs.fromSpecs at h
  obtain ⟨isUniform, -, h⟩ := of_bind h
  split at h
  · split at h
    · simp at h
    · obtain rfl := Option.some.inj (pure_eq_ok.mp h)
      rfl
  · simp at h

theorem uniformSpecs_eq_ok (h : uniformSpecs specs = .ok uniform) :
    uniform.kvCacheSpecs = specs := by
  unfold uniformSpecs at h
  obtain ⟨result, hresult, h⟩ := of_bind h
  cases result with
  | none => simp at h
  | some uniform' =>
    cases h
    exact fromSpecs_eq_ok hresult

theorem padLayers_names {allPageSizes : List ℕ} {padded : List (LayerName × LayerSpec × ℕ)}
    (h : padLayers allPageSizes specs = .ok padded) : padded.map (·.1) = specs.keys := by
  refine map_of_mapM h ?_
  intro entry _ x hx
  obtain ⟨current, -, hx⟩ := of_bind hx
  obtain ⟨candidate, -, hx⟩ := of_bind hx
  cases hx
  rfl

end Specs

variable {allPageSizes : List ℕ} {numLayerTuples : ℕ} {rest : List UniformTypeKVCacheSpecs}

/-- The tuples of layers of one sliding window spec, dealt out. -/
theorem splitSlidingWindowMla_subperm {specs : UniformTypeKVCacheSpecs}
    (h : splitSlidingWindowMla numLayerTuples allPageSizes specs = .ok groups) :
    (layerNamesOf groups).Subperm specs.kvCacheSpecs.keys := by
  unfold splitSlidingWindowMla at h
  obtain ⟨pageSizes, -, h⟩ := of_bind h
  obtain ⟨maxSize, -, h⟩ := of_bind h
  obtain ⟨maxAll, -, h⟩ := of_bind h
  obtain ⟨_, -, h⟩ := of_bind h
  obtain ⟨padded, hpadded, h⟩ := of_bind h
  set rows := (buckets (fun x : LayerName × LayerSpec × ℕ => x.2.2) padded).values.map
    (·.map (·.1)) with hrows
  have hnames : rows.flatten.Perm specs.kvCacheSpecs.keys := by
    have hperm := (buckets_perm (fun x : LayerName × LayerSpec × ℕ => x.2.2) padded).map (·.1)
    rw [map_flatten, padLayers_names hpadded] at hperm
    exact hperm
  cases hcons : rows with
  | nil =>
    rw [hcons] at h
    simp at h
  | cons layers rest =>
    rw [hcons] at h hnames
    obtain ⟨_, hlengths, h⟩ := of_bind h
    rw [require_eq_ok] at hlengths
    obtain ⟨numTupleGroups, -, h⟩ := of_bind h
    have hgroups : groups.map LayerGroup.layerNames = (List.range numTupleGroups).map fun i =>
        (stride (columns layers.length (layers :: rest)) i
          numTupleGroups).flatten := by
      refine map_of_mapM h ?_
      intro i _ group hgroup
      obtain ⟨groupSpecs, -, hgroup⟩ := of_bind hgroup
      obtain ⟨uniform, -, hgroup⟩ := of_bind hgroup
      cases hgroup
      rfl
    have hcolumns : (columns layers.length (layers :: rest)).flatten.Perm
        (layers :: rest).flatten := by
      refine columns_perm ?_
      intro row hrow
      obtain rfl | hrow := mem_cons.mp hrow
      · exact le_refl _
      · exact (hlengths row hrow).le
    refine List.Subperm.trans ?_ (hcolumns.trans hnames).subperm
    rw [layerNamesOf, hgroups, ← flatMap_def, ← flatten_flatMap]
    obtain ⟨l, hl, hsub⟩ := stride_subperm (columns layers.length (layers :: rest)) numTupleGroups
    exact ⟨l.flatten, hl.flatten, hsub.flatten⟩

theorem mapM_splitSlidingWindowMla_subperm {groups : List (List LayerGroup)}
    (h : rest.mapM (splitSlidingWindowMla numLayerTuples allPageSizes) = .ok groups) :
    (layerNamesOf groups.flatten).Subperm
      (rest.flatMap fun specs => specs.kvCacheSpecs.keys) := by
  rw [mapM_eq_ok] at h
  induction h with
  | nil => exact List.Subperm.refl _
  | cons hsplit _ ih =>
    rw [flatten_cons, layerNamesOf, map_append, flatten_append, flatMap_cons]
    exact (splitSlidingWindowMla_subperm hsplit).append ih

theorem getKvCacheGroupsUniformGroups_subperm {first : UniformTypeKVCacheSpecs}
    (h : getKvCacheGroupsUniformGroups (first :: rest) = .ok groups) :
    (layerNamesOf groups).Subperm
      (first.kvCacheSpecs.keys ++ rest.flatMap fun specs => specs.kvCacheSpecs.keys) := by
  unfold getKvCacheGroupsUniformGroups at h
  obtain ⟨_, -, h⟩ := of_bind h
  obtain ⟨tuples, -, h⟩ := of_bind h
  obtain ⟨numLayerTuples, -, h⟩ := of_bind h
  obtain ⟨_, -, h⟩ := of_bind h
  obtain ⟨allPageSizes, -, h⟩ := of_bind h
  obtain ⟨swaMlaGroups, hsplit, h⟩ := of_bind h
  cases h
  rw [layerNamesOf, map_cons, flatten_cons]
  exact (List.Subperm.refl _).append (mapM_splitSlidingWindowMla_subperm hsplit)

theorem groupAndUnifyKvCacheSpecs_eq_ok {specs : Dict LayerName LayerSpec}
    {grouped : List UniformTypeKVCacheSpecs}
    (h : groupAndUnifyKvCacheSpecs specs = .ok (some grouped)) : ∃ first rest,
      grouped = first :: rest ∧
      first.kvCacheSpecs.entries = specs.entries.filter (fun entry => entry.2.mla?.isSome) ∧
      (rest.flatMap fun uniform => uniform.kvCacheSpecs.entries).Perm
        (specs.entries.filter fun entry => entry.2.slidingWindowMla?.isSome) := by
  unfold groupAndUnifyKvCacheSpecs at h
  split at h
  · simp at h
  obtain ⟨_, -, h⟩ := of_bind h
  obtain ⟨first, hfirst, h⟩ := of_bind h
  obtain ⟨rest, hrest, h⟩ := of_bind h
  obtain rfl := Option.some.inj (pure_eq_ok.mp h)
  refine ⟨first, rest, rfl, ?_, ?_⟩
  · rw [uniformSpecs_eq_ok hfirst]
    exact entries_specsWhere (fun spec => spec.mla?.isSome) specs
  · set key := fun entry : LayerName × LayerSpec => (entry.2.blockSize, entry.2.slidingWindow?)
    set swa := specs.entries.filter fun entry => entry.2.slidingWindowMla?.isSome with hswa
    have hentries : rest.map (fun uniform => uniform.kvCacheSpecs.entries) =
        (buckets key swa).values.map id := by
      refine map_of_mapM hrest ?_
      intro entries hmem uniform huniform
      obtain ⟨k, hk⟩ := mem_values_buckets hmem
      have hnodup : (entries.map Prod.fst).Nodup := by
        rw [hk]
        exact (filter_sublist.map Prod.fst).nodup (nodup_filter_keys specs _)
      rw [uniformSpecs_eq_ok huniform, entries_ofList hnodup]
      rfl
    rw [flatMap_def, hentries, map_id]
    exact buckets_perm key swa

theorem mla?_of_slidingWindowMla? {spec : LayerSpec} (h : spec.slidingWindowMla?.isSome = true) :
    spec.mla? = none := by
  cases spec <;> simp_all [LayerSpec.slidingWindowMla?, LayerSpec.mla?]

theorem nodup_mla_slidingWindowMla (specs : Dict LayerName LayerSpec) :
    ((specs.entries.filter (fun entry => entry.2.mla?.isSome) ++
      specs.entries.filter fun entry => entry.2.slidingWindowMla?.isSome).map Prod.fst).Nodup := by
  rw [map_append, nodup_append]
  refine ⟨nodup_filter_keys specs _, nodup_filter_keys specs _, ?_⟩
  rintro x hx y hy rfl
  obtain ⟨⟨_, spec⟩, hmem, rfl⟩ := mem_map.mp hx
  obtain ⟨⟨_, spec'⟩, hmem', heq⟩ := mem_map.mp hy
  subst heq
  rw [mem_filter] at hmem hmem'
  have hsame : spec = spec' := Option.some.inj
    (((mem_entries_iff specs).mp hmem.1).symm.trans ((mem_entries_iff specs).mp hmem'.1))
  subst hsame
  simp [mla?_of_slidingWindowMla? hmem'.2] at hmem

theorem layerNamesOf_markEagleGroup (lastLayer : LayerName) (groups : List LayerGroup) :
    layerNamesOf (markEagleGroup lastLayer groups) = layerNamesOf groups := by
  induction groups with
  | nil => rfl
  | cons group groups ih =>
    unfold markEagleGroup
    split
    · rfl
    · simp only [layerNamesOf, map_cons, flatten_cons] at ih ⊢
      rw [ih]

theorem layerNamesOf_annotateEagleGroups (config : VllmConfig) (specs : Dict LayerName LayerSpec)
    (groups : List LayerGroup) :
    layerNamesOf (annotateEagleGroupsDeepseekV4 config specs groups) = layerNamesOf groups := by
  unfold annotateEagleGroupsDeepseekV4
  split
  · rfl
  · split
    · rfl
    · exact layerNamesOf_markEagleGroup _ groups

theorem hiddenStateGroup_names {commonPage : ℕ} {entry : LayerName × LayerSpec} {group : LayerGroup}
    (h : hiddenStateGroup commonPage entry = .ok group) : group.layerNames = [entry.1] := by
  unfold hiddenStateGroup at h
  split at h
  · simp at h
  · obtain ⟨blockSize, -, h⟩ := of_bind h
    obtain ⟨aligned, -, h⟩ := of_bind h
    cases h
    rfl

theorem getKvCacheGroupsHybrid_nodup {specs : Dict LayerName LayerSpec}
    (h : getKvCacheGroupsHybrid specs = .ok groups) : (layerNamesOf groups).Nodup := by
  unfold getKvCacheGroupsHybrid at h
  obtain ⟨filtered, hfiltered, h⟩ := of_bind h
  obtain ⟨groups', hgroups, h⟩ := of_bind h
  have hsub := getKvCacheGroupsUniformPageSize_subperm hgroups
  rw [unifyKvCacheSpecPageSize_keys hfiltered, Dict.keys,
    entries_specsWhere (fun spec => !spec.isHiddenState)] at hsub
  split at h
  · cases h
    exact nodup_of_subperm hsub (nodup_filter_keys specs _)
  · obtain ⟨commonPage, -, h⟩ := of_bind h
    obtain ⟨hiddenGroups, hhidden, h⟩ := of_bind h
    cases h
    have hnames : layerNamesOf hiddenGroups =
        (specs.entries.filter fun entry => entry.2.isHiddenState).map Prod.fst := by
      rw [layerNamesOf, map_of_mapM hhidden (h := fun entry => [entry.1])
        fun _ _ _ hgroup => hiddenStateGroup_names hgroup]
      rw [← flatMap_def, map_eq_flatMap]
    have hall : ((specs.entries.filter fun entry => !entry.2.isHiddenState).map Prod.fst ++
        (specs.entries.filter fun entry => entry.2.isHiddenState).map Prod.fst).Perm specs.keys := by
      rw [← map_append, Dict.keys]
      refine List.Perm.map _ (perm_append_comm.trans ?_)
      exact filter_append_perm _ _
    have hboth := hsub.append (List.Subperm.refl (layerNamesOf hiddenGroups))
    rw [layerNamesOf, map_append, flatten_append]
    refine nodup_of_subperm hboth ?_
    rw [hnames]
    exact hall.nodup_iff.mpr specs.nodupKeys

/-- No layer is in two groups. -/
theorem getKvCacheGroups_nodup {config : VllmConfig} {specs : Dict LayerName LayerSpec}
    (h : getKvCacheGroups config specs = .ok groups) :
    (layerNamesOf groups).Nodup := by
  unfold getKvCacheGroups at h
  obtain ⟨specs', -, h⟩ := of_bind h
  split at h
  · cases h
    exact nodup_nil
  obtain ⟨isUniform, -, h⟩ := of_bind h
  split at h
  · rw [layerNamesOf, createKvCacheGroupSpecs_names h]
    simpa [Dict.keys] using specs'.nodupKeys
  obtain ⟨uniform, huniform, h⟩ := of_bind h
  cases uniform with
  | some uniform =>
    cases h
    simpa [layerNamesOf, Dict.keys] using uniform.kvCacheSpecs.nodupKeys
  | none =>
    obtain ⟨grouped, hgrouped, h⟩ := of_bind h
    cases grouped with
    | none => exact getKvCacheGroupsHybrid_nodup h
    | some grouped =>
      obtain ⟨groups', hgroups, h⟩ := of_bind h
      cases h
      obtain ⟨first, rest, rfl, hfirst, hrest⟩ := groupAndUnifyKvCacheSpecs_eq_ok hgrouped
      rw [layerNamesOf_annotateEagleGroups]
      refine nodup_of_subperm (getKvCacheGroupsUniformGroups_subperm hgroups) ?_
      have hkeys : (rest.flatMap fun specs => specs.kvCacheSpecs.keys) =
          (rest.flatMap fun uniform => uniform.kvCacheSpecs.entries).map Prod.fst := by
        rw [map_flatMap]
        rfl
      rw [hkeys, Dict.keys, hfirst, ← map_append]
      exact (((hrest.append_left _).map Prod.fst).nodup_iff).mpr (nodup_mla_slidingWindowMla specs')

end Vllm
