import Vllm.KvCache.GroupPartition

/-! The tensors of a worker: every layer is in exactly one of them, two layers of a group are never
in the same one, and together they fit the memory. -/
namespace Vllm
open Raises Grouping List Nat

theorem foldl_choice {op : ℕ → ℕ → ℕ} {r : ℕ → ℕ → Prop} (hchoice : ∀ a b, op a b = a ∨ op a b = b)
    (hleft : ∀ a b, r (op a b) a) (hright : ∀ a b, r (op a b) b) (hrefl : ∀ a, r a a)
    (htrans : ∀ a b c, r a b → r b c → r a c) (xs : List ℕ) (x : ℕ) :
    xs.foldl op x ∈ x :: xs ∧ ∀ y ∈ x :: xs, r (xs.foldl op x) y := by
  induction xs generalizing x with
  | nil => simp [hrefl]
  | cons x' xs ih =>
    obtain ⟨hmem, hbest⟩ := ih (op x x')
    have htop := hbest (op x x') mem_cons_self
    rw [foldl_cons]
    refine ⟨?_, ?_⟩
    · obtain heq | hmem := mem_cons.mp hmem
      · rw [heq]
        obtain hop | hop := hchoice x x'
        · rw [hop]
          exact mem_cons_self
        · rw [hop]
          exact mem_cons_of_mem x mem_cons_self
      · exact mem_cons_of_mem x (mem_cons_of_mem x' hmem)
    · intro y hy
      obtain rfl | hy := mem_cons.mp hy
      · exact htrans _ _ _ htop (hleft _ _)
      obtain rfl | hy := mem_cons.mp hy
      · exact htrans _ _ _ htop (hright _ _)
      · exact hbest y (mem_cons_of_mem _ hy)

theorem maxChecked_eq_ok {l : List ℕ} {m : ℕ} (h : maxChecked l = .ok m) :
    m ∈ l ∧ ∀ x ∈ l, x ≤ m := by
  cases l with
  | nil => simp [maxChecked] at h
  | cons x xs =>
    cases h
    exact foldl_choice (r := fun a b => b ≤ a) max_choice le_max_left le_max_right le_refl
      (fun _ _ _ hab hbc => hbc.trans hab) xs x

theorem minChecked_eq_ok {l : List ℕ} {m : ℕ} (h : minChecked l = .ok m) :
    m ∈ l ∧ ∀ x ∈ l, m ≤ x := by
  cases l with
  | nil => simp [minChecked] at h
  | cons x xs =>
    cases h
    exact foldl_choice (r := fun a b => a ≤ b) min_choice min_le_left min_le_right le_refl
      (fun _ _ _ hab hbc => hab.trans hbc) xs x

theorem floorDivChecked_eq_ok {a b q : ℕ} (h : floorDivChecked a b = .ok q) :
    0 < b ∧ q = a / b := by
  unfold floorDivChecked at h
  split at h
  · simp at h
  · next hb =>
    cases h
    exact ⟨pos_of_ne_zero hb, rfl⟩

theorem getUniformPageSize_eq_ok {specs : List GroupSpec} {q : ℕ}
    (h : getUniformPageSize specs = .ok q) :
    specs ≠ [] ∧ ∀ spec ∈ specs, spec.pageSizeBytes = .ok q := by
  unfold getUniformPageSize at h
  obtain ⟨sizes, hsizes, h⟩ := of_bind h
  split at h
  · next size hdedup =>
    cases h
    refine ⟨?_, ?_⟩
    · rintro rfl
      cases hsizes
      simp at hdedup
    · intro spec hspec
      obtain ⟨b, hb, hpage⟩ := mapM_of_mem hsizes hspec
      have hmem : b ∈ sizes.dedup := mem_dedup.mpr hb
      rw [hdedup, mem_singleton] at hmem
      rw [hpage, hmem]
  · simp at h

/-- The page size of each layer, as its group has it. -/
def GroupPages (groups : List LayerGroup) (page : LayerName → ℕ) : Prop :=
  ∀ group ∈ groups, ∀ x ∈ group.layerNames, layerPageSize group.kvCacheSpec x = .ok (page x)

structure TensorLayout (page : LayerName → ℕ) (groups : List LayerGroup) (memory numBlocks : ℕ)
    (tensors : List KVCacheTensor) : Prop where
  layers : (tensors.flatMap KVCacheTensor.sharedBy).Perm (layerNamesOf groups)
  apart : ∀ t ∈ tensors, ∀ group ∈ groups, ∀ x ∈ t.sharedBy, ∀ y ∈ t.sharedBy,
    x ∈ group.layerNames → y ∈ group.layerNames → x = y
  shared : ∀ t ∈ tensors, t.sharedBy ≠ []
  size : ∀ t ∈ tensors, ∀ x ∈ t.sharedBy, t.size = page x * numBlocks
  total : (tensors.map KVCacheTensor.size).sum ≤ memory

/-- Tensors of one size, the `i`-th of them for the `i`-th layers of the groups. -/
theorem columns_layout {groups : List LayerGroup} {m q numBlocks memory : ℕ}
    (hnodup : (layerNamesOf groups).Nodup) (hle : ∀ group ∈ groups, group.layerNames.length ≤ m)
    (hmax : m = 0 ∨ ∃ group ∈ groups, group.layerNames.length = m)
    (htotal : q * numBlocks * m ≤ memory) :
    TensorLayout (fun _ => q) groups memory numBlocks
      ((columns m (groups.map LayerGroup.layerNames)).map fun sharedBy => {
        size := q * numBlocks
        sharedBy }) := by
  refine ⟨?_, ?_, ?_, ?_, ?_⟩
  · rw [flatMap_map, flatMap_id']
    refine columns_perm ?_
    intro row hrow
    obtain ⟨group, hgroup, rfl⟩ := mem_map.mp hrow
    exact hle group hgroup
  · intro t ht group hgroup x hx y hy hxg hyg
    obtain ⟨sharedBy, hshared, rfl⟩ := mem_map.mp ht
    obtain ⟨i, -, rfl⟩ := mem_map.mp hshared
    exact column_row_unique hnodup (mem_map_of_mem hgroup) hx hy hxg hyg
  · intro t ht
    obtain ⟨sharedBy, hshared, rfl⟩ := mem_map.mp ht
    obtain ⟨i, hi, rfl⟩ := mem_map.mp hshared
    rw [mem_range] at hi
    obtain rfl | ⟨group, hgroup, hlength⟩ := hmax
    · omega
    · exact column_ne_nil (mem_map_of_mem hgroup) (by omega)
  · intro t ht x _
    obtain ⟨sharedBy, -, rfl⟩ := mem_map.mp ht
    rfl
  · rw [map_map]
    simpa [Function.comp_def, length_columns, mul_comm] using htotal

section Buckets
variable {pageSize : ℕ}

/-- The slots of one page size hold the columns of the groups that have been bucketed. -/
structure Bucketed (pageSize : ℕ) (rows : List (List LayerName)) (m : ℕ)
    (buckets : Dict ℕ (List (List LayerName))) : Prop where
  slots : buckets.getD pageSize [] = Grouping.columns m rows
  others : ∀ size ≠ pageSize, buckets.get? size = none
  bounded : ∀ row ∈ rows, row.length ≤ m
  longest : m = 0 ∨ ∃ row ∈ rows, row.length = m

theorem columns_append_nil (m : ℕ) (rows : List (List LayerName)) :
    columns m (rows ++ [[]]) = columns m rows := by
  refine map_congr_left ?_
  intro i _
  rw [column_append]
  simp [column]

variable {buckets : Dict ℕ (List (List LayerName))} {rows : List (List LayerName)}

theorem Bucketed.bucketLayer {row : List LayerName} {m : ℕ} {count : Dict ℕ ℕ} (x : LayerName)
    (h : Bucketed pageSize (rows ++ [row]) m buckets) (hcount : count.getD pageSize 0 = row.length) :
    Bucketed pageSize (rows ++ [row ++ [x]]) (max m (row.length + 1))
        (Vllm.bucketLayer pageSize x (buckets, count)).1 ∧
      (Vllm.bucketLayer pageSize x (buckets, count)).2.getD pageSize 0 = (row ++ [x]).length := by
  have hrow := h.bounded row (by simp)
  have hrows : ∀ row' ∈ rows, row'.length ≤ m := fun row' hrow' => h.bounded row' (by simp [hrow'])
  refine ⟨⟨?_, ?_, ?_, ?_⟩, ?_⟩
  · unfold Vllm.bucketLayer
    simp only [h.slots, hcount, length_columns]
    rw [Dict.getD, Dict.get?_set, if_pos rfl, Option.getD_some]
    exact columns_snoc x hrows hrow
  · intro size hsize
    unfold Vllm.bucketLayer
    rw [Dict.get?_set, if_neg hsize]
    exact h.others size hsize
  · intro row' hrow'
    obtain hrow' | hrow' := mem_append.mp hrow'
    · exact (hrows row' hrow').trans (le_max_left _ _)
    · rw [mem_singleton.mp hrow', length_append]
      exact le_max_right _ _
  · by_cases hm : m ≤ row.length
    · refine .inr ⟨row ++ [x], by simp, ?_⟩
      simp only [length_append, length_singleton]
      omega
    · obtain rfl | ⟨row', hrow', hlength⟩ := h.longest
      · omega
      · obtain hrow' | hrow' := mem_append.mp hrow'
        · exact .inr ⟨row', by simp [hrow'], by omega⟩
        · rw [mem_singleton.mp hrow'] at hlength
          omega
  · unfold Vllm.bucketLayer
    rw [Dict.getD, Dict.get?_set, if_pos rfl, Option.getD_some, hcount, length_append,
      length_singleton]

/-- One group. -/
theorem Bucketed.group {names row : List LayerName} {m : ℕ}
    {spec : GroupSpec} {state state' : Dict ℕ (List (List LayerName)) × Dict ℕ ℕ}
    (hpages : ∀ x ∈ names, layerPageSize spec x = .ok pageSize)
    (hstate : Bucketed pageSize (rows ++ [row]) m state.1)
    (hcount : state.2.getD pageSize 0 = row.length)
    (h : names.foldlM (fun state layerName => do
      pure (Vllm.bucketLayer (← layerPageSize spec layerName) layerName state)) state =
        (.ok state' : Raises _)) :
    ∃ m', Bucketed pageSize (rows ++ [row ++ names]) m' state'.1 := by
  induction names generalizing state row m with
  | nil =>
    cases h
    exact ⟨m, by rwa [append_nil]⟩
  | cons x names ih =>
    rw [foldlM_cons] at h
    obtain ⟨state₁, hstep, h⟩ := of_bind h
    obtain ⟨size, hsize, hstep⟩ := of_bind hstep
    cases hstep
    rw [hpages x mem_cons_self] at hsize
    cases hsize
    obtain ⟨hstate₁, hcount₁⟩ := hstate.bucketLayer x hcount
    obtain ⟨m', hm'⟩ := ih (fun y hy => hpages y (mem_cons_of_mem x hy)) hstate₁ hcount₁ h
    exact ⟨m', by simpa using hm'⟩

theorem bucketLayersByPageSize_eq_ok {groups : List LayerGroup}
    (hpages : GroupPages groups fun _ => pageSize)
    (h : bucketLayersByPageSize groups = .ok buckets) :
    ∃ m, Bucketed pageSize (groups.map LayerGroup.layerNames) m buckets := by
  have hfold : ∀ (groups : List LayerGroup) (rows : List (List LayerName)) (m : ℕ)
      (start buckets : Dict ℕ (List (List LayerName))),
      GroupPages groups (fun _ => pageSize) → Bucketed pageSize rows m start →
      groups.foldlM (fun buckets group => do
        let state ← group.layerNames.foldlM (fun state layerName => do
          pure (Vllm.bucketLayer (← layerPageSize group.kvCacheSpec layerName) layerName state))
          (buckets, Dict.empty)
        pure state.1) start = (.ok buckets : Raises _) →
      ∃ m, Bucketed pageSize (rows ++ groups.map LayerGroup.layerNames) m buckets := by
    intro groups
    induction groups with
    | nil =>
      intro rows m start buckets _ hstart h
      cases h
      exact ⟨m, by simpa using hstart⟩
    | cons group groups ih =>
      intro rows m start buckets hpages hstart h
      rw [foldlM_cons] at h
      obtain ⟨start₁, hstep, h⟩ := of_bind h
      obtain ⟨state, hstate, hstep⟩ := of_bind hstep
      cases hstep
      have hbegin : Bucketed pageSize (rows ++ [[]]) m start := by
        refine ⟨?_, hstart.others, ?_, ?_⟩
        · rw [columns_append_nil]
          exact hstart.slots
        · intro row hrow
          obtain hrow | hrow := mem_append.mp hrow
          · exact hstart.bounded row hrow
          · simp [mem_singleton.mp hrow]
        · obtain hm | ⟨row, hrow, hlength⟩ := hstart.longest
          · exact .inl hm
          · exact .inr ⟨row, mem_append_left _ hrow, hlength⟩
      obtain ⟨m₁, hm₁⟩ := Bucketed.group (hpages group mem_cons_self) hbegin rfl hstate
      obtain ⟨m₂, hm₂⟩ := ih (rows ++ [group.layerNames]) m₁ _ buckets
        (fun g hg => hpages g (mem_cons_of_mem group hg)) hm₁ h
      exact ⟨m₂, by simpa using hm₂⟩
  have hempty : Bucketed pageSize [] 0 .empty := ⟨rfl, fun _ _ => rfl, by simp, .inl rfl⟩
  obtain ⟨m, hm⟩ := hfold groups [] 0 .empty buckets hpages hempty h
  exact ⟨m, by simpa using hm⟩

theorem Bucketed.entries {m : ℕ} (h : Bucketed pageSize rows m buckets) :
    (buckets.entries = [] ∧ m = 0) ∨
      buckets.entries = [(pageSize, columns m rows)] := by
  have hkey : ∀ entry ∈ buckets.entries, entry = (pageSize, columns m rows) := by
    rintro ⟨size, slots⟩ hmem
    have hget := (Dict.mem_entries_iff buckets).mp hmem
    have hsize : size = pageSize := by
      by_contra hne
      simp [h.others size hne] at hget
    subst hsize
    have hslots := h.slots
    rw [Dict.getD, hget, Option.getD_some] at hslots
    rw [hslots]
  have hnodup := buckets.nodupKeys
  cases hentries : buckets.entries with
  | nil =>
    refine .inl ⟨rfl, ?_⟩
    have hslots := h.slots
    rw [Dict.getD, Dict.get?, hentries] at hslots
    simpa using (congrArg List.length hslots).symm
  | cons entry rest =>
    rw [hentries] at hkey hnodup
    cases rest with
    | nil => exact .inr (by rw [hkey entry mem_cons_self])
    | cons entry' rest =>
      rw [hkey entry (by simp), hkey entry' (by simp)] at hnodup
      simp at hnodup

end Buckets

section FromGroups
variable {config : VllmConfig} {groups : List LayerGroup} {memory numBlocks : ℕ}
  {tensors : List KVCacheTensor}

/-- The page size of a layer, where it has one. -/
def pageOf (spec : GroupSpec) (x : LayerName) : ℕ := (layerPageSize spec x).toOption.getD 0

variable {x : LayerName} {specs : UniformTypeKVCacheSpecs}

theorem pageOf_eq {spec : GroupSpec} {q : ℕ} (h : layerPageSize spec x = .ok q) :
    pageOf spec x = q := by
  simp [pageOf, h, Except.toOption]

theorem getSpec_eq_ok {specs : Dict LayerName LayerSpec} {spec : LayerSpec} :
    getSpec specs x = .ok spec ↔ specs.get? x = some spec := by
  unfold getSpec
  split <;> simp_all

theorem layerPageSize_uniformType {spec : LayerSpec} (h : specs.kvCacheSpecs.get? x = some spec) :
    layerPageSize (.uniformType specs) x = spec.pageSizeBytes := by
  have hspec := getSpec_eq_ok.mpr h
  unfold layerPageSize
  simp only [hspec]
  rfl

theorem pageSizeBytes_eq_sum {pageSum : ℕ} (h : specs.pageSizeBytes = .ok pageSum) :
    pageSum = (specs.kvCacheSpecs.keys.map (pageOf (.uniformType specs))).sum := by
  unfold UniformTypeKVCacheSpecs.pageSizeBytes at h
  obtain ⟨sizes, hsizes, h⟩ := of_bind h
  cases h
  have hentries : sizes.map id =
      specs.kvCacheSpecs.entries.map fun entry => pageOf (.uniformType specs) entry.1 := by
    rw [Dict.values, mapM_map] at hsizes
    refine map_of_mapM hsizes ?_
    rintro ⟨x, spec⟩ hmem q hq
    have hget := (Dict.mem_entries_iff _).mp hmem
    exact (pageOf_eq ((layerPageSize_uniformType hget).trans hq)).symm
  rw [map_id] at hentries
  rw [hentries, Dict.keys, map_map]
  rfl

section
variable (hoverride : config.numGpuBlocksOverride = none)
include hoverride

theorem getKvCacheConfigUniformType_eq_ok {names : List LayerName}
    (h : getKvCacheConfigUniformType config names specs memory = .ok (numBlocks, tensors)) :
    (∀ x ∈ names, layerPageSize (.uniformType specs) x = .ok (pageOf (.uniformType specs) x)) ∧
    (∃ pageSum, specs.pageSizeBytes = .ok pageSum ∧ numBlocks = memory / pageSum) ∧
    tensors = names.map fun x => {
      size := pageOf (.uniformType specs) x * numBlocks
      sharedBy := [x] } := by
  unfold getKvCacheConfigUniformType at h
  obtain ⟨pageSum, hpageSum, h⟩ := of_bind h
  obtain ⟨n, hn, h⟩ := of_bind h
  simp only [mayOverrideNumBlocks, hoverride, Option.getD_none] at h
  obtain ⟨tensors', htensors, h⟩ := of_bind h
  obtain ⟨rfl, rfl⟩ := Prod.mk.inj (pure_eq_ok.mp h)
  refine ⟨?_, ⟨pageSum, hpageSum, (floorDivChecked_eq_ok hn).2⟩, ?_⟩
  · intro x hx
    obtain ⟨t, -, ht⟩ := mapM_of_mem htensors hx
    obtain ⟨spec, hspec, ht⟩ := of_bind ht
    obtain ⟨q, hq, -⟩ := of_bind ht
    have hlayer : layerPageSize (.uniformType specs) x = .ok q :=
      (layerPageSize_uniformType (getSpec_eq_ok.mp hspec)).trans hq
    rw [hlayer, pageOf_eq hlayer]
  · have hmap := map_of_mapM (g := id) (h := fun x => {
      size := pageOf (.uniformType specs) x * n
      sharedBy := [x] : KVCacheTensor }) htensors (by
        intro x _ t ht
        obtain ⟨spec, hspec, ht⟩ := of_bind ht
        obtain ⟨q, hq, ht⟩ := of_bind ht
        cases ht
        rw [pageOf_eq ((layerPageSize_uniformType (getSpec_eq_ok.mp hspec)).trans hq)]
        rfl)
    simpa using hmap

theorem getKvCacheConfigUniformType_layout {names : List LayerName} {flag : Bool}
    (hnames : names = [] ∨ names = specs.kvCacheSpecs.keys)
    (h : getKvCacheConfigUniformType config names specs memory = .ok (numBlocks, tensors)) :
    ∃ page, GroupPages [⟨names, .uniformType specs, flag⟩] page ∧
      TensorLayout page [⟨names, .uniformType specs, flag⟩] memory numBlocks tensors := by
  obtain ⟨hpages, ⟨pageSum, hpageSum, hn⟩, rfl⟩ := getKvCacheConfigUniformType_eq_ok hoverride h
  set page := pageOf (.uniformType specs)
  have hsum : (names.map page).sum ≤ pageSum := by
    obtain rfl | rfl := hnames
    · simp
    · exact (pageSizeBytes_eq_sum hpageSum).ge
  refine ⟨page, ?_, ?_, ?_, ?_, ?_, ?_⟩
  · intro group hgroup x hx
    rw [mem_singleton.mp hgroup] at hx ⊢
    exact hpages x hx
  · rw [flatMap_map, ← map_eq_flatMap, map_id']
    simp [layerNamesOf]
  · intro t ht group _ x hx y hy _ _
    obtain ⟨z, -, rfl⟩ := mem_map.mp ht
    rw [mem_singleton.mp hx, mem_singleton.mp hy]
  · intro t ht
    obtain ⟨z, -, rfl⟩ := mem_map.mp ht
    simp
  · intro t ht x hx
    obtain ⟨z, -, rfl⟩ := mem_map.mp ht
    rw [mem_singleton.mp hx]
  · rw [map_map]
    calc (names.map (KVCacheTensor.size ∘ fun x => ⟨page x * numBlocks, [x]⟩)).sum
        = (names.map page).sum * numBlocks := by
          rw [← sum_map_mul_right]
          rfl
      _ ≤ pageSum * numBlocks := mul_le_mul_right numBlocks hsum
      _ ≤ memory := by
          rw [hn]
          exact mul_div_le memory pageSum

theorem getKvCacheConfigDeepseekV4_layout {p : ℕ} (hnodup : (layerNamesOf groups).Nodup)
    (hpages : GroupPages groups fun _ => p)
    (h : getKvCacheConfigDeepseekV4 config groups memory = .ok (numBlocks, tensors)) :
    TensorLayout (fun _ => p) groups memory numBlocks tensors := by
  unfold getKvCacheConfigDeepseekV4 at h
  obtain ⟨buckets, hbuckets, h⟩ := of_bind h
  obtain ⟨n, hn, h⟩ := of_bind h
  simp only [mayOverrideNumBlocks, hoverride, Option.getD_none] at h
  cases h
  obtain ⟨hpos, rfl⟩ := floorDivChecked_eq_ok hn
  obtain ⟨m, hm⟩ := bucketLayersByPageSize_eq_ok hpages hbuckets
  obtain ⟨hentries, rfl⟩ | hentries := hm.entries
  · simp [bytesPerBlock, hentries] at hpos
  have hbytes : bytesPerBlock buckets = p * m := by
    simp [bytesPerBlock, hentries, length_columns]
  rw [hentries, flatMap_singleton, hbytes]
  refine columns_layout hnodup ?_ ?_ ?_
  · intro group hgroup
    exact hm.bounded _ (mem_map_of_mem hgroup)
  · obtain hzero | ⟨row, hrow, hlength⟩ := hm.longest
    · exact .inl hzero
    · obtain ⟨group, hgroup, rfl⟩ := mem_map.mp hrow
      exact .inr ⟨group, hgroup, hlength⟩
  · calc p * (memory / (p * m)) * m = p * m * (memory / (p * m)) := by ring
      _ ≤ memory := mul_div_le memory (p * m)

theorem getKvCacheConfigGeneral_layout (hnodup : (layerNamesOf groups).Nodup)
    (h : getKvCacheConfigGeneral config groups memory = .ok (numBlocks, tensors)) :
    ∃ p, (∀ group ∈ groups, group.kvCacheSpec.pageSizeBytes = .ok p) ∧
      TensorLayout (fun _ => p) groups memory numBlocks tensors := by
  unfold getKvCacheConfigGeneral at h
  obtain ⟨m, hm, h⟩ := of_bind h
  obtain ⟨p, hp, h⟩ := of_bind h
  obtain ⟨_, -, h⟩ := of_bind h
  obtain ⟨n, hn, h⟩ := of_bind h
  cases h
  obtain ⟨hmem, hle⟩ := maxChecked_eq_ok hm
  unfold getNumBlocks at hn
  obtain ⟨perPage, hperPage, hn⟩ := of_bind hn
  obtain ⟨quotient, hquotient, hn⟩ := of_bind hn
  simp only [mayOverrideNumBlocks, hoverride, Option.getD_none] at hn
  cases hn
  obtain ⟨-, rfl⟩ := floorDivChecked_eq_ok hperPage
  obtain ⟨-, rfl⟩ := floorDivChecked_eq_ok hquotient
  refine ⟨p, ?_, columns_layout hnodup ?_ ?_ ?_⟩
  · intro group hgroup
    exact (getUniformPageSize_eq_ok hp).2 _ (mem_map_of_mem hgroup)
  · intro group hgroup
    exact hle _ (mem_map_of_mem (f := fun group : LayerGroup => group.layerNames.length) hgroup)
  · obtain ⟨group, hgroup, hlength⟩ := mem_map.mp hmem
    exact .inr ⟨group, hgroup, hlength⟩
  · calc p * (memory / p / m) * m = p * (m * (memory / p / m)) := by ring
      _ ≤ p * (memory / p) := mul_le_mul_left p (mul_div_le (memory / p) m)
      _ ≤ memory := mul_div_le memory p

end

/-- The groups that `get_kv_cache_groups` makes: each with a spec of one layer, or one group with
several specs, or several such groups with one page size. -/
inductive GroupShape (groups : List LayerGroup) : Prop
  | layers (h : ∀ group ∈ groups, ∃ spec, group.kvCacheSpec = .layer spec)
  | uniformType {names : List LayerName} {specs : UniformTypeKVCacheSpecs} {flag : Bool}
      (h : groups = [⟨names, .uniformType specs, flag⟩])
      (hnames : names = [] ∨ names = specs.kvCacheSpecs.keys)
  | uniformTypes {p : ℕ} (h : ∀ group ∈ groups, ∃ specs, group.kvCacheSpec = .uniformType specs)
      (hpages : GroupPages groups fun _ => p)
      (hnames : ∀ group ∈ groups, ∀ specs, group.kvCacheSpec = .uniformType specs →
        group.layerNames = [] ∨ group.layerNames = specs.kvCacheSpecs.keys)

theorem uniformTypes_eq_none (hgroups : groups ≠ [])
    (h : ∀ group ∈ groups, ∃ spec, group.kvCacheSpec = .layer spec) :
    uniformTypes groups = none := by
  cases groups with
  | nil => exact absurd rfl hgroups
  | cons group groups =>
    obtain ⟨spec, hspec⟩ := h group mem_cons_self
    simp [uniformTypes, hspec, GroupSpec.uniformType?]

theorem uniformTypes_isSome (h : ∀ group ∈ groups, ∃ specs, group.kvCacheSpec = .uniformType specs) :
    (uniformTypes groups).isSome = true := by
  induction groups with
  | nil => rfl
  | cons group groups ih =>
    obtain ⟨specs, hspecs⟩ := h group mem_cons_self
    obtain ⟨rest, hrest⟩ := Option.isSome_iff_exists.mp
      (ih fun g hg => h g (mem_cons_of_mem group hg))
    have hfirst : group.kvCacheSpec.uniformType? = some specs := by rw [hspecs]; rfl
    unfold uniformTypes at hrest ⊢
    simp [hfirst, hrest]

/-- What one worker lays out. -/
theorem getKvCacheConfigFromGroups_layout {kvCacheConfig : KVCacheConfig}
    (hoverride : config.numGpuBlocksOverride = none) (hnodup : (layerNamesOf groups).Nodup)
    (hshape : GroupShape groups)
    (h : getKvCacheConfigFromGroups config groups memory = .ok kvCacheConfig) :
    kvCacheConfig.kvCacheGroups = groups ∧
    (∀ group ∈ groups, ∀ spec, group.kvCacheSpec = .layer spec → ∀ group' ∈ groups,
      group'.kvCacheSpec.pageSizeBytes = group.kvCacheSpec.pageSizeBytes) ∧
    ∃ page, GroupPages groups page ∧
      TensorLayout page groups memory kvCacheConfig.numBlocks kvCacheConfig.kvCacheTensors := by
  unfold getKvCacheConfigFromGroups at h
  split at h
  · next hempty =>
    subst hempty
    cases h
    refine ⟨rfl, by simp, fun _ => 0, by simp [GroupPages], ?_⟩
    exact ⟨by simp [layerNamesOf], by simp, by simp, by simp, by simp⟩
  next hne =>
  obtain ⟨⟨numBlocks, tensors⟩, htensors, h⟩ := of_bind h
  cases h
  refine ⟨rfl, ?_⟩
  cases hshape with
  | layers hlayers =>
    have hgeneral : getKvCacheConfigGeneral config groups memory = .ok (numBlocks, tensors) := by
      split at htensors
      · obtain ⟨spec, hspec⟩ := hlayers _ (mem_singleton_self _)
        simp at hspec
      · rw [uniformTypes_eq_none hne hlayers] at htensors
        exact htensors
    obtain ⟨p, hp, hlayout⟩ := getKvCacheConfigGeneral_layout hoverride hnodup hgeneral
    refine ⟨?_, fun _ => p, ?_, hlayout⟩
    · intro group hgroup spec _ group' hgroup'
      rw [hp group hgroup, hp group' hgroup']
    · intro group hgroup x _
      obtain ⟨spec, hspec⟩ := hlayers group hgroup
      have hpage := hp group hgroup
      rw [hspec] at hpage ⊢
      exact hpage
  | uniformType hgroups hnames =>
    subst hgroups
    exact ⟨by simp, getKvCacheConfigUniformType_layout hoverride hnames htensors⟩
  | @uniformTypes p htypes hpages hnames =>
    refine ⟨?_, ?_⟩
    · intro group hgroup spec hspec
      obtain ⟨specs, hspecs⟩ := htypes group hgroup
      simp [hspecs] at hspec
    · split at htensors
      · exact getKvCacheConfigUniformType_layout hoverride
          (hnames _ (mem_singleton_self _) _ rfl) htensors
      · rw [if_pos (uniformTypes_isSome htypes)] at htensors
        exact ⟨fun _ => p, hpages,
          getKvCacheConfigDeepseekV4_layout hoverride hnodup hpages htensors⟩

end FromGroups

end Vllm
