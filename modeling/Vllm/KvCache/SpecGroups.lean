import Vllm.KvCache.HitSoundness

/-! The constructors of the coordinators: how the KV cache groups are split by their specs,
and what holds of a coordinator that has just been built. -/
namespace Vllm
open SpecGroup Raises List

namespace KVCacheManagerConfig

variable {cfg : KVCacheManagerConfig} {g : SpecGroup} {gid : ℕ} {groups : List SpecGroup}

/-- What holds of a new spec group and of one that another KV cache group joins holds of all
spec groups. -/
theorem forall_mem_attentionGroups {P : SpecGroup → Prop}
    (hnew : ∀ (gid : ℕ) s, cfg.kvCacheGroups[gid]? = some s →
      P ⟨s.kvCacheSpec, [gid], gid ∈ cfg.eagleGroupIds⟩)
    (hjoin : ∀ (gid : ℕ) s, cfg.kvCacheGroups[gid]? = some s → ∀ g, P g →
      g.spec = s.kvCacheSpec →
      P ⟨g.spec, g.groupIds ++ [gid], g.useEagle || decide (gid ∈ cfg.eagleGroupIds)⟩) :
    ∀ g ∈ cfg.attentionGroups, P g := by
  have hadd (gid : ℕ) (s : KVCacheGroupSpec) (hs : cfg.kvCacheGroups[gid]? = some s)
      (groups : List SpecGroup) (hgroups : ∀ g ∈ groups, P g) :
      ∀ g ∈ addToSpecGroups gid s.kvCacheSpec (gid ∈ cfg.eagleGroupIds) groups, P g := by
    induction groups with
    | nil => simpa [addToSpecGroups] using hnew gid s hs
    | cons g₁ groups ih =>
      unfold addToSpecGroups
      have hrest := fun g hg => hgroups g (mem_cons_of_mem _ hg)
      split_ifs with hspec
      · intro g hg
        rcases mem_cons.mp hg with rfl | hg
        · exact hjoin gid s hs g₁ (hgroups g₁ mem_cons_self) hspec
        · exact hrest g hg
      · intro g hg
        rcases mem_cons.mp hg with rfl | hg
        · exact hgroups g mem_cons_self
        · exact ih hrest g hg
  have hfold : ∀ (l : List (KVCacheGroupSpec × ℕ)) (groups : List SpecGroup),
      (∀ x ∈ l, cfg.kvCacheGroups[x.2]? = some x.1) → (∀ g ∈ groups, P g) →
      ∀ g ∈ l.foldl (fun groups g =>
        addToSpecGroups g.2 g.1.kvCacheSpec (g.2 ∈ cfg.eagleGroupIds) groups) groups, P g := by
    intro l
    induction l with
    | nil => exact fun groups _ hgroups => hgroups
    | cons x l ih =>
      intro groups hl hgroups
      exact ih _ (fun y hy => hl y (by simp [hy])) (hadd x.2 x.1 (hl x (by simp)) groups hgroups)
  intro g hg
  simp only [attentionGroups, mem_append, mem_filter] at hg
  refine hfold cfg.kvCacheGroups.zipIdx [] (fun x hx => ?_) (by simp) g ?_
  · simpa [mem_zipIdx_iff_getElem?] using hx
  · rcases hg with hg | hg <;> exact hg.1

section
variable (hg : g ∈ cfg.attentionGroups)
include hg

theorem spec_of_mem_attentionGroups (hid : gid ∈ g.groupIds) :
    ∃ s, cfg.kvCacheGroups[gid]? = some s ∧ s.kvCacheSpec = g.spec := by
  refine forall_mem_attentionGroups (P := fun g => ∀ gid ∈ g.groupIds,
    ∃ s, cfg.kvCacheGroups[gid]? = some s ∧ s.kvCacheSpec = g.spec) ?_ ?_ g hg gid hid
  · intro gid s hs gid' hgid'
    obtain rfl := mem_singleton.mp hgid'
    exact ⟨s, hs, rfl⟩
  · intro gid s hs g hg hspec gid' hgid'
    rcases mem_append.mp hgid' with hgid' | hgid'
    · exact hg gid' hgid'
    · obtain rfl := mem_singleton.mp hgid'
      exact ⟨s, hs, hspec.symm⟩

theorem exists_kvCacheGroup : ∃ s ∈ cfg.kvCacheGroups, s.kvCacheSpec = g.spec := by
  refine forall_mem_attentionGroups (P := fun g => ∃ s ∈ cfg.kvCacheGroups,
    s.kvCacheSpec = g.spec) ?_ ?_ g hg
  · intro gid s hs
    exact ⟨s, mem_of_getElem? hs, rfl⟩
  · intro gid s hs g hg _
    exact hg

end

theorem mem_addToSpecGroups_self (groupId : ℕ) (spec : KVCacheSpec) (useEagle : Bool)
    (groups : List SpecGroup) :
    ∃ g ∈ addToSpecGroups groupId spec useEagle groups, groupId ∈ g.groupIds := by
  induction groups with
  | nil => exact ⟨⟨spec, [groupId], useEagle⟩, by simp [addToSpecGroups], by simp⟩
  | cons g groups ih =>
    unfold addToSpecGroups
    split_ifs
    · exact ⟨_, mem_cons_self, by simp⟩
    · obtain ⟨g', hg', hid⟩ := ih
      exact ⟨g', mem_cons_of_mem _ hg', hid⟩

theorem mem_addToSpecGroups_of_mem {groupId : ℕ} {spec : KVCacheSpec} {useEagle : Bool}
    (h : ∃ g ∈ groups, gid ∈ g.groupIds) :
    ∃ g ∈ addToSpecGroups groupId spec useEagle groups, gid ∈ g.groupIds := by
  induction groups with
  | nil => simp at h
  | cons g groups ih =>
    unfold addToSpecGroups
    obtain ⟨g', hg', hid⟩ := h
    split_ifs
    · rcases mem_cons.mp hg' with rfl | hg'
      · exact ⟨_, mem_cons_self, by simp [hid]⟩
      · exact ⟨g', mem_cons_of_mem _ hg', hid⟩
    · rcases mem_cons.mp hg' with rfl | hg'
      · exact ⟨g', mem_cons_self, hid⟩
      · obtain ⟨g'', hg'', hid'⟩ := ih ⟨g', hg', hid⟩
        exact ⟨g'', mem_cons_of_mem _ hg'', hid'⟩

theorem exists_mem_attentionGroups (hgid : gid < cfg.kvCacheGroups.length) :
    ∃ g ∈ cfg.attentionGroups, gid ∈ g.groupIds := by
  have hfold : ∀ (l : List (KVCacheGroupSpec × ℕ)) (groups : List SpecGroup),
      (∃ s, (s, gid) ∈ l) ∨ (∃ g ∈ groups, gid ∈ g.groupIds) →
      ∃ g ∈ l.foldl (fun groups g =>
        addToSpecGroups g.2 g.1.kvCacheSpec (g.2 ∈ cfg.eagleGroupIds) groups) groups,
        gid ∈ g.groupIds := by
    intro l
    induction l with
    | nil =>
      intro groups h
      simpa using h
    | cons x l ih =>
      intro groups h
      apply ih
      rcases h with ⟨s, hs⟩ | hmem
      · rcases mem_cons.mp hs with rfl | hs
        · exact .inr (mem_addToSpecGroups_self ..)
        · exact .inl ⟨s, hs⟩
      · exact .inr (mem_addToSpecGroups_of_mem hmem)
  obtain ⟨g, hg, hid⟩ := hfold cfg.kvCacheGroups.zipIdx [] (.inl ⟨cfg.kvCacheGroups[gid],
    by simp [mem_zipIdx_iff_getElem?, hgid]⟩)
  refine ⟨g, ?_, hid⟩
  simp only [attentionGroups, mem_append, mem_filter]
  cases g.spec.isFullAttention
  · exact .inr ⟨hg, by simp⟩
  · exact .inl ⟨hg, by simp⟩

/-- Full attention groups come first. -/
theorem attentionGroups_sorted {i j : ℕ} {g' : SpecGroup} (hij : i < j)
    (hi : cfg.attentionGroups[i]? = some g) (hj : cfg.attentionGroups[j]? = some g')
    (hfull : g'.spec.isFullAttention = true) :
    g.spec.isFullAttention = true := by
  unfold attentionGroups at hi hj
  generalize (cfg.kvCacheGroups.zipIdx.foldl (fun groups g =>
    addToSpecGroups g.2 g.1.kvCacheSpec (decide (g.2 ∈ cfg.eagleGroupIds)) groups) []) = groups
    at hi hj
  rw [List.getElem?_append] at hi hj
  split_ifs at hj with hlt
  · rw [if_pos (hij.trans hlt)] at hi
    simpa using of_mem_filter (mem_of_getElem? hi)
  · have := of_mem_filter (mem_of_getElem? hj)
    simp [hfull] at this

theorem coordinatorKind_unitary (h : cfg.coordinatorKind = .ok .unitary) :
    ∀ g ∈ cfg.kvCacheGroups, cfg.hashBlockSize = cfg.blockSize g.kvCacheSpec := by
  unfold coordinatorKind at h
  split_ifs at h
  · simp at h
  · simp only [bind_eq_ok, require_eq_ok] at h
    obtain ⟨-, h, -⟩ := h
    exact h
  · simp [bind_eq_ok, -bind_pure_comp] at h

theorem coordinatorKind_hybrid (h : cfg.coordinatorKind = .ok (.hybrid groups)) :
    groups = cfg.attentionGroups ∧ cfg.dcpWorldSize = 1 ∧ cfg.pcpWorldSize = 1 ∧
      (∀ g ∈ cfg.kvCacheGroups, g.kvCacheSpec.blockSize % cfg.hashBlockSize = 0) ∧
      1 < cfg.attentionGroups.length := by
  unfold coordinatorKind at h
  split_ifs at h
  · simp at h
  · simp [bind_eq_ok, -bind_pure_comp] at h
  · simp only [bind_eq_ok, require_eq_ok, pure_eq_ok, CoordinatorKind.hybrid.injEq] at h
    obtain ⟨-, hdvd, -, hworld, -, hlen, rfl⟩ := h
    exact ⟨rfl, hworld.1, hworld.2, hdvd, hlen⟩

theorem manager_of_getElem? {kind : CoordinatorKind} {i : ℕ} {m : SingleTypeKVCacheManager}
    (h : (cfg.kvCacheGroups.zipIdx.map fun g => cfg.getManagerForKvCacheSpec g.1.kvCacheSpec g.2
      (cfg.managerUsesEagle kind g.2))[i]? = some m) :
    ∃ g, cfg.kvCacheGroups[i]? = some g ∧
      m = cfg.getManagerForKvCacheSpec g.kvCacheSpec i (cfg.managerUsesEagle kind i) := by
  simp only [List.getElem?_map, List.getElem?_zipIdx, Option.map_map, Option.map_eq_some_iff] at h
  obtain ⟨g, hg, rfl⟩ := h
  exact ⟨g, hg, by simp⟩

/-- What the constructors establish. -/
structure Built (cfg : KVCacheManagerConfig) (c : KVCacheCoordinator) : Prop where
  kind : cfg.coordinatorKind = .ok c.kind
  pool : BlockPool.init cfg.numBlocks cfg.enableCaching cfg.hashBlockSize
    cfg.enableKvCacheEvents cfg.useIntBlockHashes cfg.sha256 = .ok c.blockPool
  managers : c.singleTypeManagers = cfg.kvCacheGroups.zipIdx.map fun g =>
    cfg.getManagerForKvCacheSpec g.1.kvCacheSpec g.2 (cfg.managerUsesEagle c.kind g.2)
  enableCaching : c.enableCaching = cfg.enableCaching
  hashBlockSize : c.hashBlockSize = cfg.hashBlockSize
  schedulerBlockSize : c.schedulerBlockSize = cfg.schedulerBlockSize
  divides : ∀ g ∈ cfg.kvCacheGroups, cfg.schedulerBlockSize % g.kvCacheSpec.blockSize = 0

theorem getKvCacheCoordinator_built {c : KVCacheCoordinator}
    (h : cfg.getKvCacheCoordinator = .ok c) : Built cfg c := by
  simp only [getKvCacheCoordinator, bind_eq_ok, require_eq_ok,
    pure_eq_ok] at h
  obtain ⟨-, hdvd, pool, hpool, -, -, kind, hkind, rfl⟩ := h
  exact ⟨hkind, hpool, rfl, rfl, rfl, rfl, hdvd.2⟩

theorem Built.setup {c : KVCacheCoordinator} (h : Built cfg c) : CoordinatorSetup c := by
  have hget {i : ℕ} {m : SingleTypeKVCacheManager} (hm : c.singleTypeManagers[i]? = some m) :=
    manager_of_getElem? (h.managers ▸ hm)
  obtain ⟨-, hpool⟩ := PoolInv.init_fresh h.pool
  refine ⟨fun i m hm => ?_, hpool.enableCaching.trans h.enableCaching.symm,
    hpool.hashBlockSize.trans h.hashBlockSize.symm, fun hkind m hm => ?_,
    fun groups hkind g hg gid hgid m hm => ?_⟩
  · obtain ⟨g, -, rfl⟩ := hget hm
    rfl
  · obtain ⟨i, hi⟩ := mem_iff_getElem?.mp hm
    obtain ⟨g, hg, rfl⟩ := hget hi
    have hsize := coordinatorKind_unitary (hkind ▸ h.kind) g (mem_of_getElem? hg)
    rw [h.hashBlockSize, hsize]
    rfl
  · obtain ⟨rfl, hdcp, hpcp, -⟩ := coordinatorKind_hybrid (hkind ▸ h.kind)
    obtain ⟨s, hs, hspec⟩ := spec_of_mem_attentionGroups hg hgid
    obtain ⟨g', hg', rfl⟩ := hget hm
    obtain rfl : g' = s := Option.some.inj (hg'.symm.trans hs)
    rw [← hspec, SingleTypeKVCacheManager.blockSize, if_neg]
    · rfl
    · show ¬ cfg.dcpWorldSize * cfg.pcpWorldSize > 1
      rw [hdcp, hpcp]
      omega

end KVCacheManagerConfig

end Vllm
