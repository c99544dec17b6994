import Vllm.KvCache.KvCacheConfig

/-! `_estimate_max_model_len_from_groups` on the configuration that it writes the tried lengths to:
the memory that the groups need grows with the length, so the binary search ends at the largest
length that fits, and the configuration is what it was. -/
namespace Vllm
open Raises List
variable {config : VllmConfig} {groups : List LayerGroup} {availableMemory : ℤ}

/-- `fits`, which leaves the length that it tries in the configuration. -/
def fitsInConfig (groups : List LayerGroup) (availableMemory : ℤ) (modelLen : ℕ)
    (config : VllmConfig) : Raises Bool × VllmConfig :=
  (modelLenFits config groups availableMemory modelLen, { config with maxModelLen := modelLen })

/-- The loop of the search. -/
def searchInConfig (groups : List LayerGroup) (availableMemory : ℤ) :
    ℕ → ℕ → ℕ → ℕ → VllmConfig → Raises ℕ × VllmConfig
  | 0, _, _, result, config => (pure result, config)
  | fuel + 1, left, right, result, config =>
    if left ≤ right then
      let mid := (left + right) / 2
      match fitsInConfig groups availableMemory mid config with
      | (.ok true, config) =>
        searchInConfig groups availableMemory fuel (mid + 1) right mid config
      | (.ok false, config) =>
        searchInConfig groups availableMemory fuel left (mid - 1) result config
      | (.error e, config) => (throw e, config)
    else (pure result, config)

/-- `_estimate_max_model_len_from_groups` with its `finally`. -/
def estimateInConfig (config : VllmConfig) (groups : List LayerGroup) (availableMemory : ℤ) :
    Raises ℕ × VllmConfig :=
  let originalMax := config.maxModelLen
  let outcome := match fitsInConfig groups availableMemory 1 config with
    | (.ok true, config) => searchInConfig groups availableMemory originalMax 1 originalMax 1 config
    | (.ok false, config) => (pure 0, config)
    | (.error e, config) => (throw e, config)
  (outcome.1, { outcome.2 with maxModelLen := originalMax })

theorem searchInConfig_eq (fuel left right result len : ℕ) :
    ∃ len', searchInConfig groups availableMemory fuel left right result
        { config with maxModelLen := len } =
      (searchMaxModelLen (modelLenFits config groups availableMemory) fuel left right result,
        { config with maxModelLen := len' }) := by
  induction fuel generalizing left right result len with
  | zero => exact ⟨len, rfl⟩
  | succ fuel ih =>
    rw [searchInConfig, searchMaxModelLen]
    split
    · have hfits : ∀ mid,
          modelLenFits { config with maxModelLen := len } groups availableMemory mid =
          modelLenFits config groups availableMemory mid := fun _ => rfl
      dsimp only [fitsInConfig]
      rw [hfits]
      cases modelLenFits config groups availableMemory ((left + right) / 2) with
      | error e => exact ⟨_, rfl⟩
      | ok fits =>
        cases fits with
        | true => exact ih _ _ _ _
        | false => exact ih _ _ _ _
    · exact ⟨len, rfl⟩

theorem estimateInConfig_eq : estimateInConfig config groups availableMemory =
    (estimateMaxModelLenFromGroups config groups availableMemory, config) := by
  unfold estimateInConfig estimateMaxModelLenFromGroups
  dsimp only [fitsInConfig]
  cases modelLenFits config groups availableMemory 1 with
  | error e => rfl
  | ok fits =>
    cases fits with
    | false => rfl
    | true =>
      rcases @searchInConfig_eq config groups availableMemory config.maxModelLen 1
        config.maxModelLen 1 1 with
        ⟨len', hsearch⟩
      simp only [hsearch]
      rfl

/-- A computation raises for every argument, or its value grows with the argument. -/
def GrowsOrRaises (f : ℕ → Raises ℕ) : Prop :=
  (∃ e, ∀ n, f n = .error e) ∨ ∃ g : ℕ → ℕ, Monotone g ∧ ∀ n, f n = .ok (g n)

namespace GrowsOrRaises

theorem const (x : Raises ℕ) : GrowsOrRaises fun _ => x := by
  cases x with
  | error e => exact .inl ⟨e, fun _ => rfl⟩
  | ok a => exact .inr ⟨fun _ => a, monotone_const, fun _ => rfl⟩

theorem combine {f f' : ℕ → Raises ℕ} (h : GrowsOrRaises f) (h' : GrowsOrRaises f')
    {o : ℕ → ℕ → ℕ} (hop : ∀ a b a' b', a ≤ b → a' ≤ b' → o a a' ≤ o b b') :
    GrowsOrRaises fun n => (do pure (o (← f n) (← f' n))) := by
  rcases h with ⟨e, h⟩ | ⟨g, hg, h⟩
  · exact .inl ⟨e, fun n => by simp only [h]; rfl⟩
  · rcases h' with ⟨e, h'⟩ | ⟨g', hg', h'⟩
    · exact .inl ⟨e, fun n => by simp only [h, h']; rfl⟩
    · exact .inr ⟨fun n => o (g n) (g' n), fun a b hab => hop _ _ _ _ (hg hab) (hg' hab),
        fun n => by simp only [h, h']; rfl⟩

theorem cdivChecked {f : ℕ → Raises ℕ} (h : GrowsOrRaises f) (d : ℕ) :
    GrowsOrRaises fun n => (do Vllm.cdivChecked (← f n) d) := by
  rcases h with ⟨e, h⟩ | ⟨g, hg, h⟩
  · exact .inl ⟨e, fun n => by simp only [h]; rfl⟩
  · by_cases hd : d = 0
    · subst hd
      exact .inl ⟨.zeroDivisionError, fun n => by simp only [h]; rfl⟩
    · refine .inr ⟨fun n => cdiv (g n) d, fun a b hab => ?_, fun n => ?_⟩
      · exact Nat.div_le_div_right (by have := hg hab; omega)
      · simp only [h, ok_bind, Vllm.cdivChecked, if_neg hd]
        rfl

theorem sum {α : Type} {f : ℕ → α → Raises ℕ} {l : List α}
    (h : ∀ a ∈ l, GrowsOrRaises fun n => f n a) :
    GrowsOrRaises fun n => (do pure (← l.mapM (f n)).sum) := by
  induction l with
  | nil => exact const (.ok 0)
  | cons a l ih =>
    have hcons := combine (h a mem_cons_self) (ih fun b hb => h b (mem_cons_of_mem _ hb))
      (o := (· + ·)) fun _ _ _ _ => Nat.add_le_add
    convert hcons using 2 with n
    rw [mapM_cons]
    cases f n a with
    | error e => rfl
    | ok x =>
      cases hl : l.mapM (f n) with
      | error e => simp only [ok_bind]; rfl
      | ok xs => rfl

end GrowsOrRaises

theorem LayerSpec.growsOrRaises (config : VllmConfig) (spec : LayerSpec) :
    GrowsOrRaises fun n => spec.maxMemoryUsageBytes { config with maxModelLen := n } := by
  have hpages : ∀ {g : ℕ → ℕ} (_ : Monotone g) (d c : ℕ) (page : Raises ℕ), GrowsOrRaises fun n =>
      (do pure (((← cdivChecked (g n) d) + c) * (← page))) := by
    intro g hg d c page
    exact .combine (.cdivChecked (f := fun n => .ok (g n)) (.inr ⟨g, hg, fun _ => rfl⟩) d)
      (.const page) (o := fun a b => (a + c) * b)
      fun _ _ _ _ h h' => Nat.mul_le_mul (Nat.add_le_add_right h c) h'
  have hmin : ∀ c : ℕ, Monotone fun n => min c n := fun c => monotone_const.min monotone_id
  have hranks : Monotone fun n => if config.decodeContextParallelSize *
      config.prefillContextParallelSize > 1 then
        cdiv n (config.decodeContextParallelSize * config.prefillContextParallelSize) else n := by
    intro a b hab
    dsimp only
    split
    · exact Nat.div_le_div_right (by omega)
    · exact hab
  cases spec with
  | fullAttention a f | tqFullAttention a f slot | sinkFullAttention a f len | mlaAttention a f m
  | hiddenStateCache a f m => exact hpages hranks a.blockSize 0 _
  | chunkedLocalAttention a c =>
    exact hpages (hmin (c + config.maxNumBatchedTokens)) a.blockSize 0
      (chunkedLocalAttention a c).pageSizeBytes
  | slidingWindow a w v | slidingWindowMla a w v m =>
    by_cases hdcp : config.decodeContextParallelSize = 1
    · simpa [maxMemoryUsageBytes, require, hdcp, ok_bind] using hpages (hmin _) a.blockSize 1 _
    · exact .inl ⟨.assertionError, fun n => by simp [maxMemoryUsageBytes, require, hdcp]; rfl⟩
  | mamba blockSize m =>
    cases hmode : config.mambaCacheMode with
    | all => simpa [maxMemoryUsageBytes, hmode] using hpages monotone_id blockSize _ _
    | align | none => simpa [maxMemoryUsageBytes, hmode] using GrowsOrRaises.const _
  | encoderOnlyAttention a => exact .const _
  | crossAttention a => exact .const ((crossAttention a).maxMemoryUsageBytes config)

theorem uniformTypes_of_layers (hne : groups ≠ [])
    (h : ∀ group ∈ groups, group.kvCacheSpec.uniformType? = none) : uniformTypes groups = none := by
  cases groups with
  | nil => exact absurd rfl hne
  | cons group groups => simp [uniformTypes, mapM_cons, h group mem_cons_self]

theorem maxMemoryUsage_growsOrRaises (h : ∀ group ∈ groups, group.kvCacheSpec.uniformType? = none) :
    GrowsOrRaises fun n =>
      maxMemoryUsageBytesFromGroups { config with maxModelLen := n } groups := by
  have hlayer : ∀ group ∈ groups, ∃ spec, group.kvCacheSpec = .layer spec := by
    intro group hgroup
    cases hspec : group.kvCacheSpec with
    | layer spec => exact ⟨spec, rfl⟩
    | uniformType specs =>
      have := h group hgroup
      simp [hspec, GroupSpec.uniformType?] at this
  have hsum : ∀ page, GrowsOrRaises fun n => (do
      pure (← groups.mapM fun group => (do
        cdivChecked (← group.kvCacheSpec.maxMemoryUsageBytes { config with maxModelLen := n })
          page)).sum) := by
    intro page
    refine .sum fun group hgroup => .cdivChecked ?_ page
    rcases hlayer group hgroup with ⟨spec, hspec⟩
    rw [hspec]
    exact spec.growsOrRaises config
  by_cases hne : groups = []
  · subst hne
    exact .const (.ok 0)
  · have husage : ∀ config : VllmConfig, maxMemoryUsageBytesFromGroups config groups = (do
        let size ← maxChecked (groups.map fun group => group.layerNames.length)
        let pageSize ← getUniformPageSize (groups.map LayerGroup.kvCacheSpec)
        let blocksNeeded ← groups.mapM fun group => (do
          cdivChecked (← group.kvCacheSpec.maxMemoryUsageBytes config) pageSize)
        pure (size * pageSize * blocksNeeded.sum)) := by
      intro config
      unfold maxMemoryUsageBytesFromGroups
      split
      · exact absurd rfl hne
      · rename_i specs
        have := h _ (mem_singleton_self _)
        simp [GroupSpec.uniformType?] at this
      · rw [uniformTypes_of_layers hne h]
    simp only [husage]
    cases hsize : maxChecked (groups.map fun group => group.layerNames.length) with
    | error e => exact .inl ⟨e, fun n => rfl⟩
    | ok size =>
      cases hpage : getUniformPageSize (groups.map LayerGroup.kvCacheSpec) with
      | error e => exact .inl ⟨e, fun n => rfl⟩
      | ok page =>
        have hscaled := GrowsOrRaises.combine (.const (.ok (size * page))) (hsum page)
          (o := (· * ·)) fun _ _ _ _ => Nat.mul_le_mul
        convert hscaled using 2 with n
        simp only [ok_bind]
        cases groups.mapM fun group => (do
          cdivChecked (← group.kvCacheSpec.maxMemoryUsageBytes { config with maxModelLen := n })
            page) with
        | error e => rfl
        | ok blocks => rfl

/-- The largest length up to the bound that fits, or 0 where none does. -/
def LargestFit (fits : ℕ → Prop) (maxModelLen n : ℕ) : Prop :=
  (n = 0 ∨ 1 ≤ n ∧ n ≤ maxModelLen ∧ fits n) ∧ ∀ m, 1 ≤ m → n < m → m ≤ maxModelLen → ¬fits m

/-- The search narrows the lengths in question: those up to the result fit, and those behind the
interval do not. -/
theorem searchMaxModelLen_spec {fits : ℕ → Prop} [DecidablePred fits] {maxModelLen : ℕ}
    (hdown : ∀ m n, m ≤ n → fits n → fits m) (fuel left right result : ℕ)
    (hfuel : right < left + fuel) (hpos : 1 ≤ left) (hleft : left ≤ result + 1)
    (hresult : 1 ≤ result ∧ result ≤ maxModelLen ∧ fits result) (hright : right ≤ maxModelLen)
    (hlarge : ∀ m, right < m → m ≤ maxModelLen → ¬fits m) :
    ∃ n, searchMaxModelLen (fun m => .ok (decide (fits m))) fuel left right result = .ok n ∧
      LargestFit fits maxModelLen n := by
  induction fuel generalizing left right result with
  | zero =>
    exact ⟨result, rfl, .inr hresult, fun m _ hm => hlarge m (by omega)⟩
  | succ fuel ih =>
    rw [searchMaxModelLen]
    split
    · simp only [ok_bind]
      by_cases hmid : fits ((left + right) / 2)
      · rw [if_pos (decide_eq_true hmid)]
        exact ih _ _ _ (by omega) (by omega) (by omega) ⟨by omega, by omega, hmid⟩ hright hlarge
      · rw [if_neg (by simpa using hmid)]
        refine ih _ _ _ (by omega) hpos hleft hresult (by omega) fun m hm _ hfits => ?_
        exact hmid (hdown _ m (by omega) hfits)
    · exact ⟨result, rfl, .inr hresult, fun m _ hm => hlarge m (by omega)⟩

/-- For groups of layer specs, the estimate raises only what the memory usage raises at the
configured length. Otherwise it is the largest length that fits, and in both cases the
configuration is as it was. -/
theorem estimateInConfig_largestFit
    (hlayers : ∀ group ∈ groups, group.kvCacheSpec.uniformType? = none)
    (hlen : 1 ≤ config.maxModelLen) :
    (estimateInConfig config groups availableMemory).2 = config ∧
    match maxMemoryUsageBytesFromGroups config groups with
    | .error e => (estimateInConfig config groups availableMemory).1 = .error e
    | .ok _ => ∃ n, (estimateInConfig config groups availableMemory).1 = .ok n ∧
      LargestFit (fun m => ∃ needed : ℕ, maxMemoryUsageBytesFromGroups
        { config with maxModelLen := m } groups = .ok needed ∧ (needed : ℤ) ≤ availableMemory)
        config.maxModelLen n := by
  rw [estimateInConfig_eq]
  refine ⟨rfl, ?_⟩
  rcases @maxMemoryUsage_growsOrRaises config groups hlayers with ⟨e, husage⟩ | ⟨g, hg, husage⟩
    <;> dsimp only at husage
  · have hconfig : maxMemoryUsageBytesFromGroups config groups = .error e :=
      husage config.maxModelLen
    have hfits : modelLenFits config groups availableMemory 1 = .error e := by
      rw [modelLenFits, husage]
      rfl
    rw [hconfig]
    simp only [estimateMaxModelLenFromGroups, hfits]
    rfl
  · have hconfig : maxMemoryUsageBytesFromGroups config groups = .ok (g config.maxModelLen) :=
      husage config.maxModelLen
    have hfits : modelLenFits config groups availableMemory =
        fun m => .ok (decide ((g m : ℤ) ≤ availableMemory)) := by
      funext m
      rw [modelLenFits, husage]
      rfl
    have hiff : ∀ m, (∃ needed : ℕ, maxMemoryUsageBytesFromGroups
        { config with maxModelLen := m } groups = .ok needed ∧ (needed : ℤ) ≤ availableMemory) ↔
          (g m : ℤ) ≤ availableMemory := by
      intro m
      simp only [husage]
      constructor
      · rintro ⟨needed, hneeded, hle⟩
        cases hneeded
        exact hle
      · exact fun h => ⟨_, rfl, h⟩
    have hdown : ∀ m n, m ≤ n → (g n : ℤ) ≤ availableMemory → (g m : ℤ) ≤ availableMemory := by
      intro m n hmn hn
      have := hg hmn
      omega
    rw [hconfig]
    simp only [hiff, estimateMaxModelLenFromGroups, hfits, ok_bind]
    by_cases hone : (g 1 : ℤ) ≤ availableMemory
    · rw [if_pos (decide_eq_true hone)]
      exact searchMaxModelLen_spec hdown _ _ _ _ (by omega) le_rfl (by omega)
        ⟨le_rfl, hlen, hone⟩ le_rfl fun m hm hle => absurd hle (by omega)
    · rw [if_neg (by simpa using hone)]
      exact ⟨0, rfl, .inl rfl, fun m hm _ _ hfits => hone (hdown 1 m hm hfits)⟩

/-- A group of full attention and one of a window of 24 tokens, in blocks of 16 tokens. -/
def windowGroups : List LayerGroup :=
  let attention : AttentionSpec :=
    { blockSize := 16, numKvHeads := 1, headSize := 4, dtype := ⟨"int8", 1⟩ }
  [⟨["full"], .layer (.fullAttention attention { headSizeV := 4 }), false⟩,
    ⟨["window"], .layer (.slidingWindow attention 24 4), false⟩]

theorem estimateInConfig_largestFit_windowGroups :
    (estimateInConfig { maxModelLen := 64, maxNumBatchedTokens := 8 } windowGroups 800).2 =
      { maxModelLen := 64, maxNumBatchedTokens := 8 } ∧
    ∃ n, (estimateInConfig { maxModelLen := 64, maxNumBatchedTokens := 8 } windowGroups 800).1 =
      .ok n ∧ LargestFit (fun m => ∃ needed : ℕ, maxMemoryUsageBytesFromGroups
        { maxModelLen := m, maxNumBatchedTokens := 8 } windowGroups = .ok needed ∧
          (needed : ℤ) ≤ 800) 64 n := by
  obtain ⟨needed, hneeded, -⟩ := exists_ok (show (maxMemoryUsageBytesFromGroups
    { maxModelLen := 64, maxNumBatchedTokens := 8 } windowGroups).toOption.map (fun _ => ()) =
      some () by decide)
  have hspec : (estimateInConfig { maxModelLen := 64, maxNumBatchedTokens := 8 } windowGroups
      800).2 = _ ∧ _ := estimateInConfig_largestFit (by decide) (by decide)
  rw [hneeded] at hspec
  exact hspec

end Vllm
