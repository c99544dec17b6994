import Vllm.Offload.Connector
import Vllm.Offload.LookupRounds

/-! What the lookup promises to the load that follows it. Windows are rounded up to whole blocks, so
the promise depends on where in a block of the group a hit can end. In the load each group passes
its assertions, and its keys are present. -/
namespace Vllm
open HitRuns OffloadingConnectorScheduler GridLoop Raises Outcome GroupOffloadConfig Nat

/-- The tokens that no later query of a group reads. -/
def skippedTokens (kind : SpecKind) (numComputedTokens : ℕ) : ℕ :=
  match kind with
  | .slidingWindow w => numComputedTokens + 1 - w
  | .mamba _ _ => numComputedTokens - 1
  | _ => 0

namespace OffloadingSpec
variable {spec : OffloadingSpec} {config : SchedulerOffloadConfig}

theorem gpuBlockSize_pos (spec : OffloadingSpec) (group : KVCacheSpec) :
    0 < spec.gpuBlockSize group :=
  mul_pos group.blockSize_pos spec.contextParallelFactor_pos

theorem offloadedBlockSize_pos (spec : OffloadingSpec) (group : KVCacheSpec) :
    0 < spec.offloadedBlockSize group :=
  mul_pos (spec.gpuBlockSize_pos group) spec.blockSizeFactor_pos

/-- A group of the configuration, as it comes from a group of the spec. -/
structure Describes (spec : OffloadingSpec) (i : ℕ) (group : KVCacheSpec)
    (g : GroupOffloadConfig) : Prop where
  idx : g.groupIdx = i
  gpu : g.gpuBlockSize = spec.gpuBlockSize group
  offloaded : g.offloadedBlockSize = spec.offloadedBlockSize group
  window : getSlidingWindowSizeInBlocks group.kind (spec.offloadedBlockSize group) =
    .ok g.slidingWindowSizeInBlocks

theorem describes_of_config (h : spec.schedulerConfig = .ok config) {i : ℕ}
    {g : GroupOffloadConfig} (hg : config.kvGroupConfigs[i]? = some g) :
    ∃ group, spec.groups[i]? = some group ∧ spec.Describes i group g := by
  rcases of_bind h with ⟨windows, hwindows, hpure⟩
  cases hpure
  rw [List.getElem?_mapIdx] at hg
  rcases Option.map_eq_some_iff.mp hg with ⟨⟨group, window⟩, hzip, rfl⟩
  rcases List.getElem?_zip_eq_some.mp hzip with ⟨hgroup, hwindow⟩
  rcases getElem?_of_mapM hwindows hwindow with ⟨group', hgroup', hsize⟩
  rw [hgroup] at hgroup'
  cases hgroup'
  exact ⟨group, hgroup, rfl, rfl, rfl, hsize⟩

theorem describes_of_spec (h : spec.schedulerConfig = .ok config) {i : ℕ} {group : KVCacheSpec}
    (hgroup : spec.groups[i]? = some group) :
    ∃ g, config.kvGroupConfigs[i]? = some g ∧ spec.Describes i group g := by
  have hlength : config.kvGroupConfigs.length = spec.groups.length := by
    rcases of_bind h with ⟨windows, hwindows, hpure⟩
    cases hpure
    rw [mapM_eq_ok] at hwindows
    rw [List.length_mapIdx, List.length_zip, ← hwindows.length_eq, min_self]
  have hi := (List.getElem?_eq_some_iff.mp hgroup).1
  have hg := List.getElem?_eq_getElem (hlength ▸ hi : i < config.kvGroupConfigs.length)
  rcases describes_of_config h hg with ⟨group', hgroup', hdescribes⟩
  rw [hgroup] at hgroup'
  cases hgroup'
  exact ⟨_, hg, hdescribes⟩

theorem Describes.proper {i : ℕ} {group : KVCacheSpec} {g : GroupOffloadConfig}
    (h : spec.Describes i group g) : g.Proper := by
  have hpos := spec.offloadedBlockSize_pos group
  constructor
  · rw [h.offloaded]
    exact hpos
  · intro n hn
    have hwindow := h.window
    rw [hn] at hwindow
    unfold getSlidingWindowSizeInBlocks at hwindow
    cases hkind : group.kind with
    | fullAttention specClass | chunkedLocalAttention size | crossAttention =>
      rw [hkind] at hwindow
      cases hwindow
    | slidingWindow w =>
      rw [hkind] at hwindow
      rcases of_bind hwindow with ⟨_, hw, hpure⟩
      cases hpure
      exact (lt_ceilDiv_iff hpos).mpr (by
        rw [zero_mul]
        exact require_eq_ok.mp hw)
    | mamba mode blocks =>
      rw [hkind] at hwindow
      cases hwindow
      exact one_pos

theorem exists_of_mambaAlignSize {size : ℕ} (h : spec.resolveMambaAlignSize = .ok (some size)) :
    ∃ group ∈ spec.groups, spec.offloadedBlockSize group = size := by
  suffices hfold : ∀ r, spec.resolveMambaAlignSize = .ok r →
      ∀ size, r = some size → ∃ group ∈ spec.groups, spec.offloadedBlockSize group = size from
    hfold _ h size rfl
  intro r hr
  unfold resolveMambaAlignSize at hr
  refine foldlM_invariant (P := fun r => ∀ size, r = some size →
    ∃ group ∈ spec.groups, spec.offloadedBlockSize group = size) ?_
    (fun size hnone => by cases hnone) hr
  intro group hgroup r1 r2 h1 hstep
  split at hstep
  · rcases of_bind hstep with ⟨_, -, hpure⟩
    cases hpure
    intro size hsize
    cases hsize
    exact ⟨group, hgroup, rfl⟩
  · cases hstep
    exact h1

/-- The request has the keys of its whole blocks in each group. -/
def Keyed (spec : OffloadingSpec) (st : RequestOffloadState) (numTokens : ℕ) : Prop :=
  ∀ (i : ℕ) (group : KVCacheSpec), spec.groups[i]? = some group →
    ∃ gs : RequestGroupState, st.groupStates[i]? = some gs ∧
      gs.offloadKeys.length = numTokens / spec.offloadedBlockSize group

/-- The blocks that overlap the tokens that a group reads, from those computed on to the end of the
hit. -/
def WindowsPresent (spec : OffloadingSpec) (st : RequestOffloadState)
    (present : OffloadKey → Bool) (hit : ℕ) : Prop :=
  ∀ (i : ℕ) (group : KVCacheSpec) (gs : RequestGroupState), spec.groups[i]? = some group →
    st.groupStates[i]? = some gs → ∀ b,
      max st.numLocallyComputedTokens (skippedTokens group.kind hit) <
        (b + 1) * spec.offloadedBlockSize group →
      b * spec.offloadedBlockSize group < hit →
      ∃ key, gs.offloadKeys[b]? = some key ∧ present key = true

/-- The blocks of a request once the cache manager has allocated those of a hit: a block without
hash is neither among the computed ones nor wholly skipped. -/
def Allocated (spec : OffloadingSpec) (pool : BlockPool) (c hit : ℕ)
    (blocks : List (List BlockId)) : Prop :=
  ∀ (i : ℕ) (group : KVCacheSpec), spec.groups[i]? = some group →
    ∃ groupBlocks : List BlockId, blocks[i]? = some groupBlocks ∧
      cdiv hit (spec.gpuBlockSize group) ≤ groupBlocks.length ∧
      ∀ (j : ℕ) (b : BlockId), groupBlocks[j]? = some b → b ≠ pool.nullBlock →
        pool.blockHash b = none →
        max c (skippedTokens group.kind hit) < (j + 1) * spec.gpuBlockSize group

/-- The load of a hit passes the assertions on its groups, and its keys are present. -/
def LoadsPresent (spec : OffloadingSpec) (config : SchedulerOffloadConfig)
    (st : RequestOffloadState) (present : OffloadKey → Bool) (h : ℕ) : Prop :=
  ∀ (M S : Type) (ops : OffloadingManager M S) (con : OffloadingConnectorScheduler M S)
    (pool : BlockPool) (reqId : RequestId) (blocks : List (List BlockId))
    (st' : RequestOffloadState), con.config = config → con.reqStatus.get? reqId = some st' →
    st'.groupStates.map RequestGroupState.offloadKeys =
      st.groupStates.map RequestGroupState.offloadKeys →
    st'.numLocallyComputedTokens = st.numLocallyComputedTokens → st'.transferJobs = [] →
    spec.Allocated pool st.numLocallyComputedTokens (st.numLocallyComputedTokens + h) blocks →
    ∃ con' job, con.updateStateAfterAlloc ops pool reqId blocks h = .ok con' ∧
      con'.jobs.get? con.jobCounter = some job ∧ ∀ key ∈ job.keys, present key = true

/-- A hit that the lookup returns, for any request, computed tokens and manager with fixed answers,
is there to be loaded. -/
def LookupSound (spec : OffloadingSpec) (config : SchedulerOffloadConfig) (align : Option ℕ) :
    Prop :=
  ∀ (M : Type) (look : M → OffloadKey → Option Bool × M) (present : OffloadKey → Bool)
    (I : M → Prop) (m m' : M) (st : RequestOffloadState) (numTokens h : ℕ)
    (loading : Option (List OffloadKey)), Steady look present I → I m → spec.Keyed st numTokens →
    (∀ group ∈ spec.groups, spec.gpuBlockSize group ∣ st.numLocallyComputedTokens) →
    lookupTokens look config align loading st numTokens m = .ok (some h, m') → 0 < h →
    spec.WindowsPresent st present (st.numLocallyComputedTokens + h) ∧
      spec.LoadsPresent config st present h

/-- Wherever the blocks of another group end within a block of a window's group, the blocks that
the window is rounded up to cover the window. -/
def WindowsCovered (spec : OffloadingSpec) : Prop :=
  ∀ group ∈ spec.groups, ∀ w, group.kind = .slidingWindow w → ∀ other ∈ spec.groups,
    spec.offloadedBlockSize group + w ≤
      spec.offloadedBlockSize group * cdiv w (spec.offloadedBlockSize group) +
        Nat.gcd (spec.offloadedBlockSize group) (spec.offloadedBlockSize other) + 1

section Cover
variable {A B w hit n numTokens : ℕ}

theorem cover_of_dvd (hA : 0 < A) (hdvd : B ∣ hit)
    (hcovered : A + w ≤ A * n + Nat.gcd A B + 1) (hw : w ≤ A * n) :
    A * cdiv hit A ≤ hit + 1 - w + A * n := by
  have hup : hit ≤ cdiv hit A * A := le_ceilDiv_mul hA
  have hdown : cdiv hit A * A < hit + A := ceilDiv_mul_lt hA
  rw [mul_comm (cdiv hit A)] at hup hdown
  have hgcd : Nat.gcd A B ≤ hit + A - A * cdiv hit A := by
    apply Nat.le_of_dvd (by omega)
    apply Nat.dvd_sub
    · exact Nat.dvd_add ((Nat.gcd_dvd_right A B).trans hdvd) (Nat.gcd_dvd_left A B)
    · exact (Nat.gcd_dvd_left A B).trans (Nat.dvd_mul_right A _)
  by_cases hshort : w ≤ hit + 1
  · omega
  · have hle : cdiv hit A ≤ n := cdiv_le_of_le_mul hA (by
      rw [mul_comm]
      omega)
    exact (mul_le_mul_left A hle).trans (le_add_left _ _)

theorem cover_of_last (hkeys : cdiv hit A ≤ numTokens / A) (hlast : numTokens ≤ hit + 1)
    (hw : w ≤ A * n) : A * cdiv hit A ≤ hit + 1 - w + A * n := by
  have hmul := (mul_le_mul_left A hkeys).trans (mul_div_le numTokens A)
  omega

end Cover

/-- The blocks that a window is rounded up to reach down to the first token that is read. -/
def Covers (spec : OffloadingSpec) (group : KVCacheSpec) (g : GroupOffloadConfig) (hit : ℕ) :
    Prop :=
  ∀ n, g.slidingWindowSizeInBlocks = some n →
    spec.offloadedBlockSize group * cdiv hit (spec.offloadedBlockSize group) ≤
      skippedTokens group.kind hit + spec.offloadedBlockSize group * n

section Sound
variable {align : Option ℕ} {st : RequestOffloadState} {numTokens hit : ℕ}
  {present : OffloadKey → Bool} {i : ℕ} {group : KVCacheSpec} {g : GroupOffloadConfig}
  {gs : RequestGroupState}

theorem fits_of_keyed (hconfig : spec.schedulerConfig = .ok config)
    (hkeyed : spec.Keyed st numTokens) : Fits config st numTokens := by
  constructor
  · intro i g hg
    rcases describes_of_config hconfig hg with ⟨group, -, hdescribes⟩
    exact hdescribes.proper
  · intro i g hg
    rcases describes_of_config hconfig hg with ⟨group, -, hdescribes⟩
    exact hdescribes.idx
  · intro i g hg
    rcases describes_of_config hconfig hg with ⟨group, hgroup, hdescribes⟩
    rcases hkeyed i group hgroup with ⟨gs, hgs, hlength⟩
    refine ⟨gs, hgs, ?_⟩
    rw [hdescribes.offloaded, hlength]

theorem end_of_endsLike (hconfig : spec.schedulerConfig = .ok config)
    (halign : spec.resolveMambaAlignSize = .ok align) (hsliding : config.slidingWindowGroups ≠ [])
    (hends : EndsLike config (initialMaxHit config align numTokens) hit) :
    (∃ other ∈ spec.groups, spec.offloadedBlockSize other ∣ hit) ∨ numTokens ≤ hit + 1 := by
  rcases hends with rfl | ⟨j, g', hg', hdvd⟩
  · unfold initialMaxHit
    rw [if_neg hsliding]
    cases align with
    | none => exact Or.inr (by dsimp only; omega)
    | some size =>
      rcases exists_of_mambaAlignSize halign with ⟨other, hother, hsize⟩
      refine Or.inl ⟨other, hother, ?_⟩
      rw [hsize]
      exact Dvd.intro_left _ rfl
  · rcases describes_of_config hconfig hg' with ⟨other, hother, hdescribes⟩
    refine Or.inl ⟨other, List.mem_of_getElem? hother, ?_⟩
    rw [← hdescribes.offloaded]
    exact hdvd

theorem covers_of_windowsCovered (hcovered : spec.WindowsCovered)
    (hconfig : spec.schedulerConfig = .ok config)
    (halign : spec.resolveMambaAlignSize = .ok align) (hfits : Fits config st numTokens)
    (hgroup : spec.groups[i]? = some group) (hg : config.kvGroupConfigs[i]? = some g)
    (hdescribes : spec.Describes i group g) (hpos : 0 < hit)
    (hlength : cdiv hit (spec.offloadedBlockSize group) ≤
      numTokens / spec.offloadedBlockSize group)
    (hends : EndsLike config (initialMaxHit config align numTokens) hit) :
    spec.Covers group g hit := by
  have hA := spec.offloadedBlockSize_pos group
  intro n hn
  have hsliding : config.slidingWindowGroups ≠ [] := by
    have hmem : i ∈ config.slidingWindowGroups := by
      refine hfits.mem_slidingWindowGroups.mpr ⟨g, hg, ?_⟩
      rw [hn]
      rfl
    exact List.ne_nil_of_mem hmem
  have hwindow := hdescribes.window
  rw [hn] at hwindow
  unfold getSlidingWindowSizeInBlocks at hwindow
  unfold skippedTokens
  cases hkind : group.kind with
  | fullAttention specClass | chunkedLocalAttention size | crossAttention =>
    rw [hkind] at hwindow
    cases hwindow
  | slidingWindow w =>
    rw [hkind] at hwindow
    rcases of_bind hwindow with ⟨_, -, hpure⟩
    cases hpure
    have hw : w ≤ spec.offloadedBlockSize group * cdiv w (spec.offloadedBlockSize group) := by
      rw [mul_comm]
      exact le_ceilDiv_mul hA
    rcases end_of_endsLike hconfig halign hsliding hends with ⟨other, hother, hdvd⟩ | hlast
    · have hmem := List.mem_of_getElem? hgroup
      exact cover_of_dvd hA hdvd (hcovered group hmem w hkind other hother) hw
    · exact cover_of_last hlength hlast hw
  | mamba mode blocks =>
    rw [hkind] at hwindow
    cases hwindow
    have hdown : cdiv hit (spec.offloadedBlockSize group) * spec.offloadedBlockSize group <
        hit + spec.offloadedBlockSize group := ceilDiv_mul_lt hA
    rw [mul_comm] at hdown
    dsimp only
    omega

theorem present_of_accepts (hdescribes : spec.Describes i group g)
    (haccepts : g.Accepts gs.offloadKeys st.numLocallyComputedTokens present hit)
    (hcovers : spec.Covers group g hit) {b : ℕ}
    (hb : max st.numLocallyComputedTokens (skippedTokens group.kind hit) <
      (b + 1) * spec.offloadedBlockSize group)
    (hlt : b * spec.offloadedBlockSize group < hit) :
    ∃ key, gs.offloadKeys[b]? = some key ∧ present key = true := by
  have hA := spec.offloadedBlockSize_pos group
  unfold Accepts at haccepts
  rw [hdescribes.offloaded] at haccepts
  apply haccepts b
  · unfold firstNeeded
    rw [hdescribes.offloaded]
    rw [max_lt_iff] at hb
    apply max_le
    · exact Nat.lt_succ_iff.mp ((Nat.div_lt_iff_lt_mul hA).mpr hb.1)
    · unfold firstHit
      cases hsize : g.slidingWindowSizeInBlocks with
      | none => exact zero_le _
      | some n =>
        have hcover := hcovers n hsize
        have hsum : spec.offloadedBlockSize group * cdiv hit (spec.offloadedBlockSize group) <
            spec.offloadedBlockSize group * (b + 1 + n) := by
          rw [mul_add, mul_comm _ (b + 1)]
          omega
        have hlt' := lt_of_mul_lt_mul_left hsum
        dsimp only
        omega
  · exact (lt_ceilDiv_iff hA).mpr hlt

end Sound

variable {st st' : RequestOffloadState} {present : OffloadKey → Bool} {i : ℕ}
  {group : KVCacheSpec} {g : GroupOffloadConfig} {gs : RequestGroupState} {pool : BlockPool}
  {total : ℕ} {groupBlocks : List BlockId}

theorem firstFresh_spec {c skipped gpu n : ℕ} (hgpu : 0 < gpu) (hc : gpu ∣ c) (htotal : c ≤ total)
    (hn : n = cdiv total gpu) (hlength : n ≤ groupBlocks.length)
    (hfresh : ∀ (j : ℕ) (b : BlockId), groupBlocks[j]? = some b → b ≠ pool.nullBlock →
      pool.blockHash b = none → max c skipped < (j + 1) * gpu) {numLocal : ℕ}
    (hlocal : numLocal = (groupBlocks.take n).findIdx fun block =>
      block ≠ pool.nullBlock ∧ pool.blockHash block = none) :
    c ≤ numLocal * gpu ∧ (numLocal < n → max c skipped < (numLocal + 1) * gpu) := by
  have hfound : numLocal < n → max c skipped < (numLocal + 1) * gpu := by
    intro hlt
    have hlt' : numLocal < (groupBlocks.take n).length := by
      rw [List.length_take]
      omega
    have hp := List.findIdx_getElem (w := hlocal ▸ hlt')
    simp only [← hlocal, decide_eq_true_eq, List.getElem_take] at hp
    have hget := List.getElem?_eq_getElem (hlt.trans_le hlength)
    exact hfresh numLocal _ hget hp.1 hp.2
  refine ⟨?_, hfound⟩
  by_cases hlt : numLocal < n
  · have hmax := hfound hlt
    rcases hc with ⟨k, rfl⟩
    rw [max_lt_iff, mul_comm gpu k] at hmax
    rw [mul_comm gpu k]
    exact Nat.mul_le_mul_right gpu (Nat.lt_succ_iff.mp (Nat.lt_of_mul_lt_mul_right hmax.1))
  · have hmul : total ≤ cdiv total gpu * gpu := GridLoop.le_ceilDiv_mul hgpu
    rw [← hn] at hmul
    exact htotal.trans (hmul.trans (Nat.mul_le_mul_right gpu (not_lt.mp hlt)))

theorem require_ok {p : Prop} [Decidable p] (h : p) : Offloading.require p = .ok () := if_pos h

theorem groupLoad_of_accepts (hconfig : spec.schedulerConfig = .ok config)
    (hdescribes : spec.Describes i group g)
    (hcomputed : st'.numLocallyComputedTokens = st.numLocallyComputedTokens)
    (hdvd : spec.gpuBlockSize group ∣ st.numLocallyComputedTokens)
    (htotal : st.numLocallyComputedTokens < total)
    (haccepts : g.Accepts gs.offloadKeys st.numLocallyComputedTokens present total)
    (hcovers : spec.Covers group g total)
    (hlength : cdiv total (spec.gpuBlockSize group) ≤ groupBlocks.length)
    (hfresh : ∀ (j : ℕ) (b : BlockId), groupBlocks[j]? = some b → b ≠ pool.nullBlock →
      pool.blockHash b = none → max st.numLocallyComputedTokens (skippedTokens group.kind total) <
        (j + 1) * spec.gpuBlockSize group) :
    ∃ load, groupLoad pool config st' total g gs groupBlocks = .ok load ∧
      ∀ key ∈ load.keys, present key = true := by
  have hgpu := spec.gpuBlockSize_pos group
  have hA := spec.offloadedBlockSize_pos group
  have hfactor : config.blockSizeFactor = spec.blockSizeFactor := by
    rcases Raises.of_bind hconfig with ⟨windows, -, hpure⟩
    cases hpure
    rfl
  have hsize : spec.offloadedBlockSize group = spec.gpuBlockSize group * spec.blockSizeFactor := rfl
  generalize hlocal : ((groupBlocks.take (cdiv total (spec.gpuBlockSize group))).findIdx
    fun block => block ≠ pool.nullBlock ∧ pool.blockHash block = none) = numLocal
  rcases firstFresh_spec hgpu hdvd htotal.le rfl hlength hfresh hlocal.symm with
    ⟨hcomputedLocal, hfirst⟩
  have hend : cdiv total g.offloadedBlockSize ≤ gs.offloadKeys.length :=
    haccepts.end_le hdescribes.proper htotal
  have hpending : ∀ n ∈ g.slidingWindowSizeInBlocks,
      cdiv total (spec.gpuBlockSize group) - numLocal ≤ n * spec.blockSizeFactor := by
    intro n hn
    by_cases hlt : numLocal < cdiv total (spec.gpuBlockSize group)
    · have hcover := hcovers n hn
      have hmax := (max_lt_iff.mp (hfirst hlt)).2
      have hgpuEnd : cdiv total (spec.gpuBlockSize group) ≤
          spec.blockSizeFactor * cdiv total (spec.offloadedBlockSize group) := by
        apply GroupOffloadConfig.cdiv_le_of_le_mul hgpu
        have hup : total ≤ cdiv total (spec.offloadedBlockSize group) *
          spec.offloadedBlockSize group := GridLoop.le_ceilDiv_mul hA
        calc total ≤ cdiv total (spec.offloadedBlockSize group) *
              spec.offloadedBlockSize group := hup
          _ = spec.blockSizeFactor * cdiv total (spec.offloadedBlockSize group) *
              spec.gpuBlockSize group := by
            rw [hsize]
            ring
      have hlow : spec.gpuBlockSize group *
          (spec.blockSizeFactor * cdiv total (spec.offloadedBlockSize group)) <
          spec.gpuBlockSize group * (numLocal + 1 + n * spec.blockSizeFactor) := by
        calc spec.gpuBlockSize group *
              (spec.blockSizeFactor * cdiv total (spec.offloadedBlockSize group))
            = spec.offloadedBlockSize group * cdiv total (spec.offloadedBlockSize group) := by
              rw [hsize]
              ring
          _ ≤ skippedTokens group.kind total + spec.offloadedBlockSize group * n := hcover
          _ < (numLocal + 1) * spec.gpuBlockSize group + spec.offloadedBlockSize group * n :=
              Nat.add_lt_add_right hmax _
          _ = spec.gpuBlockSize group * (numLocal + 1 + n * spec.blockSizeFactor) := by
              rw [hsize]
              ring
      have hlow' := lt_of_mul_lt_mul_left hlow
      omega
    · omega
  rw [← hdescribes.gpu] at hlength hlocal hcomputedLocal hpending hfirst
  rw [← hcomputed] at hcomputedLocal
  rw [← hfactor] at hpending
  unfold groupLoad
  dsimp only
  rw [require_ok hlength, hlocal, require_ok hcomputedLocal, require_ok hpending, require_ok hend]
  refine ⟨_, rfl, ?_⟩
  dsimp only
  split_ifs with hzero
  · exact fun key hkey => absurd hkey List.not_mem_nil
  · intro key hkey
    rcases List.getElem?_of_mem hkey with ⟨j, hj⟩
    unfold slice at hj
    rw [List.getElem?_take] at hj
    split_ifs at hj with hjlt
    rw [List.getElem?_drop] at hj
    have hmax := hfirst (by omega)
    have hread : max st.numLocallyComputedTokens (skippedTokens group.kind total) <
        (numLocal / config.blockSizeFactor + j + 1) * spec.offloadedBlockSize group := by
      apply hmax.trans_le
      rw [hdescribes.gpu, hsize, ← hfactor, mul_comm (spec.gpuBlockSize group), ← mul_assoc]
      apply Nat.mul_le_mul_right
      have hpos : 0 < config.blockSizeFactor := by
        rw [hfactor]
        exact spec.blockSizeFactor_pos
      have hdiv : numLocal / config.blockSizeFactor < numLocal / config.blockSizeFactor + j + 1 :=
        by omega
      exact (Nat.div_lt_iff_lt_mul hpos).mp hdiv
    have hbefore : (numLocal / config.blockSizeFactor + j) * spec.offloadedBlockSize group <
        total := by
      apply (GridLoop.lt_ceilDiv_iff hA).mp
      rw [← hdescribes.offloaded]
      change _ < cdiv total g.offloadedBlockSize
      omega
    rcases present_of_accepts hdescribes haccepts hcovers hread hbefore with ⟨key', hkey', hpresent⟩
    rw [hj] at hkey'
    cases hkey'
    exact hpresent

theorem exists_mapM {α β : Type} {f : α → Offloading β} {l : List α} {P : β → Prop}
    (h : ∀ a ∈ l, ∃ b, f a = .ok b ∧ P b) : ∃ bs, l.mapM f = .ok bs ∧ ∀ b ∈ bs, P b := by
  induction l with
  | nil => exact ⟨[], rfl, fun b hb => absurd hb List.not_mem_nil⟩
  | cons a l ih =>
    rcases h a List.mem_cons_self with ⟨b, hb, hPb⟩
    rcases ih fun x hx => h x (List.mem_cons_of_mem a hx) with ⟨bs, hbs, hPbs⟩
    refine ⟨b :: bs, ?_, List.forall_mem_cons.mpr ⟨hPb, hPbs⟩⟩
    rw [List.mapM_cons, hb, hbs]
    rfl

theorem loadsPresent_of_accepted {h : ℕ} (hconfig : spec.schedulerConfig = .ok config)
    (hpos : 0 < h)
    (hdvd : ∀ group ∈ spec.groups, spec.gpuBlockSize group ∣ st.numLocallyComputedTokens)
    (haccepted : ∀ i, AcceptedBy config st present (st.numLocallyComputedTokens + h) i)
    (hcovers : ∀ {i : ℕ} {group : KVCacheSpec} {g : GroupOffloadConfig},
      spec.groups[i]? = some group → config.kvGroupConfigs[i]? = some g →
      spec.Describes i group g → spec.Covers group g (st.numLocallyComputedTokens + h)) :
    spec.LoadsPresent config st present h := by
  intro M S ops con pool reqId blocks st' hcon hst' hkeys hcomputed hjobs hallocated
  have hgroups : ∃ loads,
      ((con.config.kvGroupConfigs.zip st'.groupStates).zip blocks).mapM (fun e =>
        groupLoad pool con.config st' (st'.numLocallyComputedTokens + h) e.1.1 e.1.2 e.2) =
          .ok loads ∧ ∀ load ∈ loads, ∀ key ∈ load.keys, present key = true := by
    apply exists_mapM
    rintro ⟨⟨g, gs'⟩, groupBlocks⟩ hmem
    rcases List.getElem?_of_mem hmem with ⟨i, hi⟩
    rcases List.getElem?_zip_eq_some.mp hi with ⟨hzip, hblocks⟩
    rcases List.getElem?_zip_eq_some.mp hzip with ⟨hg, hgs'⟩
    rw [hcon] at hg ⊢
    rcases describes_of_config hconfig hg with ⟨group, hgroup, hdescribes⟩
    have hsame := congrArg (fun l : List (List OffloadKey) => l[i]?) hkeys
    simp only [List.getElem?_map, hgs', Option.map_some] at hsame
    rcases Option.map_eq_some_iff.mp hsame.symm with ⟨gs, hgs, heq⟩
    have haccepts := haccepted i g gs hg hgs
    rw [heq] at haccepts
    rcases hallocated i group hgroup with ⟨bl, hbl, hlength, hfresh⟩
    rw [hblocks] at hbl
    cases hbl
    rw [hcomputed]
    exact groupLoad_of_accepts hconfig hdescribes hcomputed
      (hdvd group (List.mem_of_getElem? hgroup)) (by omega) haccepts
      (hcovers hgroup hg hdescribes) hlength hfresh
  rcases hgroups with ⟨loads, hloads, hpresent⟩
  unfold updateStateAfterAlloc
  rw [if_neg hpos.ne', hst']
  simp only [Offloading.find, pure_bind]
  rw [hloads]
  have hcheck : Offloading.check .jobsPending (st'.transferJobs = []) = .ok () := if_pos hjobs
  show ∃ con' job, (Offloading.check .jobsPending (st'.transferJobs = []) >>= fun _ => _) =
    .ok con' ∧ _
  rw [hcheck]
  refine ⟨_, _, rfl, (con.jobs.get?_set _ _ _).trans (if_pos rfl), ?_⟩
  intro key hkey
  rcases List.mem_flatMap.mp hkey with ⟨load, hload, hmem⟩
  exact hpresent load hload key hmem

theorem lookupSound_of_windowsCovered {align : Option ℕ} (hcovered : spec.WindowsCovered)
    (hconfig : spec.schedulerConfig = .ok config)
    (halign : spec.resolveMambaAlignSize = .ok align) : spec.LookupSound config align := by
  intro M look present I m m' st numTokens h loading hsteady hm hkeyed hdvd hrun hpos
  have hfits := fits_of_keyed hconfig hkeyed
  rcases lookupTokens_steady hsteady hfits hm align loading with ⟨r, m1, hrun', hsound, -⟩
  rw [hrun] at hrun'
  cases hrun'
  rcases hsound h rfl hpos with ⟨haccepted, hends⟩
  have hcovers : ∀ {i : ℕ} {group : KVCacheSpec} {g : GroupOffloadConfig},
      spec.groups[i]? = some group → config.kvGroupConfigs[i]? = some g →
      spec.Describes i group g → spec.Covers group g (st.numLocallyComputedTokens + h) := by
    intro i group g hgroup hg hdescribes
    rcases hkeyed i group hgroup with ⟨gs, hgs, hlength⟩
    apply covers_of_windowsCovered hcovered hconfig halign hfits hgroup hg hdescribes (by omega)
      _ hends
    rw [← hlength, ← hdescribes.offloaded]
    exact GroupOffloadConfig.Accepts.end_le hdescribes.proper (haccepted i g gs hg hgs) (by omega)
  refine ⟨?_, loadsPresent_of_accepted hconfig hpos hdvd haccepted hcovers⟩
  intro i group gs hgroup hgs b hb hlt
  rcases describes_of_spec hconfig hgroup with ⟨g, hg, hdescribes⟩
  exact present_of_accepts hdescribes (haccepted i g gs hg hgs) (hcovers hgroup hg hdescribes)
    hb hlt

end OffloadingSpec

end Vllm
