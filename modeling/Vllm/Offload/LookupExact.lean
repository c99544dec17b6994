import Vllm.Offload.LookupSound

/-! The promise of the lookup holds in no other configuration: with a window that whole blocks do
not cover, some request is told to load blocks that are not there. -/
namespace Vllm
open Nat
namespace OffloadingSpec
open HitRuns
variable {spec : OffloadingSpec} {config : SchedulerOffloadConfig} {align : Option ℕ}

/-- The key of a block in a group. -/
def probeKey (i b : ℕ) : OffloadKey := ⟨List.replicate b 0, i⟩

/-- A request with nothing computed. -/
def probeState (spec : OffloadingSpec) (numTokens : ℕ) : RequestOffloadState where
  policy := .blockLevel
  groupStates := spec.groups.mapIdx fun i group =>
    { offloadKeys := (List.range (numTokens / spec.offloadedBlockSize group)).map (probeKey i) }

/-- Group `j` has its first `k` blocks, and in group `i` one block is missing. -/
def probePresent (i gap j k : ℕ) (key : OffloadKey) : Bool :=
  if key.groupIdx = j then decide (key.blockHash.length < k)
  else !(decide (key.groupIdx = i) && decide (key.blockHash.length = gap))

section Probe
variable {i j gap k numTokens hit : ℕ} {group other : KVCacheSpec}

theorem probe_keyed : spec.Keyed (spec.probeState numTokens) numTokens := by
  intro i group hgroup
  refine ⟨{ offloadKeys :=
    (List.range (numTokens / spec.offloadedBlockSize group)).map (probeKey i) }, ?_, ?_⟩
  · show (spec.groups.mapIdx _)[i]? = _
    rw [List.getElem?_mapIdx, hgroup]
    rfl
  · rw [List.length_map, List.length_range]

variable {b : ℕ} {g : GroupOffloadConfig}

theorem probe_keys {gs : RequestGroupState} (hgroup : spec.groups[i]? = some group)
    (hgs : (spec.probeState numTokens).groupStates[i]? = some gs)
    (hb : b < numTokens / spec.offloadedBlockSize group) :
    gs.offloadKeys[b]? = some (probeKey i b) := by
  have heq : (spec.groups.mapIdx fun i group => ({ offloadKeys :=
      (List.range (numTokens / spec.offloadedBlockSize group)).map (probeKey i) } :
        RequestGroupState))[i]? = some gs := hgs
  rw [List.getElem?_mapIdx, hgroup] at heq
  cases heq
  show ((List.range _).map (probeKey i))[b]? = _
  rw [List.getElem?_map, List.getElem?_range hb]
  rfl

theorem probePresent_ne (hj : i ≠ j) :
    probePresent i gap j k (probeKey i b) = !decide (b = gap) := by
  unfold probePresent probeKey
  rw [if_neg hj, List.length_replicate]
  simp

theorem probePresent_self : probePresent i gap j k (probeKey j b) = decide (b < k) := by
  unfold probePresent probeKey
  rw [if_pos rfl, List.length_replicate]

theorem probePresent_other {l : ℕ} (hi : l ≠ i) (hj : l ≠ j) :
    probePresent i gap j k (probeKey l b) = true := by
  unfold probePresent probeKey
  rw [if_neg hj]
  simp [hi]

theorem cdiv_of_mod {A r : ℕ} (hA : 0 < A) (hmod : hit % A = r) (hr : 0 < r) :
    A * cdiv hit A + r = hit + A := by
  have hdiv := div_add_mod hit A
  have hlt := mod_lt hit hA
  have hend : cdiv hit A = hit / A + 1 := by
    apply le_antisymm
    · apply GroupOffloadConfig.cdiv_le_of_le_mul hA
      rw [mul_comm, mul_add, mul_one]
      omega
    · apply (GridLoop.lt_ceilDiv_iff hA).mpr
      rw [mul_comm]
      omega
  rw [hend, mul_add, mul_one]
  omega

theorem offloadedBlockSize_le_sum (h : group ∈ spec.groups) :
    spec.offloadedBlockSize group ≤ (spec.groups.map spec.offloadedBlockSize).sum :=
  List.le_sum_of_mem (List.mem_map_of_mem h)

theorem probe_accepted {n : ℕ} (hconfig : spec.schedulerConfig = .ok config)
    (hother : spec.groups[j]? = some other) (hg : config.kvGroupConfigs[i]? = some g)
    (hn : g.slidingWindowSizeInBlocks = some n) (hij : i ≠ j)
    (hhit : hit = spec.offloadedBlockSize other * k)
    (hlarge : (spec.groups.map spec.offloadedBlockSize).sum ≤ hit)
    (hgap : gap + n < cdiv hit g.offloadedBlockSize) (hpos : 0 < hit)
    (htokens : numTokens = hit + 1 + (spec.groups.map spec.offloadedBlockSize).sum) :
    AcceptedHit config (spec.probeState numTokens) (probePresent i gap j k) hit := by
  constructor
  · intro l g' gs hg' hgs b hb hlt
    rcases describes_of_config hconfig hg' with ⟨group', hgroup', hdescribes⟩
    have hA := spec.offloadedBlockSize_pos group'
    have hsum := offloadedBlockSize_le_sum (List.mem_of_getElem? hgroup')
    rw [hdescribes.offloaded] at hlt
    have hbhit : b * spec.offloadedBlockSize group' < hit := (GridLoop.lt_ceilDiv_iff hA).mp hlt
    have hbkeys : b < numTokens / spec.offloadedBlockSize group' := by
      have hlt' : b < (b * spec.offloadedBlockSize group' + spec.offloadedBlockSize group') /
          spec.offloadedBlockSize group' := by
        rw [Nat.add_div_right _ hA, Nat.mul_div_cancel _ hA]
        exact lt_succ_self b
      exact hlt'.trans_le (Nat.div_le_div_right (by omega))
    refine ⟨probeKey l b, probe_keys hgroup' hgs hbkeys, ?_⟩
    by_cases hlj : l = j
    · subst hlj
      rw [hother] at hgroup'
      cases hgroup'
      rw [probePresent_self]
      rw [hhit, mul_comm b] at hbhit
      exact decide_eq_true (Nat.lt_of_mul_lt_mul_left hbhit)
    · by_cases hli : l = i
      · subst hli
        rw [hg] at hg'
        cases hg'
        rw [probePresent_ne hij]
        have hfirst : cdiv hit g.offloadedBlockSize - n ≤ b := by
          have hmax := le_trans (le_max_right _ _) hb
          rw [hn] at hmax
          exact hmax
        have hne : b ≠ gap := by omega
        rw [decide_eq_false hne]
        rfl
      · exact probePresent_other hli hlj
  · intro l g' hg'
    rcases describes_of_config hconfig hg' with ⟨group', hgroup', hdescribes⟩
    have hsum := offloadedBlockSize_le_sum (List.mem_of_getElem? hgroup')
    rw [hdescribes.offloaded]
    show _ ≤ hit - 0
    omega

theorem probe_le_initial (halign : spec.resolveMambaAlignSize = .ok align)
    (htokens : numTokens = hit + 1 + (spec.groups.map spec.offloadedBlockSize).sum) :
    hit ≤ initialMaxHit config align numTokens := by
  unfold initialMaxHit
  split_ifs
  · omega
  · cases align with
    | none =>
      dsimp only
      omega
    | some size =>
      rcases exists_of_mambaAlignSize halign with ⟨group, hgroup, hsize⟩
      have hsum := offloadedBlockSize_le_sum hgroup
      have hA := spec.offloadedBlockSize_pos group
      have hdiv := div_add_mod (numTokens - 1) size
      have hmod := mod_lt (numTokens - 1) (hsize ▸ hA)
      rw [mul_comm] at hdiv
      dsimp only
      omega

/-- Group `j` accepts no hit beyond its blocks. -/
theorem probe_hit_le {h : ℕ} (hhit : spec.offloadedBlockSize other * k = hit)
    (hkeyed : spec.Keyed (spec.probeState numTokens) numTokens)
    (hother : spec.groups[j]? = some other) (hg : config.kvGroupConfigs[j]? = some g)
    (hdescribes : spec.Describes j other g)
    (haccepts : AcceptedBy config (spec.probeState numTokens) (probePresent i gap j k) h j) :
    h ≤ hit := by
  have hB := spec.offloadedBlockSize_pos other
  rcases hkeyed j other hother with ⟨gs, hgs, hlength⟩
  have hhits : Hits (probePresent i gap j k) gs.offloadKeys (g.firstNeeded 0 h)
      (cdiv h g.offloadedBlockSize) := haccepts g gs hg hgs
  rw [hdescribes.offloaded] at hhits
  have hend : cdiv h (spec.offloadedBlockSize other) ≤ k := by
    by_contra hlt
    have hfirst : g.firstNeeded 0 h ≤ cdiv h (spec.offloadedBlockSize other) - 1 := by
      unfold GroupOffloadConfig.firstNeeded firstHit
      rw [hdescribes.offloaded, Nat.zero_div]
      cases hsize : g.slidingWindowSizeInBlocks with
      | none => exact zero_le _
      | some n =>
        have hn := hdescribes.proper.window n hsize
        dsimp only
        omega
    rcases hhits _ hfirst (by omega) with ⟨key, hkey, hpresent⟩
    have hbound := (List.getElem?_eq_some_iff.mp hkey).1
    rw [hlength] at hbound
    rw [probe_keys hother hgs hbound] at hkey
    cases hkey
    rw [probePresent_self] at hpresent
    have hltk := of_decide_eq_true hpresent
    omega
  have hup : h ≤ cdiv h (spec.offloadedBlockSize other) * spec.offloadedBlockSize other :=
    GridLoop.le_ceilDiv_mul hB
  rw [← hhit, mul_comm]
  exact hup.trans (mul_le_mul_right _ hend)

end Probe

/-- Far enough out, a multiple of `B` that lies only `gcd B A` beyond a multiple of `A`. -/
theorem exists_probe {A B : ℕ} (n w S : ℕ) (hA : 0 < A) (hB : 0 < B) (hgcd : Nat.gcd B A < A) :
    ∃ k, S + A * n + w + 1 ≤ B * k ∧ B * k % A = Nat.gcd B A ∧ n < cdiv (B * k) A := by
  rcases exists_mul_mod_eq_gcd hgcd with ⟨k0, -, hk0⟩
  have hlarge : S + A * n + w + 1 ≤ B * (k0 + A * (S + A * n + w + 1)) := calc
    S + A * n + w + 1 ≤ A * (S + A * n + w + 1) := Nat.le_mul_of_pos_left _ hA
    _ ≤ k0 + A * (S + A * n + w + 1) := le_add_left _ _
    _ ≤ B * (k0 + A * (S + A * n + w + 1)) := Nat.le_mul_of_pos_left _ hB
  refine ⟨k0 + A * (S + A * n + w + 1), hlarge, ?_, ?_⟩
  · rw [mul_add, ← mul_assoc, mul_comm B A, mul_assoc A B, add_mul_mod_self_left]
    exact hk0
  · apply (GridLoop.lt_ceilDiv_iff hA).mpr
    rw [mul_comm]
    omega

theorem windowsCovered_of_lookupSound (hconfig : spec.schedulerConfig = .ok config)
    (halign : spec.resolveMambaAlignSize = .ok align) (hsound : spec.LookupSound config align) :
    spec.WindowsCovered := by
  intro group hmem w hkind other hmemOther
  by_contra hnot
  rcases List.getElem?_of_mem hmem with ⟨i, hgroup⟩
  rcases List.getElem?_of_mem hmemOther with ⟨j, hother⟩
  rcases describes_of_spec hconfig hgroup with ⟨g, hg, hdescribes⟩
  rcases describes_of_spec hconfig hother with ⟨gOther, hgOther, hdescribesOther⟩
  have hn : g.slidingWindowSizeInBlocks = some (cdiv w (spec.offloadedBlockSize group)) := by
    have hwindow := hdescribes.window
    rw [hkind] at hwindow
    rcases Raises.of_bind hwindow with ⟨_, -, hpure⟩
    exact (Raises.pure_eq_ok.mp hpure).symm
  have hA := spec.offloadedBlockSize_pos group
  have hB := spec.offloadedBlockSize_pos other
  have hw : w ≤ spec.offloadedBlockSize group * cdiv w (spec.offloadedBlockSize group) := by
    rw [mul_comm]
    exact GridLoop.le_ceilDiv_mul hA
  have hsize := hdescribes.offloaded
  generalize hAdef : spec.offloadedBlockSize group = A at *
  generalize hBdef : spec.offloadedBlockSize other = B at *
  generalize hndef : cdiv w A = n at *
  have hgcd : Nat.gcd B A < A := by
    have hle := gcd_le_right B hA
    rw [Nat.gcd_comm A B] at hnot
    omega
  have hgcdPos : 0 < Nat.gcd B A := gcd_pos_of_pos_left A hB
  have hij : i ≠ j := by
    rintro rfl
    rw [hgroup] at hother
    cases hother
    rw [hAdef] at hBdef
    rw [hBdef, gcd_self] at hgcd
    exact absurd hgcd (lt_irrefl _)
  generalize hS : (spec.groups.map spec.offloadedBlockSize).sum = S
  rcases exists_probe n w S hA hB hgcd with ⟨k, hlarge, hmod, hlt⟩
  generalize hhit : B * k = hit at hlarge hmod hlt
  have hend := cdiv_of_mod hA hmod hgcdPos
  generalize hgap : cdiv hit A - n - 1 = gap
  have hgapEnd : gap + n < cdiv hit A := by omega
  have hkeyed : spec.Keyed (spec.probeState (hit + 1 + S)) (hit + 1 + S) := probe_keyed
  have hfits := fits_of_keyed hconfig hkeyed
  have haccepted : AcceptedHit config (spec.probeState (hit + 1 + S)) (probePresent i gap j k) hit :=
    probe_accepted hconfig hother hg hn hij (by rw [hBdef, hhit]) (by omega) (by rwa [hsize])
      (by omega) (by rw [hS])
  have hsteady : Steady (fun (m : Unit) key => (some (probePresent i gap j k key), m))
      (probePresent i gap j k) (fun _ => True) := ⟨fun _ _ _ => rfl, fun _ _ _ => trivial⟩
  have hgroups : config.kvGroupConfigs ≠ [] := List.ne_nil_of_mem (List.mem_of_getElem? hg)
  rcases lookupTokens_steady hsteady hfits (m := ()) trivial align none with
    ⟨r, m', hrun, hfound, hlongest⟩
  rcases hlongest rfl hgroups hit haccepted (probe_le_initial halign (by rw [hS])) with
    ⟨h, rfl, hreach⟩
  change hit ≤ 0 + h at hreach
  rw [zero_add] at hreach
  have hpos : 0 < h := by omega
  have hdvd : ∀ group ∈ spec.groups,
      spec.gpuBlockSize group ∣ (spec.probeState (hit + 1 + S)).numLocallyComputedTokens :=
    fun _ _ => dvd_zero _
  have hwindows := (hsound Unit _ _ _ () m' _ _ h none hsteady trivial hkeyed hdvd hrun hpos).1
  change spec.WindowsPresent _ _ (0 + h) at hwindows
  rw [zero_add] at hwindows
  have hle : h ≤ hit := by
    have haccepts := (hfound h rfl hpos).1 j
    change AcceptedBy _ _ _ (0 + h) j at haccepts
    rw [zero_add] at haccepts
    exact probe_hit_le (hBdef.symm ▸ hhit) hkeyed hother hgOther hdescribesOther haccepts
  rw [le_antisymm hle hreach] at hwindows
  rcases hkeyed i group hgroup with ⟨gs, hgs, hlength⟩
  rw [hAdef] at hlength
  have hgapMul : A * (gap + 1) + A * n = A * cdiv hit A := by
    rw [← mul_add]
    congr 1
    omega
  have hread : max (spec.probeState (hit + 1 + S)).numLocallyComputedTokens
      (skippedTokens group.kind hit) < (gap + 1) * spec.offloadedBlockSize group := by
    rw [hkind, hAdef, mul_comm]
    rw [Nat.gcd_comm] at hnot
    show max 0 (hit + 1 - w) < _
    omega
  have hbefore : gap * spec.offloadedBlockSize group < hit := by
    rw [hAdef]
    apply (GridLoop.lt_ceilDiv_iff hA).mp
    change gap < cdiv hit A
    omega
  rcases hwindows i group gs hgroup hgs gap hread hbefore with ⟨key, hkey, hpresent⟩
  have hlt : gap < (hit + 1 + S) / spec.offloadedBlockSize group := by
    rw [hAdef, ← hlength]
    exact (List.getElem?_eq_some_iff.mp hkey).1
  rw [probe_keys hgroup hgs hlt] at hkey
  cases hkey
  rw [probePresent_ne hij, decide_eq_true rfl] at hpresent
  cases hpresent

/-- The lookup keeps its promise in the configurations whose windows are covered, and in no
others. -/
theorem lookupSound_iff (hconfig : spec.schedulerConfig = .ok config)
    (halign : spec.resolveMambaAlignSize = .ok align) :
    spec.LookupSound config align ↔ spec.WindowsCovered :=
  ⟨windowsCovered_of_lookupSound hconfig halign,
    fun hcovered => lookupSound_of_windowsCovered hcovered hconfig halign⟩

/-- Full attention in blocks of `full` tokens beside a window of four tokens, which is one block. -/
def besideWindow (full : ℕ) (hfull : 0 < full) : OffloadingSpec where
  groups :=
    [{ kind := .fullAttention .fullAttention, blockSize := full, blockSize_pos := hfull },
      { kind := .slidingWindow 4, blockSize := 4, blockSize_pos := Nat.succ_pos 3 }]
  hashBlockSize := 2
  contextParallelFactor_pos := Nat.one_pos
  blockSizeFactor_pos := Nat.one_pos

def besideWindowConfig (full : ℕ) : SchedulerOffloadConfig where
  kvGroupConfigs :=
    [{ groupIdx := 0
       gpuBlockSize := full
       offloadedBlockSize := full
       hashBlockSizeFactor := full / 2
       slidingWindowSizeInBlocks := none },
      { groupIdx := 1
        gpuBlockSize := 4
        offloadedBlockSize := 4
        hashBlockSizeFactor := 2
        slidingWindowSizeInBlocks := some 1 }]
  blockSizeFactor := 1
  numWorkers := 1
  offloadPromptOnly := true

theorem lookupSound_iff_sameSize :
    (besideWindow 4 (succ_pos 3)).LookupSound (besideWindowConfig 4) none := by
  apply (lookupSound_iff rfl rfl).mpr
  intro group hgroup w hkind other hother
  have hsize : ∀ g ∈ (besideWindow 4 (succ_pos 3)).groups,
      (besideWindow 4 (succ_pos 3)).offloadedBlockSize g = 4 := by
    decide
  have hwindow : ∀ g ∈ (besideWindow 4 (succ_pos 3)).groups, ∀ w, g.kind = .slidingWindow w →
      w = 4 := by
    simp [besideWindow]
  rw [hsize group hgroup, hsize other hother, hwindow group hgroup w hkind]
  decide

/-- Three blocks of full attention end in the middle of the window's second block, and the first
one, which the window still reads, is missing. -/
theorem lookup_missesBlock :
    ¬(besideWindow 2 (succ_pos 1)).LookupSound (besideWindowConfig 2) none := by
  intro hsound
  have hwindows := (hsound Unit (fun m key => (some (probePresent 1 0 0 3 key), m))
    (probePresent 1 0 0 3) (fun _ => True) () () ((besideWindow 2 (succ_pos 1)).probeState 12)
    12 6 none ⟨fun _ _ _ => rfl, fun _ _ _ => trivial⟩ trivial probe_keyed
    (fun _ _ => dvd_zero _) rfl (succ_pos 5)).1
  rcases hwindows 1 _ _ rfl rfl 0 (by decide) (by decide) with ⟨key, hkey, hpresent⟩
  cases hkey
  cases hpresent

end OffloadingSpec

end Vllm
