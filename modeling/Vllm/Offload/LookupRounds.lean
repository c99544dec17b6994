import Vllm.Offload.LookupSteps

/-! The rounds of the lookup: a round is repeated until no group has shortened the hit behind the
back of a sliding window, and then every group accepts the hit. The whole lookup for a manager whose
answers are fixed finds the longest such hit. -/
namespace Vllm
open HitRuns GroupOffloadConfig List
variable {M : Type} {look : M → OffloadKey → Option Bool × M} {present : OffloadKey → Bool}
  {I : M → Prop} {config : SchedulerOffloadConfig} {st : RequestOffloadState} {numTokens : ℕ}

/-- The groups of the configuration are at their indices, and the request has the keys of its whole
blocks in each. -/
structure Fits (config : SchedulerOffloadConfig) (st : RequestOffloadState) (numTokens : ℕ) :
    Prop where
  proper : ∀ {i : ℕ} {g : GroupOffloadConfig}, config.kvGroupConfigs[i]? = some g → g.Proper
  idx : ∀ {i : ℕ} {g : GroupOffloadConfig}, config.kvGroupConfigs[i]? = some g → g.groupIdx = i
  keys : ∀ {i : ℕ} {g : GroupOffloadConfig}, config.kvGroupConfigs[i]? = some g →
    ∃ gs : RequestGroupState, st.groupStates[i]? = some gs ∧
    numTokens / g.offloadedBlockSize ≤ gs.offloadKeys.length

/-- A group accepts a hit up to a token. -/
def AcceptedBy (config : SchedulerOffloadConfig) (st : RequestOffloadState)
    (present : OffloadKey → Bool) (maxHit i : ℕ) : Prop :=
  ∀ (g : GroupOffloadConfig) (gs : RequestGroupState),
    config.kvGroupConfigs[i]? = some g → st.groupStates[i]? = some gs →
    g.Accepts gs.offloadKeys st.numLocallyComputedTokens present maxHit

/-- A hit that every group accepts and finds worth a block. -/
structure AcceptedHit (config : SchedulerOffloadConfig) (st : RequestOffloadState)
    (present : OffloadKey → Bool) (hit : ℕ) : Prop where
  accepted : ∀ i, AcceptedBy config st present hit i
  block : ∀ {i : ℕ} {g : GroupOffloadConfig}, config.kvGroupConfigs[i]? = some g →
    g.offloadedBlockSize ≤ hit - st.numLocallyComputedTokens

/-- The hit ends where it ended before, or at the end of a block of some group. -/
def EndsLike (config : SchedulerOffloadConfig) (maxHit maxHit' : ℕ) : Prop :=
  maxHit' = maxHit ∨ ∃ (i : ℕ) (g : GroupOffloadConfig),
    config.kvGroupConfigs[i]? = some g ∧ g.offloadedBlockSize ∣ maxHit'

def IsFull (config : SchedulerOffloadConfig) (i : ℕ) : Prop :=
  ∃ g : GroupOffloadConfig,
    config.kvGroupConfigs[i]? = some g ∧ g.slidingWindowSizeInBlocks = none

theorem EndsLike.trans {a b c : ℕ} (h : EndsLike config a b) (h' : EndsLike config b c) :
    EndsLike config a c := by
  rcases h' with rfl | hends
  · exact h
  · exact Or.inr hends

variable {i : ℕ} {s : LookupState M}

theorem Fits.mem_slidingWindowGroups (h : Fits config st numTokens) :
    i ∈ config.slidingWindowGroups ↔
      ∃ g : GroupOffloadConfig,
        config.kvGroupConfigs[i]? = some g ∧ g.slidingWindowSizeInBlocks.isSome = true := by
  unfold SchedulerOffloadConfig.slidingWindowGroups
  simp only [mem_map, mem_insertionSort, mem_filter]
  constructor
  · rintro ⟨g, ⟨hg, hsome⟩, rfl⟩
    rcases List.getElem?_of_mem hg with ⟨j, hj⟩
    rw [h.idx hj]
    exact ⟨g, hj, hsome⟩
  · rintro ⟨g, hg, hsome⟩
    exact ⟨g, ⟨mem_of_getElem? hg, hsome⟩, h.idx hg⟩

theorem Fits.mem_lookupGroups (h : Fits config st numTokens) :
    i ∈ config.lookupGroups ↔ i < config.kvGroupConfigs.length := by
  unfold SchedulerOffloadConfig.lookupGroups
  rw [mem_append, h.mem_slidingWindowGroups, mem_map]
  constructor
  · rintro (⟨g, hg, rfl⟩ | ⟨g, hg, -⟩)
    · rcases List.getElem?_of_mem (mem_filter.mp hg).1 with ⟨j, hj⟩
      rw [h.idx hj]
      exact (List.getElem?_eq_some_iff.mp hj).1
    · exact (List.getElem?_eq_some_iff.mp hg).1
  · intro hi
    have hg := List.getElem?_eq_getElem hi
    generalize config.kvGroupConfigs[i] = g at hg
    cases hsize : g.slidingWindowSizeInBlocks with
    | none =>
      refine Or.inl ⟨g, mem_filter.mpr ⟨mem_of_getElem? hg, ?_⟩, h.idx hg⟩
      rw [hsize]
      rfl
    | some n =>
      refine Or.inr ⟨g, hg, ?_⟩
      rw [hsize]
      rfl

/-- Within a round that began with a hit up to `first`, the groups of `done` have been looked at. -/
structure RoundInv (config : SchedulerOffloadConfig) (st : RequestOffloadState)
    (present : OffloadKey → Bool) (I : M → Prop) (first : ℕ) (done : ℕ → Prop)
    (s : LookupState M) : Prop where
  manager : I s.manager
  defer : s.deferLookup = false
  hit : s.numHitTokens = s.maxHitSizeTokens - st.numLocallyComputedTokens ∨
    s.numHitTokens = 0 ∧ ∀ i, ¬done i
  accepted : ∀ i, done i → IsFull config i ∨ s.lookupGroups = [] →
    AcceptedBy config st present s.maxHitSizeTokens i
  looked : ∀ i, done i → IsFull config i ∨ s.lookedUpSlidingWindow = true
  again : s.lookupGroups = [] ∨
    s.lookupGroups = config.slidingWindowGroups ∧ s.maxHitSizeTokens < first
  le_first : s.maxHitSizeTokens ≤ first

theorem AcceptedBy.shorter {maxHit maxHit' : ℕ} (h : AcceptedBy config st present maxHit i)
    (hfull : IsFull config i) (hle : maxHit' ≤ maxHit) :
    AcceptedBy config st present maxHit' i := by
  intro g gs hg hgs
  rcases hfull with ⟨g', hg', hnone⟩
  rw [hg] at hg'
  cases hg'
  apply (h g gs hg hgs).mono
  · unfold firstNeeded
    rw [hnone]
    exact le_rfl
  · exact cdiv_le_cdiv hle

theorem next_lookupGroups (hdefer : s.deferLookup = false) (m : M) (isSlidingWindow : Bool)
    (maxHit numHit : ℕ) :
    (s.next config m isSlidingWindow false maxHit numHit).lookupGroups =
      if numHit < s.numHitTokens ∧ s.lookedUpSlidingWindow = true ∧ s.lookupGroups = []
      then config.slidingWindowGroups else s.lookupGroups := by
  unfold LookupState.next
  rw [hdefer]
  simp [and_assoc]

variable {done : ℕ → Prop} {g : GroupOffloadConfig} {gs : RequestGroupState}

theorem RoundInv.next (hfits : Fits config st numTokens) {first : ℕ}
    (h : RoundInv config st present I first done s) {maxHit : ℕ}
    (hg : config.kvGroupConfigs[i]? = some g)
    (hgs : st.groupStates[i]? = some gs) (hproper : g.Proper) {m : M} (hm : I m)
    (htighten : g.tighten gs.offloadKeys st.numLocallyComputedTokens present s.maxHitSizeTokens =
      some maxHit) :
    RoundInv config st present I first (fun j => j = i ∨ done j)
      (s.next config m g.slidingWindowSizeInBlocks.isSome false maxHit
        (maxHit - st.numLocallyComputedTokens)) := by
  rcases tighten_eq_some hproper htighten with
    ⟨hle, -, hblock, haccepts, -⟩
  have hpos := hproper.block
  have hfirst := h.le_first
  have hself : AcceptedBy config st present maxHit i := by
    intro g' gs' hg' hgs'
    rw [hg] at hg'
    rw [hgs] at hgs'
    cases hg'
    cases hgs'
    exact haccepts
  have hshorter : maxHit - st.numLocallyComputedTokens < s.numHitTokens →
      maxHit < s.maxHitSizeTokens := by
    intro hlt
    rcases h.hit with heq | ⟨hzero, -⟩
    · omega
    · omega
  have hgroups : _ = if _ then config.slidingWindowGroups else _ :=
    next_lookupGroups h.defer m g.slidingWindowSizeInBlocks.isSome maxHit
      (maxHit - st.numLocallyComputedTokens)
  constructor
  · exact hm
  · unfold LookupState.next
    rw [h.defer]
    rfl
  · exact Or.inl rfl
  · intro j hj hwhen
    rcases hj with rfl | hj
    · exact hself
    · rcases h.looked j hj with hfull | hlooked
      · exact (h.accepted j hj (Or.inl hfull)).shorter hfull hle
      · rcases hwhen with hfull | hempty
        · exact (h.accepted j hj (Or.inl hfull)).shorter hfull hle
        · rw [hgroups] at hempty
          split_ifs at hempty with hrepeat
          · intro g' gs' hg' hgs'
            have hsliding : j ∉ config.slidingWindowGroups := by
              rw [hempty]
              exact not_mem_nil
            cases hsize : g'.slidingWindowSizeInBlocks with
            | none =>
              have hfull : IsFull config j := ⟨g', hg', hsize⟩
              exact (h.accepted j hj (Or.inl hfull)).shorter hfull hle g' gs' hg' hgs'
            | some n =>
              refine absurd (hfits.mem_slidingWindowGroups.mpr ⟨g', hg', ?_⟩) hsliding
              rw [hsize]
              rfl
          · have hsame : maxHit = s.maxHitSizeTokens := by
              rcases h.hit with heq | ⟨-, hnone⟩
              · by_contra hne
                exact hrepeat ⟨by omega, hlooked, hempty⟩
              · exact absurd hj (hnone j)
            show AcceptedBy config st present maxHit j
            rw [hsame]
            exact h.accepted j hj (Or.inr hempty)
  · intro j hj
    rcases hj with rfl | hj
    · cases hsize : g.slidingWindowSizeInBlocks with
      | none => exact Or.inl ⟨g, hg, hsize⟩
      | some n => exact Or.inr (Bool.or_true _)
    · rcases h.looked j hj with hfull | hlooked
      · exact Or.inl hfull
      · refine Or.inr ?_
        show (s.lookedUpSlidingWindow || _) = true
        rw [hlooked]
        rfl
  · rw [hgroups]
    show _ ∨ _ ∧ maxHit < first
    split_ifs with hrepeat
    · exact Or.inr ⟨rfl, (hshorter hrepeat.1).trans_le hfirst⟩
    · rcases h.again with hempty | ⟨hagain, hlt⟩
      · exact Or.inl hempty
      · exact Or.inr ⟨hagain, hle.trans_lt hlt⟩
  · exact hle.trans hfirst

theorem lookupGroup_eq_ok (hg : config.kvGroupConfigs[i]? = some g)
    (hgs : st.groupStates[i]? = some gs)
    (hkeys : numTokens / g.offloadedBlockSize ≤ gs.offloadKeys.length) :
    lookupGroup look config st numTokens s i =
      .ok (lookupIn look config g gs st.numLocallyComputedTokens s) := by
  have hrequire : Offloading.require (numTokens / g.offloadedBlockSize ≤ gs.offloadKeys.length) =
      .ok () := if_pos hkeys
  unfold lookupGroup
  rw [hg, hgs]
  simp only [Offloading.find, pure_bind, hrequire]
  rfl

/-- How a round ends: with a hit that no accepted one exceeds, or with none that is accepted. -/
def RoundEnd (config : SchedulerOffloadConfig) (st : RequestOffloadState)
    (present : OffloadKey → Bool) (I : M → Prop) (first : ℕ) (done : ℕ → Prop) (maxHit : ℕ) :
    LookupStep M → Prop
  | .miss m => I m ∧ ∀ hit, AcceptedHit config st present hit → maxHit < hit
  | .go s => RoundInv config st present I first done s ∧
      EndsLike config maxHit s.maxHitSizeTokens ∧
      ∀ hit, AcceptedHit config st present hit → hit ≤ maxHit → hit ≤ s.maxHitSizeTokens

theorem lookupRound_steady (hsteady : Steady look present I) (hfits : Fits config st numTokens)
    {groups : List ℕ} {first : ℕ} (h : RoundInv config st present I first done s)
    (hidx : ∀ i ∈ groups, i < config.kvGroupConfigs.length) :
    ∃ r, lookupRound look config st numTokens s groups = .ok r ∧
      RoundEnd config st present I first (fun j => j ∈ groups ∨ done j) s.maxHitSizeTokens r := by
  induction groups generalizing done s with
  | nil =>
    have hdone : (fun j => j ∈ ([] : List ℕ) ∨ done j) = done := by
      funext j
      simp
    refine ⟨.go s, rfl, ?_, Or.inl rfl, fun hit _ hle => hle⟩
    rw [hdone]
    exact h
  | cons i groups ih =>
    have hgroup : ∃ g, config.kvGroupConfigs[i]? = some g :=
      ⟨_, List.getElem?_eq_getElem (hidx i mem_cons_self)⟩
    rcases hgroup with ⟨g, hg⟩
    rcases hfits.keys hg with ⟨gs, hgs, hkeys⟩
    have hlookup : ∃ m', I m' ∧ lookupIn look config g gs st.numLocallyComputedTokens s = _ :=
      lookupIn_steady hsteady h.manager g gs st.numLocallyComputedTokens
    rcases hlookup with ⟨m', hm', hstep⟩
    have hbounded : ∀ hit, AcceptedHit config st present hit → hit ≤ s.maxHitSizeTokens →
        ∃ maxHit, g.tighten gs.offloadKeys st.numLocallyComputedTokens present
          s.maxHitSizeTokens = some maxHit ∧ hit ≤ maxHit := fun hit haccepted hle =>
      tighten_of_accepts (hfits.proper hg) (haccepted.accepted i g gs hg hgs)
        hle (haccepted.block hg)
    unfold lookupRound
    rw [lookupGroup_eq_ok hg hgs hkeys, hstep]
    cases htighten : g.tighten gs.offloadKeys st.numLocallyComputedTokens present
        s.maxHitSizeTokens with
    | none =>
      refine ⟨.miss m', rfl, hm', fun hit haccepted => ?_⟩
      by_contra hle
      rcases hbounded hit haccepted (not_lt.mp hle) with ⟨maxHit, hsome, -⟩
      rw [htighten] at hsome
      cases hsome
    | some maxHit =>
      have hnext := h.next hfits hg hgs (hfits.proper hg) hm' htighten
      rcases ih hnext fun j hj => hidx j (mem_cons_of_mem i hj) with ⟨r, hrun, hend⟩
      have hdone : (fun j => j ∈ groups ∨ j = i ∨ done j) =
          fun j => j ∈ i :: groups ∨ done j := by
        funext j
        rw [mem_cons, ← or_assoc, or_comm (a := j ∈ groups)]
      rw [hdone] at hend
      refine ⟨r, hrun, ?_⟩
      rcases tighten_eq_some (hfits.proper hg) htighten with
        ⟨-, -, -, -, hends⟩
      have hcut : ∀ hit, AcceptedHit config st present hit → hit ≤ s.maxHitSizeTokens →
          hit ≤ maxHit := by
        intro hit haccepted hle
        rcases hbounded hit haccepted hle with ⟨maxHit', hsome, hle'⟩
        rw [htighten] at hsome
        cases hsome
        exact hle'
      cases r with
      | miss m =>
        refine ⟨hend.1, fun hit haccepted => ?_⟩
        by_contra hle
        have hlt : maxHit < hit := hend.2 hit haccepted
        exact absurd (hcut hit haccepted (not_lt.mp hle)) (not_le.mpr hlt)
      | go s' =>
        rcases hend with ⟨hinv, hlike, hlongest⟩
        refine ⟨hinv, ?_, fun hit haccepted hle => hlongest hit haccepted (hcut hit haccepted hle)⟩
        apply EndsLike.trans _ hlike
        rcases hends with heq | hdvd
        · exact Or.inl heq
        · exact Or.inr ⟨i, g, hg, hdvd⟩

/-- Between rounds: the groups that will not be looked at again accept the hit. -/
structure BetweenInv (config : SchedulerOffloadConfig) (st : RequestOffloadState)
    (present : OffloadKey → Bool) (I : M → Prop) (s : LookupState M) : Prop where
  manager : I s.manager
  defer : s.deferLookup = false
  groups : ∀ i ∈ s.lookupGroups, i < config.kvGroupConfigs.length
  hit : s.numHitTokens = s.maxHitSizeTokens - st.numLocallyComputedTokens ∨
    s.numHitTokens = 0 ∧ ∀ i < config.kvGroupConfigs.length, i ∈ s.lookupGroups
  covered : ∀ i, i ∉ s.lookupGroups → AcceptedBy config st present s.maxHitSizeTokens i
  full : ∀ i < config.kvGroupConfigs.length, s.lookupGroups ≠ [] → i ∉ s.lookupGroups →
    IsFull config i

theorem BetweenInv.round (hsteady : Steady look present I) (hfits : Fits config st numTokens)
    (h : BetweenInv config st present I s) (hgroups : s.lookupGroups ≠ []) :
    ∃ r, lookupRound look config st numTokens
        { s with lookupGroups := [], lookedUpSlidingWindow := false } s.lookupGroups = .ok r ∧
      match r with
      | .miss m => I m ∧ ∀ hit, AcceptedHit config st present hit → s.maxHitSizeTokens < hit
      | .go s' => BetweenInv config st present I s' ∧
          (s'.lookupGroups = [] ∨ s'.maxHitSizeTokens < s.maxHitSizeTokens) ∧
          EndsLike config s.maxHitSizeTokens s'.maxHitSizeTokens ∧
          ∀ hit, AcceptedHit config st present hit → hit ≤ s.maxHitSizeTokens →
            hit ≤ s'.maxHitSizeTokens := by
  have hround : RoundInv config st present I s.maxHitSizeTokens
      (fun i => i < config.kvGroupConfigs.length ∧ i ∉ s.lookupGroups)
      { s with lookupGroups := [], lookedUpSlidingWindow := false } := by
    refine ⟨h.manager, h.defer, ?_, fun i hi _ => h.covered i hi.2,
      fun i hi => Or.inl (h.full i hi.1 hgroups hi.2), Or.inl rfl, le_rfl⟩
    rcases h.hit with heq | ⟨hzero, hall⟩
    · exact Or.inl heq
    · exact Or.inr ⟨hzero, fun i hi => hi.2 (hall i hi.1)⟩
  rcases lookupRound_steady hsteady hfits hround h.groups with ⟨r, hrun, hend⟩
  refine ⟨r, hrun, ?_⟩
  cases r with
  | miss m => exact hend
  | go s' =>
    rcases hend with ⟨hinv, hlike, hlongest⟩
    have hdone : ∀ i < config.kvGroupConfigs.length, i ∈ s.lookupGroups ∨
        i < config.kvGroupConfigs.length ∧ i ∉ s.lookupGroups := by
      intro i hi
      by_cases hmem : i ∈ s.lookupGroups
      · exact Or.inl hmem
      · exact Or.inr ⟨hi, hmem⟩
    have hwhole : ∀ i < config.kvGroupConfigs.length, s'.lookupGroups ≠ [] →
        i ∉ s'.lookupGroups → ∃ g, config.kvGroupConfigs[i]? = some g ∧
          g.slidingWindowSizeInBlocks = none := by
      intro i hlength hne hi
      rcases hinv.again with hempty | ⟨hagain, -⟩
      · exact absurd hempty hne
      · have hg := List.getElem?_eq_getElem hlength
        cases hsize : config.kvGroupConfigs[i].slidingWindowSizeInBlocks with
        | none => exact ⟨_, hg, hsize⟩
        | some n =>
          rw [hagain, hfits.mem_slidingWindowGroups] at hi
          refine absurd ⟨_, hg, ?_⟩ hi
          rw [hsize]
          rfl
    refine ⟨⟨hinv.manager, hinv.defer, ?_, ?_, ?_, ?_⟩, ?_, hlike, hlongest⟩
    · intro i hi
      rcases hinv.again with hempty | ⟨hagain, -⟩
      · rw [hempty] at hi
        exact absurd hi not_mem_nil
      · rw [hagain, hfits.mem_slidingWindowGroups] at hi
        rcases hi with ⟨g, hg, -⟩
        exact (List.getElem?_eq_some_iff.mp hg).1
    · rcases hinv.hit with heq | ⟨-, hnone⟩
      · exact Or.inl heq
      · rcases exists_mem_of_ne_nil _ hgroups with ⟨i, hi⟩
        exact absurd (Or.inl hi) (hnone i)
    · intro i hi
      by_cases hlength : i < config.kvGroupConfigs.length
      · apply hinv.accepted i (hdone i hlength)
        by_cases hempty : s'.lookupGroups = []
        · exact Or.inr hempty
        · exact Or.inl (hwhole i hlength hempty hi)
      · intro g gs hg
        exact absurd (List.getElem?_eq_some_iff.mp hg).1 hlength
    · exact hwhole
    · rcases hinv.again with hempty | ⟨-, hlt⟩
      · exact Or.inl hempty
      · exact Or.inr hlt

section
variable (hsteady : Steady look present I) (hfits : Fits config st numTokens)
include hsteady hfits

theorem lookupRounds_steady {rounds : ℕ} {s : LookupState M} (h : BetweenInv config st present I s)
    (hrounds : s.lookupGroups = [] ∧ 0 < rounds ∨ s.maxHitSizeTokens + 2 ≤ rounds) :
    ∃ r, lookupRounds look config st numTokens rounds s = .ok r ∧
      match r with
      | .miss m => I m ∧ ∀ hit, AcceptedHit config st present hit → s.maxHitSizeTokens < hit
      | .go s' => BetweenInv config st present I s' ∧ s'.lookupGroups = [] ∧
          EndsLike config s.maxHitSizeTokens s'.maxHitSizeTokens ∧
          ∀ hit, AcceptedHit config st present hit → hit ≤ s.maxHitSizeTokens →
            hit ≤ s'.maxHitSizeTokens := by
  induction rounds generalizing s with
  | zero => omega
  | succ rounds ih =>
    unfold lookupRounds
    by_cases hgroups : s.lookupGroups = []
    · rw [if_pos hgroups]
      exact ⟨.go s, rfl, h, hgroups, Or.inl rfl, fun hit _ hle => hle⟩
    · rw [if_neg hgroups]
      rcases h.round hsteady hfits hgroups with ⟨r, hrun, hend⟩
      rw [hrun]
      cases r with
      | miss m => exact ⟨.miss m, rfl, hend⟩
      | go s' =>
        rcases hend with ⟨hinv, hshorter, hlike, hlongest⟩
        have hrest : s'.lookupGroups = [] ∧ 0 < rounds ∨ s'.maxHitSizeTokens + 2 ≤ rounds := by
          rcases hrounds with ⟨hempty, -⟩ | hrounds
          · exact absurd hempty hgroups
          · rcases hshorter with hempty | hlt
            · exact Or.inl ⟨hempty, by omega⟩
            · exact Or.inr (by omega)
        rcases ih hinv hrest with ⟨r', hrun', hend'⟩
        refine ⟨r', hrun', ?_⟩
        cases r' with
        | miss m =>
          refine ⟨hend'.1, fun hit haccepted => ?_⟩
          by_contra hle
          have hlt := hend'.2 hit haccepted
          exact absurd (hlongest hit haccepted (not_lt.mp hle)) (not_le.mpr hlt)
        | go s'' =>
          rcases hend' with ⟨hinv', hempty, hlike', hlongest'⟩
          exact ⟨hinv', hempty, hlike.trans hlike', fun hit haccepted hle =>
            hlongest' hit haccepted (hlongest hit haccepted hle)⟩

/-- The lookup returns. A hit that it returns is accepted by every group, and no accepted one is
longer, unless blocks are being loaded. -/
theorem lookupTokens_steady {m : M} (hm : I m) (align : Option ℕ)
    (loading : Option (List OffloadKey)) :
    ∃ r m', lookupTokens look config align loading st numTokens m = .ok (r, m') ∧
      (∀ h, r = some h → 0 < h →
        (∀ i, AcceptedBy config st present (st.numLocallyComputedTokens + h) i) ∧
        EndsLike config (initialMaxHit config align numTokens)
          (st.numLocallyComputedTokens + h)) ∧
      (loading = none → config.kvGroupConfigs ≠ [] → ∀ hit, AcceptedHit config st present hit →
        hit ≤ initialMaxHit config align numTokens →
        ∃ h, r = some h ∧ hit ≤ st.numLocallyComputedTokens + h) := by
  have hstart : BetweenInv config st present I
      { manager := m
        maxHitSizeTokens := initialMaxHit config align numTokens
        lookupGroups := config.lookupGroups } := by
    refine ⟨hm, rfl, fun i hi => hfits.mem_lookupGroups.mp hi,
      Or.inr ⟨rfl, fun i hi => hfits.mem_lookupGroups.mpr hi⟩, ?_,
      fun i hi _ hnot => absurd (hfits.mem_lookupGroups.mpr hi) hnot⟩
    intro i hi g gs hg
    exact absurd (hfits.mem_lookupGroups.mpr (List.getElem?_eq_some_iff.mp hg).1) hi
  rcases lookupRounds_steady hsteady hfits hstart (Or.inr le_rfl) with ⟨r, hrun, hend⟩
  unfold lookupTokens
  dsimp only
  rw [hrun]
  cases r with
  | miss m' =>
    refine ⟨some 0, m', rfl, fun h hh hpos => ?_, fun _ _ hit haccepted hle => ?_⟩
    · cases hh
      exact absurd hpos (lt_irrefl 0)
    · exact absurd hle (not_le.mpr (hend.2 hit haccepted))
  | go s =>
    rcases hend with ⟨hinv, hempty, hlike, hlongest⟩
    have hfound : ∀ h, s.numHitTokens = h → 0 < h →
        s.maxHitSizeTokens = st.numLocallyComputedTokens + h := by
      intro h hh hpos
      rcases hinv.hit with heq | ⟨hzero, -⟩
      · omega
      · omega
    have hsound : ∀ h, s.numHitTokens = h → 0 < h →
        (∀ i, AcceptedBy config st present (st.numLocallyComputedTokens + h) i) ∧
          EndsLike config (initialMaxHit config align numTokens)
            (st.numLocallyComputedTokens + h) := by
      intro h hh hpos
      rw [← hfound h hh hpos]
      refine ⟨fun i => hinv.covered i ?_, hlike⟩
      rw [hempty]
      exact List.not_mem_nil
    show ∃ r m',
      (if s.deferLookup = true then _ else _ : Offloading (Option ℕ × M)) = .ok (r, m') ∧ _
    rw [hinv.defer, if_neg Bool.false_ne_true]
    by_cases hloading : isBeingLoaded config st (loading.getD []) s.numHitTokens = true
    · rw [if_pos hloading]
      refine ⟨none, s.manager, rfl, fun h hh => (nomatch hh), fun hnone => ?_⟩
      rw [hnone] at hloading
      unfold isBeingLoaded at hloading
      simp at hloading
    · rw [if_neg hloading]
      refine ⟨some s.numHitTokens, s.manager, rfl, fun h hh => hsound h (Option.some.inj hh),
        fun _ hgroups hit haccepted hle => ⟨s.numHitTokens, rfl, ?_⟩⟩
      have hreach := hlongest hit haccepted hle
      rcases hinv.hit with heq | ⟨-, hall⟩
      · omega
      · have hlength := List.length_pos_of_ne_nil hgroups
        have hmem := hall 0 hlength
        rw [hempty] at hmem
        exact absurd hmem List.not_mem_nil

end

end Vllm
