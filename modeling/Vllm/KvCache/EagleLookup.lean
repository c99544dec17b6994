import Vllm.KvCache.HybridHit

/-! The EAGLE peek of the hybrid lookup: behind the returned length, every EAGLE group has
found the block that it matched and dropped, unless two sliding windows do so in turn. -/
namespace Vllm
open List Nat

namespace KVCacheSpec

/-- Full attention or a sliding window. -/
def isAttention (spec : KVCacheSpec) : Bool := spec.isFullAttention || spec.isSlidingWindow

theorem isHybridKind_of_isAttention {spec : KVCacheSpec} (h : spec.isAttention = true) :
    spec.isHybridKind = true := by
  unfold isHybridKind
  unfold isAttention at h
  rw [h, Bool.true_or]

theorem not_isMamba_of_isAttention {spec : KVCacheSpec} (h : spec.isAttention = true) :
    spec.isMamba = false := by
  unfold isAttention isFullAttention isSlidingWindow at h
  unfold isMamba
  cases hkind : spec.kind <;> simp_all

end KVCacheSpec

namespace KVCacheCoordinator
variable {c : KVCacheCoordinator} {groups : List SpecGroup} {blockHashes : List BlockHash}
  {maxLength : ℕ}

/-- A spec group has its blocks at an index in the cache. -/
def HasBlock (c : KVCacheCoordinator) (blockHashes : List BlockHash) (g : SpecGroup) (i : ℕ) :
    Prop :=
  ∃ row, CacheHit.Found c.blockPool (c.specHashes g.spec blockHashes) g.groupIds i row

/-- A full attention group of EAGLE that has been looked up has the block behind its rows. -/
def FullPeeked (c : KVCacheCoordinator) (blockHashes : List BlockHash) (hit : GroupHit) : Prop :=
  hit.group.spec.isFullAttention = true → hit.group.useEagle = true →
    ∀ rows ∈ hit.rows, rows ≠ [] → c.HasBlock blockHashes hit.group rows.length

/-- In the first pass no group is verified before it is visited, so that full attention groups
are looked up with the peek. -/
structure FullInv (c : KVCacheCoordinator) (blockHashes : List BlockHash) (fresh : Prop) (idx : ℕ)
    (scan : HybridScan) : Prop where
  verified_lt : fresh → ∀ i ∈ scan.eagleVerified, i < idx
  full : ∀ hit ∈ scan.hits, FullPeeked c blockHashes hit

/-- In the middle of a pass, for an EAGLE sliding window at index `a`: once verified, its block
behind the candidate has been found, and it stays verified unless the candidate shrinks. -/
structure PeekInv (c : KVCacheCoordinator) (blockHashes : List BlockHash) (window : SpecGroup)
    (a : ℕ) (fresh : Prop) (start idx : ℕ) (scan : HybridScan) : Prop where
  found : a ∈ scan.eagleVerified → 0 < scan.currHitLength →
    c.HasBlock blockHashes window (scan.currHitLength / window.spec.blockSize)
  visited : a < idx → a ∈ scan.eagleVerified ∨
    scan.currHitLength < start ∧ (fresh → a + 1 < idx)

variable {g : SpecGroup} {scan scan' before : HybridScan} {start : ℕ}

theorem lookupAt_peek {curr : ℕ} {rows : List HitRow} (hattn : g.spec.isAttention = true)
    (hne : rows ≠ []) (hr : c.lookupAt blockHashes maxLength curr g true = .ok rows) :
    c.HasBlock blockHashes g rows.length :=
  ((lookupAt_spec (KVCacheSpec.isHybridKind_of_isAttention hattn) hr).lookahead rfl
    (KVCacheSpec.not_isMamba_of_isAttention hattn) hne).2

variable {idx : ℕ} {window : SpecGroup}

theorem dropsBlock_eq_true :
    dropsBlock scan idx g = true ↔ g.useEagle = true ∧ idx ∉ scan.eagleVerified := by
  simp [dropsBlock]

theorem FullInv.step (hattn : ∀ g ∈ groups, g.spec.isAttention = true) {fresh : Prop}
    {hits : List GroupHit} {hit : GroupHit} (hfresh : fresh ∨ ∀ hit ∈ hits, hit.rows.isSome = true)
    (hfull : ∀ hit ∈ hits, FullPeeked c blockHashes hit) (hmem : hit ∈ hits)
    (hgroup : hit.group ∈ groups) (h : FullInv c blockHashes fresh idx scan)
    (hr : c.hybridGroup blockHashes maxLength idx hit scan = .ok scan') :
    FullInv c blockHashes fresh (idx + 1) scan' := by
  have hlt : fresh → ∀ i ∈ scan.eagleVerified, i < idx + 1 := fun hf i hi =>
    (h.verified_lt hf i hi).trans (lt_succ_self idx)
  rcases hybridGroup_cases hr with ⟨-, -, rfl⟩ | ⟨hnot, rows, hlookup, rfl⟩
  · refine ⟨hlt, fun x hx => ?_⟩
    rcases mem_append.mp hx with hx | hx
    · exact h.full x hx
    · obtain rfl := mem_singleton.mp hx
      exact hfull x hmem
  · refine ⟨fun hf i hi => ?_, fun x hx => ?_⟩
    · simp only [afterLookup] at hi
      split_ifs at hi
      · rcases mem_cons.mp hi with rfl | hi
        · exact lt_succ_self i
        · exact hlt hf i hi
      · simp at hi
      · exact hlt hf i hi
    · rcases mem_append.mp hx with hx | hx
      · exact h.full x hx
      · obtain rfl := mem_singleton.mp hx
        intro hfa heagle rows' hrows' hne
        obtain rfl : rows = rows' := Option.some.inj hrows'
        have hf : fresh := by
          apply hfresh.resolve_right
          intro hsome
          exact hnot ⟨hfa, hsome hit hmem⟩
        have hdrop : dropsBlock scan idx hit.group = true :=
          dropsBlock_eq_true.mpr ⟨heagle, fun hi => lt_irrefl idx (h.verified_lt hf idx hi)⟩
        rw [hdrop] at hlookup
        exact lookupAt_peek (hattn _ hgroup) hne hlookup

/-- The spec groups of full attention and sliding windows, with one EAGLE sliding window. -/
structure OneWindow (groups : List SpecGroup) (window : SpecGroup) (a : ℕ) : Prop where
  get : groups[a]? = some window
  sliding : window.spec.isSlidingWindow = true
  eagle : window.useEagle = true
  only : ∀ (i : ℕ) g, groups[i]? = some g → g.useEagle = true → g.spec.isSlidingWindow = true →
    i = a
  sorted : ∀ (i j : ℕ) g g', i < j → groups[i]? = some g → groups[j]? = some g' →
    g'.spec.isFullAttention = true → g.spec.isFullAttention = true

theorem not_isFullAttention_of_isSlidingWindow {spec : KVCacheSpec}
    (h : spec.isSlidingWindow = true) : spec.isFullAttention = false := by
  unfold KVCacheSpec.isSlidingWindow at h
  unfold KVCacheSpec.isFullAttention
  cases hkind : spec.kind <;> simp_all

theorem OneWindow.full_lt {a i : ℕ} (h : OneWindow groups window a) (hget : groups[i]? = some g)
    (hfull : g.spec.isFullAttention = true) : i < a := by
  have hwindow := not_isFullAttention_of_isSlidingWindow h.sliding
  rcases lt_trichotomy i a with hlt | rfl | hgt
  · exact hlt
  · obtain rfl : g = window := Option.some.inj (hget.symm.trans h.get)
    simp [hfull] at hwindow
  · have := h.sorted a i window g hgt h.get hget hfull
    simp [this] at hwindow

theorem PeekInv.step (hgroups : HybridGroups c groups)
    (hattn : ∀ g ∈ groups, g.spec.isAttention = true) (hmamba : NoEagleMamba c groups) {a : ℕ}
    (hone : OneWindow groups window a) {fresh : Prop} {hit : GroupHit}
    (hhead : HeadInv c groups blockHashes maxLength start before)
    (hfresh : fresh ∨ ∀ hit ∈ before.hits, hit.rows.isSome = true)
    (hget : before.hits[idx]? = some hit)
    (hpass : PassInv c groups blockHashes maxLength False start idx scan)
    (hfull : FullInv c blockHashes fresh idx scan)
    (h : PeekInv c blockHashes window a fresh start idx scan)
    (hr : c.hybridGroup blockHashes maxLength idx hit scan = .ok scan') :
    PeekInv c blockHashes window a fresh start (idx + 1) scan' := by
  have hgroup : groups[idx]? = some hit.group := by
    rw [← hhead.groups_eq, List.getElem?_map, hget]
    rfl
  have hmem : hit.group ∈ groups := mem_of_getElem? hgroup
  have hwindow (ha : a = idx) : hit.group = window := by
    subst ha
    exact Option.some.inj (hgroup.symm.trans hone.get)
  rcases hybridGroup_cases hr with ⟨hfa, hsome, rfl⟩ | ⟨hnot, rows, hlookup, rfl⟩
  · have haligned := hpass.aligned_of_rows hhead (mem_of_getElem? hget) hsome
    have hsame := afterTrim_currHitLength (hgroups.divides _ hmem) haligned
    refine ⟨fun ha hpos => ?_, fun ha => ?_⟩
    · rw [hsame] at hpos ⊢
      exact h.found ha hpos
    · rw [hsame]
      have hlt := hone.full_lt hgroup hfa
      omega
  · have hle := hpass.lookup_le hgroups hmamba hmem hlookup
    cases hdrop : dropsBlock scan idx hit.group with
    | true =>
      rw [hdrop] at hlookup
      obtain ⟨heagle, hidx⟩ := dropsBlock_eq_true.mp hdrop
      by_cases ha : a = idx
      · obtain rfl := hwindow ha
        subst ha
        refine ⟨fun _ hpos => ?_, fun _ => .inl (by simp [afterLookup, hdrop])⟩
        have hne : rows ≠ [] := by
          rintro rfl
          simp [afterLookup] at hpos
        have hlength : (afterLookup scan a hit rows).currHitLength / hit.group.spec.blockSize =
            rows.length := Nat.mul_div_cancel _ hit.group.spec.blockSize_pos
        rw [hlength]
        exact lookupAt_peek (hattn _ hmem) hne hlookup
      · have hfa : hit.group.spec.isFullAttention = true := by
          have := hattn _ hmem
          rw [KVCacheSpec.isAttention, Bool.or_eq_true] at this
          exact this.resolve_right fun hs => ha (hone.only idx _ hgroup heagle hs).symm
        have hlt := hone.full_lt hgroup hfa
        have hf : fresh := hfresh.resolve_right fun hall =>
          hnot ⟨hfa, hall hit (mem_of_getElem? hget)⟩
        refine ⟨fun hin _ => ?_, fun hlt' => by omega⟩
        have hin' : a = idx ∨ a ∈ scan.eagleVerified := by simpa [afterLookup, hdrop] using hin
        have := hfull.verified_lt hf a (hin'.resolve_left ha)
        omega
    | false =>
      have hverified (ha : a = idx) : a ∈ scan.eagleVerified := by
        have heagle := hone.eagle
        rw [← hwindow ha] at heagle
        by_contra hin
        rw [dropsBlock_eq_true.mpr ⟨heagle, ha ▸ hin⟩] at hdrop
        simp at hdrop
      have hcurr : (afterLookup scan idx hit rows).currHitLength =
        rows.length * hit.group.spec.blockSize := rfl
      have hveri : (afterLookup scan idx hit rows).eagleVerified =
          if rows.length * hit.group.spec.blockSize < scan.currHitLength then []
            else scan.eagleVerified := by
        simp [afterLookup, hdrop]
      by_cases hshrink : rows.length * hit.group.spec.blockSize < scan.currHitLength
      · rw [if_pos hshrink] at hveri
        refine ⟨fun hin => by simp [hveri] at hin, fun ha => .inr ⟨?_, fun hf => ?_⟩⟩
        · rw [hcurr]
          exact hshrink.trans_le hpass.le
        · rcases Nat.lt_succ_iff_lt_or_eq.mp ha with ha | ha
          · omega
          · have := hfull.verified_lt hf a (hverified ha)
            omega
      · rw [if_neg hshrink] at hveri
        have hsame : (afterLookup scan idx hit rows).currHitLength = scan.currHitLength :=
          le_antisymm hle (not_lt.mp hshrink)
        refine ⟨fun hin hpos => ?_, fun ha => ?_⟩
        · rw [hveri] at hin
          rw [hsame] at hpos ⊢
          exact h.found hin hpos
        · rw [hveri, hsame]
          rcases Nat.lt_succ_iff_lt_or_eq.mp ha with ha | ha
          · exact (h.visited ha).imp_right fun hv =>
              ⟨hv.1, fun hf => (hv.2 hf).trans (lt_succ_self idx)⟩
          · exact .inl (hverified ha)

/-- Nothing has been looked up yet. -/
def Untouched (scan : HybridScan) : Prop :=
  (∀ hit ∈ scan.hits, hit.rows = none) ∧ scan.eagleVerified = []

/-- At the head of the loop: before the first pass nothing has been looked up, and after it
every group has; a verified window has its block behind the candidate. -/
structure EagleHead (c : KVCacheCoordinator) (groups : List SpecGroup)
    (blockHashes : List BlockHash) (maxLength hitLength : ℕ) (scan : HybridScan) : Prop where
  head : HeadInv c groups blockHashes maxLength hitLength scan
  fresh : Untouched scan ∨ ∀ hit ∈ scan.hits, hit.rows.isSome = true
  full : ∀ hit ∈ scan.hits, FullPeeked c blockHashes hit
  found : ∀ window a, OneWindow groups window a → a ∈ scan.eagleVerified → 0 < hitLength →
    c.HasBlock blockHashes window (hitLength / window.spec.blockSize)

/-- What a pass over the groups keeps. -/
structure EaglePass (c : KVCacheCoordinator) (groups : List SpecGroup)
    (blockHashes : List BlockHash) (maxLength : ℕ) (fresh : Prop) (start idx : ℕ)
    (scan : HybridScan) : Prop where
  pass : PassInv c groups blockHashes maxLength False start idx scan
  full : FullInv c blockHashes fresh idx scan
  peek : ∀ window a, OneWindow groups window a →
    PeekInv c blockHashes window a fresh start idx scan

theorem noEagleMamba_of_isAttention (hattn : ∀ g ∈ groups, g.spec.isAttention = true) :
    NoEagleMamba c groups := by
  intro g hg _ hmamba
  rw [KVCacheSpec.not_isMamba_of_isAttention (hattn g hg)] at hmamba
  simp at hmamba

section
variable (hgroups : HybridGroups c groups) (hattn : ∀ g ∈ groups, g.spec.isAttention = true)
include hgroups hattn

theorem EagleHead.pass (h : EagleHead c groups blockHashes maxLength start before)
    (hr : c.hybridPass blockHashes maxLength 0 before.hits
      { before with currHitLength := start, hits := [] } = .ok scan') :
    EaglePass c groups blockHashes maxLength (Untouched before) start groups.length scan' := by
  have hmamba : NoEagleMamba c groups := noEagleMamba_of_isAttention hattn
  have hlength : groups.length = 0 + before.hits.length := by
    rw [← h.head.groups_eq, length_map, zero_add]
  rw [hlength]
  refine hybridPass_invariant
    (EaglePass c groups blockHashes maxLength (Untouched before) start)
    (fun i hit scan scan' hget hinv hone => ?_) ?_ hr
  · rw [zero_add] at hinv hone ⊢
    have hmem := mem_of_getElem? hget
    have hgroup : hit.group ∈ groups := h.head.groups_eq ▸ mem_map_of_mem hmem
    exact ⟨hinv.pass.step hgroups hmamba h.head False.elim hget hone,
      hinv.full.step hattn h.fresh h.full hmem hgroup hone,
      fun window a hw => (hinv.peek window a hw).step hgroups hattn hmamba hw h.head h.fresh hget
        hinv.pass hinv.full hone⟩
  · refine ⟨PassInv.start h.head, ⟨fun hf i hi => ?_, by simp⟩,
      fun window a hw => ⟨h.found window a hw, fun ha => absurd ha (not_lt_zero a)⟩⟩
    rw [show _ = [] from hf.2] at hi
    simp at hi

theorem EagleHead.next (hne : groups ≠ [])
    (h : EagleHead c groups blockHashes maxLength start before)
    (hr : c.hybridPass blockHashes maxLength 0 before.hits
      { before with currHitLength := start, hits := [] } = .ok scan') :
    EagleHead c groups blockHashes maxLength scan'.currHitLength scan' := by
  have hpass := h.pass hgroups hattn hr
  refine ⟨h.head.next hgroups (noEagleMamba_of_isAttention hattn) hne hr, .inr fun hit hhit => ?_,
    hpass.full.full, fun window a hw => (hpass.peek window a hw).found⟩
  obtain ⟨rows, hrows, -⟩ := hpass.pass.each hit hhit
  rw [hrows]
  rfl

end

theorem EagleHead.init (groups : List SpecGroup) :
    EagleHead c groups blockHashes maxLength maxLength
      { currHitLength := 0, longestHitLength := 0, eagleVerified := []
        hits := groups.map fun group => { group } } := by
  have hnone : ∀ hit ∈ groups.map (fun group => ({ group } : GroupHit)), hit.rows = none := by
    intro hit hhit
    obtain ⟨g, -, rfl⟩ := mem_map.mp hhit
    rfl
  refine ⟨HeadInv.init groups, .inl ⟨hnone, rfl⟩, fun hit hhit _ _ rows hrows => ?_, by simp⟩
  rw [hnone hit hhit] at hrows
  simp at hrows

/-- At most one of the EAGLE spec groups is a sliding window. -/
def AtMostOneWindow (groups : List SpecGroup) : Prop :=
  groups.countP (fun g => g.useEagle && g.spec.isSlidingWindow) ≤ 1

theorem AtMostOneWindow.eq (h : AtMostOneWindow groups) {i j : ℕ} {g' : SpecGroup}
    (hi : groups[i]? = some g) (hj : groups[j]? = some g')
    (hg : (g.useEagle && g.spec.isSlidingWindow) = true)
    (hg' : (g'.useEagle && g'.spec.isSlidingWindow) = true) : i = j := by
  unfold AtMostOneWindow at h
  induction groups generalizing i j with
  | nil => simp at hi
  | cons g₀ rest ih =>
    rw [countP_cons] at h
    have hrest {k : ℕ} {x : SpecGroup} (hk : rest[k]? = some x)
        (hx : (x.useEagle && x.spec.isSlidingWindow) = true) :
        0 < rest.countP fun g => g.useEagle && g.spec.isSlidingWindow :=
      countP_pos_iff.mpr ⟨x, mem_of_getElem? hk, hx⟩
    cases i with
    | zero =>
      cases j with
      | zero => rfl
      | succ j =>
        obtain rfl : g₀ = g := by simpa using hi
        rw [if_pos hg] at h
        have := hrest (by simpa using hj) hg'
        omega
    | succ i =>
      cases j with
      | zero =>
        obtain rfl : g₀ = g' := by simpa using hj
        rw [if_pos hg'] at h
        have := hrest (by simpa using hi) hg
        omega
      | succ j =>
        exact congrArg Nat.succ (ih (by omega) (by simpa using hi) (by simpa using hj))

theorem hybridLoop_peeked (hgroups : HybridGroups c groups)
    (hattn : ∀ g ∈ groups, g.spec.isAttention = true) (hne : groups ≠ [])
    (hsorted : ∀ (i j : ℕ) g g', i < j → groups[i]? = some g → groups[j]? = some g' →
      g'.spec.isFullAttention = true → g.spec.isFullAttention = true)
    (hcond : AtMostOneWindow groups) {result : ℕ × HybridScan}
    (hr : c.hybridLoop blockHashes maxLength (isSimpleHybrid groups) (maxLength + 1) maxLength
      { currHitLength := 0, longestHitLength := 0, eagleVerified := []
        hits := groups.map fun group => { group } } = .ok result)
    (hpos : 0 < result.1) (hg : g ∈ groups) (heagle : g.useEagle = true) :
    c.HasBlock blockHashes g (result.1 / g.spec.blockSize) := by
  have hloop := hybridLoop_result hgroups (noEagleMamba_of_isAttention hattn) hne hsorted hr
  obtain ⟨n, before, ⟨hhead, hfresh⟩, hpass, hend⟩ := hybridLoop_last
    (fun n scan => EagleHead c groups blockHashes maxLength n scan ∧
      (isSimpleHybrid groups = true → Untouched scan))
    (fun n scan scan' hhead hpass _ hs => ⟨hhead.1.next hgroups hattn hne hpass, fun hs' => by
      rw [hs'] at hs
      simp at hs⟩)
    ⟨EagleHead.init groups, fun _ => ⟨fun hit hhit => by
      obtain ⟨g, -, rfl⟩ := mem_map.mp hhit
      rfl, rfl⟩⟩ (lt_succ_self _) hr
  have hinv := hhead.pass hgroups hattn hpass
  obtain ⟨a, ha⟩ := mem_iff_getElem?.mp hg
  have halt := (List.getElem?_eq_some_iff.mp ha).1
  cases hfull : g.spec.isFullAttention with
  | true =>
    rw [← hloop.groups_eq, List.getElem?_map, Option.map_eq_some_iff] at ha
    obtain ⟨hit, hget, rfl⟩ := ha
    have hmem := mem_of_getElem? hget
    obtain ⟨rows, hrows, hsound, hreach⟩ := hloop.each hit hmem
    have hle : result.1 / hit.group.spec.blockSize ≤ rows.length :=
      Nat.div_le_of_le_mul (by rwa [Nat.mul_comm])
    rcases hle.lt_or_eq with hlt | heq
    · have hneeded := hsound.needed
      rw [KVCacheSpec.neededFrom_full hfull] at hneeded
      obtain ⟨row, -, hrow⟩ := hneeded _ (zero_le _) hlt
      exact ⟨row, hrow⟩
    · rw [heq]
      refine hinv.full.full hit hmem hfull heagle rows hrows ?_
      rintro rfl
      simp at hreach
      omega
  | false =>
    have hsliding : g.spec.isSlidingWindow = true := by
      have := hattn g hg
      rwa [KVCacheSpec.isAttention, hfull, Bool.false_or] at this
    have hone : OneWindow groups g a :=
      ⟨ha, hsliding, heagle, fun i g' hi he hs => hcond.eq hi ha (by simp [he, hs])
        (by simp [heagle, hsliding]), hsorted⟩
    have hpeek := hinv.peek g a hone
    rcases hend with ⟨hdone, hres⟩ | ⟨hs, -, hres⟩
    · have hcurr : result.2.currHitLength = n := le_antisymm hinv.pass.le hdone
      rw [hres, ← hcurr] at hpos ⊢
      exact hpeek.found ((hpeek.visited halt).resolve_right fun h => by omega) hpos
    · rw [hres] at hpos ⊢
      have hpair := hs
      simp only [isSimpleHybrid, decide_eq_true_eq] at hpair
      have hzero : a ≠ 0 := by
        rintro rfl
        rw [List.head?_eq_getElem?, ha, Option.any_some, hfull] at hpair
        simp at hpair
      refine hpeek.found ((hpeek.visited halt).resolve_right fun h => ?_) hpos
      have := h.2 (hfresh hs)
      omega

end KVCacheCoordinator
namespace KVCacheManagerConfig
variable {cfg : KVCacheManagerConfig} {c : KVCacheCoordinator} {groups : List SpecGroup}

theorem useEagle_of_mem {g : SpecGroup} {gid : ℕ} (hg : g ∈ cfg.attentionGroups)
    (hid : gid ∈ g.groupIds) (heagle : gid ∈ cfg.eagleGroupIds) : g.useEagle = true := by
  refine forall_mem_attentionGroups (P := fun g => ∀ gid ∈ g.groupIds,
    gid ∈ cfg.eagleGroupIds → g.useEagle = true) ?_ ?_ g hg gid hid heagle
  · intro gid s _ gid' hgid' heagle'
    obtain rfl := mem_singleton.mp hgid'
    simpa using heagle'
  · intro gid s _ g hg _ gid' hgid' heagle'
    rcases mem_append.mp hgid' with hgid' | hgid'
    · simp [hg gid' hgid' heagle']
    · obtain rfl := mem_singleton.mp hgid'
      simp [heagle']

/-- Every EAGLE group has the block behind the hit in the cache. -/
def PeekVerified (cfg : KVCacheManagerConfig) (c : KVCacheCoordinator)
    (blockHashes : List BlockHash) (hitLength : ℕ) : Prop :=
  ∀ (gid : ℕ) g, cfg.kvCacheGroups[gid]? = some g → gid ∈ cfg.eagleGroupIds →
    ∃ hash block,
      (c.specHashes g.kvCacheSpec blockHashes)[hitLength / g.kvCacheSpec.blockSize]? = some hash ∧
        c.blockPool.cachedBlockHashToBlock.Stored (makeBlockHashWithGroupId hash gid) block

/-- Behind a hit of full attention groups and sliding windows, the blocks that EAGLE drops are
cached for every content of the cache if at most one sliding window drops a block. -/
theorem findLongestCacheHit_peekVerified (h : HybridSetup cfg c groups)
    (hattn : ∀ g ∈ cfg.kvCacheGroups, g.kvCacheSpec.isAttention = true)
    (hcond : KVCacheCoordinator.AtMostOneWindow groups) {pool : BlockPool}
    {blockHashes : List BlockHash} {maxLength : ℕ} {result : CacheHitResult}
    (hr : { c with blockPool := pool }.findLongestCacheHit blockHashes maxLength = .ok result)
    (hpos : 0 < result.numTokens) :
    PeekVerified cfg { c with blockPool := pool } blockHashes result.numTokens := by
  intro gid g hg heagle
  have hgroups : HybridGroups { c with blockPool := pool } groups :=
    ⟨h.hybridGroups.kinds, h.hybridGroups.divides⟩
  have hattn' : ∀ g ∈ groups, g.spec.isAttention = true := by
    intro g hg
    rw [h.groups_eq] at hg
    obtain ⟨s, hs, hspec⟩ := exists_kvCacheGroup hg
    exact hspec ▸ hattn s hs
  obtain ⟨group, hgroup, hid⟩ := exists_mem_attentionGroups (List.getElem?_eq_some_iff.mp hg).1
  obtain ⟨s, hs, hspec⟩ := spec_of_mem_attentionGroups hgroup hid
  obtain rfl : s = g := Option.some.inj (hs.symm.trans hg)
  have hkind : ({ c with blockPool := pool } : KVCacheCoordinator).kind = .hybrid groups := h.kind
  obtain ⟨hitLength, scan, hloop, rfl⟩ := (KVCacheCoordinator.findLongestCacheHit_eq_ok hkind).mp hr
  obtain ⟨row, hfound⟩ := KVCacheCoordinator.hybridLoop_peeked hgroups hattn' h.ne_nil h.sorted
    hcond hloop hpos (h.groups_eq ▸ hgroup) (useEagle_of_mem hgroup hid heagle)
  obtain ⟨hash, hhash, hstored⟩ := KVCacheCoordinator.stored_of_found hfound hid pool.nullBlock
  rw [hspec]
  exact ⟨hash, _, hhash, hstored⟩

end KVCacheManagerConfig
def eagleConfig : KVCacheManagerConfig := { twoGroupConfig with useEagle := true }

/-- A request with the prompt `7, 5, 6` has run, and the coordinator looks its prompt up. -/
def peekedPrefixRun : Raises (KVCacheManager × BlockPool × CacheHitResult) := do
  let m₀ ← KVCacheManager.init eagleConfig
  let (_, m₁) ← m₀.allocateSlots (smallRequest 1 [7, 5, 6]) { numNewTokens := 3 }
  let hit ← { m₀.coordinator with blockPool := m₁.blockPool }.findLongestCacheHit
    (smallRequest 2 [7, 5, 6]).blockHashes 2
  pure (m₀, m₁.blockPool, hit)

theorem findLongestCacheHit_peekVerified_cachedPrefix : ∃ c groups pool result,
    KVCacheManagerConfig.HybridSetup eagleConfig c groups ∧
      { c with blockPool := pool }.findLongestCacheHit (smallRequest 2 [7, 5, 6]).blockHashes 2 =
        .ok result ∧ result.numTokens = 1 ∧
      eagleConfig.PeekVerified { c with blockPool := pool } (smallRequest 2 [7, 5, 6]).blockHashes
        result.numTokens := by
  obtain ⟨s, hok, hfacts⟩ := Raises.exists_ok (show peekedPrefixRun.toOption.map (fun s =>
      (s.1.coordinator.specGroups.map fun groups =>
        groups.countP (fun g => g.useEagle && g.spec.isSlidingWindow), s.2.2.numTokens)) =
        some (some 1, 1) by decide +kernel)
  simp only [Prod.mk.injEq, Option.map_eq_some_iff] at hfacts
  obtain ⟨⟨groups, hgroups, hcount⟩, hnum⟩ := hfacts
  simp only [peekedPrefixRun, Raises.bind_eq_ok, Raises.pure_eq_ok] at hok
  obtain ⟨m₀, h₀, ⟨b₁, m₁⟩, h₁, hit, hhit, rfl⟩ := hok
  have hsetup : KVCacheManagerConfig.HybridSetup eagleConfig m₀.coordinator groups :=
    ⟨coordinator_of_init h₀, KVCacheCoordinator.kind_of_specGroups hgroups, by decide⟩
  have hpos : 0 < hit.numTokens := by
    rw [show hit.numTokens = 1 from hnum]
    exact one_pos
  exact ⟨_, groups, _, hit, hsetup, hhit, hnum,
    KVCacheManagerConfig.findLongestCacheHit_peekVerified hsetup (by decide) hcount.le hhit hpos⟩

/-- Two sliding windows of different layouts, both for EAGLE. -/
def eagleWindowsConfig : KVCacheManagerConfig where
  numBlocks := 16
  kvCacheGroups := [
    { kvCacheSpec := { kind := .slidingWindow 2, blockSize := 1, blockSize_pos := Nat.one_pos } },
    { kvCacheSpec := {
        kind := .slidingWindow 2, blockSize := 1, layout := 1, blockSize_pos := Nat.one_pos } }]
  maxModelLen := 16
  schedulerBlockSize := 1
  hashBlockSize := 1
  maxNumBatchedTokens := 16
  useEagle := true

/-- A prompt of five tokens has run, and of its blocks those at the indices 0, 3, 4 of the first
group and 0, 1 of the second are left when it is looked up again. -/
def shrunkCandidateRun : Raises (KVCacheManager × BlockPool × CacheHitResult) := do
  let m₀ ← KVCacheManager.init eagleWindowsConfig
  let (_, m₁) ← m₀.allocateSlots (smallRequest 1 [7, 5, 6, 8, 9]) { numNewTokens := 5 }
  let pool ← m₁.blockPool.evictBlocks [2, 3, 8, 9, 10]
  let hit ← { m₀.coordinator with blockPool := pool }.findLongestCacheHit
    (smallRequest 2 [7, 5, 6, 8, 9, 4]).blockHashes 5
  pure (m₀, pool, hit)

/-- The peek of the second window shrinks the candidate to one token, and the first window is
not verified again: its block at index 1 is not in the cache. -/
theorem findLongestCacheHit_not_peekVerified : ∃ c groups pool result,
    KVCacheManagerConfig.HybridSetup eagleWindowsConfig c groups ∧
      (∀ g ∈ eagleWindowsConfig.kvCacheGroups, g.kvCacheSpec.isAttention = true) ∧
      { c with blockPool := pool }.findLongestCacheHit
        (smallRequest 2 [7, 5, 6, 8, 9, 4]).blockHashes 5 = .ok result ∧
      0 < result.numTokens ∧
      ¬ eagleWindowsConfig.PeekVerified { c with blockPool := pool }
        (smallRequest 2 [7, 5, 6, 8, 9, 4]).blockHashes result.numTokens := by
  obtain ⟨s, hok, hfacts⟩ := Raises.exists_ok (show shrunkCandidateRun.toOption.map (fun s =>
      (s.1.coordinator.specGroups.isSome, s.1.coordinator.hashBlockSize, s.2.2.numTokens,
        (s.2.1.cachedBlockHashToBlock.cache.get? ⟨[1, 5], 0⟩).isNone)) =
        some (true, 1, 1, true) by decide +kernel)
  simp only [Prod.mk.injEq] at hfacts
  obtain ⟨hsome, hsize, hnum, hnone⟩ := hfacts
  obtain ⟨groups, hgroups⟩ := Option.isSome_iff_exists.mp hsome
  simp only [shrunkCandidateRun, Raises.bind_eq_ok, Raises.pure_eq_ok] at hok
  obtain ⟨m₀, h₀, ⟨b₁, m₁⟩, h₁, pool, h₂, hit, hhit, rfl⟩ := hok
  have hnum' : hit.numTokens = 1 := hnum
  refine ⟨_, groups, pool, hit,
    ⟨coordinator_of_init h₀, KVCacheCoordinator.kind_of_specGroups hgroups, by decide⟩,
    by decide, hhit, by rw [hnum']; exact one_pos, fun hpeek => ?_⟩
  obtain ⟨hash, block, hhash, hstored⟩ := hpeek 0 _ rfl (by decide)
  rw [hnum', KVCacheCoordinator.specHashes, if_pos hsize.symm] at hhash
  obtain rfl : [1, 5] = hash := Option.some.inj hhash
  have hget : pool.cachedBlockHashToBlock.cache.get? (makeBlockHashWithGroupId [1, 5] 0) = none :=
    Option.isNone_iff_eq_none.mp hnone
  have hin : pool.cachedBlockHashToBlock.Stored (makeBlockHashWithGroupId [1, 5] 0) block := hstored
  unfold BlockHashToBlockMap.Stored at hin
  rw [hget] at hin
  exact hin

end Vllm
