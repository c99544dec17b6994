import Vllm.KvCache.LookupSpec
import Vllm.KvCache.SpecGroups

/-! The fixed-point loop of the hybrid lookup: what one group does to the candidate length,
and from it what a pass over the groups and the whole loop establish. -/
namespace Vllm
open List Nat

namespace KVCacheCoordinator
variable {c : KVCacheCoordinator} {blockHashes : List BlockHash} {maxLength : ℕ}

/-- The bound with which a group is looked up: one more block if one is dropped. -/
def lookupBound (maxLength curr : ℕ) (g : SpecGroup) (dropEagleBlock : Bool) : ℕ :=
  if dropEagleBlock then min (curr + g.spec.blockSize) maxLength else curr

/-- The lookup of a spec group at a candidate length. -/
def lookupAt (c : KVCacheCoordinator) (blockHashes : List BlockHash) (maxLength curr : ℕ)
    (g : SpecGroup) (dropEagleBlock : Bool) : Raises (List HitRow) :=
  Vllm.findLongestCacheHit c.blockPool (c.specHashes g.spec blockHashes)
    (lookupBound maxLength curr g dropEagleBlock) g.groupIds g.spec dropEagleBlock
    c.schedulerBlockSize 1 1

/-- Whether a group drops the last matched block: once for each candidate length. -/
def dropsBlock (scan : HybridScan) (idx : ℕ) (g : SpecGroup) : Bool :=
  g.useEagle && decide (idx ∉ scan.eagleVerified)

/-- The variables of the loop after the lookup of a group. -/
def afterLookup (scan : HybridScan) (idx : ℕ) (hit : GroupHit) (rows : List HitRow) :
    HybridScan where
  currHitLength := rows.length * hit.group.spec.blockSize
  longestHitLength := max scan.longestHitLength (rows.length * hit.group.spec.blockSize)
  eagleVerified := if dropsBlock scan idx hit.group then idx :: scan.eagleVerified
    else if rows.length * hit.group.spec.blockSize < scan.currHitLength then []
    else scan.eagleVerified
  hits := scan.hits ++ [{ hit with rows := some rows }]

/-- The variables of the loop after a full attention group that has been looked up before. -/
def afterTrim (scan : HybridScan) (hit : GroupHit) : HybridScan where
  currHitLength := scan.currHitLength / hit.group.spec.blockSize * hit.group.spec.blockSize
  longestHitLength := scan.longestHitLength
  eagleVerified := scan.eagleVerified
  hits := scan.hits ++ [hit]

variable {hit : GroupHit} {idx : ℕ} {scan : HybridScan}

variable {scan' : HybridScan} {hits : List GroupHit}

theorem hybridGroup_cases (hr : c.hybridGroup blockHashes maxLength idx hit scan = .ok scan') :
    (hit.group.spec.isFullAttention = true ∧ hit.rows.isSome = true ∧
      scan' = afterTrim scan hit) ∨
    (¬ (hit.group.spec.isFullAttention = true ∧ hit.rows.isSome = true) ∧
      ∃ rows, c.lookupAt blockHashes maxLength scan.currHitLength hit.group
        (dropsBlock scan idx hit.group) = .ok rows ∧ scan' = afterLookup scan idx hit rows) := by
  unfold hybridGroup at hr
  by_cases hfull : hit.group.spec.isFullAttention = true ∧ hit.rows.isSome = true
  · rw [if_pos hfull] at hr
    exact .inl ⟨hfull.1, hfull.2, (Except.ok.inj hr).symm⟩
  · rw [if_neg hfull] at hr
    simp only [Raises.bind_eq_ok, Raises.pure_eq_ok] at hr
    obtain ⟨rows, hfind, rfl⟩ := hr
    exact .inr ⟨hfull, rows, hfind, rfl⟩

theorem hybridGroup_of_full (hfull : hit.group.spec.isFullAttention = true)
    (hsome : hit.rows.isSome = true) :
    c.hybridGroup blockHashes maxLength idx hit scan = .ok (afterTrim scan hit) := by
  unfold hybridGroup
  rw [if_pos ⟨hfull, hsome⟩]
  rfl

theorem hybridGroup_of_lookup {rows : List HitRow}
    (hnot : ¬ (hit.group.spec.isFullAttention = true ∧ hit.rows.isSome = true))
    (hrows : c.lookupAt blockHashes maxLength scan.currHitLength hit.group
      (dropsBlock scan idx hit.group) = .ok rows) :
    c.hybridGroup blockHashes maxLength idx hit scan = .ok (afterLookup scan idx hit rows) := by
  unfold lookupAt lookupBound dropsBlock at hrows
  unfold hybridGroup
  rw [if_neg hnot]
  dsimp only
  rw [hrows]
  rfl

theorem hybridPass_invariant (inv : ℕ → HybridScan → Prop)
    (hstep : ∀ (i : ℕ) hit scan scan', hits[i]? = some hit → inv (idx + i) scan →
      c.hybridGroup blockHashes maxLength (idx + i) hit scan = .ok scan' →
      inv (idx + i + 1) scan')
    (hstart : inv idx scan) (hr : c.hybridPass blockHashes maxLength idx hits scan = .ok scan') :
    inv (idx + hits.length) scan' := by
  induction hits generalizing idx scan with
  | nil =>
    cases hr
    exact hstart
  | cons hit hits ih =>
    simp only [hybridPass, Raises.bind_eq_ok] at hr
    obtain ⟨next, hgroup, hr⟩ := hr
    have hnext := hstep 0 hit scan next rfl hstart hgroup
    rw [length_cons, add_comm hits.length, ← add_assoc]
    refine ih (fun i hit' scan scan' hget hinv hone => ?_) hnext hr
    have hidx : idx + 1 + i = idx + (i + 1) := by omega
    rw [hidx] at hinv hone ⊢
    exact hstep (i + 1) hit' scan scan' hget hinv hone

/-- The last pass of the loop: an invariant of the loop heads holds before it, and it either
accepts the candidate or ends the loop of a simple hybrid. -/
theorem hybridLoop_last (head : ℕ → HybridScan → Prop) {simple : Bool} {fuel hitLength : ℕ}
    {result : ℕ × HybridScan}
    (hstep : ∀ n scan scan', head n scan →
      c.hybridPass blockHashes maxLength 0 scan.hits { scan with currHitLength := n, hits := [] } =
        .ok scan' → scan'.currHitLength < n → simple = false → head scan'.currHitLength scan')
    (hstart : head hitLength scan) (hfuel : hitLength < fuel)
    (hr : c.hybridLoop blockHashes maxLength simple fuel hitLength scan = .ok result) :
    ∃ n before, head n before ∧
      c.hybridPass blockHashes maxLength 0 before.hits
        { before with currHitLength := n, hits := [] } = .ok result.2 ∧
      (n ≤ result.2.currHitLength ∧ result.1 = n ∨
        simple = true ∧ result.2.currHitLength < n ∧ result.1 = result.2.currHitLength) := by
  induction fuel generalizing hitLength scan with
  | zero => exact absurd hfuel (not_lt_zero _)
  | succ fuel ih =>
    simp only [hybridLoop, Raises.bind_eq_ok] at hr
    obtain ⟨next, hpass, hr⟩ := hr
    split_ifs at hr with hdone hsimple
    · cases hr
      exact ⟨hitLength, scan, hstart, hpass, .inl ⟨hdone, rfl⟩⟩
    · cases hr
      exact ⟨hitLength, scan, hstart, hpass, .inr ⟨hsimple, not_le.mp hdone, rfl⟩⟩
    · have hlt := not_le.mp hdone
      exact ih (hstep hitLength scan next hstart hpass hlt (by simpa using hsimple)) (by omega) hr

end KVCacheCoordinator

/-- The spec groups of a hybrid coordinator. -/
structure HybridGroups (c : KVCacheCoordinator) (groups : List SpecGroup) : Prop where
  kinds : ∀ g ∈ groups, g.spec.isHybridKind = true
  divides : ∀ g ∈ groups, g.spec.blockSize ∣ c.schedulerBlockSize

/-- No EAGLE block is expected behind a mamba state at the granularity of the hits. -/
def NoEagleMamba (c : KVCacheCoordinator) (groups : List SpecGroup) : Prop :=
  ∀ g ∈ groups, g.useEagle = true → g.spec.isMamba = true →
    g.spec.blockSize ≠ c.schedulerBlockSize

namespace KVCacheCoordinator
variable {c : KVCacheCoordinator} {groups : List SpecGroup} {blockHashes : List BlockHash}
  {maxLength curr : ℕ} {g : SpecGroup} {rows : List HitRow} {dropEagleBlock : Bool}

theorem lookupAt_spec (hkind : g.spec.isHybridKind = true)
    (hr : c.lookupAt blockHashes maxLength curr g dropEagleBlock = .ok rows) :
    SpecHit c.blockPool (c.specHashes g.spec blockHashes) g.groupIds g.spec
      (lookupBound maxLength curr g dropEagleBlock) dropEagleBlock c.schedulerBlockSize rows :=
  findLongestCacheHit_spec hkind hr

theorem le_of_aligned {a b blockSize alignment : ℕ} (ha : a % alignment = 0)
    (hb : b % alignment = 0) (hdvd : blockSize ∣ alignment) (hne : blockSize ≠ alignment)
    (hle : a ≤ b + blockSize) : a ≤ b := by
  obtain ⟨x, rfl⟩ := dvd_of_mod_eq_zero ha
  obtain ⟨y, rfl⟩ := dvd_of_mod_eq_zero hb
  rcases Nat.eq_zero_or_pos alignment with rfl | hpos
  · simp
  · have hlt : blockSize < alignment := lt_of_le_of_ne (le_of_dvd hpos hdvd) hne
    have hxy : x ≤ y := by
      by_contra hlt'
      have := mul_le_mul_left alignment (not_le.mp hlt')
      rw [mul_succ] at this
      omega
    exact mul_le_mul_left alignment hxy

/-- The lookup of a group never lengthens the candidate. -/
theorem lookupAt_le (hkind : g.spec.isHybridKind = true)
    (hdvd : g.spec.blockSize ∣ c.schedulerBlockSize)
    (hmamba : g.useEagle = true → g.spec.isMamba = true →
      g.spec.blockSize ≠ c.schedulerBlockSize)
    (heagle : dropEagleBlock = true → g.useEagle = true)
    (hcurr : curr % c.schedulerBlockSize = 0 ∨ curr = maxLength)
    (hr : c.lookupAt blockHashes maxLength curr g dropEagleBlock = .ok rows) :
    rows.length * g.spec.blockSize ≤ curr := by
  have hspec := lookupAt_spec hkind hr
  have hle := hspec.le
  unfold lookupBound at hle
  cases dropEagleBlock with
  | false => exact hle
  | true =>
    rw [if_pos rfl] at hle
    rcases hcurr with hcurr | rfl
    · cases hm : g.spec.isMamba with
      | true =>
        exact le_of_aligned hspec.aligned hcurr hdvd (hmamba (heagle rfl) hm)
          (hle.trans (min_le_left _ _))
      | false =>
        rcases eq_or_ne rows [] with rfl | hne
        · simp
        · have := (hspec.lookahead rfl hm hne).1
          rw [lookupBound, if_pos rfl, add_mul, one_mul] at this
          omega
    · exact hle.trans (min_le_right _ _)

/-- Rows of an aligned length whose needed part was found in the cache. -/
structure SoundRows (c : KVCacheCoordinator) (blockHashes : List BlockHash) (g : SpecGroup)
    (rows : List HitRow) : Prop where
  aligned : rows.length * g.spec.blockSize % c.schedulerBlockSize = 0
  needed : CacheHit.FoundIn c.blockPool (c.specHashes g.spec blockHashes) g.groupIds rows
    (g.spec.neededFrom rows.length) rows.length

theorem lookupAt_sound (hkind : g.spec.isHybridKind = true)
    (hr : c.lookupAt blockHashes maxLength curr g dropEagleBlock = .ok rows) :
    SoundRows c blockHashes g rows :=
  ⟨(lookupAt_spec hkind hr).aligned, (lookupAt_spec hkind hr).needed⟩

/-- In the middle of a pass that started with candidate `start`: the groups visited so far
have rows that reach the current candidate, and in the first pass the last ones reach just
that. -/
structure PassInv (c : KVCacheCoordinator) (groups : List SpecGroup)
    (blockHashes : List BlockHash) (maxLength : ℕ) (fresh : Prop) (start idx : ℕ)
    (scan : HybridScan) : Prop where
  groups_eq : scan.hits.map GroupHit.group = groups.take idx
  le : scan.currHitLength ≤ start
  aligned : scan.currHitLength % c.schedulerBlockSize = 0 ∨
    start % c.schedulerBlockSize ≠ 0 ∧ idx = 0 ∧ scan.currHitLength = maxLength
  each : ∀ hit ∈ scan.hits, ∃ rows, hit.rows = some rows ∧ SoundRows c blockHashes hit.group rows ∧
    scan.currHitLength ≤ rows.length * hit.group.spec.blockSize ∧
    (hit.group.spec.isFullAttention = false → rows.length * hit.group.spec.blockSize ≤ start)
  last : fresh → ∀ hit rows, scan.hits.getLast? = some hit → hit.rows = some rows →
    rows.length * hit.group.spec.blockSize = scan.currHitLength

/-- At the head of the loop: full attention groups that were looked up have rows that reach
the candidate. -/
structure HeadInv (c : KVCacheCoordinator) (groups : List SpecGroup)
    (blockHashes : List BlockHash) (maxLength hitLength : ℕ) (scan : HybridScan) : Prop where
  groups_eq : scan.hits.map GroupHit.group = groups
  le : hitLength ≤ maxLength
  first : hitLength = maxLength ∧ (∀ hit ∈ scan.hits, hit.rows = none) ∨
    hitLength % c.schedulerBlockSize = 0
  full : ∀ hit ∈ scan.hits, ∀ rows ∈ hit.rows, SoundRows c blockHashes hit.group rows ∧
    hitLength ≤ rows.length * hit.group.spec.blockSize

variable {hit : GroupHit} {scan : HybridScan}

variable {before : HybridScan}

theorem PassInv.aligned_of_rows {fresh : Prop} {start idx : ℕ}
    (h : PassInv c groups blockHashes maxLength fresh start idx scan)
    (hhead : HeadInv c groups blockHashes maxLength start before) (hmem : hit ∈ before.hits)
    (hsome : hit.rows.isSome = true) : scan.currHitLength % c.schedulerBlockSize = 0 := by
  rcases h.aligned with ha | ⟨hstart, -⟩
  · exact ha
  · rcases hhead.first with ⟨-, hnone⟩ | hfirst
    · rw [hnone hit hmem] at hsome
      simp at hsome
    · exact absurd hfirst hstart

theorem afterTrim_currHitLength (hdvd : hit.group.spec.blockSize ∣ c.schedulerBlockSize)
    (haligned : scan.currHitLength % c.schedulerBlockSize = 0) :
    (afterTrim scan hit).currHitLength = scan.currHitLength :=
  Nat.div_mul_cancel (hdvd.trans (Nat.dvd_of_mod_eq_zero haligned))

section
variable (hgroups : HybridGroups c groups) (hmamba : NoEagleMamba c groups)
include hgroups hmamba

theorem PassInv.lookup_le {fresh : Prop} {start idx hitIdx : ℕ}
    (h : PassInv c groups blockHashes maxLength fresh start idx scan) (hmem : g ∈ groups)
    (hr : c.lookupAt blockHashes maxLength scan.currHitLength g (dropsBlock scan hitIdx g) =
      .ok rows) : rows.length * g.spec.blockSize ≤ scan.currHitLength := by
  apply lookupAt_le (hgroups.kinds g hmem) (hgroups.divides g hmem) (hmamba g hmem) _
    (h.aligned.imp_right fun ha => ha.2.2) hr
  intro hdrop
  unfold dropsBlock at hdrop
  exact (Bool.and_eq_true_iff.mp hdrop).1

theorem PassInv.step {fresh : Prop} {start idx hitIdx : ℕ} {before : HybridScan}
    {scan' : HybridScan} (hhead : HeadInv c groups blockHashes maxLength start before)
    (hfresh : fresh → ∀ hit ∈ before.hits, hit.rows = none) (hget : before.hits[idx]? = some hit)
    (h : PassInv c groups blockHashes maxLength fresh start idx scan)
    (hr : c.hybridGroup blockHashes maxLength hitIdx hit scan = .ok scan') :
    PassInv c groups blockHashes maxLength fresh start (idx + 1) scan' := by
  have hgroup : groups[idx]? = some hit.group := by
    rw [← hhead.groups_eq, List.getElem?_map, hget]
    rfl
  have hmem : hit.group ∈ groups := mem_of_getElem? hgroup
  have htake : groups.take (idx + 1) = groups.take idx ++ [hit.group] := by
    rw [take_add_one, hgroup]
    rfl
  have hdvd := hgroups.divides _ hmem
  rcases hybridGroup_cases hr with ⟨hfull, hsome, rfl⟩ | ⟨-, rows, hlookup, rfl⟩
  · obtain ⟨rows, hrows⟩ := Option.isSome_iff_exists.mp hsome
    obtain ⟨hsound, hlen⟩ := hhead.full hit (mem_of_getElem? hget) rows hrows
    have haligned := h.aligned_of_rows hhead (mem_of_getElem? hget) hsome
    have hsame := afterTrim_currHitLength hdvd haligned
    refine ⟨?_, ?_, ?_, ?_, fun hf => ?_⟩
    · rw [htake, ← h.groups_eq]
      simp [afterTrim]
    · rw [hsame]
      exact h.le
    · rw [hsame]
      exact .inl haligned
    · rw [hsame]
      intro x hx
      rcases mem_append.mp hx with hx | hx
      · exact h.each x hx
      · obtain rfl := mem_singleton.mp hx
        exact ⟨rows, hrows, hsound, h.le.trans hlen, by simp [hfull]⟩
    · rw [hfresh hf hit (mem_of_getElem? hget)] at hrows
      simp at hrows
  · have hkind := hgroups.kinds _ hmem
    have hsound := lookupAt_sound hkind hlookup
    have hle := h.lookup_le hgroups hmamba hmem hlookup
    refine ⟨?_, ?_, ?_, ?_, fun _ x rows' hlast hrows' => ?_⟩
    · rw [htake, ← h.groups_eq]
      simp [afterLookup]
    · exact hle.trans h.le
    · exact .inl hsound.aligned
    · intro x hx
      rcases mem_append.mp hx with hx | hx
      · obtain ⟨rows', hrows', hsound', hreach, hcap⟩ := h.each x hx
        exact ⟨rows', hrows', hsound', hle.trans hreach, hcap⟩
      · obtain rfl := mem_singleton.mp hx
        exact ⟨rows, rfl, hsound, le_refl _, fun _ => hle.trans h.le⟩
    · rw [afterLookup, List.getLast?_append_cons] at hlast
      cases hlast
      obtain rfl : rows = rows' := Option.some.inj hrows'
      rfl

end

theorem PassInv.start {fresh : Prop} {start : ℕ}
    (hhead : HeadInv c groups blockHashes maxLength start before) :
    PassInv c groups blockHashes maxLength fresh start 0
      { before with currHitLength := start, hits := [] } := by
  refine ⟨rfl, le_refl _, ?_, by simp, by simp⟩
  rcases hhead.first with ⟨hmax, -⟩ | hfirst
  · by_cases hstart : start % c.schedulerBlockSize = 0
    · exact .inl hstart
    · exact .inr ⟨hstart, rfl, hmax⟩
  · exact .inl hfirst

section
variable (hgroups : HybridGroups c groups) (hmamba : NoEagleMamba c groups)
include hgroups hmamba

variable {before scan' : HybridScan}

theorem PassInv.pass {fresh : Prop} {start : ℕ}
    (hhead : HeadInv c groups blockHashes maxLength start before)
    (hfresh : fresh → ∀ hit ∈ before.hits, hit.rows = none)
    (hr : c.hybridPass blockHashes maxLength 0 before.hits
      { before with currHitLength := start, hits := [] } = .ok scan') :
    PassInv c groups blockHashes maxLength fresh start groups.length scan' := by
  have hlength : groups.length = 0 + before.hits.length := by
    rw [← hhead.groups_eq, length_map, zero_add]
  rw [hlength]
  refine hybridPass_invariant (PassInv c groups blockHashes maxLength fresh start)
    (fun i hit scan scan' hget hinv hone => ?_) (PassInv.start hhead) hr
  rw [zero_add] at hinv hone ⊢
  exact hinv.step hgroups hmamba hhead hfresh hget hone

theorem HeadInv.next (hne : groups ≠ []) {start : ℕ}
    (hhead : HeadInv c groups blockHashes maxLength start before)
    (hr : c.hybridPass blockHashes maxLength 0 before.hits
      { before with currHitLength := start, hits := [] } = .ok scan') :
    HeadInv c groups blockHashes maxLength scan'.currHitLength scan' := by
  have hpass := PassInv.pass hgroups hmamba hhead False.elim hr
  have hpos : groups.length ≠ 0 := by simpa using hne
  refine ⟨by rw [hpass.groups_eq, take_length], hpass.le.trans hhead.le, ?_, ?_⟩
  · rcases hpass.aligned with ha | ⟨-, hzero, -⟩
    · exact .inr ha
    · exact absurd hzero hpos
  · intro hit hhit rows hrows
    obtain ⟨rows', hrows', hsound, hreach, -⟩ := hpass.each hit hhit
    obtain rfl : rows' = rows := Option.some.inj (hrows'.symm.trans hrows)
    exact ⟨hsound, hreach⟩

end

theorem HeadInv.init (groups : List SpecGroup) :
    HeadInv c groups blockHashes maxLength maxLength
      { currHitLength := 0, longestHitLength := 0, eagleVerified := []
        hits := groups.map fun group => { group } } := by
  refine ⟨by simp [Function.comp_def], le_refl _, .inl ⟨rfl, ?_⟩, ?_⟩
  · intro hit hhit
    obtain ⟨g, -, rfl⟩ := mem_map.mp hhit
    rfl
  · intro hit hhit rows hrows
    obtain ⟨g, -, rfl⟩ := mem_map.mp hhit
    simp at hrows

/-- What the loop returns, before the first group is cut to the hit length: rows that reach
it, and just that where a group is looked up in the last pass. -/
structure LoopResult (c : KVCacheCoordinator) (groups : List SpecGroup)
    (blockHashes : List BlockHash) (maxLength hitLength : ℕ) (scan : HybridScan) : Prop where
  groups_eq : scan.hits.map GroupHit.group = groups
  le : hitLength ≤ maxLength
  aligned : hitLength % c.schedulerBlockSize = 0
  each : ∀ hit ∈ scan.hits, ∃ rows, hit.rows = some rows ∧ SoundRows c blockHashes hit.group rows ∧
    hitLength ≤ rows.length * hit.group.spec.blockSize
  last : ∀ (i : ℕ) hit rows, scan.hits[i]? = some hit → hit.rows = some rows →
    hit.group.spec.isFullAttention = false ∨ 0 < i ∧ groups.length = 2 →
    rows.length * hit.group.spec.blockSize = hitLength

/-- Whether the loop ends after its first pass. -/
def isSimpleHybrid (groups : List SpecGroup) : Bool :=
  groups.length = 2 ∧ (groups.head?.any fun g => g.spec.isFullAttention) = true

theorem hybridLoop_result (hgroups : HybridGroups c groups) (hmamba : NoEagleMamba c groups)
    (hne : groups ≠ [])
    (hsorted : ∀ (i j : ℕ) g g', i < j → groups[i]? = some g → groups[j]? = some g' →
      g'.spec.isFullAttention = true → g.spec.isFullAttention = true)
    {result : ℕ × HybridScan}
    (hr : c.hybridLoop blockHashes maxLength (isSimpleHybrid groups) (maxLength + 1) maxLength
      { currHitLength := 0, longestHitLength := 0, eagleVerified := []
        hits := groups.map fun group => { group } } = .ok result) :
    LoopResult c groups blockHashes maxLength result.1 result.2 := by
  let simple : Prop := isSimpleHybrid groups = true
  obtain ⟨n, before, ⟨hhead, hfresh⟩, hpass, hend⟩ := hybridLoop_last
    (fun n scan => HeadInv c groups blockHashes maxLength n scan ∧
      (simple → ∀ hit ∈ scan.hits, hit.rows = none))
    (fun n scan scan' hhead hpass hlt hs => ⟨hhead.1.next hgroups hmamba hne hpass, fun hs' => by
      rw [show isSimpleHybrid groups = true from hs'] at hs
      simp at hs⟩)
    ⟨HeadInv.init groups, fun _ hit hhit => by
      obtain ⟨g, -, rfl⟩ := mem_map.mp hhit
      rfl⟩ (lt_succ_self _) hr
  have hinv := PassInv.pass hgroups hmamba hhead hfresh hpass
  have hgroupsEq : result.2.hits.map GroupHit.group = groups := by
    rw [hinv.groups_eq, take_length]
  have hlength : result.2.hits.length = groups.length := by
    rw [← hgroupsEq, length_map]
  have haligned : result.2.currHitLength % c.schedulerBlockSize = 0 := by
    rcases hinv.aligned with ha | ⟨-, hzero, -⟩
    · exact ha
    · exact absurd hzero (by simpa using hne)
  have hgroupAt {i : ℕ} {hit : GroupHit} (hget : result.2.hits[i]? = some hit) :
      groups[i]? = some hit.group := by
    rw [← hgroupsEq, List.getElem?_map, hget]
    rfl
  have hlast {hit : GroupHit} {rows : List HitRow} (hs : simple)
      (hget : result.2.hits[1]? = some hit) (hrows : hit.rows = some rows) :
      rows.length * hit.group.spec.blockSize = result.2.currHitLength := by
    apply hinv.last hs hit rows _ hrows
    have htwo : result.2.hits.length = 2 := by
      rw [hlength]
      simp only [simple, isSimpleHybrid, decide_eq_true_eq] at hs
      exact hs.1
    rw [List.getLast?_eq_getElem?, htwo]
    exact hget
  rcases hend with ⟨hdone, hres⟩ | ⟨hs, hlt, hres⟩
  · have hcurr : result.2.currHitLength = n := le_antisymm hinv.le hdone
    rw [hres, ← hcurr]
    refine ⟨hgroupsEq, hinv.le.trans hhead.le, haligned, fun hit hhit => ?_,
      fun i hit rows hget hrows hcase => ?_⟩
    · obtain ⟨rows, hrows, hsound, hreach, -⟩ := hinv.each hit hhit
      exact ⟨rows, hrows, hsound, hreach⟩
    · obtain ⟨rows', hrows', -, hreach, hcap⟩ := hinv.each hit (mem_of_getElem? hget)
      obtain rfl : rows' = rows := Option.some.inj (hrows'.symm.trans hrows)
      cases hfull : hit.group.spec.isFullAttention with
      | false =>
        have := hcap hfull
        omega
      | true =>
        obtain ⟨hi, htwo⟩ := hcase.resolve_left (by simp [hfull])
        obtain rfl : i = 1 := by
          have := (List.getElem?_eq_some_iff.mp hget).1
          omega
        have hs : simple := by
          have hlt0 : 0 < groups.length := by omega
          have hfirst := hsorted 0 1 _ _ zero_lt_one (List.getElem?_eq_getElem hlt0)
            (hgroupAt hget) hfull
          simp only [simple, isSimpleHybrid, decide_eq_true_eq]
          refine ⟨htwo, ?_⟩
          rw [List.head?_eq_getElem?, List.getElem?_eq_getElem hlt0]
          exact hfirst
        exact hlast hs hget hrows
  · rw [hres]
    refine ⟨hgroupsEq, hinv.le.trans hhead.le, haligned, fun hit hhit => ?_,
      fun i hit rows hget hrows hcase => ?_⟩
    · obtain ⟨rows, hrows, hsound, hreach, -⟩ := hinv.each hit hhit
      exact ⟨rows, hrows, hsound, hreach⟩
    · have hpair := hs
      simp only [isSimpleHybrid, decide_eq_true_eq] at hpair
      obtain ⟨htwo, hfirst⟩ := hpair
      have hi := (List.getElem?_eq_some_iff.mp hget).1
      rcases Nat.eq_zero_or_pos i with rfl | hpos
      · rw [List.head?_eq_getElem?, hgroupAt hget] at hfirst
        rcases hcase with hcase | hcase
        · rw [Option.any_some, hcase] at hfirst
          simp at hfirst
        · exact absurd hcase.1 (lt_irrefl 0)
      · obtain rfl : i = 1 := by omega
        exact hlast hs hget hrows

end KVCacheCoordinator

end Vllm
