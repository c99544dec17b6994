import Vllm.Lib.HitRuns
import Vllm.Offload.Lookup

/-! One group of the lookup, for a manager whose answers are fixed: the hit becomes the longest one
that the group accepts. -/
namespace Vllm
open HitRuns Nat
variable {M : Type} {look : M → OffloadKey → Option Bool × M} {present : OffloadKey → Bool}
  {I : M → Prop} {config : SchedulerOffloadConfig} {m : M}

/-- The answers are fixed: true for the keys of `present`. `I` holds of the states of the manager
that lookups lead to. -/
structure Steady (look : M → OffloadKey → Option Bool × M) (present : OffloadKey → Bool)
    (I : M → Prop) : Prop where
  answer : ∀ m k, I m → (look m k).1 = some (present k)
  keeps : ∀ m k, I m → I (look m k).2

section
variable (h : Steady look present I) (hm : I m)
include h hm

theorem Steady.look_eq (k : OffloadKey) : ∃ m', I m' ∧ look m k = (some (present k), m') :=
  ⟨(look m k).2, h.keeps m k hm, Prod.ext (h.answer m k hm) rfl⟩

theorem maximalPrefixLookup_steady (n : ℕ) (keys : List OffloadKey) : ∃ m', I m' ∧
      maximalPrefixLookup look m n false keys = (some (n + reach present keys), m') := by
  induction keys generalizing m n with
  | nil => exact ⟨m, hm, rfl⟩
  | cons k keys ih =>
    rcases h.look_eq hm k with ⟨m1, hm1, hlook⟩
    unfold maximalPrefixLookup reach
    rw [hlook]
    cases present k with
    | true =>
      rcases ih hm1 (n + 1) with ⟨m2, hm2, hrest⟩
      refine ⟨m2, hm2, ?_⟩
      rw [if_pos rfl, ← add_assoc, add_right_comm]
      exact hrest
    | false => exact ⟨m1, hm1, rfl⟩

theorem slidingWindowLookup_steady (size n : ℕ) (keys : List OffloadKey) : ∃ m', I m' ∧
      slidingWindowLookup look size m n false keys = (some (lastEnd present size keys n), m') := by
  induction keys generalizing m n with
  | nil => exact ⟨m, hm, rfl⟩
  | cons k keys ih =>
    rcases h.look_eq hm k with ⟨m1, hm1, hlook⟩
    unfold slidingWindowLookup lastEnd
    rw [hlook]
    cases present k with
    | true =>
      dsimp only
      rw [if_pos rfl]
      by_cases hsize : n + 1 = size
      · rw [if_pos hsize, if_pos hsize]
        exact ⟨m1, hm1, rfl⟩
      · rw [if_neg hsize, if_neg hsize]
        exact ih hm1 (n + 1)
    | false => exact ih hm1 0

end

namespace GroupOffloadConfig
variable (g : GroupOffloadConfig) (keys : List OffloadKey) (c : ℕ)

/-- The first block that a hit up to a token needs in the group, in whole blocks. -/
def firstNeeded (maxHit : ℕ) : ℕ :=
  max (c / g.offloadedBlockSize)
    (firstHit (cdiv maxHit g.offloadedBlockSize) g.slidingWindowSizeInBlocks)

/-- The blocks that the lookup wants are present for a hit up to a token. -/
def Accepts (present : OffloadKey → Bool) (maxHit : ℕ) : Prop :=
  Hits present keys (g.firstNeeded c maxHit) (cdiv maxHit g.offloadedBlockSize)

/-- The end of the hit after the group, if it is worth a block. -/
def tighten (present : OffloadKey → Bool) (maxHit : ℕ) : Option ℕ :=
  let maxHit := min maxHit (keys.length * g.offloadedBlockSize)
  if maxHit - c < g.offloadedBlockSize then none
  else
    let start := c / g.offloadedBlockSize
    let r := hitEnd present (slice keys start
      (min (cdiv maxHit g.offloadedBlockSize) keys.length)) g.slidingWindowSizeInBlocks
    if r = 0 then none
    else
      let maxHit := min maxHit (g.offloadedBlockSize * (start + r))
      if maxHit - c < g.offloadedBlockSize then none else some maxHit

/-- Blocks and windows are not empty. -/
structure Proper : Prop where
  block : 0 < g.offloadedBlockSize
  window : ∀ n, g.slidingWindowSizeInBlocks = some n → 0 < n

end GroupOffloadConfig

theorem lookupBlocks_steady (h : Steady look present I) (hm : I m) (g : GroupOffloadConfig)
    (keys : List OffloadKey) : ∃ m', I m' ∧
      lookupBlocks look g m keys = (some (hitEnd present keys g.slidingWindowSizeInBlocks), m') := by
  unfold lookupBlocks hitEnd
  cases g.slidingWindowSizeInBlocks with
  | none =>
    rcases maximalPrefixLookup_steady h hm 0 keys with ⟨m', hm', heq⟩
    rw [zero_add] at heq
    exact ⟨m', hm', heq⟩
  | some size => exact slidingWindowLookup_steady h hm size 0 keys.reverse

/-- What the loop goes on with after a group. -/
def stepTo (config : SchedulerOffloadConfig) (s : LookupState M) (m : M) (g : GroupOffloadConfig)
    (c : ℕ) : Option ℕ → LookupStep M
  | none => .miss m
  | some maxHit => .go (s.next config m g.slidingWindowSizeInBlocks.isSome false maxHit (maxHit - c))

theorem lookupIn_steady (h : Steady look present I) {s : LookupState M} (hm : I s.manager)
    (g : GroupOffloadConfig) (gs : RequestGroupState) (c : ℕ) : ∃ m', I m' ∧
      lookupIn look config g gs c s =
        stepTo config s m' g c (g.tighten gs.offloadKeys c present s.maxHitSizeTokens) := by
  unfold lookupIn GroupOffloadConfig.tighten
  dsimp only
  generalize min s.maxHitSizeTokens (gs.offloadKeys.length * g.offloadedBlockSize) = maxHit
  by_cases hshort : maxHit - c < g.offloadedBlockSize
  · rw [if_pos hshort, if_pos hshort]
    exact ⟨s.manager, hm, rfl⟩
  · rw [if_neg hshort, if_neg hshort]
    generalize slice gs.offloadKeys _ _ = keys
    rcases lookupBlocks_steady h hm g keys with ⟨m', hm', hfound⟩
    refine ⟨m', hm', ?_⟩
    rw [hfound]
    dsimp only [Option.isNone_some]
    by_cases hzero : hitEnd present keys g.slidingWindowSizeInBlocks = 0
    · rw [hzero, if_pos rfl, if_pos rfl]
      rfl
    · rw [if_neg fun heq => hzero (Option.some.inj heq), if_neg hzero]
      split_ifs
      · rfl
      · rfl

namespace GroupOffloadConfig
variable {g : GroupOffloadConfig} {keys : List OffloadKey} {c maxHit maxHit' : ℕ}

theorem cdiv_le_of_le_mul {a b n : ℕ} (hb : 0 < b) (h : a ≤ n * b) : cdiv a b ≤ n := by
  by_contra hlt
  have hmul := (GridLoop.lt_ceilDiv_iff hb).mp (not_le.mp hlt)
  omega

theorem cdiv_mul_left (b n : ℕ) (hb : 0 < b) : cdiv (b * n) b = n := by
  apply le_antisymm
  · exact cdiv_le_of_le_mul hb (mul_comm b n).le
  · by_contra hlt
    have hle : b * n ≤ cdiv (b * n) b * b := GridLoop.le_ceilDiv_mul hb
    have hmul := mul_lt_mul_of_pos_right (not_le.mp hlt) hb
    rw [mul_comm n b] at hmul
    omega

theorem cdiv_le_cdiv {a a' b : ℕ} (h : a ≤ a') : cdiv a b ≤ cdiv a' b :=
  Nat.div_le_div_right (by omega)

theorem start_lt (hg : g.Proper) (h : g.offloadedBlockSize ≤ maxHit - c) :
    c / g.offloadedBlockSize < cdiv maxHit g.offloadedBlockSize := by
  have hpos := hg.block
  apply (GridLoop.lt_ceilDiv_iff hg.block).mpr
  have hle := div_mul_le_self c g.offloadedBlockSize
  omega

theorem firstNeeded_eq {r : ℕ} (hr : cdiv maxHit g.offloadedBlockSize =
    c / g.offloadedBlockSize + r) : g.firstNeeded c maxHit =
      c / g.offloadedBlockSize + firstHit r g.slidingWindowSizeInBlocks := by
  unfold firstNeeded firstHit
  rw [hr]
  generalize c / g.offloadedBlockSize = start
  cases g.slidingWindowSizeInBlocks with
  | none => exact max_eq_left (zero_le _)
  | some n =>
    dsimp only
    omega

theorem Accepts.end_le {present : OffloadKey → Bool} (hg : g.Proper)
    (h : g.Accepts keys c present maxHit) (hc : c < maxHit) :
    cdiv maxHit g.offloadedBlockSize ≤ keys.length := by
  have hhits : Hits present keys (g.firstNeeded c maxHit) (cdiv maxHit g.offloadedBlockSize) := h
  have hlast : 0 < cdiv maxHit g.offloadedBlockSize :=
    (GridLoop.lt_ceilDiv_iff hg.block).mpr (by omega)
  apply hhits.le_length
  unfold firstNeeded
  apply max_lt
  · apply (GridLoop.lt_ceilDiv_iff hg.block).mpr
    exact (div_mul_le_self _ _).trans_lt hc
  · unfold firstHit
    cases hwindow : g.slidingWindowSizeInBlocks with
    | none => exact hlast
    | some n =>
      have hn := hg.window n hwindow
      dsimp only
      omega

theorem tighten_eq_some (hg : g.Proper) {present : OffloadKey → Bool}
    (h : g.tighten keys c present maxHit = some maxHit') :
    maxHit' ≤ maxHit ∧ maxHit' ≤ keys.length * g.offloadedBlockSize ∧
      g.offloadedBlockSize ≤ maxHit' - c ∧ g.Accepts keys c present maxHit' ∧
      (maxHit' = maxHit ∨ g.offloadedBlockSize ∣ maxHit') := by
  have hpos := hg.block
  unfold tighten at h
  dsimp only at h
  generalize hM1 : min maxHit (keys.length * g.offloadedBlockSize) = M1 at h
  have hM1' : M1 ≤ maxHit ∧ M1 ≤ keys.length * g.offloadedBlockSize := by omega
  have hblocks : cdiv M1 g.offloadedBlockSize ≤ keys.length := cdiv_le_of_le_mul hpos hM1'.2
  rw [min_eq_left hblocks] at h
  split_ifs at h with hshort hzero hless
  cases h
  generalize hr : hitEnd present _ _ = r at hzero hless ⊢
  have hends := (hits_hitEnd (p := present) (slice keys (c / g.offloadedBlockSize)
    (cdiv M1 g.offloadedBlockSize)) hg.window).1
  rw [hr] at hends
  have hlength := hends.le_length (by
    unfold firstHit
    cases hsize : g.slidingWindowSizeInBlocks with
    | none => exact pos_of_ne_zero hzero
    | some n =>
      have := hg.window n hsize
      dsimp only
      omega)
  unfold slice at hlength hends
  rw [List.length_take, List.length_drop] at hlength
  have hend : cdiv (min M1 (g.offloadedBlockSize * (c / g.offloadedBlockSize + r)))
      g.offloadedBlockSize = c / g.offloadedBlockSize + r := by
    rcases le_total M1 (g.offloadedBlockSize * (c / g.offloadedBlockSize + r)) with hle | hle
    · rw [min_eq_left hle]
      have hup := cdiv_le_of_le_mul hpos (hle.trans (mul_comm _ _).le)
      omega
    · rw [min_eq_right hle]
      exact cdiv_mul_left _ _ hpos
  refine ⟨by omega, by omega, not_lt.mp hless, ?_, ?_⟩
  · unfold Accepts
    rw [firstNeeded_eq hend, hend]
    exact hends.drop_take
  · rcases le_total M1 (g.offloadedBlockSize * (c / g.offloadedBlockSize + r)) with hle | hle
    · rw [min_eq_left hle]
      rcases le_total maxHit (keys.length * g.offloadedBlockSize) with hle' | hle'
      · exact Or.inl (by omega)
      · refine Or.inr ?_
        rw [← hM1, min_eq_right hle']
        exact Dvd.intro_left _ rfl
    · rw [min_eq_right hle]
      exact Or.inr (Dvd.intro _ rfl)

theorem tighten_of_accepts (hg : g.Proper) {present : OffloadKey → Bool} {hit : ℕ}
    (haccepts : g.Accepts keys c present hit) (hle : hit ≤ maxHit)
    (hblock : g.offloadedBlockSize ≤ hit - c) :
    ∃ maxHit', g.tighten keys c present maxHit = some maxHit' ∧ hit ≤ maxHit' := by
  have hpos := hg.block
  have hstart := start_lt hg hblock
  rcases Nat.exists_eq_add_of_lt hstart with ⟨r, hr⟩
  rw [add_assoc] at hr
  have hfirst := firstNeeded_eq hr
  unfold Accepts at haccepts
  rw [hfirst, hr] at haccepts
  have hlength := haccepts.le_length (by
    unfold firstHit
    cases hsize : g.slidingWindowSizeInBlocks with
    | none =>
      dsimp only
      omega
    | some n =>
      have := hg.window n hsize
      dsimp only
      omega)
  have hmul := GridLoop.le_ceilDiv_mul (x := hit) hpos
  change hit ≤ cdiv hit g.offloadedBlockSize * g.offloadedBlockSize at hmul
  rw [hr] at hmul
  have hkeys : hit ≤ keys.length * g.offloadedBlockSize := hmul.trans (mul_le_mul_right _ hlength)
  unfold tighten
  dsimp only
  generalize hM1 : min maxHit (keys.length * g.offloadedBlockSize) = M1
  have hM1' : hit ≤ M1 ∧ M1 ≤ keys.length * g.offloadedBlockSize := by omega
  have hblocks : cdiv M1 g.offloadedBlockSize ≤ keys.length := cdiv_le_of_le_mul hpos hM1'.2
  rw [min_eq_left hblocks, if_neg (by omega)]
  have hmono : cdiv hit g.offloadedBlockSize ≤ cdiv M1 g.offloadedBlockSize := cdiv_le_cdiv hM1'.1
  rw [hr] at hmono
  have hlast := (hits_hitEnd (p := present) (slice keys (c / g.offloadedBlockSize)
    (cdiv M1 g.offloadedBlockSize)) hg.window).2 (r + 1)
    (Hits.of_drop_take haccepts (by omega))
  generalize hitEnd present _ _ = r' at hlast ⊢
  rw [if_neg (by omega)]
  have hreach : hit ≤ g.offloadedBlockSize * (c / g.offloadedBlockSize + r') := by
    rw [mul_comm]
    exact hmul.trans (mul_le_mul_right _ (by omega))
  rw [if_neg (by omega)]
  exact ⟨_, rfl, by omega⟩

end GroupOffloadConfig

end Vllm
