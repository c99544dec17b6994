import Vllm.Moe.Experts

/-! The fixed-capacity path of DeepEP high throughput computes the rows of the baseline. -/
namespace Vllm.Moe
open GridLoop Nat

theorem kernelExpert_of_lt {n : ℕ} {m : ExpertMap} {id : ℤ} (hn : n < 1024) (h0 : 0 ≤ id)
    (h : id < n) : kernelExpert n (some m) id =
      if m.read id = -1 then none else some (m.read id).toNat := by
  rw [kernelExpert_eq hn, Int.emod_eq_of_lt h0 (by omega), validExpert, if_pos ⟨h0, h⟩]
  rfl

theorem kernelExpert_none_of_lt {n : ℕ} {id : ℤ} (hn : n < 1024) (h0 : 0 ≤ id) (h : id < n) :
    kernelExpert n none id = some id.toNat := by
  rw [kernelExpert_eq hn, Int.emod_eq_of_lt h0 (by omega), validExpert, if_pos ⟨h0, h⟩]
  rfl

namespace Placement
variable {p : Placement} (memory : ℤ → ℤ)

theorem rankExpertOffset_add_le (p : Placement) :
    p.rankExpertOffset + p.localNumExperts ≤ p.globalNumExperts := by
  have := mul_le_mul_right p.localNumExperts (show p.rank + 1 ≤ p.epSize from p.rank_lt)
  rw [add_mul, one_mul] at this
  rw [rankExpertOffset, globalNumExperts, mul_comm p.localNumExperts]
  exact this

theorem determineExpertMap_read (h : p.globalNumExperts < 2 ^ 31) {i : ℤ} (h0 : 0 ≤ i)
    (hi : i < p.globalNumExperts) :
    (determineExpertMap p.epSize p.rank p.globalNumExperts memory h).read i =
      if (p.rankExpertOffset : ℤ) ≤ i ∧ i < p.rankExpertOffset + p.localNumExperts then
        i - p.rankExpertOffset
      else -1 := by
  have hep : 0 < p.epSize := lt_trans one_pos p.one_lt_epSize
  have hdiv : p.globalNumExperts / p.epSize = p.localNumExperts := Nat.mul_div_cancel _ hep
  have hmod : p.globalNumExperts % p.epSize = 0 := mul_mod_left _ _
  simp only [determineExpertMap, hdiv, hmod]
  rw [if_pos ⟨h0, hi⟩, if_neg (not_lt_zero _), min_zero, add_zero, rankExpertOffset]

theorem determineExpertMap_wellFormed (p : Placement) (h : p.globalNumExperts < 2 ^ 31) :
    (determineExpertMap p.epSize p.rank p.globalNumExperts memory h).WellFormed
      p.globalNumExperts := by
  refine ⟨le_rfl, fun i hi => ?_⟩
  have hi : i < p.globalNumExperts := hi
  rw [determineExpertMap_read memory h (by omega) (by exact_mod_cast hi)]
  split
  · right
    omega
  · exact .inl rfl

theorem invalidExpertId_not_local (p : Placement) :
    let id : ℤ := if (p.rankExpertOffset : ℤ) = 0 then (p.globalNumExperts : ℤ) - 1 else 0
    0 ≤ id ∧ id < p.globalNumExperts ∧
      ¬((p.rankExpertOffset : ℤ) ≤ id ∧ id < p.rankExpertOffset + p.localNumExperts) := by
  have hpos := p.local_pos
  have htwo : 2 * p.localNumExperts ≤ p.globalNumExperts := by
    rw [globalNumExperts, mul_comm]
    exact mul_le_mul_left _ p.one_lt_epSize
  split <;> omega

theorem getLocalExpertMap_wellFormed (L : ℕ) (h : L + 1 < 2 ^ 31) :
    (getLocalExpertMap L memory h).WellFormed L := by
  refine ⟨le_succ L, fun i hi => ?_⟩
  have hi : i < L + 1 := hi
  simp only [getLocalExpertMap]
  split
  · right
    omega
  · left
    rw [if_pos (by omega)]

end Placement

section Output
variable {X H A Y S : Type} [Zero H] [Semiring S] [AddCommMonoid Y] [Module S Y]
  {layer : ExpertLayer X H A Y} {p : Placement} {received : RoutedTokens X S}
  {memory : ℤ → ℤ} {c1 c2 : AlignConfig}

/-- What a route adds to the output row of its token. -/
def routeTerm (layer : ExpertLayer X H A Y) (received : RoutedTokens X S) (i : ℕ) : Y :=
  let id := received.topkIds.getD i (-1)
  if id = -1 then 0
  else received.topkWeights i • layer.w2 id (layer.activation
    (layer.w1 id (received.hiddenStates (i / received.topK))))

omit [Semiring S] in
theorem route_lt_length {m n : ℕ} (hm : m < received.numTokens) (hn : n < received.topK) :
    m * received.topK + n < received.topkIds.length := by
  have := mul_le_mul_right received.topK (show m + 1 ≤ received.numTokens from hm)
  rw [add_mul, one_mul] at this
  rw [received.length_topkIds]
  omega

theorem getLocalExpertMap_read (memory : ℤ → ℤ) (L : ℕ) (h : L + 1 < 2 ^ 31) {id : ℤ} (h0 : 0 ≤ id)
    (hid : id < L) : (getLocalExpertMap L memory h).read id = id :=
  if_pos ⟨h0, hid⟩

section
variable (h1 : c1.numExperts = p.localNumExperts) (h2 : c2.numExperts = p.localNumExperts)
include h1 h2

theorem rawLocal_row {masked : Bool}
    (run : ExpertsRun layer received (p.rawLocalAssignment memory c1 c2 h1 h2 masked)) {i : ℕ}
    (hi : i < received.topkIds.length) (h0 : 0 ≤ received.topkIds[i])
    (hlt : received.topkIds[i] < p.localNumExperts) :
    run.cache3 i = layer.w2 received.topkIds[i] (layer.activation
      (layer.w1 received.topkIds[i] (received.hiddenStates (i / received.topK)))) := by
  have hn := c1.numExperts_lt
  have hwf := Placement.getLocalExpertMap_wellFormed memory p.localNumExperts (by omega)
  have hread := getLocalExpertMap_read memory p.localNumExperts (by omega) h0 hlt
  have hroute : (p.rawLocalAssignment memory c1 c2 h1 h2 masked).route received.topkIds i =
      some received.topkIds[i].toNat := by
    rw [Assignment.route, kernelRoute, List.getElem?_eq_getElem hi]
    change kernelExpert c1.numExperts (some (getLocalExpertMap p.localNumExperts memory _)) _ = _
    rw [kernelExpert_of_lt hn h0 (by omega), hread, if_neg (by omega)]
  have hmasked : 0 ≤ maskedLocalExpert
      (p.rawLocalAssignment memory c1 c2 h1 h2 masked).expertMap received.topkIds
      received.topK i := by
    simp only [maskedLocalExpert, div_add_mod', List.getD, List.getElem?_eq_getElem hi,
      Option.getD_some]
    rw [if_pos h0]
    change 0 ≤ (getLocalExpertMap p.localNumExperts memory _).read _
    rwa [hread]
  have hexpert : finalExpert (some (p.rawLocalAssignment memory c1 c2 h1 h2 masked).expertMap)
      true received.topkIds[i].toNat = received.topkIds[i] := Int.toNat_of_nonneg h0
  have hrow := run.cache3_scheduled (h1 ▸ hwf) hi hroute (fun _ => hmasked) (by
    change finalExpert _ true _ ≠ -1
    rw [hexpert]
    omega)
  change run.cache3 i = layer.w2 (finalExpert _ true _) (layer.activation
    (layer.w1 (finalExpert _ true _) _)) at hrow
  rwa [hexpert] at hrow

theorem rawLocal_output {masked : Bool}
    (hids : ∀ id ∈ received.topkIds, -1 ≤ id ∧ id < (p.localNumExperts : ℤ))
    (run : ExpertsRun layer received (p.rawLocalAssignment memory c1 c2 h1 h2 masked)) {m : ℕ}
    (hm : m < received.numTokens) :
    run.output m = (List.range received.topK).foldl
      (fun acc n => acc + routeTerm layer received (m * received.topK + n)) 0 := by
  have hn := c1.numExperts_lt
  change moeFusedMulSum run.cache3 received.topkWeights received.topK received.topkIds
    (getLocalExpertMap p.localNumExperts memory _) m = _
  refine List.foldl_ext _ _ _ fun acc n hmem => ?_
  have hi := route_lt_length hm (List.mem_range.mp hmem)
  obtain ⟨hlo, hhi⟩ := hids _ (List.getElem_mem hi)
  congr 1
  simp only [mulSumLocalExpert, routeTerm, List.getD, List.getElem?_eq_getElem hi, Option.getD_some]
  by_cases hneg : received.topkIds[m * received.topK + n] = -1
  · simp [hneg]
  · have hsize : received.topkIds[m * received.topK + n] <
        ((getLocalExpertMap p.localNumExperts memory (by omega)).size : ℤ) := by
      change _ < ((p.localNumExperts + 1 : ℕ) : ℤ)
      omega
    have hload := getLocalExpertMap_read memory p.localNumExperts (by omega)
      (show 0 ≤ received.topkIds[m * received.topK + n] by omega) hhi
    rw [if_pos (c := _ ∧ _) ⟨by omega, hsize⟩, hload, if_pos (by omega), if_neg hneg,
      rawLocal_row h1 h2 run hi (by omega) hhi]

end

omit [Semiring S] in
theorem baselineTokens_id {rows : ℕ} (hrows : rows ≤ received.numTokens) {i : ℕ}
    (hi : i < received.topkIds.length) (hir : i < rows * received.topK) :
    (p.baselineTokens received rows hrows).topkIds[i]? = some
      (if received.topkIds[i] = -1 then
        (if (p.rankExpertOffset : ℤ) = 0 then (p.globalNumExperts : ℤ) - 1 else 0)
      else received.topkIds[i] + p.rankExpertOffset) := by
  simp only [Placement.baselineTokens, receiverTopkIds, remapDeepepHtTopkIds,
    Bool.false_eq_true, if_false, List.getElem?_map, List.getElem?_take, hir, if_true,
    List.getElem?_eq_getElem hi, Option.map_some]

theorem baseline_row (h1 : c1.numExperts = p.globalNumExperts)
    (h2 : c2.numExperts = p.globalNumExperts) {rows : ℕ} (hrows : rows ≤ received.numTokens)
    (hids : ∀ id ∈ received.topkIds, -1 ≤ id ∧ id < (p.localNumExperts : ℤ))
    (run : ExpertsRun layer (p.baselineTokens received rows hrows)
      (p.baselineAssignment memory c1 c2 h1 h2)) {i : ℕ}
    (hir : i < rows * received.topK) : run.cache3 i = routeTerm layer received i := by
  have hn := c1.numExperts_lt
  have hle := p.rankExpertOffset_add_le
  have hi : i < received.topkIds.length := by
    have := mul_le_mul_right received.topK hrows
    rw [received.length_topkIds]
    omega
  have hib : i < (p.baselineTokens received rows hrows).topkIds.length := by
    rw [RoutedTokens.length_topkIds]
    exact hir
  obtain ⟨hlo, hhi⟩ := hids _ (List.getElem_mem hi)
  have hwf := Placement.determineExpertMap_wellFormed memory p (by omega)
  have hid := baselineTokens_id (p := p) hrows hi hir
  obtain ⟨hinv0, hinv, hinvlocal⟩ := p.invalidExpertId_not_local
  have hroute {id : ℤ} (hid : (p.baselineTokens received rows hrows).topkIds[i]? = some id)
      (h0 : 0 ≤ id) (hlt : id < p.globalNumExperts) :
      (p.baselineAssignment memory c1 c2 h1 h2).route
        (p.baselineTokens received rows hrows).topkIds i = some id.toNat := by
    rw [Assignment.route, kernelRoute, hid]
    exact kernelExpert_none_of_lt hn h0 (h1 ▸ hlt)
  have hfinal {id : ℤ} (h0 : 0 ≤ id) (hlt : id < p.globalNumExperts) :
      finalExpert (some (p.baselineAssignment memory c1 c2 h1 h2).expertMap) false id.toNat =
        if (p.rankExpertOffset : ℤ) ≤ id ∧ id < p.rankExpertOffset + p.localNumExperts then
          id - p.rankExpertOffset
        else -1 := by
    change (determineExpertMap p.epSize p.rank p.globalNumExperts memory _).read id.toNat = _
    rw [Int.toNat_of_nonneg h0, Placement.determineExpertMap_read _ _ h0 hlt]
  simp only [routeTerm, List.getD, List.getElem?_eq_getElem hi, Option.getD_some]
  by_cases hneg : received.topkIds[i] = -1
  · rw [if_pos hneg] at hid ⊢
    refine run.cache3_zero (h1 ▸ hwf) hib (hroute hid hinv0 hinv) ?_
    exact (hfinal hinv0 hinv).trans (if_neg hinvlocal)
  · rw [if_neg hneg] at hid ⊢
    have hexpert := (hfinal (show 0 ≤ received.topkIds[i] + p.rankExpertOffset by omega)
      (by omega)).trans (if_pos ⟨by omega, by omega⟩)
    rw [Int.add_sub_cancel] at hexpert
    have hrow := run.cache3_scheduled (h1 ▸ hwf) hib (hroute hid (by omega) (by omega))
      (fun h => absurd h (by simp [Placement.baselineAssignment])) (by
        change finalExpert _ false _ ≠ -1
        rw [hexpert]
        exact hneg)
    change run.cache3 i = received.topkWeights i • layer.w2 (finalExpert _ false _)
      (layer.activation (layer.w1 (finalExpert _ false _) _)) at hrow
    rwa [hexpert] at hrow

/-- On every rank, the path that keeps raw local ids yields the output rows of the baseline:
for all received ids, router weights and per-expert functions, any padding rows behind the
received ones, and every execution of both. -/
theorem rawLocal_output_eq_baseline (p : Placement) (layer : ExpertLayer X H A Y)
    (received : RoutedTokens X S)
    (hids : ∀ id ∈ received.topkIds, -1 ≤ id ∧ id < (p.localNumExperts : ℤ)) (rows : ℕ)
    (hrows : rows ≤ received.numTokens) {memory memory' : ℤ → ℤ}
    {fast1 fast2 base1 base2 : AlignConfig} (hf1 : fast1.numExperts = p.localNumExperts)
    (hf2 : fast2.numExperts = p.localNumExperts) (hb1 : base1.numExperts = p.globalNumExperts)
    (hb2 : base2.numExperts = p.globalNumExperts) (masked : Bool)
    (fast : ExpertsRun layer received (p.rawLocalAssignment memory fast1 fast2 hf1 hf2 masked))
    (baseline : ExpertsRun layer (p.baselineTokens received rows hrows)
      (p.baselineAssignment memory' base1 base2 hb1 hb2)) (m : ℕ) (hm : m < rows) :
    fast.output m = baseline.output m := by
  rw [rawLocal_output hf1 hf2 hids fast (lt_of_lt_of_le hm hrows)]
  change _ = moeSum baseline.cache3 received.topK m
  refine List.foldl_ext _ _ _ fun acc n hn => ?_
  have hir : m * received.topK + n < rows * received.topK := by
    have := mul_le_mul_right received.topK (show m + 1 ≤ rows from hm)
    rw [add_mul, one_mul] at this
    have := List.mem_range.mp hn
    omega
  rw [baseline_row hb1 hb2 hrows hids baseline hir]

end Output

/-- The first of two ranks with one expert each. -/
def twoRanks : Placement := ⟨1, 2, 0, by decide, by decide, by decide⟩

/-- One token with a valid and an invalid route, and a padding row. -/
def paddedToken : RoutedTokens ℚ ℚ :=
  ⟨2, 2, [0, -1, -1, -1], rfl, fun i => i + 1, fun _ => 3⟩

def scaleLayer : ExpertLayer ℚ ℚ ℚ ℚ := ⟨fun _ x => 2 * x, fun x => x + 1, fun _ x => 5 * x⟩

def zeroWorkspaces : Workspaces ℚ ℚ ℚ := ⟨fun _ => 0, fun _ => 0, fun _ _ => 0⟩

def oneExpert : AlignConfig :=
  ⟨1, 4, 32, twoExperts.blockSize_pos, twoExperts.warpSize_pos, by decide⟩

theorem rawLocal_output_eq_baseline_paddedToken :
    (∀ id ∈ paddedToken.topkIds, -1 ≤ id ∧ id < (twoRanks.localNumExperts : ℤ)) ∧
    Nonempty (ExpertsRun scaleLayer paddedToken
      (twoRanks.rawLocalAssignment (fun _ => 7) oneExpert oneExpert rfl rfl true)) ∧
    Nonempty (ExpertsRun scaleLayer (twoRanks.baselineTokens paddedToken 1 (by decide))
      (twoRanks.baselineAssignment (fun _ => 7) twoExperts twoExperts rfl rfl)) ∧
    ∀ (fast : ExpertsRun scaleLayer paddedToken
        (twoRanks.rawLocalAssignment (fun _ => 7) oneExpert oneExpert rfl rfl true))
      (baseline : ExpertsRun scaleLayer (twoRanks.baselineTokens paddedToken 1 (by decide))
        (twoRanks.baselineAssignment (fun _ => 7) twoExperts twoExperts rfl rfl)),
      fast.output 0 = baseline.output 0 :=
  ⟨by decide, (ExpertsRun.exists_run _ _ _ zeroWorkspaces).nonempty,
    (ExpertsRun.exists_run _ _ _ zeroWorkspaces).nonempty, fun fast baseline =>
    rawLocal_output_eq_baseline twoRanks scaleLayer paddedToken (by decide) 1 (by decide) rfl rfl
      rfl rfl true fast baseline 0 (by decide)⟩

end Vllm.Moe
