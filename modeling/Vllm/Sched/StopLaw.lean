import Vllm.Sched.QueueStops

/-! The stop law of `_update_request_with_output`, which fails where `min_tokens` suppresses the
check at a position that has reached a cap. -/
namespace Vllm
open Raises List

namespace SchedRequest
variable {r r' : SchedRequest} {blockHasher : Option BlockHasher} {maxModelLen : ℕ}
  {tokenIds kept : List TokenId} {stopped : Bool}

/-- The request with more output tokens. -/
def after (r : SchedRequest) (tokenIds : List TokenId) : SchedRequest :=
  r.extended tokenIds r.core.blockHashes r.status

def BelowCaps (r : SchedRequest) (maxModelLen : ℕ) : Prop :=
  r.numTokens < maxModelLen ∧ r.numOutputTokens < r.maxTokens

/-- The output itself asks for a stop: by its last token, or by a repetition. -/
def OutputStops (r : SchedRequest) : Prop :=
  (∃ last ∈ r.core.outputTokenIds.getLast?,
    r.samplingParams.eosTokenId = some last ∨ last ∈ r.samplingParams.stopTokenIds) ∨
  r.samplingParams.repetitionDetection.any (checkSequenceRepetition r.core.outputTokenIds) = true

/-- A stop condition holds: a length cap is reached, or the output asks for a stop and has the
tokens that were asked for at least. -/
def StopHolds (r : SchedRequest) (maxModelLen : ℕ) : Prop :=
  ¬r.BelowCaps maxModelLen ∨ r.samplingParams.minTokens ≤ r.numOutputTokens ∧ r.OutputStops

/-- What the code checks: nothing at all before the output has its minimal length. -/
def GatedStop (r : SchedRequest) (maxModelLen : ℕ) : Prop :=
  r.samplingParams.minTokens ≤ r.numOutputTokens ∧ (¬r.BelowCaps maxModelLen ∨ r.OutputStops)

variable {hashes : List BlockHash} {status : RequestStatus}

theorem gatedStop_extended :
    (r.extended tokenIds hashes status).GatedStop maxModelLen ↔
      (r.after tokenIds).GatedStop maxModelLen := Iff.rfl

theorem belowCaps_extended :
    (r.extended tokenIds hashes status).BelowCaps maxModelLen ↔
      (r.after tokenIds).BelowCaps maxModelLen := Iff.rfl

theorem numTokens_after : (r.after tokenIds).numTokens = r.numTokens + tokenIds.length :=
  length_append

theorem numOutputTokens_after :
    (r.after tokenIds).numOutputTokens = r.numOutputTokens + tokenIds.length :=
  length_append

theorem belowCaps_after : (r.after tokenIds).BelowCaps maxModelLen ↔
    r.numTokens + tokenIds.length < maxModelLen ∧
      r.numOutputTokens + tokenIds.length < r.maxTokens := by
  rw [BelowCaps, numTokens_after, numOutputTokens_after]
  rfl

theorem not_belowCaps_of_le {shorter longer : List TokenId}
    (hle : shorter.length ≤ longer.length) (h : ¬(r.after shorter).BelowCaps maxModelLen) :
    ¬(r.after longer).BelowCaps maxModelLen := by
  rw [belowCaps_after] at h ⊢
  omega

theorem checkStop_iff (h : r.checkStop maxModelLen = .ok (stopped, r')) :
    stopped = true ↔ r.GatedStop maxModelLen := by
  have hcap : r.numTokens ≥ maxModelLen ∨ r.numOutputTokens ≥ r.maxTokens ↔
      ¬r.BelowCaps maxModelLen := by
    rw [BelowCaps]
    omega
  unfold checkStop at h
  rcases of_bind h with ⟨-, -, h⟩
  rw [GatedStop, OutputStops]
  by_cases hmin : r.numOutputTokens < r.samplingParams.minTokens
  · rw [if_pos hmin] at h
    rcases Prod.mk.inj (pure_eq_ok.mp h) with ⟨rfl, -⟩
    exact iff_of_false (by simp) fun hgated => Nat.not_le_of_lt hmin hgated.1
  · rw [if_neg hmin] at h
    cases hlast : r.core.outputTokenIds.getLast? with
    | none =>
      rw [hlast] at h
      simp at h
    | some last =>
      rw [hlast] at h
      simp only [Option.mem_some_iff, exists_eq_left'] at h ⊢
      split_ifs at h with heos hstop hlen hrep <;>
        rcases Prod.mk.inj (pure_eq_ok.mp h) with ⟨rfl, -⟩
      · exact iff_of_true rfl ⟨Nat.le_of_not_lt hmin, .inr (.inl (.inl heos))⟩
      · exact iff_of_true rfl ⟨Nat.le_of_not_lt hmin, .inr (.inl (.inr hstop))⟩
      · exact iff_of_true rfl ⟨Nat.le_of_not_lt hmin, .inl (hcap.mp hlen)⟩
      · exact iff_of_true rfl ⟨Nat.le_of_not_lt hmin, .inr (.inr hrep)⟩
      · refine iff_of_false (by simp) ?_
        rintro ⟨-, hcaps | (heos' | hstop') | hrep'⟩
        · exact hlen (hcap.mpr hcaps)
        · exact heos heos'
        · exact hstop hstop'
        · exact hrep hrep'

theorem appendUntilStop_gated
    (h : r.appendUntilStop blockHasher maxModelLen tokenIds = .ok (kept, stopped, r')) :
    kept <+: tokenIds ∧ (stopped = false → kept = tokenIds) ∧
      (stopped = true → 0 < kept.length ∧ (r.after kept).GatedStop maxModelLen) ∧
      ∀ m, 0 < m → (m < kept.length ∨ stopped = false ∧ m = kept.length) →
        ¬(r.after (kept.take m)).GatedStop maxModelLen := by
  induction tokenIds generalizing r kept with
  | nil =>
    rcases Prod.mk.inj (pure_eq_ok.mp h) with ⟨rfl, hpair⟩
    rcases Prod.mk.inj hpair with ⟨rfl, -⟩
    exact ⟨prefix_rfl, fun _ => rfl, by simp, fun m hm hm' => by simp at hm'; omega⟩
  | cons tokenId rest ih =>
    unfold appendUntilStop at h
    rcases of_bind h with ⟨r₁, hr₁, h⟩
    rcases appendOutputTokenId_eq_ok hr₁ with ⟨hashes₁, rfl⟩
    rcases of_bind h with ⟨⟨stopped₁, r₂⟩, hr₂, h⟩
    have hfirst : stopped₁ = true ↔ (r.after [tokenId]).GatedStop maxModelLen :=
      (checkStop_iff hr₂).trans gatedStop_extended
    rcases checkStop_eq_ok hr₂ with ⟨status₁, rfl, -⟩
    simp only at h
    split at h
    · next hstop =>
      rcases Prod.mk.inj (pure_eq_ok.mp h) with ⟨rfl, hpair⟩
      rcases Prod.mk.inj hpair with ⟨rfl, -⟩
      refine ⟨⟨rest, rfl⟩, by simp, fun _ => ⟨by simp, hfirst.mp hstop⟩, fun m hm hm' => ?_⟩
      simp only [length_singleton, Bool.true_eq_false, false_and, or_false] at hm'
      omega
    · next hgo =>
      rcases of_bind h with ⟨⟨kept', stopped', r₃⟩, hrest, h⟩
      rcases Prod.mk.inj (pure_eq_ok.mp h) with ⟨rfl, hpair⟩
      rcases Prod.mk.inj hpair with ⟨rfl, rfl⟩
      rcases ih hrest with ⟨hpre, hall, hstop, hbefore⟩
      have hshift : ∀ tokens, (((r.extended [tokenId] hashes₁ r.status).setStatus status₁).after
          tokens).GatedStop maxModelLen ↔ (r.after (tokenId :: tokens)).GatedStop maxModelLen := by
        intro tokens
        simp only [GatedStop, BelowCaps, OutputStops, after, extended, setStatus, numTokens,
          Request.numTokens, numOutputTokens, append_assoc, cons_append, nil_append]
      refine ⟨(prefix_cons_inj tokenId).mpr hpre, fun hs => by rw [hall hs],
        fun hs => ⟨by simp, (hshift kept').mp (hstop hs).2⟩, fun m hm hm' => ?_⟩
      cases m with
      | zero => omega
      | succ m =>
        rw [take_succ_cons, ← hshift]
        rcases Nat.eq_zero_or_pos m with rfl | hpos
        · rw [take_zero, hshift, ← hfirst]
          exact hgo
        · apply hbefore m hpos
          rcases hm' with hlt | ⟨hs, heq⟩
          · exact .inl (Nat.lt_of_succ_lt_succ hlt)
          · exact .inr ⟨hs, Nat.succ.inj heq⟩

/-- The stop law of one call: a request that goes on is below its caps and can be scheduled again,
and the tokens of a stopped one end at the first position at which a stop condition holds. -/
structure StopLaw {κ ε : Type} (env : SchedulerEnv κ ε) (r r' : SchedRequest)
    (tokenIds kept : List TokenId) (stopped : Bool) : Prop where
  below : stopped = false → r'.BelowCaps env.config.maxModelLen
  schedulable : stopped = false → ∀ (st : ScheduleStep κ ε) (numComputedTokens : ℤ),
    0 < st.tokenBudget → numComputedTokens < r'.numTokens →
      0 < ScheduleStep.numNewTokensRunning env st (r'.recount numComputedTokens 0)
  first : stopped = true → kept <+: tokenIds ∧ kept ≠ [] ∧
    (r.after kept).StopHolds env.config.maxModelLen ∧
    ∀ m, 0 < m → m < kept.length → ¬(r.after (kept.take m)).StopHolds env.config.maxModelLen

/-- Every position at which the check is suppressed is below the length caps, and without new
tokens the request is. -/
structure CapsAfterMinimum (maxModelLen : ℕ) (r : SchedRequest) (tokenIds : List TokenId) :
    Prop where
  noTokens : tokenIds = [] → r.BelowCaps maxModelLen
  suppressed : ∀ k, 0 < k → k ≤ tokenIds.length →
    r.numOutputTokens + k < r.samplingParams.minTokens →
      r.numTokens + k < maxModelLen ∧ r.numOutputTokens + k < r.maxTokens

/-- Below the minimum no cap is reached, so that the code checks what the law asks for. -/
theorem CapsAfterMinimum.stopHolds_iff (h : CapsAfterMinimum maxModelLen r tokenIds)
    {tokens : List TokenId} (hpos : 0 < tokens.length) (hle : tokens.length ≤ tokenIds.length) :
    (r.after tokens).StopHolds maxModelLen ↔ (r.after tokens).GatedStop maxModelLen := by
  rw [StopHolds, GatedStop]
  constructor
  · rintro (hcap | hstop)
    · refine ⟨?_, .inl hcap⟩
      by_contra hmin
      rw [numOutputTokens_after] at hmin
      exact hcap (belowCaps_after.mpr (h.suppressed _ hpos hle (Nat.lt_of_not_le hmin)))
    · exact ⟨hstop.1, .inr hstop.2⟩
  · rintro ⟨hmin, hcap | hstop⟩
    · exact .inl hcap
    · exact .inr ⟨hmin, hstop⟩

/-- The clamp of `schedule` leaves a token for a request below its caps. -/
theorem BelowCaps.schedulable {κ ε : Type} {env : SchedulerEnv κ ε}
    (hsampled : env.config.numSampledTokensPerStep ≤ 1) (h : r.BelowCaps env.config.maxModelLen)
    (st : ScheduleStep κ ε) {numComputedTokens : ℤ} (hbudget : 0 < st.tokenBudget)
    (hcomputed : numComputedTokens < r.numTokens) :
    0 < ScheduleStep.numNewTokensRunning env st (r.recount numComputedTokens 0) := by
  have hlen := h.1
  have hspec : r.numTokens ≤ (r.recount numComputedTokens 0).numTokensWithSpec :=
    Nat.le_add_right _ _
  have hfields : (r.recount numComputedTokens 0).numComputedTokens = numComputedTokens ∧
      (r.recount numComputedTokens 0).numOutputPlaceholders = 0 := ⟨rfl, rfl⟩
  rw [ScheduleStep.numNewTokensRunning, hfields.1, hfields.2]
  split_ifs with hthreshold
  · omega
  · omega

/-- The law holds exactly if no cap is reached where the check is suppressed. -/
theorem appendUntilStop_law_iff {κ ε : Type} {env : SchedulerEnv κ ε}
    (hsampled : env.config.numSampledTokensPerStep ≤ 1)
    (h : r.appendUntilStop env.config.blockHasher env.config.maxModelLen tokenIds =
      .ok (kept, stopped, r')) :
    StopLaw env r r' tokenIds kept stopped ↔
      CapsAfterMinimum env.config.maxModelLen r tokenIds := by
  rcases appendUntilStop_gated h with ⟨hpre, hall, hstop, hbefore⟩
  rcases appendUntilStop_eq_ok h with ⟨-, -, -, hashes, status, rfl, -⟩
  constructor
  · intro hlaw
    constructor
    · rintro rfl
      cases stopped with
      | true =>
        have hpos := (hstop rfl).1
        rw [prefix_nil.mp hpre] at hpos
        simp at hpos
      | false =>
        have hbelow := hlaw.below rfl
        rw [belowCaps_extended, hall rfl, belowCaps_after] at hbelow
        exact hbelow
    · intro k hk hle hmin
      have htake : (tokenIds.take k).length = k := length_take_of_le hle
      rw [← htake, ← belowCaps_after]
      by_contra hcap
      cases stopped with
      | false =>
        refine not_belowCaps_of_le ?_ hcap (hlaw.below rfl)
        rw [hall rfl, htake]
        exact hle
      | true =>
        rcases hlaw.first rfl with ⟨-, -, -, hnone⟩
        have hlong := (hstop rfl).2.1
        rw [numOutputTokens_after] at hlong
        have hlt : k < kept.length := by
          change r.samplingParams.minTokens ≤ _ at hlong
          omega
        apply hnone k hk hlt
        rw [prefix_iff_eq_take.mp hpre, take_take, min_eq_left hlt.le]
        exact .inl hcap
  · intro hcaps
    have hbelow : stopped = false →
        (r.extended kept hashes status).BelowCaps env.config.maxModelLen := by
      rintro rfl
      rw [belowCaps_extended]
      rcases eq_nil_or_concat' tokenIds with rfl | ⟨_, _, hlast⟩
      · rw [hall rfl, belowCaps_after]
        exact hcaps.noTokens rfl
      · have hpos : 0 < kept.length := by
          rw [hall rfl, hlast]
          simp
        have hnot := hbefore kept.length hpos (.inr ⟨rfl, rfl⟩)
        rw [take_length, ← hcaps.stopHolds_iff hpos hpre.length_le, StopHolds, not_or,
          not_not] at hnot
        exact hnot.1
    constructor
    · exact hbelow
    · intro hs st _ hbudget hcomputed
      exact (hbelow hs).schedulable hsampled st hbudget hcomputed
    · intro hs
      rcases hstop hs with ⟨hpos, hgated⟩
      refine ⟨hpre, length_pos_iff.mp hpos,
        (hcaps.stopHolds_iff hpos hpre.length_le).mpr hgated, fun m hm hlt => ?_⟩
      have htake : (kept.take m).length = m := length_take_of_le hlt.le
      rw [hcaps.stopHolds_iff (by omega) (by rw [htake]; exact hlt.le.trans hpre.length_le)]
      exact hbefore m hm (.inl hlt)

/-- A model of four tokens. -/
def shortModel : SchedulerConfig where
  maxNumRunningReqs := 1
  maxNumScheduledTokens := 8
  maxModelLen := 4
  blockSize := 1

def minTokensRequest (minTokens : ℕ) : SchedRequest :=
  { promptRequest 1 [7, 8] 8 with samplingParams := { minTokens } }

theorem appendUntilStop_law_iff_short : ∃ kept stopped r',
    (minTokensRequest 2).appendUntilStop none 4 [5, 6, 9] = .ok (kept, stopped, r') ∧
    (StopLaw (managerEnv shortModel false) (minTokensRequest 2) r' [5, 6, 9] kept stopped ↔
      CapsAfterMinimum 4 (minTokensRequest 2) [5, 6, 9]) :=
  ⟨_, _, _, rfl, @appendUntilStop_law_iff (minTokensRequest 2) _ _ _ _ _ _
    (managerEnv shortModel false) (by decide) rfl⟩

/-- The request has filled the model and goes on: it waits for three more tokens that no step can
give it. -/
theorem minTokens_not_stopLaw : ∃ r',
    (minTokensRequest 5).appendUntilStop none 4 [5, 6] = .ok ([5, 6], false, r') ∧
    ¬StopLaw (managerEnv shortModel false) (minTokensRequest 5) r' [5, 6] [5, 6] false := by
  refine ⟨_, rfl, fun hlaw => ?_⟩
  have hbelow := (hlaw.below rfl).1
  exact absurd hbelow (by decide)

end SchedRequest

end Vllm
