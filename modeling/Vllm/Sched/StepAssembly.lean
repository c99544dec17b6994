import Vllm.Sched.EncoderAgreement
import Vllm.Sched.RunningRequests
import Vllm.Sched.RunningVisits
import Mathlib.Data.List.TakeWhile

/-! The ledgers of a step agree: tokens, blocks and request lists name the same requests, every
entry is positive, and the budget is what the entries leave of it. -/
namespace Vllm
open Raises EncoderCacheManager List Dict

/-- Encoder inputs only ever take tokens off a request. -/
def EncoderOps.Clamps {ε : Type} (ops : EncoderOps ε) : Prop :=
  ∀ e request hasCacheItem c n budget shift plan e',
    ops.tryScheduleEncoderInputs e request hasCacheItem c n budget shift = .ok (plan, e') →
      0 ≤ n → 0 ≤ plan.numNewTokens ∧ plan.numNewTokens ≤ n

/-- A running request whose turn comes is ahead neither of its own tokens nor of the model. -/
def SchedRequest.NotAhead (config : SchedulerConfig) (r : SchedRequest) : Prop :=
  r.numComputedTokens ≤ r.numTokensWithSpec + r.numOutputPlaceholders ∧
    r.numComputedTokens + config.numSampledTokensPerStep ≤ config.maxModelLen

/-- Every running request that is due can go on from where it is. -/
def Scheduler.NotAhead {κ ε : Type} (env : SchedulerEnv κ ε) (s : Scheduler κ ε) : Prop :=
  ∀ x ∈ s.running, ∀ r, s.objects.get? x = some r →
    (s.startStep env).isDeferred r = false → r.NotAhead env.config

section Scan
variable {config : EncoderConfig} {request : Request} {c shift i : ℕ} {n : ℤ}
  {s s' : EncoderScan} {stop : Bool}

theorem scanEncoderInput_le {f : MultiModalFeatureSpec} (hf : request.mmFeatures[i]? = some f)
    (hoffset : f.offset ≤ c + n + shift) (hpos : 0 ≤ n) (hn : s.numNewTokens = n)
    (h : config.scanEncoderInput request c shift i s = .ok (stop, s')) :
    (0 ≤ s'.numNewTokens ∧ s'.numNewTokens ≤ n) ∧ (stop = false → s'.numNewTokens = n) := by
  have hsame : ∀ s₁ : EncoderScan, s₁.numNewTokens = n →
      (0 ≤ s₁.numNewTokens ∧ s₁.numNewTokens ≤ n) ∧ (stop = false → s₁.numNewTokens = n) := by
    intro s₁ hn₁
    exact ⟨⟨hn₁ ▸ hpos, hn₁.le⟩, fun _ => hn₁⟩
  have hplace : ∀ s₁ : EncoderScan, s₁.numNewTokens = n →
      config.placeEncoderInput request c shift i f s₁ = .ok (stop, s') →
      (0 ≤ s'.numNewTokens ∧ s'.numNewTokens ≤ n) ∧ (stop = false → s'.numNewTokens = n) := by
    intro s₁ hn₁ hplace
    obtain ⟨-, rfl, rfl⟩ | ⟨ok, m, -, -, ⟨-, rfl, rfl⟩ | ⟨-, -, -, rfl⟩ | ⟨-, -, -, heq, -⟩⟩ :=
      placeEncoderInput_cases hplace
    · exact ⟨⟨le_max_left _ _, by simp only; omega⟩, by simp⟩
    · exact ⟨⟨le_max_left _ _, by simp only; omega⟩, by simp⟩
    · exact hsame _ hn₁
    · exact hsame _ (heq.trans hn₁)
  unfold EncoderConfig.scanEncoderInput at h
  obtain ⟨f', hf', h⟩ := of_bind h
  obtain rfl : f' = f := by
    unfold feature at hf'
    rw [hf] at hf'
    exact (pure_eq_ok.mp hf').symm
  split at h
  · split at h
    · obtain ⟨-, -, h⟩ := of_bind h
      cases h
      exact hsame s hn
    · exact hplace s hn h
  split at h
  · cases h
    exact hsame s hn
  · obtain ⟨⟨hit, m⟩, -, h⟩ := of_bind h
    simp only at h
    split at h
    · cases h
      exact hsame _ hn
    · exact hplace { s with manager := m } hn h

theorem scanEncoderInputs_le {inputs : List ℕ}
    (hinputs : ∀ i ∈ inputs, ∃ f, request.mmFeatures[i]? = some f ∧ f.offset ≤ c + n + shift)
    (hpos : 0 ≤ n) (hn : s.numNewTokens = n)
    (h : config.scanEncoderInputs request c shift inputs s = .ok s') :
    0 ≤ s'.numNewTokens ∧ s'.numNewTokens ≤ n := by
  induction inputs generalizing s with
  | nil =>
    cases h
    exact ⟨hn ▸ hpos, hn.le⟩
  | cons i rest ih =>
    unfold EncoderConfig.scanEncoderInputs at h
    obtain ⟨⟨stop, s₁⟩, hscan, h⟩ := of_bind h
    obtain ⟨f, hf, hoffset⟩ := hinputs i mem_cons_self
    obtain ⟨hle, hgo⟩ := scanEncoderInput_le hf hoffset hpos hn hscan
    simp only at h
    split at h
    · cases h
      exact hle
    · next hstop =>
      exact ih (fun j hj => hinputs j (mem_cons_of_mem i hj)) (hgo (by simpa using hstop)) h

theorem offset_lt_of_lt_bisectLeft {l : List MultiModalFeatureSpec} {x : ℕ}
    (hi : i < bisectLeft MultiModalFeatureSpec.offset l x) :
    ∃ f, l[i]? = some f ∧ f.offset < x := by
  unfold bisectLeft at hi
  have hprefix := takeWhile_prefix (l := l) fun a => decide (a.offset < x)
  have hlen := hi.trans_le hprefix.length_le
  refine ⟨l[i], List.getElem?_eq_getElem hlen, ?_⟩
  rw [← hprefix.getElem hi]
  simpa using mem_takeWhile_imp (getElem_mem hi)

end Scan

theorem EncoderCacheManager.ops_clamps (disableChunkedMmInput : Bool) :
    (ops disableChunkedMmInput).Clamps := by
  intro m request hasCacheItem c n budget shift plan m' h hn
  obtain ⟨scan, hscan, h⟩ := of_bind h
  cases h
  unfold EncoderConfig.tryScheduleEncoderInputs at hscan
  split at hscan
  · cases hscan
    exact ⟨hn, Int.le_refl _⟩
  · refine scanEncoderInputs_le ?_ hn rfl hscan
    intro i hi
    obtain ⟨hge, hlt⟩ := mem_range'_1.mp hi
    obtain ⟨f, hf, hoffset⟩ := offset_lt_of_lt_bisectLeft (l := request.mmFeatures) (i := i)
      (x := (c + n + shift).toNat) (by
        simp only [Bool.false_eq_true, ↓reduceIte] at hge hlt
        omega)
    exact ⟨f, hf, by omega⟩

namespace ScheduleStep
variable {κ ε : Type} {env : SchedulerEnv κ ε} {answers : StepAnswers} {st st' : ScheduleStep κ ε}
  {requestId victim : RequestId} {r : SchedRequest} {s : Scheduler κ ε}

theorem mul_ediv_le {n b : ℤ} (hn : 0 ≤ n) (hb : 0 ≤ b) : 0 ≤ n / b * b ∧ n / b * b ≤ n := by
  refine ⟨Int.mul_nonneg (Int.ediv_nonneg hn hb) hb, ?_⟩
  obtain rfl | hpos := hb.eq_or_lt
  · simpa using hn
  · exact Int.ediv_mul_le n hpos.ne'

variable (env) in
/-- Aligning a chunk to the blocks never makes it longer. -/
theorem alignedSplit_le (r : SchedRequest) {numNewTokens : ℤ} (hn : 0 ≤ numNewTokens)
    (numLocal numExternal numUncached : ℕ) :
    0 ≤ alignedSplit env r numNewTokens numLocal numExternal numUncached ∧
      alignedSplit env r numNewTokens numLocal numExternal numUncached ≤ numNewTokens := by
  have hblock : (0 : ℤ) ≤ env.config.cacheBlockSize := Int.natCast_nonneg _
  have hfull := mul_ediv_le hn hblock
  have hcommon := mul_ediv_le (Int.natCast_nonneg numUncached) hblock
  unfold alignedSplit
  split
  · unfold mambaBlockAlignedSplit
    simp only
    split_ifs <;> omega
  · exact ⟨hn, Int.le_refl _⟩

theorem planEncoderInputs_le (hclamps : env.encoder.Clamps) {numComputedTokens numNewTokens : ℤ}
    {plan : EncoderPlan} {encoder : ε} (hn : 0 ≤ numNewTokens)
    (h : planEncoderInputs env answers st r numComputedTokens numNewTokens = .ok (plan, encoder)) :
    0 ≤ plan.numNewTokens ∧ plan.numNewTokens ≤ numNewTokens := by
  unfold planEncoderInputs at h
  split at h
  · exact hclamps _ _ _ _ _ _ _ _ _ h hn
  · cases h
    exact ⟨hn, Int.le_refl _⟩

/-- The ledgers after some turns of the first loop. -/
structure Booked (env : SchedulerEnv κ ε) (s : Scheduler κ ε) (st : ScheduleStep κ ε) : Prop
    extends Fresh s st where
  budget : 0 ≤ st.tokenBudget
  total : st.tokenBudget + st.numScheduledTokens.sumValues id ≤ env.config.maxNumScheduledTokens
  positive : ∀ x n, st.numScheduledTokens.get? x = some n → 1 ≤ n
  tokens : ∀ x, st.numScheduledTokens.contains x = true ↔ x ∈ st.scheduledRunningReqs
  blocks : ∀ x, st.reqToNewBlocks.contains x = true ↔ x ∈ st.scheduledRunningReqs
  noneNew : st.scheduledNewReqs = []
  noneResumed : st.scheduledResumedReqs = []

section
variable (h : Booked env s st)
include h

theorem Booked.preemptOne (hturn : Turn env s.running requestId st)
    (hpreempt : ScheduleStep.preemptOne env st = .ok (victim, st')) :
    Booked env s st' ∧ st.tokenBudget ≤ st'.tokenBudget := by
  have hfresh := h.toFresh.preemptOne hturn.nodup hpreempt
  obtain ⟨-, -, -, hnew, hresumed, hledgers⟩ := preemptOne_cases hturn.nodup hpreempt
  obtain ⟨-, hscheduled, n, blocks, hn, -, hlist, hbudget, htokens, hblocks, -⟩ |
    ⟨-, hlist, hbudget, htokens, hblocks, -⟩ := hledgers
  · have hpos := h.positive victim n hn
    have hsum := st.numScheduledTokens.sumValues_erase id victim
    simp only [hn, Option.map_some, id, Option.getD_some] at hsum
    refine ⟨⟨hfresh, ?_, ?_, ?_, ?_, ?_, hnew.trans h.noneNew, hresumed.trans h.noneResumed⟩, ?_⟩
    · have := h.budget
      omega
    · have := h.total
      rw [hbudget, htokens]
      omega
    · intro x m hm
      rw [htokens, Dict.get?_erase] at hm
      split at hm
      · simp at hm
      · exact h.positive x m hm
    · intro x
      rw [htokens, hlist, hturn.nodupScheduled.mem_erase_iff, ← h.tokens x]
      simp
    · intro x
      rw [hblocks, hlist, hturn.nodupScheduled.mem_erase_iff, ← h.blocks x]
      simp
    · omega
  · refine ⟨⟨hfresh, ?_, ?_, ?_, ?_, ?_, hnew.trans h.noneNew, hresumed.trans h.noneResumed⟩,
      hbudget.ge⟩
    · rw [hbudget]
      exact h.budget
    · rw [hbudget, htokens]
      exact h.total
    · rw [htokens]
      exact h.positive
    · rw [htokens, hlist]
      exact h.tokens
    · rw [hblocks, hlist]
      exact h.blocks

theorem Booked.setKv (kv : κ) : Booked env s (st.setKv kv) :=
  ⟨⟨h.step, h.untouched⟩, h.budget, h.total, h.positive, h.tokens, h.blocks, h.noneNew,
    h.noneResumed⟩

theorem Booked.setEncoder (encoder : ε) : Booked env s (st.setEncoder encoder) :=
  ⟨⟨h.step, h.untouched⟩, h.budget, h.total, h.positive, h.tokens, h.blocks, h.noneNew,
    h.noneResumed⟩

theorem Booked.record {numNewTokens : ℤ} {blocks : List (List BlockId)} {plan : EncoderPlan}
    (hturn : Turn env s.running requestId st) (hpos : 1 ≤ numNewTokens)
    (hle : numNewTokens ≤ st.tokenBudget)
    (hrecord : allocateEncoderInputs env (recordRunning st requestId r numNewTokens blocks)
      requestId r plan = .ok st') : Booked env s st' := by
  have hfresh := h.toFresh.record hrecord
  obtain ⟨encoder, budget, -, rfl⟩ := allocateEncoderInputs_eq_ok hrecord
  have hnone : st.numScheduledTokens.get? requestId = none := by
    have hnot := hturn.notScheduled
    rw [← h.tokens requestId, Dict.contains] at hnot
    simpa using hnot
  have hsum := st.numScheduledTokens.sumValues_set id requestId numNewTokens
  simp only [hnone, Option.map_none, Option.getD_none, add_zero, id] at hsum
  refine ⟨hfresh, ?_, ?_, ?_, ?_, ?_, h.noneNew, h.noneResumed⟩
  · simp only [recordRunning]
    omega
  · have := h.total
    simp only [recordRunning]
    omega
  · intro x m hm
    simp only [recordRunning, Dict.get?_set] at hm
    split at hm
    · cases hm
      exact hpos
    · exact h.positive x m hm
  · intro x
    simp only [recordRunning, mem_append, mem_singleton, ← h.tokens x]
    simp [or_comm]
  · intro x
    simp only [recordRunning, mem_append, mem_singleton, ← h.blocks x]
    simp [or_comm]

end

theorem numNewTokensRunning_nonneg (hbudget : 0 ≤ st.tokenBudget) (hr : r.NotAhead env.config) :
    0 ≤ numNewTokensRunning env st r := by
  obtain ⟨hown, hmodel⟩ := hr
  unfold numNewTokensRunning
  refine le_min (le_min ?_ hbudget) (by omega)
  split
  · exact Int.natCast_nonneg _
  · omega

theorem numNewTokensRunning_le (st : ScheduleStep κ ε) (r : SchedRequest) :
    numNewTokensRunning env st r ≤ st.tokenBudget :=
  (min_le_left _ _).trans (min_le_right _ _)

section
variable (hclamps : env.encoder.Clamps) (hahead : s.NotAhead env) (h : Booked env s st)
  (hwalk : Walk s.running st)
include hclamps hahead h hwalk

theorem Booked.runningTurn {go : Bool} (hget : st.sched.running[st.reqIndex]? = some requestId)
    (hturn : ScheduleStep.runningTurn env answers st requestId = .ok (go, st')) :
    Booked env s st' := by
  have hstart : Turn env _ _ _ := hwalk.turn hget
  obtain ⟨r, hr, ⟨-, -, encoder, rfl⟩ |
    ⟨plan, encoder, st₁, hdue, hplan, hzero, hst₁, ⟨hbooked, hgrown⟩, hend⟩⟩ :=
      hwalk.turn_rule (P := fun st₁ => Booked env s st₁ ∧ st.tokenBudget ≤ st₁.tokenBudget) hget
        (fun _ kv hst => ⟨hst.1.setKv kv, hst.2⟩) (fun encoder => ⟨h.setEncoder encoder, le_refl _⟩)
        (fun _ _ _ hst _ hbooked _ hvictim => ⟨(hbooked.1.preemptOne hst hvictim).1,
          hbooked.2.trans (hbooked.1.preemptOne hst hvictim).2⟩) hturn
  · exact ⟨⟨h.step, h.untouched⟩, h.budget, h.total, h.positive, h.tokens, h.blocks, h.noneNew,
      h.noneResumed⟩
  have hmem : requestId ∈ st.sched.running := mem_of_getElem? hget
  have hr₀ : s.objects.get? requestId = some r :=
    (h.untouched requestId hmem hstart.notScheduled).symm.trans hr
  have hnot : r.NotAhead env.config := by
    refine hahead requestId (hwalk.sublist.subset hmem) r hr₀ ?_
    unfold isDeferred at hdue ⊢
    rwa [h.step] at hdue
  have hnonneg : 0 ≤ numNewTokensRunning env st r := numNewTokensRunning_nonneg h.budget hnot
  obtain ⟨hplan₀, hplan₁⟩ := planEncoderInputs_le hclamps hnonneg hplan
  obtain ⟨hsplit₀, hsplit₁⟩ := alignedSplit_le env r hplan₀ 0 0 0
  have hle : numNewTokensRunning env st r ≤ st.tokenBudget := numNewTokensRunning_le st r
  obtain ⟨-, hself⟩ | ⟨-, blocks, hrecord⟩ := hend
  · exact (hbooked.preemptOne hst₁ hself).1
  · exact hbooked.record hst₁ (by omega) (by omega) hrecord

theorem Booked.runningLoop {fuel : ℕ}
    (hloop : ScheduleStep.runningLoop env answers fuel st = .ok st') :
    Booked env s st' ∧ Walk s.running st' := by
  induction fuel generalizing st with
  | zero =>
    cases hloop
    exact ⟨h, hwalk⟩
  | succ fuel ih =>
    unfold ScheduleStep.runningLoop at hloop
    split at hloop
    · split at hloop
      · cases hloop
        exact ⟨h, hwalk⟩
      · next requestId hget =>
        obtain ⟨⟨go, st₁⟩, hturn, hloop⟩ := of_bind hloop
        have hst₁ := h.runningTurn hclamps hahead hwalk hget hturn
        have hwalk₁ := hwalk.runningTurn hget hturn
        simp only at hloop
        split at hloop
        · exact ih hst₁ hwalk₁ hloop
        · cases hloop
          exact ⟨hst₁, hwalk₁⟩
    · cases hloop
      exact ⟨h, hwalk⟩

end

/-- The requests that a step schedules. -/
def scheduledIds (st : ScheduleStep κ ε) : List RequestId :=
  st.scheduledNewReqs ++ st.scheduledResumedReqs ++ st.scheduledRunningReqs

/-- The ledgers agree with each other and with the bounds of the step. -/
structure Assembled (env : SchedulerEnv κ ε) (st : ScheduleStep κ ε) : Prop where
  budget : 0 ≤ st.tokenBudget
  total : st.tokenBudget + st.numScheduledTokens.sumValues id ≤ env.config.maxNumScheduledTokens
  positive : ∀ x n, st.numScheduledTokens.get? x = some n → 1 ≤ n
  tokens : ∀ x, x ∈ st.numScheduledTokens.keys ↔ x ∈ st.scheduledIds
  blocks : ∀ x, x ∈ st.reqToNewBlocks.keys ↔ x ∈ st.scheduledIds
  count : st.scheduledIds.length ≤ st.sched.running.length
  room : st.sched.running.length ≤ env.config.maxNumRunningReqs
  preempted : ∀ x ∈ st.preemptedReqs, x ∉ st.scheduledIds

theorem Booked.assembled (h : Booked env s st) (hwalk : Walk s.running st)
    (hroom : s.running.length ≤ env.config.maxNumRunningReqs) : Assembled env st := by
  have hids : st.scheduledIds = st.scheduledRunningReqs := by
    rw [scheduledIds, h.noneNew, h.noneResumed]
    rfl
  have hsub : st.scheduledRunningReqs ⊆ st.sched.running :=
    fun x hx => mem_of_mem_take (hwalk.scheduled hx)
  refine ⟨h.budget, h.total, h.positive, ?_, ?_, ?_, hwalk.sublist.length_le.trans hroom, ?_⟩
  · intro x
    rw [mem_keys_iff, hids]
    exact h.tokens x
  · intro x
    rw [mem_keys_iff, hids]
    exact h.blocks x
  · rw [hids]
    exact (subperm_of_subset hwalk.nodupScheduled hsub).length_le
  · intro x hx hmem
    rw [hids] at hmem
    exact hwalk.preempted x hx (hsub hmem)

theorem planWaiting_bounds (hclamps : env.encoder.Clamps) {lookup : WaitingLookup}
    {numNewTokens : ℤ} {plan : EncoderPlan} {encoder : ε} (hsync : lookup.loadKvAsync = false)
    (h : planWaiting env answers st r lookup = .ok (some (numNewTokens, plan), encoder)) :
    1 ≤ numNewTokens ∧ numNewTokens ≤ st.tokenBudget := by
  unfold planWaiting at h
  rw [hsync] at h
  simp only [Bool.false_eq_true, ↓reduceIte] at h
  split at h
  · obtain ⟨hnone, -⟩ := Prod.mk.inj (pure_eq_ok.mp h)
    simp at hnone
  obtain ⟨_, hpos, h⟩ := of_bind h
  obtain ⟨⟨plan', encoder'⟩, hplan, h⟩ := of_bind h
  rw [require_eq_ok] at hpos
  obtain ⟨hplan₀, hplan₁⟩ := planEncoderInputs_le hclamps (by omega) hplan
  obtain ⟨hsplit₀, hsplit₁⟩ := alignedSplit_le env r hplan₀ lookup.numNewLocalComputedTokens
    lookup.numExternalComputedTokens lookup.numUncachedCommonPrefixTokens
  simp only at h
  split at h
  · obtain ⟨hnone, -⟩ := Prod.mk.inj (pure_eq_ok.mp h)
    simp at hnone
  · next hzero =>
    obtain ⟨hsome, -⟩ := Prod.mk.inj (pure_eq_ok.mp h)
    obtain ⟨rfl, -⟩ := Prod.mk.inj (Option.some.inj hsome)
    omega

theorem Assembled.congr (h : Assembled env st) (hledgers : SameLedgers st st')
    (hnew : st'.scheduledNewReqs = st.scheduledNewReqs)
    (hresumed : st'.scheduledResumedReqs = st.scheduledResumedReqs)
    (hrunning : st'.sched.running = st.sched.running)
    (hpreempted : st'.preemptedReqs = st.preemptedReqs) : Assembled env st' := by
  obtain ⟨hlist, hbudget, htokens, hblocks, -⟩ := hledgers
  have hids : st'.scheduledIds = st.scheduledIds := by
    rw [scheduledIds, scheduledIds, hnew, hresumed, hlist]
  exact {
    budget := hbudget ▸ h.budget
    total := by rw [hbudget, htokens]; exact h.total
    positive := by rw [htokens]; exact h.positive
    tokens := by rw [htokens, hids]; exact h.tokens
    blocks := by rw [hblocks, hids]; exact h.blocks
    count := by rw [hids, hrunning]; exact h.count
    room := hrunning ▸ h.room
    preempted := by rw [hpreempted, hids]; exact h.preempted }

theorem Assembled.startRunning {lookup : WaitingLookup} {numNewTokens : ℤ} (h : Assembled env st)
    (hnone : st.preemptedReqs = []) (hpos : 1 ≤ numNewTokens) (hle : numNewTokens ≤ st.tokenBudget)
    (hroom : st.sched.running.length ≠ env.config.maxNumRunningReqs)
    (hstarts : ScheduleStep.startRunning env st requestId r lookup numNewTokens = .ok st') :
    Assembled env st' := by
  obtain ⟨-, inflight, newReqs, resumedReqs, hlists, rfl⟩ := startRunning_eq_ok hstarts
  have hsum := st.numScheduledTokens.sumValues_set id requestId numNewTokens
  have hold : 0 ≤ ((st.numScheduledTokens.get? requestId).map id).getD 0 := by
    cases hget : st.numScheduledTokens.get? requestId with
    | none => simp
    | some n =>
      have := h.positive requestId n hget
      simp only [Option.map_some, id, Option.getD_some]
      omega
  have hids : ∀ x, x ∈ newReqs ++ resumedReqs ++ st.scheduledRunningReqs ↔
      x = requestId ∨ x ∈ st.scheduledIds := by
    intro x
    obtain ⟨rfl, rfl⟩ | ⟨rfl, rfl⟩ := hlists <;>
      simp only [scheduledIds, mem_append, mem_singleton] <;> tauto
  have hlength : (newReqs ++ resumedReqs ++ st.scheduledRunningReqs).length =
      st.scheduledIds.length + 1 := by
    obtain ⟨rfl, rfl⟩ | ⟨rfl, rfl⟩ := hlists <;>
      simp only [scheduledIds, length_append, length_singleton] <;> omega
  refine ⟨?_, ?_, ?_, ?_, ?_, ?_, ?_, ?_⟩
  · simp only
    omega
  · have := h.total
    simp only [id] at hsum ⊢
    omega
  · intro x m hm
    simp only [Dict.get?_set] at hm
    split at hm
    · cases hm
      exact hpos
    · exact h.positive x m hm
  · intro x
    rw [mem_keys_iff, contains_set, ← mem_keys_iff, h.tokens x]
    exact (hids x).symm
  · intro x
    rw [mem_keys_iff, contains_set, ← mem_keys_iff, h.blocks x]
    exact (hids x).symm
  · have := h.count
    simp only [scheduledIds, length_append, length_singleton] at hlength this ⊢
    omega
  · have := h.room
    simp only [length_append, length_singleton]
    omega
  · simp [hnone]

theorem Assembled.move (hclamps : env.encoder.Clamps)
    (h : Assembled env st ∧ st.preemptedReqs = []) (hmove : Move env answers .waiting st st') :
    Assembled env st' ∧ st'.preemptedReqs = [] := by
  obtain ⟨h, hnone⟩ := h
  cases hmove with
  | plan | noWaitingSlots => exact ⟨h.congr ⟨rfl, rfl, rfl, rfl, rfl⟩ rfl rfl rfl rfl, hnone⟩
  | promote hr hpromote =>
    obtain ⟨-, rfl⟩ | ⟨-, -, -, status, c, kv, finished, failed, -, -, rfl⟩ :=
      tryPromote_eq_ok hpromote
    · exact ⟨h.congr ⟨rfl, rfl, rfl, rfl, rfl⟩ rfl rfl rfl rfl, hnone⟩
    · exact ⟨h.congr ⟨rfl, rfl, rfl, rfl, rfl⟩ rfl rfl rfl rfl, hnone⟩
  | skip hhead hskip =>
    unfold skipWaiting at hskip
    obtain ⟨st₁, hpop, hskip⟩ := of_bind hskip
    cases hskip
    obtain ⟨rest, -, rfl⟩ := popWaiting_eq_ok hhead hpop
    exact ⟨h.congr ⟨rfl, rfl, rfl, rfl, rfl⟩ rfl rfl (by simp [setSched]) rfl, hnone⟩
  | @remoteLoad st₁ st₂ q x r lookup n plan blocks kv hr hstatus hhead hasync halloc hpop =>
    obtain ⟨rest, -, rfl⟩ := popWaiting_setKv_eq_ok hhead hpop
    exact ⟨h.congr ⟨rfl, rfl, rfl, rfl, rfl⟩ rfl rfl
      (by simp [startRemoteLoad, setSched, setKv, Scheduler.put]) rfl, hnone⟩
  | @startRunning st₁ st₂ st₃ st₄ q x r lookup n plan blocks kv hr hstatus hhead hlookup hplan hroom
      hlora hsync halloc hpop hstarts hencoder =>
    obtain ⟨rest, -, rfl⟩ := popWaiting_setKv_eq_ok hhead hpop
    obtain ⟨st₀, encoder, hbudget, hplan⟩ := hplan
    obtain ⟨hpos, hle⟩ := planWaiting_bounds hclamps hsync hplan
    rw [hbudget] at hle
    have hpopped : Assembled env
        ((st.setKv kv).setSched ((st.setKv kv).sched.setQueue q rest)) :=
      h.congr ⟨rfl, rfl, rfl, rfl, rfl⟩ rfl rfl (by simp [setSched, setKv]) rfl
    have hst₃ := hpopped.startRunning hnone hpos hle (by simpa [setSched, setKv] using hroom) hstarts
    obtain ⟨-, inflight, newReqs, resumedReqs, -, rfl⟩ := startRunning_eq_ok hstarts
    obtain ⟨encoder', budget, -, rfl⟩ := allocateEncoderInputs_eq_ok hencoder
    exact ⟨hst₃.congr ⟨rfl, rfl, rfl, rfl, rfl⟩ rfl rfl rfl rfl, hnone⟩

end ScheduleStep

namespace Scheduler
variable {κ ε : Type} {env : SchedulerEnv κ ε} {answers : StepAnswers} {s : Scheduler κ ε}
  {st : ScheduleStep κ ε}

theorem startStep_booked : ScheduleStep.Booked env s (s.startStep env) where
  step := rfl
  untouched := fun _ _ _ => rfl
  budget := by
    unfold startStep
    split
    · exact le_refl _
    · exact Int.natCast_nonneg _
  total := by
    unfold startStep
    simp only
    split
    · simp [Dict.sumValues, Dict.values, Dict.empty]
    · simp [Dict.sumValues, Dict.values, Dict.empty]
  positive := by simp [startStep]
  tokens := by simp [startStep, Dict.contains]
  blocks := by simp [startStep, Dict.contains]
  noneNew := rfl
  noneResumed := rfl

theorem assembleStep_assembled (hclamps : env.encoder.Clamps) (hnodup : s.running.Nodup)
    (hroom : s.running.length ≤ env.config.maxNumRunningReqs) (hahead : s.NotAhead env)
    (h : s.assembleStep env answers = .ok st) : ScheduleStep.Assembled env st := by
  unfold assembleStep at h
  obtain ⟨st₁, hloop, h⟩ := of_bind h
  obtain ⟨st₂, hloras, h⟩ := of_bind h
  obtain ⟨hbooked, hwalk⟩ := startStep_booked.runningLoop hclamps hahead
    (startStep_visited hnodup).toWalk hloop
  have hst₁ := hbooked.assembled hwalk hroom
  obtain ⟨loras, rfl⟩ := ScheduleStep.recordLoras_eq_ok hloras
  have hst₂ : ScheduleStep.Assembled env { st₁ with scheduledLoras := loras } :=
    hst₁.congr ⟨rfl, rfl, rfl, rfl, rfl⟩ rfl rfl rfl rfl
  unfold ScheduleStep.scheduleWaiting at h
  split at h
  · next hgo =>
    obtain ⟨st₃, hwaiting, h⟩ := of_bind h
    cases h
    obtain ⟨hst₃, -⟩ := (ScheduleStep.waitingLoop_moves hwaiting).induction
      (P := fun st => ScheduleStep.Assembled env st ∧ st.preemptedReqs = [])
      (fun _ _ hmove hst => ScheduleStep.Assembled.move hclamps hst hmove) ⟨hst₂, hgo.1⟩
    exact hst₃.congr ⟨rfl, rfl, rfl, rfl, rfl⟩ rfl rfl rfl rfl
  · cases h
    exact hst₂

end Scheduler

theorem ScheduleStep.Assembled.checkConstraints {κ ε : Type} {env : SchedulerEnv κ ε}
    {st : ScheduleStep κ ε} (h : Assembled env st) :
    ScheduleStep.checkConstraints env st = .ok () := by
  have hbudget := h.budget
  have htotal := h.total
  have hcount := h.count
  unfold ScheduleStep.checkConstraints
  simp only [Dict.sumValues, Dict.values, map_id] at htotal
  simp only [scheduledIds, length_append] at hcount
  simp only [bind_eq_ok, require_eq_ok, exists_const]
  exact ⟨by omega, hbudget, h.room, hcount⟩

/-- In every reachable state whose running requests are all different and not ahead, the step
passes its closing assertions, and its ledgers name the same requests. -/
theorem EngineReachable.step_assembled {κ : Type} {config : SchedulerConfig} {kv : KvCacheOps κ}
    {disableChunkedMmInput : Bool} {ok : EngineState κ EncoderCacheManager → EngineEvent → Prop}
    {e : EngineState κ EncoderCacheManager} {answers : StepAnswers}
    {st : ScheduleStep κ EncoderCacheManager}
    (he : EngineReachable ⟨config, kv, ops disableChunkedMmInput⟩ ok e)
    (hnodup : e.sched.running.Nodup)
    (hahead : e.sched.NotAhead ⟨config, kv, ops disableChunkedMmInput⟩)
    (h : e.sched.assembleStep ⟨config, kv, ops disableChunkedMmInput⟩ answers =
      .ok st) :
    st.checkConstraints ⟨config, kv, ops disableChunkedMmInput⟩ = .ok () ∧
    (∀ x n, st.numScheduledTokens.get? x = some n → 1 ≤ n) ∧
    (∀ x, x ∈ st.numScheduledTokens.keys ↔ x ∈ st.scheduledIds) ∧
    (∀ x, x ∈ st.reqToNewBlocks.keys ↔ x ∈ st.scheduledIds) ∧
    (∀ x ∈ st.preemptedReqs, x ∉ st.scheduledIds) := by
  have hst := Scheduler.assembleStep_assembled
    (ops_clamps disableChunkedMmInput) hnodup he.running_length_le hahead h
  exact ⟨hst.checkConstraints, hst.positive, hst.tokens, hst.blocks, hst.preempted⟩

instance (config : SchedulerConfig) (r : SchedRequest) : Decidable (r.NotAhead config) := by
  unfold SchedRequest.NotAhead
  infer_instance

/-- `NotAhead`, evaluated. -/
def Scheduler.notAhead {κ ε : Type} (env : SchedulerEnv κ ε) (s : Scheduler κ ε) : Bool :=
  s.running.all fun x => (s.objects.get? x).all fun r =>
    (s.startStep env).isDeferred r || decide (r.NotAhead env.config)

theorem Scheduler.notAhead_iff {κ ε : Type} {env : SchedulerEnv κ ε} {s : Scheduler κ ε}
    (h : s.notAhead env = true) : s.NotAhead env := by
  intro x hx r hr hdue
  have hall := all_eq_true.mp h x hx
  simpa [hr, hdue] using hall

/-- Three requests run, and the next step is put together. -/
def threeRunningStep : Raises (EngineState KVCacheManager EncoderCacheManager ×
    ScheduleStep KVCacheManager EncoderCacheManager) := do
  let e ← threeRunning 8 9
  let st ← e.sched.assembleStep (managerEnv priorityAsync false) {}
  pure (e, st)

/-- The first request is scheduled and withdrawn again, and the ledgers still agree. -/
theorem step_assembled_withdrawn : ∃ (e : EngineState KVCacheManager EncoderCacheManager)
    (st : ScheduleStep KVCacheManager EncoderCacheManager),
    e.sched.assembleStep (managerEnv priorityAsync false) {} = .ok st ∧ st.preemptedReqs = [1] ∧
    st.checkConstraints (managerEnv priorityAsync false) = .ok () ∧
    (∀ x n, st.numScheduledTokens.get? x = some n → 1 ≤ n) ∧
    (∀ x, x ∈ st.numScheduledTokens.keys ↔ x ∈ st.scheduledIds) ∧
    (∀ x, x ∈ st.reqToNewBlocks.keys ↔ x ∈ st.scheduledIds) ∧
    (∀ x ∈ st.preemptedReqs, x ∉ st.scheduledIds) := by
  obtain ⟨⟨e, st⟩, hrun, hfacts⟩ := exists_ok
    (show threeRunningStep.toOption.map (fun (e, st) => (e.sched.running,
      e.sched.notAhead (managerEnv priorityAsync false), st.preemptedReqs)) =
        some ([1, 2, 3], true, [1]) by decide +kernel)
  obtain ⟨e', he, hrun⟩ := of_bind hrun
  obtain ⟨st', hst, hrun⟩ := of_bind hrun
  obtain ⟨rfl, rfl⟩ := Prod.mk.inj (pure_eq_ok.mp hrun)
  simp only [Prod.mk.injEq] at hfacts
  obtain ⟨hrunning, hahead, hpreempted⟩ := hfacts
  have hreach : EngineReachable (managerEnv priorityAsync false) (fun _ _ => True) e' :=
    smallRun_reachable (fun _ _ _ => trivial) he
  exact ⟨e', st', hst, hpreempted, EngineReachable.step_assembled hreach (by simp [hrunning])
    (Scheduler.notAhead_iff hahead) hst⟩

/-- The lengths that the requests ask for fit the model. -/
def Scheduler.LengthsFit {κ ε : Type} (config : SchedulerConfig) (s : Scheduler κ ε) : Prop :=
  ∀ x r, s.objects.get? x = some r → r.pooling = false →
    r.core.numPromptTokens < config.maxModelLen ∧
    r.samplingParams.minTokens ≤ r.maxTokens ∧
    r.maxTokens ≤ config.maxModelLen - r.core.numPromptTokens

/-- A second step is scheduled while one with a draft token is in flight. -/
def draftInFlight : Raises (EngineState KVCacheManager EncoderCacheManager × SchedulerOutput ×
    Scheduler KVCacheManager EncoderCacheManager) := do
  let e ← smallRun fourRunning 8 (fun _ _ => true) [
    .addRequest (promptRequest 1 [7] 8) fun _ => false,
    .schedule {},
    .updateFromOutput oneToken,
    .updateDraftTokenIds [(1, [9])],
    .schedule {}]
  let result ← e.sched.schedule (managerEnv fourRunning false) {}
  pure (e, result)

/-- The request has computed its draft token too, which is not one of its tokens: the step
schedules minus one token. -/
theorem draftInFlight_negative : ∃ (e : EngineState KVCacheManager EncoderCacheManager)
    (output : SchedulerOutput) (s : Scheduler KVCacheManager EncoderCacheManager),
    EngineReachable (managerEnv fourRunning false) (fun _ _ => True) e ∧
    e.sched.LengthsFit fourRunning ∧
    e.sched.schedule (managerEnv fourRunning false) {} = .ok (output, s) ∧
    output.numScheduledTokens.get? 1 = some (-1) := by
  obtain ⟨⟨e, output, s⟩, hrun, hfacts⟩ := exists_ok
    (show draftInFlight.toOption.map (fun (e, output, _) => (e.sched.objects.entries.map fun x =>
      (x.2.pooling, x.2.core.numPromptTokens, x.2.samplingParams.minTokens, x.2.maxTokens),
      output.numScheduledTokens.get? 1)) = some ([(false, 1, 0, 8)], some (-1)) by decide +kernel)
  obtain ⟨e', he, hrun⟩ := of_bind hrun
  obtain ⟨result, hresult, hrun⟩ := of_bind hrun
  obtain ⟨rfl, rfl⟩ := Prod.mk.inj (pure_eq_ok.mp hrun)
  simp only [Prod.mk.injEq] at hfacts
  obtain ⟨hlengths, hnegative⟩ := hfacts
  refine ⟨e', output, s, smallRun_reachable (fun _ _ _ => trivial) he, ?_, hresult, hnegative⟩
  intro x r hr hpooling
  have hmem := mem_map_of_mem (f := fun x : RequestId × SchedRequest =>
    (x.2.pooling, x.2.core.numPromptTokens, x.2.samplingParams.minTokens, x.2.maxTokens))
    (mem_entries_iff _ |>.mpr hr)
  rw [hlengths, mem_singleton] at hmem
  simp only [Prod.mk.injEq] at hmem
  obtain ⟨-, hprompt, hmin, hmax⟩ := hmem
  rw [hprompt, hmin, hmax]
  decide

end Vllm
