import Vllm.Sched.Moves

/-! The loop of `schedule` over the running requests walks the running list by index while
preemption takes requests off it. -/
namespace Vllm
open Raises List Nat

section Erase
variable {α : Type} [DecidableEq α] {l : List α} {v x : α} {i : ℕ}

theorem take_erase_of_mem (hv : v ∈ l.take i) : (l.erase v).take (i - 1) = (l.take i).erase v := by
  have hsplit : l.erase v = (l.take i).erase v ++ l.drop i := by
    conv_lhs => rw [← take_append_drop i l]
    exact erase_append_left _ hv
  have hlength : ((l.take i).erase v).length = (l.take i).length - 1 := length_erase_of_mem hv
  rw [length_take] at hlength
  rw [hsplit]
  obtain hle | hlt := le_total i l.length
  · rw [take_append_of_le_length (by omega), take_of_length_le (by omega)]
  · rw [drop_eq_nil_of_le hlt, append_nil, take_of_length_le (by omega)]

theorem take_erase_of_not_mem (hv : v ∉ l.take i) : (l.erase v).take i = l.take i := by
  have hsplit : l.erase v = l.take i ++ (l.drop i).erase v := by
    conv_lhs => rw [← take_append_drop i l]
    exact erase_append_right _ hv
  rw [hsplit]
  obtain hle | hlt := le_total i l.length
  · rw [take_append_of_le_length (by rw [length_take]; omega),
      take_of_length_le (by rw [length_take]; omega)]
  · rw [drop_eq_nil_of_le hlt, erase_nil, append_nil, take_take, min_self]

theorem getElem?_erase_of_mem (hv : v ∈ l.take i) (hi : i ≤ l.length) :
    (l.erase v)[i - 1]? = l[i]? := by
  have hsplit : l.erase v = (l.take i).erase v ++ l.drop i := by
    conv_lhs => rw [← take_append_drop i l]
    exact erase_append_left _ hv
  have hlength : ((l.take i).erase v).length = i - 1 := by
    rw [length_erase_of_mem hv, length_take, min_eq_left hi]
  rw [hsplit, List.getElem?_append_right (by omega), hlength, Nat.sub_self, List.getElem?_drop,
    add_zero]

theorem mem_take_erase (hx : x ∈ l.take i) (hne : x ≠ v) : x ∈ (l.erase v).take i := by
  by_cases hv : v ∈ l.take i
  · have hmem : x ∈ (l.take i).erase v := (mem_erase_of_ne hne).mpr hx
    rw [← take_erase_of_mem hv] at hmem
    exact (take_subset_take_left _ (sub_le i 1)) hmem
  · rw [take_erase_of_not_mem hv]
    exact hx

end Erase

namespace ScheduleStep
variable {κ ε : Type} {env : SchedulerEnv κ ε} {answers : StepAnswers} {st st' : ScheduleStep κ ε}
  {requestId victim : RequestId} {start : List RequestId}

/-- The victim with the running list it leaves, before anything is withdrawn. -/
def withoutVictim (st : ScheduleStep κ ε) (victim : RequestId) : ScheduleStep κ ε :=
  st.setSched { st.sched with running := st.sched.running.erase victim }

/-- Under the priority policy the victim is withdrawn from the step; otherwise it is the last of
the running list. -/
theorem takeVictim_eq_ok (hnodup : st.sched.running.Nodup)
    (h : takeVictim env st = .ok (victim, st')) :
    victim ∈ st.sched.running ∧
      ((env.config.policy = .priority ∧ withdraw (st.withoutVictim victim) victim = .ok st') ∨
        (env.config.policy = .fcfs ∧ st.sched.running.getLast? = some victim ∧
          st' = st.withoutVictim victim)) := by
  unfold takeVictim at h
  split at h
  · next hpolicy =>
    obtain ⟨v, hv, h⟩ := of_bind h
    obtain ⟨st₁, hst₁, h⟩ := of_bind h
    cases h
    exact ⟨lowestPriority_mem hv, .inl ⟨hpolicy, hst₁⟩⟩
  · next hpolicy =>
    split at h
    · simp at h
    · next v hlast =>
      obtain ⟨rfl, rfl⟩ := Prod.mk.inj (pure_eq_ok.mp h)
      have hsplit := dropLast_append_getLast? v hlast
      refine ⟨mem_of_getLast? hlast, .inr ⟨hpolicy, hlast, ?_⟩⟩
      have hdrop : st.sched.running.dropLast = st.sched.running.erase v := by
        have hnot : v ∉ st.sched.running.dropLast := by
          intro hmem
          rw [← hsplit] at hnodup
          exact disjoint_of_nodup_append hnodup hmem (mem_singleton_self v)
        conv_rhs => rw [← hsplit]
        rw [erase_append_right _ hnot]
        simp
      rw [hdrop]
      rfl

/-- The ledgers of a step: what is scheduled for which request. -/
def SameLedgers (st st' : ScheduleStep κ ε) : Prop :=
  st'.scheduledRunningReqs = st.scheduledRunningReqs ∧ st'.tokenBudget = st.tokenBudget ∧
  st'.numScheduledTokens = st.numScheduledTokens ∧ st'.reqToNewBlocks = st.reqToNewBlocks ∧
  st'.reqIndex = st.reqIndex

/-- The entries of the request are taken out of the ledgers, and the index goes back. -/
def WithdrawnLedgers (st st' : ScheduleStep κ ε) (requestId : RequestId) : Prop :=
  ∃ numTokens blocks, st.numScheduledTokens.get? requestId = some numTokens ∧
    st.reqToNewBlocks.get? requestId = some blocks ∧
    st'.scheduledRunningReqs = st.scheduledRunningReqs.erase requestId ∧
    st'.tokenBudget = st.tokenBudget + numTokens ∧
    st'.numScheduledTokens = st.numScheduledTokens.erase requestId ∧
    st'.reqToNewBlocks = st.reqToNewBlocks.erase requestId ∧ st'.reqIndex = st.reqIndex - 1

/-- A preemption takes the victim off the running list and, if it was scheduled, out of the
ledgers. -/
theorem preemptOne_cases (hnodup : st.sched.running.Nodup)
    (h : preemptOne env st = .ok (victim, st')) :
    victim ∈ st.sched.running ∧ st'.sched.running = st.sched.running.erase victim ∧
      st'.preemptedReqs = st.preemptedReqs ++ [victim] ∧
      st'.scheduledNewReqs = st.scheduledNewReqs ∧
      st'.scheduledResumedReqs = st.scheduledResumedReqs ∧
      ((env.config.policy = .priority ∧ victim ∈ st.scheduledRunningReqs ∧
          WithdrawnLedgers st st' victim) ∨
        (((env.config.policy = .priority ∧ victim ∉ st.scheduledRunningReqs) ∨
          (env.config.policy = .fcfs ∧ st.sched.running.getLast? = some victim)) ∧
          SameLedgers st st')) := by
  unfold preemptOne at h
  obtain ⟨⟨v, st₁⟩, hvictim, h⟩ := of_bind h
  obtain ⟨sched, hsched, h⟩ := of_bind h
  cases h
  obtain ⟨r, kv, encoder, -, -, -, -, rfl⟩ := Scheduler.preemptRequest_eq_ok hsched
  obtain ⟨hmem, ⟨hpolicy, hwithdraw⟩ | ⟨hpolicy, hlast, rfl⟩⟩ := takeVictim_eq_ok hnodup hvictim
  · obtain ⟨hnot, rfl⟩ | ⟨hscheduled, numTokens, blocks, budget, htokens, hblocks, rfl⟩ :=
      withdraw_eq_ok hwithdraw
    · exact ⟨hmem, rfl, rfl, rfl, rfl, .inr ⟨.inl ⟨hpolicy, hnot⟩, rfl, rfl, rfl, rfl, rfl⟩⟩
    · exact ⟨hmem, rfl, rfl, rfl, rfl, .inl ⟨hpolicy, hscheduled, numTokens, blocks, htokens,
        hblocks, rfl, rfl, rfl, rfl, rfl⟩⟩
  · exact ⟨hmem, rfl, rfl, rfl, rfl, .inr ⟨.inr ⟨hpolicy, hlast⟩, rfl, rfl, rfl, rfl, rfl⟩⟩

/-- What the loop keeps true between two turns: a scheduled request is before the index. -/
structure Walk (start : List RequestId) (st : ScheduleStep κ ε) : Prop where
  nodup : st.sched.running.Nodup
  sublist : st.sched.running.Sublist start
  scheduled : st.scheduledRunningReqs ⊆ st.sched.running.take st.reqIndex
  nodupScheduled : st.scheduledRunningReqs.Nodup
  preempted : ∀ x ∈ st.preemptedReqs, x ∉ st.sched.running

/-- In the middle of a turn the request may have moved to the left of the index. -/
structure Turn (env : SchedulerEnv κ ε) (start : List RequestId) (requestId : RequestId)
    (st : ScheduleStep κ ε) : Prop extends Walk start st where
  current : requestId ∈ st.sched.running.take (st.reqIndex + 1)
  notScheduled : requestId ∉ st.scheduledRunningReqs
  inPlace : env.config.policy = .fcfs → st.sched.running[st.reqIndex]? = some requestId

theorem Walk.turn (h : Walk start st) (hget : st.sched.running[st.reqIndex]? = some requestId) :
    Turn env start requestId st where
  toWalk := h
  current := by
    rw [take_add_one, hget]
    simp
  notScheduled := by
    intro hmem
    have htake := h.scheduled hmem
    obtain ⟨j, hj, hgetj⟩ := mem_take_iff_getElem.mp htake
    have hlen : st.reqIndex < st.sched.running.length := by
      by_contra hle
      rw [List.getElem?_eq_none (by omega)] at hget
      simp at hget
    rw [List.getElem?_eq_getElem hlen, Option.some.injEq] at hget
    have := (h.nodup.getElem_inj_iff).mp (hgetj.trans hget.symm)
    omega
  inPlace := fun _ => hget

section
variable (h : Turn env start requestId st)
include h

theorem Turn.setKv (kv : κ) : Turn env start requestId (st.setKv kv) :=
  ⟨⟨h.nodup, h.sublist, h.scheduled, h.nodupScheduled, h.preempted⟩, h.current, h.notScheduled,
    h.inPlace⟩

theorem Turn.last_not_scheduled (hpolicy : env.config.policy = .fcfs)
    (hlast : st.sched.running.getLast? = some victim) :
    victim ∉ st.sched.running.take st.reqIndex := by
  have hget := h.inPlace hpolicy
  have hlen : st.reqIndex < st.sched.running.length := by
    by_contra hle
    rw [List.getElem?_eq_none (by omega)] at hget
    simp at hget
  intro hmem
  obtain ⟨j, hj, hgetj⟩ := mem_take_iff_getElem.mp hmem
  rw [List.getLast?_eq_getElem?, List.getElem?_eq_getElem (by omega), Option.some.injEq] at hlast
  have := (h.nodup.getElem_inj_iff).mp (hgetj.trans hlast.symm)
  omega

theorem Turn.preemptOne_walk (hpreempt : preemptOne env st = .ok (victim, st')) :
    Walk start st' := by
  obtain ⟨hmem, hrunning, hpreempted, -, -, hledgers⟩ := preemptOne_cases h.nodup hpreempt
  refine ⟨?_, ?_, ?_, ?_, ?_⟩
  · rw [hrunning]
    exact h.nodup.erase victim
  · rw [hrunning]
    exact erase_sublist.trans h.sublist
  · rw [hrunning]
    obtain ⟨-, hscheduled, numTokens, blocks, -, -, hlist, -, -, -, hindex⟩ |
      ⟨hcases, hlist, -, -, -, hindex⟩ := hledgers
    · rw [hlist, hindex, take_erase_of_mem (h.scheduled hscheduled)]
      intro x hx
      have hne : x ≠ victim := by
        rintro rfl
        exact h.nodupScheduled.not_mem_erase hx
      exact (mem_erase_of_ne hne).mpr (h.scheduled (mem_of_mem_erase hx))
    · rw [hlist, hindex]
      have hnot : victim ∉ st.scheduledRunningReqs := by
        obtain ⟨-, hnot⟩ | ⟨hpolicy, hlast⟩ := hcases
        · exact hnot
        · exact fun hmem => h.last_not_scheduled hpolicy hlast (h.scheduled hmem)
      intro x hx
      apply mem_take_erase (h.scheduled hx)
      rintro rfl
      exact hnot hx
  · obtain ⟨-, -, numTokens, blocks, -, -, hlist, -⟩ | ⟨-, hlist, -⟩ := hledgers
    · rw [hlist]
      exact h.nodupScheduled.erase victim
    · rw [hlist]
      exact h.nodupScheduled
  · intro x hx
    rw [hpreempted, mem_append, mem_singleton] at hx
    rw [hrunning]
    obtain hx | rfl := hx
    · exact fun hmem => h.preempted x hx (mem_of_mem_erase hmem)
    · exact h.nodup.not_mem_erase

theorem Turn.preemptOne (hne : victim ≠ requestId)
    (hpreempt : ScheduleStep.preemptOne env st = .ok (victim, st')) :
    Turn env start requestId st' := by
  have hwalk := h.preemptOne_walk hpreempt
  obtain ⟨hmem, hrunning, -, -, -, hledgers⟩ := preemptOne_cases h.nodup hpreempt
  obtain ⟨hpolicy, hscheduled, numTokens, blocks, -, -, hlist, -, -, -, hindex⟩ |
    ⟨hcases, hlist, -, -, -, hindex⟩ := hledgers
  · have htake := h.scheduled hscheduled
    have hpos : 0 < st.reqIndex := by
      by_contra hzero
      simp [Nat.eq_zero_of_not_pos hzero] at htake
    refine ⟨hwalk, ?_, ?_, ?_⟩
    · have hmem' : victim ∈ st.sched.running.take (st.reqIndex + 1) :=
        take_subset_take_left _ (le_succ _) htake
      rw [hrunning, hindex, Nat.sub_add_cancel hpos,
        ← Nat.add_sub_cancel (n := st.reqIndex) (m := 1),
        take_erase_of_mem hmem']
      exact (mem_erase_of_ne hne.symm).mpr h.current
    · rw [hlist]
      exact fun hmem => h.notScheduled (mem_of_mem_erase hmem)
    · intro hfcfs
      simp [hpolicy] at hfcfs
  · refine ⟨hwalk, ?_, ?_, ?_⟩
    · rw [hrunning, hindex]
      exact mem_take_erase h.current hne.symm
    · rw [hlist]
      exact h.notScheduled
    · intro hfcfs
      have hget := h.inPlace hfcfs
      obtain ⟨hpriority, -⟩ | ⟨-, hlast⟩ := hcases
      · simp [hfcfs] at hpriority
      have hnot : victim ∉ st.sched.running.take (st.reqIndex + 1) := by
        rw [take_add_one, hget, mem_append]
        rintro (hin | hin)
        · exact h.last_not_scheduled hfcfs hlast hin
        · exact hne (by simpa using hin)
      rw [hrunning, hindex, ← hget,
        ← List.getElem?_take_of_lt (l := st.sched.running.erase victim) (lt_succ_self st.reqIndex),
        take_erase_of_not_mem hnot, List.getElem?_take_of_lt (lt_succ_self st.reqIndex)]

end

variable {numNewTokens : ℤ}

/-- A property that lookups and the preemption of others keep holds when the request has its slots,
and just before it is preempted itself. Each preemption shortens the running list, and so the fuel
is not used up. -/
theorem allocateOrPreempt_rule {P : ScheduleStep κ ε → Prop} {fuel : ℕ}
    {newBlocks : Option (List (List BlockId))} (hfuel : st.sched.running.length < fuel)
    (hkv : ∀ st kv, P st → P (st.setKv kv))
    (hpreempt : ∀ st st' victim, P st → victim ≠ requestId →
      preemptOne env st = .ok (victim, st') → P st')
    (hst : P st) (h : allocateOrPreempt env requestId numNewTokens fuel st = .ok (newBlocks, st')) :
    (∃ blocks, newBlocks = some blocks ∧ P st') ∨
      (newBlocks = none ∧ ∃ st₁, P st₁ ∧ preemptOne env st₁ = .ok (requestId, st')) := by
  induction fuel generalizing st with
  | zero => simp at hfuel
  | succ fuel ih =>
    unfold allocateOrPreempt at h
    obtain ⟨r, -, h⟩ := of_bind h
    obtain ⟨⟨blocks, kv⟩, -, h⟩ := of_bind h
    have hset := hkv st kv hst
    cases blocks with
    | some blocks =>
      cases h
      exact .inl ⟨blocks, rfl, hset⟩
    | none =>
      obtain ⟨⟨victim, st₁⟩, hvictim, h⟩ := of_bind h
      simp only at h
      split at h
      · next heq =>
        cases h
        exact .inr ⟨rfl, st.setKv kv, hset, heq ▸ hvictim⟩
      · next hne =>
        obtain ⟨r, kv', encoder, running, -, -, hperm, -, -, hsched⟩ := preemptOne_sched hvictim
        have hshorter : st.sched.running.length = st₁.sched.running.length + 1 := by
          rw [hsched]
          exact hperm.length_eq
        exact ih (by omega) (hpreempt _ _ _ hset hne hvictim) h

variable (env answers) in
/-- The step passes over the request: it is deferred, or there are no tokens for it. -/
def PassesOver (st : ScheduleStep κ ε) (r : SchedRequest) : Prop :=
  isDeferred st r = true ∨ ∃ plan encoder,
    planEncoderInputs env answers st r r.numComputedTokens (numNewTokensRunning env st r) =
      .ok (plan, encoder) ∧ alignedSplit env r plan.numNewTokens 0 0 0 = 0

theorem not_passesOver {r : SchedRequest} {plan : EncoderPlan} {encoder : ε}
    (hdue : isDeferred st r = false)
    (hplan : planEncoderInputs env answers st r r.numComputedTokens
      (numNewTokensRunning env st r) = .ok (plan, encoder))
    (hzero : alignedSplit env r plan.numNewTokens 0 0 0 ≠ 0) : ¬ PassesOver env answers st r := by
  rintro (hdeferred | ⟨plan', encoder', hplan', hzero'⟩)
  · simp [hdue] at hdeferred
  · obtain ⟨rfl, -⟩ := Prod.mk.inj (Except.ok.inj (hplan.symm.trans hplan'))
    exact hzero hzero'

theorem runningTurn_cases {go : Bool} (h : runningTurn env answers st requestId = .ok (go, st')) :
    ∃ r, st.sched.objects.get? requestId = some r ∧
      ((go = true ∧ PassesOver env answers st r ∧ ∃ encoder, st' = { st.setEncoder encoder with
          reqIndex := st.reqIndex + 1 }) ∨
        (isDeferred st r = false ∧ ∃ plan encoder newBlocks st₁,
          planEncoderInputs env answers st r r.numComputedTokens (numNewTokensRunning env st r) =
            .ok (plan, encoder) ∧
          alignedSplit env r plan.numNewTokens 0 0 0 ≠ 0 ∧
          allocateOrPreempt env requestId (alignedSplit env r plan.numNewTokens 0 0 0)
            (st.sched.running.length + 1) (st.setEncoder encoder) = .ok (newBlocks, st₁) ∧
          ((newBlocks = none ∧ go = false ∧ st' = st₁) ∨
            (∃ blocks, newBlocks = some blocks ∧ go = true ∧
              allocateEncoderInputs env (recordRunning st₁ requestId r
                (alignedSplit env r plan.numNewTokens 0 0 0) blocks) requestId r plan =
                  .ok st')))) := by
  unfold runningTurn at h
  obtain ⟨r, hr, h⟩ := of_bind h
  refine ⟨r, Scheduler.object_eq_ok.mp hr, ?_⟩
  split at h
  · next hdeferred =>
    cases h
    exact .inl ⟨rfl, .inl hdeferred, st.sched.encoder, rfl⟩
  next hdeferred =>
  obtain ⟨⟨plan, encoder⟩, hplan, h⟩ := of_bind h
  simp only at h
  split at h
  · next hzero =>
    cases h
    exact .inl ⟨rfl, .inr ⟨plan, encoder, hplan, hzero⟩, encoder, rfl⟩
  next hzero =>
  obtain ⟨⟨newBlocks, st₁⟩, halloc, h⟩ := of_bind h
  refine .inr ⟨by simpa using hdeferred, plan, encoder, newBlocks, st₁, hplan, hzero, halloc, ?_⟩
  cases newBlocks with
  | none =>
    cases h
    exact .inl ⟨rfl, rfl, rfl⟩
  | some blocks =>
    obtain ⟨st₂, hst₂, h⟩ := of_bind h
    cases h
    exact .inr ⟨blocks, rfl, rfl, hst₂⟩

theorem Walk.pass (h : Walk start st) (encoder : ε) :
    Walk start { st.setEncoder encoder with reqIndex := st.reqIndex + 1 } where
  nodup := h.nodup
  sublist := h.sublist
  scheduled := fun _ hx => take_subset_take_left _ (le_succ _) (h.scheduled hx)
  nodupScheduled := h.nodupScheduled
  preempted := h.preempted

theorem Turn.setEncoder (h : Turn env start requestId st) (encoder : ε) :
    Turn env start requestId (st.setEncoder encoder) :=
  ⟨⟨h.nodup, h.sublist, h.scheduled, h.nodupScheduled, h.preempted⟩, h.current, h.notScheduled,
    h.inPlace⟩

theorem Turn.record (h : Turn env start requestId st) {r : SchedRequest}
    {blocks : List (List BlockId)} {plan : EncoderPlan}
    (hrecord : allocateEncoderInputs env (recordRunning st requestId r numNewTokens blocks)
      requestId r plan = .ok st') : Walk start st' := by
  obtain ⟨encoder, budget, -, rfl⟩ := allocateEncoderInputs_eq_ok hrecord
  refine ⟨h.nodup, h.sublist, ?_, ?_, h.preempted⟩
  · intro x hx
    obtain hx | hx := mem_append.mp hx
    · exact take_subset_take_left _ (le_succ _) (h.scheduled hx)
    · rw [mem_singleton.mp hx]
      exact h.current
  · apply nodup_append.mpr
    refine ⟨h.nodupScheduled, nodup_singleton requestId, ?_⟩
    rintro x hx y hy rfl
    rw [mem_singleton.mp hy] at hx
    exact h.notScheduled hx

variable (env answers) in
/-- How a turn ends that asks for slots, from the state in which the last victim but the request
itself is gone. -/
def TurnEnds (requestId : RequestId) (r : SchedRequest) (plan : EncoderPlan)
    (st₁ : ScheduleStep κ ε) (go : Bool) (st' : ScheduleStep κ ε) : Prop :=
  (go = false ∧ preemptOne env st₁ = .ok (requestId, st')) ∨
    (go = true ∧ ∃ blocks, allocateEncoderInputs env (recordRunning st₁ requestId r
      (alignedSplit env r plan.numNewTokens 0 0 0) blocks) requestId r plan = .ok st')

/-- One turn: the request is passed over, or it asks for slots. What the preemption of others keeps
true holds when it gets them, and just before it is preempted itself. -/
theorem Walk.turn_rule {P : ScheduleStep κ ε → Prop} {go : Bool} (h : Walk start st)
    (hget : st.sched.running[st.reqIndex]? = some requestId)
    (hkv : ∀ st₁ kv, P st₁ → P (st₁.setKv kv)) (hencoder : ∀ encoder, P (st.setEncoder encoder))
    (hpreempt : ∀ st₁ st₂ victim, Turn env start requestId st₁ →
      (∃ r, st.sched.objects.get? requestId = some r ∧ ¬ PassesOver env answers st r) → P st₁ →
      victim ≠ requestId → preemptOne env st₁ = .ok (victim, st₂) → P st₂)
    (hturn : runningTurn env answers st requestId = .ok (go, st')) :
    ∃ r, st.sched.objects.get? requestId = some r ∧
      ((go = true ∧ PassesOver env answers st r ∧ ∃ encoder, st' = { st.setEncoder encoder with
          reqIndex := st.reqIndex + 1 }) ∨
        ∃ plan encoder st₁, isDeferred st r = false ∧
          planEncoderInputs env answers st r r.numComputedTokens (numNewTokensRunning env st r) =
            .ok (plan, encoder) ∧ alignedSplit env r plan.numNewTokens 0 0 0 ≠ 0 ∧
          Turn env start requestId st₁ ∧ P st₁ ∧ TurnEnds env requestId r plan st₁ go st') := by
  obtain ⟨r, hr, hpass | ⟨hdue, plan, encoder, newBlocks, st₁, hplan, hzero, halloc, hend⟩⟩ :=
    runningTurn_cases hturn
  · exact ⟨r, hr, .inl hpass⟩
  have hasks : ¬ PassesOver env answers st r := not_passesOver hdue hplan hzero
  have hcases := allocateOrPreempt_rule (P := fun st₁ => Turn env start requestId st₁ ∧ P st₁)
    (lt_succ_self _) (fun _ kv hst => ⟨hst.1.setKv kv, hkv _ kv hst.2⟩)
    (fun _ _ _ hst hne hvictim => ⟨hst.1.preemptOne hne hvictim,
      hpreempt _ _ _ hst.1 ⟨r, hr, hasks⟩ hst.2 hne hvictim⟩)
    ⟨(h.turn hget).setEncoder encoder, hencoder encoder⟩ halloc
  refine ⟨r, hr, .inr ?_⟩
  obtain ⟨blocks, rfl, hst₁, hP⟩ | ⟨rfl, st₂, ⟨hst₂, hP⟩, hself⟩ := hcases
  · obtain ⟨hnone, -⟩ | ⟨blocks', hblocks, rfl, hrecord⟩ := hend
    · simp at hnone
    · exact ⟨plan, encoder, st₁, hdue, hplan, hzero, hst₁, hP, .inr ⟨rfl, blocks', hrecord⟩⟩
  · obtain ⟨-, rfl, rfl⟩ | ⟨blocks, hsome, -⟩ := hend
    · exact ⟨plan, encoder, st₂, hdue, hplan, hzero, hst₂, hP, .inl ⟨rfl, hself⟩⟩
    · simp at hsome

theorem Walk.runningTurn {go : Bool} (h : Walk start st)
    (hget : st.sched.running[st.reqIndex]? = some requestId)
    (hturn : ScheduleStep.runningTurn env answers st requestId = .ok (go, st')) :
    Walk start st' := by
  obtain ⟨r, -, ⟨-, -, encoder, rfl⟩ |
    ⟨plan, encoder, st₁, -, -, -, hst₁, -, ⟨-, hself⟩ | ⟨-, blocks, hrecord⟩⟩⟩ :=
      h.turn_rule (P := fun _ => True) hget (fun _ _ _ => trivial) (fun _ => trivial)
        (fun _ _ _ _ _ _ _ _ => trivial) hturn
  · exact h.pass encoder
  · exact hst₁.preemptOne_walk hself
  · exact hst₁.record hrecord

/-- The step is the one after those of the scheduler, and a running request that it has not
scheduled is as it was. -/
structure Fresh (s : Scheduler κ ε) (st : ScheduleStep κ ε) : Prop where
  step : st.sched.currentStep = s.currentStep + 1
  untouched : ∀ x ∈ st.sched.running, x ∉ st.scheduledRunningReqs →
    st.sched.objects.get? x = s.objects.get? x

section
variable {s : Scheduler κ ε} (h : Fresh s st)
include h

theorem Fresh.preemptOne (hnodup : st.sched.running.Nodup)
    (hpreempt : ScheduleStep.preemptOne env st = .ok (victim, st')) : Fresh s st' := by
  obtain ⟨hmem, hrunning, -, -, -, hledgers⟩ := preemptOne_cases hnodup hpreempt
  obtain ⟨r, kv, encoder, running, -, -, -, -, -, hsched⟩ := preemptOne_sched hpreempt
  refine ⟨?_, ?_⟩
  · rw [hsched]
    exact h.step
  · intro x hx hnot
    rw [hrunning] at hx
    obtain ⟨hne, hx⟩ := hnodup.mem_erase_iff.mp hx
    have hsame : st'.sched.objects.get? x = st.sched.objects.get? x := by
      rw [hsched]
      simp only [Dict.get?_set, hne, ↓reduceIte]
    refine hsame.trans (h.untouched x hx ?_)
    obtain ⟨-, -, n, blocks, -, -, hlist, -⟩ | ⟨-, hlist, -⟩ := hledgers
    · rwa [hlist, mem_erase_of_ne hne] at hnot
    · rwa [hlist] at hnot

theorem Fresh.record {r : SchedRequest} {blocks : List (List BlockId)} {plan : EncoderPlan}
    (hrecord : allocateEncoderInputs env (recordRunning st requestId r numNewTokens blocks)
      requestId r plan = .ok st') : Fresh s st' := by
  obtain ⟨encoder, budget, -, rfl⟩ := allocateEncoderInputs_eq_ok hrecord
  refine ⟨h.step, ?_⟩
  intro x hx hnot
  simp only [recordRunning, mem_append, mem_singleton, not_or] at hnot
  simp only [recordRunning, Scheduler.put, Dict.get?_set, hnot.2, ↓reduceIte]
  exact h.untouched x hx hnot.1

end

end ScheduleStep

end Vllm
