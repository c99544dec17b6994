import Vllm.Sched.Schedule
import Mathlib.Logic.Relation

/-! What one step of `schedule` can do to the scheduler and its local variables. A step is a
sequence of these moves, so that a property of whole steps follows from the moves alone. What one
turn of the loop over the waiting requests does to the queues and to the running list. -/
namespace Vllm
open Raises RequestQueue List

namespace Scheduler
variable {κ ε : Type} {s : Scheduler κ ε} {requestId : RequestId} {r : SchedRequest}

theorem object_eq_ok : s.object requestId = .ok r ↔ s.objects.get? requestId = some r := by
  unfold object
  split <;> simp_all

section
variable (q : WaitingQueue) (ids : List RequestId)
include q ids

@[simp] theorem setQueue_objects :
    (s.setQueue q ids).objects = s.objects := by
  cases q <;> rfl

@[simp] theorem setQueue_requests :
    (s.setQueue q ids).requests = s.requests := by
  cases q <;> rfl

@[simp] theorem setQueue_running :
    (s.setQueue q ids).running = s.running := by
  cases q <;> rfl

@[simp] theorem setQueue_numWaiting :
    (s.setQueue q ids).numWaitingForStreamingInput = s.numWaitingForStreamingInput := by
  cases q <;> rfl

@[simp] theorem setQueue_encoder :
    (s.setQueue q ids).encoder = s.encoder := by
  cases q <;> rfl

end

/-- A request as `_preempt_request` leaves it. -/
def preempted (r : SchedRequest) : SchedRequest :=
  { r.setStatus .preempted with
    numComputedTokens := 0
    specTokenIds := []
    numPreemptions := r.numPreemptions + 1 }

theorem preemptRequest_eq_ok {env : SchedulerEnv κ ε} {s' : Scheduler κ ε}
    (h : s.preemptRequest env requestId = .ok s') : ∃ r kv encoder,
      s.objects.get? requestId = some r ∧ r.status = .running ∧
      env.kv.free s.kv r.view = .ok kv ∧ env.encoder.free s.encoder r.view = .ok encoder ∧
      s' = { s with
        objects := s.objects.set requestId (preempted r)
        kv
        encoder
        inflightPrefills := setDiscard s.inflightPrefills requestId
        waiting := prependRequest env.config.policy
          (s.put requestId (preempted r)).lt s.waiting requestId } := by
  unfold preemptRequest at h
  simp only [bind_eq_ok, object_eq_ok, require_eq_ok, pure_eq_ok] at h
  obtain ⟨r, hr, -, hstatus, kv, hkv, encoder, hencoder, rfl⟩ := h
  exact ⟨r, kv, encoder, hr, hstatus, hkv, hencoder, rfl⟩

end Scheduler

namespace ScheduleStep
variable {κ ε : Type} (env : SchedulerEnv κ ε) (answers : StepAnswers)

/-- The two loops of `schedule`. -/
inductive Phase where
  | running | waiting

/-- The moves of `schedule`, by the loop they belong to. -/
inductive Move : Phase → ScheduleStep κ ε → ScheduleStep κ ε → Prop
  /-- A running request is passed over. -/
  | pass (st) : Move .running st { st with reqIndex := st.reqIndex + 1 }
  /-- The encoder inputs of a request are looked up. -/
  | plan {phase st requestId r numComputedTokens numNewTokens plan encoder}
      (hr : st.sched.objects.get? requestId = some r)
      (h : planEncoderInputs env answers st r numComputedTokens numNewTokens =
        .ok (plan, encoder)) : Move phase st (st.setEncoder encoder)
  /-- There are no slots for a running request. -/
  | noSlots {st requestId r args kv} (hr : st.sched.objects.get? requestId = some r)
      (h : env.kv.allocateSlots st.sched.kv r.view args = .ok (none, kv)) :
      Move .running st (st.setKv kv)
  | preempt {st st' victim} (h : preemptOne env st = .ok (victim, st')) : Move .running st st'
  /-- A running request is scheduled. -/
  | record {st st' requestId r numNewTokens newBlocks kv plan encoder}
      (hr : st.sched.objects.get? requestId = some r) (hrunning : requestId ∈ st.sched.running)
      (hplan : ∃ st₀ : ScheduleStep κ ε, st₀.sched.objects.get? requestId = some r ∧
        planEncoderInputs env answers st₀ r r.numComputedTokens (numNewTokensRunning env st₀ r) =
          .ok (plan, encoder))
      (htokens : numNewTokens = alignedSplit env r plan.numNewTokens 0 0 0)
      (hzero : numNewTokens ≠ 0)
      (halloc : env.kv.allocateSlots st.sched.kv r.view {
        numNewTokens
        numLookaheadTokens := env.config.numLookaheadTokens } = .ok (some newBlocks, kv))
      (h : allocateEncoderInputs env (recordRunning (st.setKv kv) requestId r numNewTokens newBlocks)
        requestId r plan = .ok st') : Move .running st st'
  | loras {st st'} (h : recordLoras env st = .ok st') : Move .running st st'
  /-- A blocked request is tried again. -/
  | promote {st requestId r promoted sched} (hr : st.sched.objects.get? requestId = some r)
      (h : st.sched.tryPromoteBlockedWaitingRequest env answers requestId r =
        .ok (promoted, sched)) : Move .waiting st (st.setSched sched)
  /-- A waiting request is put aside. -/
  | skip {st st' q requestId} (hhead : RequestQueue.peekRequest (st.sched.queue q) = some requestId)
      (h : skipWaiting env st q requestId = .ok st') : Move .waiting st st'
  /-- There are no slots for a waiting request. -/
  | noWaitingSlots {st requestId r lookup numNewTokens plan kv encoder}
      (hr : st.sched.objects.get? requestId = some r)
      (h : allocateWaiting env st r lookup numNewTokens plan = .ok (none, kv))
      (hfree : (if r.core.hasEncoderInputs then env.encoder.free st.sched.encoder r.view
        else pure st.sched.encoder) = .ok encoder) :
      Move .waiting st ((st.setKv kv).setEncoder encoder)
  | remoteLoad {st st' q requestId r lookup numNewTokens plan newBlocks kv}
      (hr : st.sched.objects.get? requestId = some r)
      (hstatus : Scheduler.isBlockedWaitingStatus r.status = false)
      (hhead : RequestQueue.peekRequest (st.sched.queue q) = some requestId)
      (hasync : lookup.loadKvAsync = true)
      (h : allocateWaiting env st r lookup numNewTokens plan = .ok (some newBlocks, kv))
      (hpop : popWaiting env (st.setKv kv) q = .ok st') :
      Move .waiting st (startRemoteLoad env st' requestId r lookup)
  /-- A waiting request starts to run. -/
  | startRunning {st st' st'' st''' q requestId r lookup numNewTokens plan newBlocks kv}
      (hr : st.sched.objects.get? requestId = some r)
      (hstatus : Scheduler.isBlockedWaitingStatus r.status = false)
      (hhead : RequestQueue.peekRequest (st.sched.queue q) = some requestId)
      (hlookup : ∃ st₀ : ScheduleStep κ ε,
        lookupComputed env answers st₀ requestId r = .ok (some lookup))
      (hplan : ∃ (st₀ : ScheduleStep κ ε) (encoder : ε), st₀.tokenBudget = st.tokenBudget ∧
        planWaiting env answers st₀ r lookup = .ok (some (numNewTokens, plan), encoder))
      (hroom : st.sched.running.length ≠ env.config.maxNumRunningReqs)
      (hlora : exceedsMaxLoras env st r = false)
      (hsync : lookup.loadKvAsync = false)
      (h : allocateWaiting env st r lookup numNewTokens plan = .ok (some newBlocks, kv))
      (hpop : popWaiting env (st.setKv kv) q = .ok st')
      (hstarts : ScheduleStep.startRunning env st' requestId r lookup numNewTokens = .ok st'')
      (hencoder : allocateEncoderInputs env st'' requestId r plan = .ok st''') :
      Move .waiting st st'''

/-- Any number of moves. -/
abbrev Moves (phase : Phase) : ScheduleStep κ ε → ScheduleStep κ ε → Prop :=
  Relation.ReflTransGen (Move env answers phase)

variable {env answers}

theorem Moves.induction {P : ScheduleStep κ ε → Prop} {phase : Phase} {st st' : ScheduleStep κ ε}
    (hmove : ∀ st st', Move env answers phase st st' → P st → P st')
    (h : Moves env answers phase st st') (hst : P st) : P st' := by
  induction h with
  | refl => exact hst
  | tail _ hlast ih => exact hmove _ _ hlast ih

section Preempt
variable {st st' : ScheduleStep κ ε} {victim requestId : RequestId}

theorem withdraw_eq_ok (h : withdraw st requestId = .ok st') :
    (requestId ∉ st.scheduledRunningReqs ∧ st' = st) ∨
    (requestId ∈ st.scheduledRunningReqs ∧ ∃ numTokens blocks budget,
      st.numScheduledTokens.get? requestId = some numTokens ∧
      st.reqToNewBlocks.get? requestId = some blocks ∧
      st' = { st with
        scheduledRunningReqs := st.scheduledRunningReqs.erase requestId
        tokenBudget := st.tokenBudget + numTokens
        numScheduledTokens := st.numScheduledTokens.erase requestId
        reqToNewBlocks := st.reqToNewBlocks.erase requestId
        scheduledSpecDecodeTokens := st.scheduledSpecDecodeTokens.erase requestId
        scheduledEncoderInputs := st.scheduledEncoderInputs.erase requestId
        encoderComputeBudget := budget
        reqIndex := st.reqIndex - 1 }) := by
  unfold withdraw at h
  split at h
  · next hmem =>
    obtain ⟨r, -, h⟩ := of_bind h
    split at h
    · next numTokens blocks htokens hblocks =>
      obtain ⟨embeds, -, h⟩ := of_bind h
      cases h
      exact .inr ⟨hmem, numTokens, blocks, _, htokens, hblocks, rfl⟩
    · simp at h
  · next hmem =>
    cases h
    exact .inl ⟨hmem, rfl⟩

theorem withdraw_sched (h : withdraw st requestId = .ok st') : st'.sched = st.sched := by
  obtain ⟨-, rfl⟩ | ⟨-, numTokens, blocks, budget, -, -, rfl⟩ := withdraw_eq_ok h
  · rfl
  · rfl

theorem lowestPriority_mem {sched : Scheduler κ ε} {ids : List RequestId}
    (h : lowestPriority sched ids = .ok victim) : victim ∈ ids := by
  have hfold : ∀ (rest : List RequestId) (best : RequestId), rest.foldlM (fun best requestId => do
      let r ← sched.object best
      let r' ← sched.object requestId
      pure (if r.core.priority < r'.core.priority ∨
        (r.core.priority = r'.core.priority ∧ r.core.arrivalTime < r'.core.arrivalTime)
        then requestId else best)) best = .ok victim → victim ∈ best :: rest := by
    intro rest
    induction rest with
    | nil =>
      intro best h
      cases h
      exact mem_cons_self
    | cons x rest ih =>
      intro best h
      rw [foldlM_cons] at h
      obtain ⟨next, hnext, h⟩ := of_bind h
      obtain ⟨r, -, hnext⟩ := of_bind hnext
      obtain ⟨r', -, hnext⟩ := of_bind hnext
      have hmem := ih next h
      have hchoice : next = x ∨ next = best := by
        rw [pure_eq_ok] at hnext
        split at hnext
        · exact .inl hnext.symm
        · exact .inr hnext.symm
      obtain rfl | rfl := hchoice
      · exact mem_cons_of_mem best hmem
      · obtain rfl | hrest := mem_cons.mp hmem
        · exact mem_cons_self
        · exact mem_cons_of_mem next (mem_cons_of_mem x hrest)
  cases ids with
  | nil => simp [lowestPriority] at h
  | cons x rest => exact hfold rest x h

theorem takeVictim_sched (h : takeVictim env st = .ok (victim, st')) :
    st.sched.running.Perm (victim :: st'.sched.running) ∧
      st'.sched = { st.sched with running := st'.sched.running } := by
  unfold takeVictim at h
  split at h
  · obtain ⟨v, hv, h⟩ := of_bind h
    obtain ⟨st₁, hst₁, h⟩ := of_bind h
    cases h
    rw [withdraw_sched hst₁]
    exact ⟨perm_cons_erase (lowestPriority_mem hv), rfl⟩
  · split at h
    · simp at h
    · next v hlast =>
      obtain ⟨rfl, rfl⟩ := Prod.mk.inj (pure_eq_ok.mp h)
      refine ⟨?_, rfl⟩
      have hsplit := dropLast_append_getLast? v hlast
      have hperm := perm_append_singleton v st.sched.running.dropLast
      rw [hsplit] at hperm
      exact hperm

/-- What a preemption does to the scheduler. -/
theorem preemptOne_sched (h : preemptOne env st = .ok (victim, st')) : ∃ r kv encoder running,
    st.sched.objects.get? victim = some r ∧ r.status = .running ∧
    st.sched.running.Perm (victim :: running) ∧
    env.kv.free st.sched.kv r.view = .ok kv ∧
    env.encoder.free st.sched.encoder r.view = .ok encoder ∧
    st'.sched = { st.sched with
      objects := st.sched.objects.set victim (Scheduler.preempted r)
      running
      kv
      encoder
      inflightPrefills := setDiscard st.sched.inflightPrefills victim
      waiting := prependRequest env.config.policy
        (st.sched.put victim (Scheduler.preempted r)).lt st.sched.waiting victim } := by
  unfold preemptOne at h
  obtain ⟨⟨v, st₁⟩, hvictim, h⟩ := of_bind h
  obtain ⟨sched, hsched, h⟩ := of_bind h
  cases h
  obtain ⟨hperm, hst₁⟩ := takeVictim_sched hvictim
  obtain ⟨r, kv, encoder, hr, hstatus, hkv, hencoder, rfl⟩ := Scheduler.preemptRequest_eq_ok hsched
  rw [hst₁] at hr hkv hencoder
  refine ⟨r, kv, encoder, st₁.sched.running, hr, hstatus, hperm, hkv, hencoder, ?_⟩
  rw [hst₁]
  rfl

/-- A preemption puts no request aside and schedules none. -/
theorem preemptOne_lists (h : preemptOne env st = .ok (victim, st')) :
    st'.stepSkippedWaiting = st.stepSkippedWaiting ∧
      st'.preemptedReqs = st.preemptedReqs ++ [victim] ∧
      st'.scheduledNewReqs = st.scheduledNewReqs ∧
      st'.scheduledResumedReqs = st.scheduledResumedReqs ∧
      st'.scheduledRunningReqs ⊆ st.scheduledRunningReqs := by
  unfold preemptOne at h
  obtain ⟨⟨v, st₁⟩, hvictim, h⟩ := of_bind h
  obtain ⟨sched, -, h⟩ := of_bind h
  cases h
  unfold takeVictim at hvictim
  split at hvictim
  · obtain ⟨v', -, hvictim⟩ := of_bind hvictim
    obtain ⟨st₂, hwithdraw, hvictim⟩ := of_bind hvictim
    cases hvictim
    obtain ⟨-, rfl⟩ | ⟨-, numTokens, blocks, budget, -, -, rfl⟩ := withdraw_eq_ok hwithdraw
    · exact ⟨rfl, rfl, rfl, rfl, List.Subset.refl _⟩
    · exact ⟨rfl, rfl, rfl, rfl, erase_subset⟩
  · split at hvictim
    · simp at hvictim
    · cases hvictim
      exact ⟨rfl, rfl, rfl, rfl, List.Subset.refl _⟩

end Preempt

section Bookkeeping
variable {st st' : ScheduleStep κ ε} {requestId : RequestId} {r : SchedRequest}

theorem allocateEncoderInputs_eq_ok {plan : EncoderPlan}
    (h : allocateEncoderInputs env st requestId r plan = .ok st') : ∃ encoder budget,
      (plan.encoderInputsToSchedule ++ plan.externalLoadEncoderInput).foldlM
        (fun encoder i => env.encoder.allocate encoder r.view i) st.sched.encoder = .ok encoder ∧
      st' = { st with
        sched := { st.sched with encoder }
        encoderAllocations := if env.config.hasEcConnector
          then st.encoderAllocations ++
            (plan.encoderInputsToSchedule ++ plan.externalLoadEncoderInput).map (requestId, ·)
          else st.encoderAllocations
        scheduledEncoderInputs := if plan.encoderInputsToSchedule = []
          then st.scheduledEncoderInputs
          else st.scheduledEncoderInputs.set requestId plan.encoderInputsToSchedule
        encoderComputeBudget := budget } := by
  unfold allocateEncoderInputs at h
  obtain ⟨encoder, hencoder, h⟩ := of_bind h
  simp only at h
  split at h
  · next hempty =>
    cases h
    exact ⟨encoder, st.encoderComputeBudget, hencoder, by simp [hempty, setEncoder, setSched]⟩
  · next hinputs =>
    cases h
    exact ⟨encoder, plan.encoderComputeBudget, hencoder, by simp [hinputs, setEncoder, setSched]⟩

theorem recordLoras_eq_ok (h : recordLoras env st = .ok st') :
    ∃ loras, st' = { st with scheduledLoras := loras } := by
  unfold recordLoras at h
  split at h
  · cases h
    exact ⟨st.scheduledLoras, rfl⟩
  · obtain ⟨loras, -, h⟩ := of_bind h
    obtain ⟨-, -, h⟩ := of_bind h
    cases h
    exact ⟨loras, rfl⟩

theorem popWaiting_eq_ok {q : WaitingQueue}
    (hhead : peekRequest (st.sched.queue q) = some requestId)
    (h : popWaiting env st q = .ok st') : ∃ rest,
      (st.sched.queue q).Perm (requestId :: rest) ∧
      st' = st.setSched (st.sched.setQueue q rest) := by
  unfold popWaiting at h
  split at h
  · simp at h
  · next x rest hpop =>
    cases h
    obtain ⟨hpeek, hperm⟩ := popRequest_perm hpop
    obtain rfl : requestId = x := Option.some.inj (hhead.symm.trans hpeek)
    exact ⟨rest, hperm, rfl⟩

theorem popWaiting_setKv_eq_ok {q : WaitingQueue} {kv : κ}
    (hhead : peekRequest (st.sched.queue q) = some requestId)
    (h : popWaiting env (st.setKv kv) q = .ok st') : ∃ rest,
      (st.sched.queue q).Perm (requestId :: rest) ∧
      st' = (st.setKv kv).setSched ((st.setKv kv).sched.setQueue q rest) := by
  have hqueue : (st.setKv kv).sched.queue q = st.sched.queue q := by
    cases q <;> rfl
  rw [← hqueue] at hhead ⊢
  exact popWaiting_eq_ok hhead h

/-- A waiting request that starts to run. -/
theorem startRunning_eq_ok {lookup : WaitingLookup} {numNewTokens : ℤ}
    (h : startRunning env st requestId r lookup numNewTokens = .ok st') :
    (r.status = .waiting ∨ r.status = .preempted) ∧
    ∃ (inflightPrefills newReqs resumedReqs : List RequestId),
      ((newReqs = st.scheduledNewReqs ++ [requestId] ∧ resumedReqs = st.scheduledResumedReqs) ∨
        (newReqs = st.scheduledNewReqs ∧ resumedReqs = st.scheduledResumedReqs ++ [requestId])) ∧
      st' = { st with
        sched := { st.sched with
          objects := st.sched.objects.set requestId { r.setStatus .running with
            numComputedTokens := lookup.numComputedTokens }
          running := st.sched.running ++ [requestId]
          inflightPrefills }
        scheduledLoras := match env.config.maxLoras, r.core.loraRequest with
          | some _, some lora => setAdd st.scheduledLoras lora.loraIntId
          | _, _ => st.scheduledLoras
        reqToNewBlocks := st.reqToNewBlocks.set requestId (env.kv.getBlockIds st.sched.kv requestId)
        numScheduledTokens := st.numScheduledTokens.set requestId numNewTokens
        tokenBudget := st.tokenBudget - numNewTokens
        scheduledNewReqs := newReqs
        scheduledResumedReqs := resumedReqs } := by
  unfold startRunning at h
  simp only at h
  split at h
  · next hstatus =>
    cases h
    exact ⟨.inl hstatus, _, _, _, .inl ⟨rfl, rfl⟩, rfl⟩
  · next hstatus =>
    cases h
    exact ⟨.inr hstatus, _, _, _, .inr ⟨rfl, rfl⟩, rfl⟩
  · simp at h

end Bookkeeping

section Loops
variable {st st' : ScheduleStep κ ε} {requestId : RequestId} {r : SchedRequest}

theorem preemptOne_other {victim : RequestId} (h : preemptOne env st = .ok (victim, st'))
    (hne : victim ≠ requestId) (hr : st.sched.objects.get? requestId = some r)
    (hrunning : requestId ∈ st.sched.running) :
    st'.sched.objects.get? requestId = some r ∧ requestId ∈ st'.sched.running := by
  obtain ⟨r', kv, encoder, running, -, -, hperm, -, -, hsched⟩ := preemptOne_sched h
  rw [hsched]
  constructor
  · rw [Dict.get?_set, if_neg (Ne.symm hne)]
    exact hr
  · obtain heq | hmem := mem_cons.mp (hperm.mem_iff.mp hrunning)
    · exact absurd heq.symm hne
    · exact hmem

variable (answers) in
theorem allocateOrPreempt_moves {numNewTokens : ℤ} {fuel : ℕ}
    {newBlocks : Option (List (List BlockId))}
    (hr : st.sched.objects.get? requestId = some r) (hrunning : requestId ∈ st.sched.running)
    (h : allocateOrPreempt env requestId numNewTokens fuel st = .ok (newBlocks, st')) :
    (newBlocks = none ∧ Moves env answers .running st st') ∨
    ∃ st₁ kv blocks, newBlocks = some blocks ∧ Moves env answers .running st st₁ ∧
      st₁.sched.objects.get? requestId = some r ∧ requestId ∈ st₁.sched.running ∧
      env.kv.allocateSlots st₁.sched.kv r.view {
        numNewTokens
        numLookaheadTokens := env.config.numLookaheadTokens } = .ok (some blocks, kv) ∧
      st' = st₁.setKv kv := by
  induction fuel generalizing st with
  | zero =>
    cases h
    exact .inl ⟨rfl, .refl⟩
  | succ fuel ih =>
    unfold allocateOrPreempt at h
    obtain ⟨r', hr', h⟩ := of_bind h
    obtain rfl : r = r' := by
      rw [Scheduler.object_eq_ok, hr] at hr'
      exact Option.some.inj hr'
    obtain ⟨⟨blocks, kv⟩, halloc, h⟩ := of_bind h
    cases blocks with
    | some blocks =>
      cases h
      exact .inr ⟨st, kv, blocks, rfl, .refl, hr, hrunning, halloc, rfl⟩
    | none =>
      obtain ⟨⟨victim, st₁⟩, hpreempt, h⟩ := of_bind h
      have hmoves : Moves env answers .running st st₁ :=
        .tail (.single (.noSlots hr halloc)) (.preempt hpreempt)
      simp only at h
      split at h
      · cases h
        exact .inl ⟨rfl, hmoves⟩
      · next hne =>
        obtain ⟨hr₁, hrunning₁⟩ := preemptOne_other hpreempt hne hr hrunning
        obtain ⟨rfl, hrest⟩ | ⟨st₂, kv₂, blocks, rfl, hrest, hr₂, hrunning₂, halloc₂, rfl⟩ :=
          ih hr₁ hrunning₁ h
        · exact .inl ⟨rfl, hmoves.trans hrest⟩
        · exact .inr ⟨st₂, kv₂, blocks, rfl, hmoves.trans hrest, hr₂, hrunning₂, halloc₂, rfl⟩

theorem runningTurn_moves {go : Bool} (hrunning : requestId ∈ st.sched.running)
    (h : runningTurn env answers st requestId = .ok (go, st')) :
    Moves env answers .running st st' := by
  unfold runningTurn at h
  obtain ⟨r, hr, h⟩ := of_bind h
  rw [Scheduler.object_eq_ok] at hr
  split at h
  · cases h
    exact .single (.pass st)
  obtain ⟨⟨plan, encoder⟩, hplan, h⟩ := of_bind h
  have hencoder : Moves env answers .running st (st.setEncoder encoder) := .single (.plan hr hplan)
  simp only at h
  split at h
  · cases h
    exact hencoder.tail (.pass _)
  next hzero =>
  obtain ⟨⟨blocks, st₁⟩, halloc, h⟩ := of_bind h
  obtain ⟨rfl, hmoves⟩ | ⟨st₂, kv, newBlocks, rfl, hmoves, hr₂, hrunning₂, halloc₂, rfl⟩ :=
    allocateOrPreempt_moves answers (show (st.setEncoder encoder).sched.objects.get? requestId =
      some r from hr) hrunning halloc
  · cases h
    exact hencoder.trans hmoves
  · obtain ⟨st₃, hst₃, h⟩ := of_bind h
    cases h
    exact (hencoder.trans hmoves).tail (.record hr₂ hrunning₂ ⟨st, hr, hplan⟩ rfl hzero halloc₂ hst₃)

theorem runningLoop_moves {fuel : ℕ} (h : runningLoop env answers fuel st = .ok st') :
    Moves env answers .running st st' := by
  induction fuel generalizing st with
  | zero =>
    cases h
    exact .refl
  | succ fuel ih =>
    unfold runningLoop at h
    split at h
    · split at h
      · cases h
        exact .refl
      · next requestId hget =>
        obtain ⟨⟨go, st₁⟩, hturn, h⟩ := of_bind h
        have hmoves := runningTurn_moves (mem_of_getElem? hget) hturn
        simp only at h
        split at h
        · exact hmoves.trans (ih h)
        · cases h
          exact hmoves
    · cases h
      exact .refl

theorem considerWaiting_moves {go : Bool} {q : WaitingQueue}
    (hroom : st.sched.running.length ≠ env.config.maxNumRunningReqs)
    (hr : st.sched.objects.get? requestId = some r)
    (hstatus : Scheduler.isBlockedWaitingStatus r.status = false)
    (hhead : peekRequest (st.sched.queue q) = some requestId)
    (h : considerWaiting env answers st q requestId r = .ok (go, st')) :
    Moves env answers .waiting st st' := by
  unfold considerWaiting at h
  split at h
  · obtain ⟨st₁, hskip, h⟩ := of_bind h
    cases h
    exact .single (.skip hhead hskip)
  next hlora =>
  replace hlora : exceedsMaxLoras env st r = false := by simpa using hlora
  obtain ⟨lookup, hlookup, h⟩ := of_bind h
  cases lookup with
  | none =>
    obtain ⟨st₁, hskip, h⟩ := of_bind h
    cases h
    exact .single (.skip hhead hskip)
  | some lookup =>
    obtain ⟨⟨plan, encoder⟩, hplan, h⟩ := of_bind h
    have hencoder : Moves env answers .waiting st (st.setEncoder encoder) := by
      unfold planWaiting at hplan
      split at hplan
      · obtain ⟨-, -, hplan⟩ := of_bind hplan
        cases hplan
        exact .refl
      split at hplan
      · cases hplan
        exact .refl
      · obtain ⟨-, -, hplan⟩ := of_bind hplan
        obtain ⟨⟨plan', encoder'⟩, hinner, hplan⟩ := of_bind hplan
        have heq : encoder' = encoder := by
          simp only at hplan
          split at hplan
          · exact (Prod.mk.inj (pure_eq_ok.mp hplan)).2
          · exact (Prod.mk.inj (pure_eq_ok.mp hplan)).2
        exact .single (.plan hr (heq ▸ hinner))
    cases plan with
    | none =>
      cases h
      exact hencoder
    | some plan =>
      obtain ⟨numNewTokens, plan⟩ := plan
      refine hencoder.trans ?_
      unfold placeWaiting at h
      obtain ⟨⟨blocks, kv⟩, halloc, h⟩ := of_bind h
      cases blocks with
      | none =>
        obtain ⟨encoder', hfree, h⟩ := of_bind h
        cases h
        exact .single (.noWaitingSlots hr halloc hfree)
      | some blocks =>
        obtain ⟨st₁, hpop, h⟩ := of_bind h
        split at h
        · next hasync =>
          cases h
          exact .single (.remoteLoad hr hstatus hhead hasync halloc hpop)
        · next hsync =>
          obtain ⟨st₂, hstarts, h⟩ := of_bind h
          obtain ⟨st₃, hst₃, h⟩ := of_bind h
          cases h
          exact .single (.startRunning hr hstatus hhead ⟨st, hlookup⟩ ⟨st, encoder, rfl, hplan⟩ hroom
            hlora (by simpa using hsync) halloc hpop hstarts hst₃)

theorem tryPromote_eq_ok {s s' : Scheduler κ ε} {promoted : Bool}
    (h : s.tryPromoteBlockedWaitingRequest env answers requestId r = .ok (promoted, s')) :
    (promoted = false ∧ s' = s) ∨
    (promoted = true ∧ r.status ≠ .waitingForStreamingReq ∧
      Scheduler.isBlockedWaitingStatus r.status = true ∧
      ∃ (status : RequestStatus) (c : ℤ) (kv : κ) (finished failed : List RequestId),
        (status = .waiting ∨ status = .preempted) ∧
        (c = r.numComputedTokens ∨ (r.numComputedTokens = r.numTokens ∧ c = r.numTokens - 1)) ∧
        s' = { s with
          objects := s.objects.set requestId { r.setStatus status with numComputedTokens := c }
          kv
          finishedRecvingKvReqIds := finished
          failedRecvingKvReqIds := failed }) := by
  unfold Scheduler.tryPromoteBlockedWaitingRequest at h
  split at h
  · next hremote =>
    split at h
    · cases h
      exact .inl ⟨rfl, rfl⟩
    · obtain ⟨⟨s₁, r₁⟩, hupdate, h⟩ := of_bind h
      cases h
      refine .inr ⟨rfl, by simp [hremote], by simp [hremote, Scheduler.isBlockedWaitingStatus], ?_⟩
      have hstatus : ∀ n : ℕ, (if n ≠ 0 then RequestStatus.preempted else .waiting) = .waiting ∨
          (if n ≠ 0 then RequestStatus.preempted else .waiting) = .preempted := by
        intro n
        split
        · exact .inr rfl
        · exact .inl rfl
      unfold Scheduler.updateWaitingForRemoteKv at hupdate
      obtain ⟨-, -, hupdate⟩ := of_bind hupdate
      obtain ⟨⟨s₂, r₂⟩, hinner, hupdate⟩ := of_bind hupdate
      cases hupdate
      split at hinner
      · obtain ⟨kv, -, hinner⟩ := of_bind hinner
        cases hinner
        exact ⟨_, r.numComputedTokens, kv, _, _, hstatus r.numPreemptions, .inl rfl, rfl⟩
      · obtain ⟨kv, -, hinner⟩ := of_bind hinner
        cases hinner
        split
        · next hfull =>
          exact ⟨_, _, kv, _, _, hstatus r.numPreemptions, .inr ⟨hfull, rfl⟩, rfl⟩
        · exact ⟨_, r.numComputedTokens, kv, _, _, hstatus r.numPreemptions, .inl rfl, rfl⟩
  · next hgrammar =>
    split at h
    · cases h
      exact .inl ⟨rfl, rfl⟩
    · cases h
      exact .inr ⟨rfl, by simp [hgrammar], by simp [hgrammar, Scheduler.isBlockedWaitingStatus],
        .waiting, r.numComputedTokens, s.kv, _, _, .inl rfl, .inl rfl, rfl⟩
  · obtain ⟨-, -, h⟩ := of_bind h
    cases h
    exact .inl ⟨rfl, rfl⟩
  · simp at h

theorem waitingTurn_moves {go : Bool}
    (hroom : st.sched.running.length ≠ env.config.maxNumRunningReqs)
    (h : waitingTurn env answers st = .ok (go, st')) :
    Moves env answers .waiting st st' := by
  unfold waitingTurn at h
  split at h
  · simp at h
  next q hq =>
  split at h
  · simp at h
  next requestId hhead =>
  obtain ⟨r, hr, h⟩ := of_bind h
  rw [Scheduler.object_eq_ok] at hr
  split at h
  · obtain ⟨⟨promoted, sched⟩, hpromote, h⟩ := of_bind h
    have hmove : Moves env answers .waiting st (st.setSched sched) := .single (.promote hr hpromote)
    obtain ⟨rfl, rfl⟩ | ⟨rfl, -, -, status, c, kv, finished, failed, hstatus, -, rfl⟩ :=
      tryPromote_eq_ok hpromote
    · obtain ⟨st₁, hskip, h⟩ := of_bind h
      cases h
      exact hmove.tail (.skip hhead hskip)
    · obtain ⟨r', hr', h⟩ := of_bind h
      rw [Scheduler.object_eq_ok] at hr'
      have hunblocked : Scheduler.isBlockedWaitingStatus r'.status = false := by
        simp only [setSched, Dict.get?_set, ↓reduceIte, Option.some.injEq] at hr'
        rw [← hr']
        obtain rfl | rfl := hstatus
        · rfl
        · rfl
      refine hmove.trans (considerWaiting_moves hroom hr' hunblocked ?_ h)
      rw [← hhead]
      cases q <;> rfl
  · next hblocked =>
    exact considerWaiting_moves hroom hr (by simpa using hblocked) hhead h

theorem waitingLoop_moves {fuel : ℕ} (h : waitingLoop env answers fuel st = .ok st') :
    Moves env answers .waiting st st' := by
  induction fuel generalizing st with
  | zero =>
    cases h
    exact .refl
  | succ fuel ih =>
    unfold waitingLoop at h
    split at h
    · next hgo =>
      obtain ⟨⟨go, st₁⟩, hturn, h⟩ := of_bind h
      have hmoves := waitingTurn_moves hgo.2.2 hturn
      simp only at h
      split at h
      · exact hmoves.trans (ih h)
      · cases h
        exact hmoves
    · cases h
      exact .refl

end Loops

end ScheduleStep

/-- A step is a sequence of moves of the first loop and, if they preempt no request, one of the
second. -/
theorem Scheduler.assembleStep_moves {κ ε : Type} {env : SchedulerEnv κ ε} {answers : StepAnswers}
    {s : Scheduler κ ε} {st : ScheduleStep κ ε} (h : s.assembleStep env answers = .ok st) :
    ∃ st₁, ScheduleStep.Moves env answers .running (s.startStep env) st₁ ∧
      (st = st₁ ∨ (st₁.preemptedReqs = [] ∧ ∃ st₂,
        ScheduleStep.Moves env answers .waiting st₁ st₂ ∧ st = st₂.requeueSkipped env)) := by
  unfold Scheduler.assembleStep at h
  obtain ⟨st₁, hrunning, h⟩ := of_bind h
  obtain ⟨st₂, hloras, h⟩ := of_bind h
  have hmoves : ScheduleStep.Moves env answers .running (s.startStep env) st₂ :=
    (ScheduleStep.runningLoop_moves hrunning).tail (.loras hloras)
  refine ⟨st₂, hmoves, ?_⟩
  unfold ScheduleStep.scheduleWaiting at h
  split at h
  · next hpreempted =>
    obtain ⟨st₃, hwaiting, h⟩ := of_bind h
    cases h
    exact .inr ⟨hpreempted.1, st₃, ScheduleStep.waitingLoop_moves hwaiting, rfl⟩
  · cases h
    exact .inl rfl

namespace ScheduleStep

variable {κ ε : Type} {env : SchedulerEnv κ ε} {answers : StepAnswers} {st st' : ScheduleStep κ ε}
  {requestId : RequestId} {r : SchedRequest}

variable (env) in
/-- The head of a queue is popped, under whatever comparison the policy uses. -/
def Pops (q : WaitingQueue) (requestId : RequestId) (st st' : ScheduleStep κ ε) : Prop :=
  ∃ lt rest, RequestQueue.popRequest env.config.policy lt (st.sched.queue q) =
      some (requestId, rest) ∧
    st'.sched.waiting = (st.sched.setQueue q rest).waiting ∧
    st'.sched.skippedWaiting = (st.sched.setQueue q rest).skippedWaiting

variable (env) in
/-- The request at the head of a queue stays there, is put aside, or starts to run. -/
inductive WaitingEffect (q : WaitingQueue) (requestId : RequestId) (st st' : ScheduleStep κ ε) : Prop
  | stay (hwaiting : st'.sched.waiting = st.sched.waiting)
      (hskipped : st'.sched.skippedWaiting = st.sched.skippedWaiting)
      (hrunning : st'.sched.running = st.sched.running)
      (haside : st'.stepSkippedWaiting = st.stepSkippedWaiting)
  | aside (lt : RequestId → RequestId → Bool) (hpops : Pops env q requestId st st')
      (hrunning : st'.sched.running = st.sched.running)
      (haside : st'.stepSkippedWaiting = RequestQueue.prependRequest env.config.policy lt
        st.stepSkippedWaiting requestId)
  | start (hpops : Pops env q requestId st st')
      (hrunning : st'.sched.running = st.sched.running ++ [requestId])
      (haside : st'.stepSkippedWaiting = st.stepSkippedWaiting)

theorem popWaiting_pops {q : WaitingQueue}
    (hhead : RequestQueue.peekRequest (st.sched.queue q) = some requestId)
    (h : popWaiting env st q = .ok st') : Pops env q requestId st st' ∧
      st'.sched.running = st.sched.running ∧ st'.stepSkippedWaiting = st.stepSkippedWaiting := by
  unfold popWaiting at h
  split at h
  · simp at h
  · next x rest hpop =>
    cases h
    obtain rfl := Option.some.inj (hhead.symm.trans (RequestQueue.popRequest_perm hpop).1)
    exact ⟨⟨_, rest, hpop, rfl, rfl⟩, Scheduler.setQueue_running q rest, rfl⟩

theorem skipWaiting_effect {q : WaitingQueue}
    (hhead : RequestQueue.peekRequest (st.sched.queue q) = some requestId)
    (h : skipWaiting env st q requestId = .ok st') : WaitingEffect env q requestId st st' := by
  unfold skipWaiting at h
  obtain ⟨st₁, hpop, h⟩ := Raises.of_bind h
  cases h
  obtain ⟨hpops, hrunning, haside⟩ := popWaiting_pops hhead hpop
  refine .aside st₁.sched.lt hpops hrunning ?_
  rw [← haside]

theorem considerWaiting_effect {go : Bool} {q : WaitingQueue}
    (hhead : RequestQueue.peekRequest (st.sched.queue q) = some requestId)
    (h : considerWaiting env answers st q requestId r = .ok (go, st')) :
    WaitingEffect env q requestId st st' := by
  unfold considerWaiting at h
  split at h
  · obtain ⟨st₁, hskip, h⟩ := Raises.of_bind h
    cases h
    exact skipWaiting_effect hhead hskip
  obtain ⟨lookup, -, h⟩ := Raises.of_bind h
  cases lookup with
  | none =>
    obtain ⟨st₁, hskip, h⟩ := Raises.of_bind h
    cases h
    exact skipWaiting_effect hhead hskip
  | some lookup =>
    obtain ⟨⟨plan, encoder⟩, -, h⟩ := Raises.of_bind h
    cases plan with
    | none =>
      cases h
      exact .stay rfl rfl rfl rfl
    | some plan =>
      obtain ⟨numNewTokens, plan⟩ := plan
      unfold placeWaiting at h
      obtain ⟨⟨blocks, kv⟩, -, h⟩ := Raises.of_bind h
      cases blocks with
      | none =>
        obtain ⟨encoder', -, h⟩ := Raises.of_bind h
        cases h
        exact .stay rfl rfl rfl rfl
      | some blocks =>
        obtain ⟨st₁, hpop, h⟩ := Raises.of_bind h
        obtain ⟨hpops, hrunning, haside⟩ := popWaiting_pops (by cases q <;> exact hhead) hpop
        replace hpops : Pops env q requestId st st₁ := by
          cases q <;> exact hpops
        split at h
        · cases h
          refine .aside (startRemoteLoad env st₁ requestId r lookup).sched.lt hpops hrunning ?_
          rw [show st.stepSkippedWaiting = st₁.stepSkippedWaiting from haside.symm]
          rfl
        · obtain ⟨st₂, hstarts, h⟩ := Raises.of_bind h
          obtain ⟨st₃, hst₃, h⟩ := Raises.of_bind h
          cases h
          obtain ⟨-, inflight, newReqs, resumedReqs, -, rfl⟩ := startRunning_eq_ok hstarts
          obtain ⟨encoder', budget, -, rfl⟩ := allocateEncoderInputs_eq_ok hst₃
          refine .start hpops ?_ haside
          exact congrArg (· ++ [requestId]) hrunning

theorem waitingTurn_effect {go : Bool} (h : waitingTurn env answers st = .ok (go, st')) :
    ∃ q requestId, st.sched.selectWaitingQueue env.config.policy = some q ∧
      RequestQueue.peekRequest (st.sched.queue q) = some requestId ∧
      WaitingEffect env q requestId st st' := by
  unfold waitingTurn at h
  split at h
  · simp at h
  next q hq =>
  split at h
  · simp at h
  next requestId hhead =>
  refine ⟨q, requestId, hq, hhead, ?_⟩
  obtain ⟨r, hr, h⟩ := Raises.of_bind h
  split at h
  · obtain ⟨⟨promoted, sched⟩, hpromote, h⟩ := Raises.of_bind h
    obtain ⟨rfl, rfl⟩ | ⟨rfl, -, -, status, c, kv, finished, failed, -, -, rfl⟩ :=
      tryPromote_eq_ok hpromote
    · obtain ⟨st₁, hskip, h⟩ := Raises.of_bind h
      cases h
      exact skipWaiting_effect hhead hskip
    · obtain ⟨r', -, h⟩ := Raises.of_bind h
      have heffect := considerWaiting_effect (by cases q <;> exact hhead) h
      cases heffect with
      | stay hwaiting hskipped hrunning haside => exact .stay hwaiting hskipped hrunning haside
      | aside lt hpops hrunning haside =>
        exact .aside lt (by cases q <;> exact hpops) hrunning haside
      | start hpops hrunning haside => exact .start (by cases q <;> exact hpops) hrunning haside
  · exact considerWaiting_effect hhead h

end ScheduleStep

end Vllm
