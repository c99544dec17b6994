import Vllm.Sched.StepAssembly
import Mathlib.Data.Finset.Card

/-! The LoRAs of a step. A running request that the step passes over is not among those that
`schedule` counts, so the limit holds only as long as none with a LoRA of its own can be passed over
while others wait. -/
namespace Vllm
open Raises List

def SchedRequest.loraId (r : SchedRequest) : Option ℕ :=
  r.core.loraRequest.bind fun lora => if lora.loraIntId > 0 then some lora.loraIntId else none

/-- The LoRA of the request with this id. -/
def loraIdOf (objects : Dict RequestId SchedRequest) (requestId : RequestId) : Option ℕ :=
  (objects.get? requestId).bind SchedRequest.loraId

/-- The distinct LoRAs of a list of requests. -/
def loraIds (objects : Dict RequestId SchedRequest) (ids : List RequestId) : Finset ℕ :=
  (ids.filterMap (loraIdOf objects)).toFinset

section LoraIds
variable {objects objects' : Dict RequestId SchedRequest} {ids ids' : List RequestId}
  {x : RequestId} {i : ℕ}

theorem mem_loraIds : i ∈ loraIds objects ids ↔ ∃ x ∈ ids, loraIdOf objects x = some i := by
  simp [loraIds]

theorem loraIds_mono (h : ids ⊆ ids') : loraIds objects ids ⊆ loraIds objects ids' := by
  intro i hi
  obtain ⟨x, hx, hlora⟩ := mem_loraIds.mp hi
  exact mem_loraIds.mpr ⟨x, h hx, hlora⟩

theorem loraIds_append_singleton :
    loraIds objects (ids ++ [x]) = loraIds objects ids ∪ (loraIdOf objects x).toFinset := by
  ext i
  simp only [mem_loraIds, mem_append, mem_singleton, Finset.mem_union,
    Option.mem_toFinset, Option.mem_def]
  constructor
  · rintro ⟨y, hy | rfl, hlora⟩
    · exact .inl ⟨y, hy, hlora⟩
    · exact .inr hlora
  · rintro (⟨y, hy, hlora⟩ | hlora)
    · exact ⟨y, .inl hy, hlora⟩
    · exact ⟨x, .inr rfl, hlora⟩

/-- Every request is still there, with the same LoRA, and no other. -/
def SameLoras (objects objects' : Dict RequestId SchedRequest) : Prop :=
  ∀ x, (objects'.get? x).map (fun r => r.core.loraRequest) =
    (objects.get? x).map fun r => r.core.loraRequest

theorem SameLoras.refl (objects : Dict RequestId SchedRequest) : SameLoras objects objects :=
  fun _ => rfl

theorem SameLoras.trans {objects'' : Dict RequestId SchedRequest} (h : SameLoras objects objects')
    (h' : SameLoras objects' objects'') : SameLoras objects objects'' :=
  fun x => (h' x).trans (h x)

theorem SameLoras.set {r u : SchedRequest} (hr : objects.get? x = some r)
    (hlora : u.core.loraRequest = r.core.loraRequest) : SameLoras objects (objects.set x u) := by
  intro y
  rw [Dict.get?_set]
  split
  · next hyx =>
    rw [hyx, hr, Option.map_some, Option.map_some, hlora]
  · rfl

theorem SameLoras.keeps (h : SameLoras objects objects') : KeepsLoras objects objects' := by
  intro x r hr
  have hx := h x
  rw [hr, Option.map_some, Option.map_eq_some_iff] at hx
  exact hx

theorem SameLoras.loraIdOf (h : SameLoras objects objects') :
    Vllm.loraIdOf objects' x = Vllm.loraIdOf objects x := by
  have hx := h x
  unfold Vllm.loraIdOf SchedRequest.loraId
  cases hr : objects.get? x <;> cases hr' : objects'.get? x <;> simp_all

theorem SameLoras.loraIds (h : SameLoras objects objects') :
    Vllm.loraIds objects' ids = Vllm.loraIds objects ids := by
  ext i
  simp only [mem_loraIds, h.loraIdOf]

section
variable (h : KeepsLoras objects objects')
include h

theorem KeepsLoras.loraIdOf (hx : objects.contains x = true) :
    Vllm.loraIdOf objects' x = Vllm.loraIdOf objects x := by
  obtain ⟨r, hr⟩ := Option.isSome_iff_exists.mp hx
  obtain ⟨r', hr', hlora⟩ := h x r hr
  simp [Vllm.loraIdOf, hr, hr', SchedRequest.loraId, hlora]

theorem KeepsLoras.contains (hx : objects.contains x = true) : objects'.contains x = true := by
  obtain ⟨r, hr⟩ := Option.isSome_iff_exists.mp hx
  obtain ⟨r', hr', -⟩ := h x r hr
  exact Option.isSome_iff_exists.mpr ⟨r', hr'⟩

theorem KeepsLoras.loraIds (hids : ∀ x ∈ ids, objects.contains x = true) :
    Vllm.loraIds objects' ids = Vllm.loraIds objects ids := by
  have heq : ids.filterMap (Vllm.loraIdOf objects') = ids.filterMap (Vllm.loraIdOf objects) :=
    filterMap_congr fun x hx => h.loraIdOf (hids x hx)
  unfold Vllm.loraIds
  rw [heq]

end

end LoraIds

/-- The requests of a list are there, and have at most `m` LoRAs between them. -/
structure WithinLoras (m : ℕ) (objects : Dict RequestId SchedRequest) (ids : List RequestId) :
    Prop where
  known : ∀ x ∈ ids, objects.contains x = true
  card : (loraIds objects ids).card ≤ m

namespace WithinLoras
variable {m : ℕ} {objects objects' : Dict RequestId SchedRequest} {ids ids' : List RequestId}

section
variable (h : WithinLoras m objects ids)
include h

theorem mono (hsub : ids' ⊆ ids) : WithinLoras m objects ids' :=
  ⟨fun x hx => h.known x (hsub hx), (Finset.card_le_card (loraIds_mono hsub)).trans h.card⟩

theorem keeps (hkeeps : KeepsLoras objects objects') : WithinLoras m objects' ids :=
  ⟨fun x hx => hkeeps.contains (h.known x hx), (hkeeps.loraIds h.known).symm ▸ h.card⟩

end

end WithinLoras

namespace ScheduleStep
variable {κ ε : Type} {env : SchedulerEnv κ ε} {answers : StepAnswers} {st st' : ScheduleStep κ ε}
  {requestId victim : RequestId} {r : SchedRequest} {m : ℕ}

/-- What the first loop does to the lists: it schedules running requests only, and takes a request
off the running list only if it preempts it. -/
structure FromRunning (s : Scheduler κ ε) (st : ScheduleStep κ ε) : Prop where
  loras : SameLoras s.objects st.sched.objects
  running : st.sched.running ⊆ s.running
  scheduled : st.scheduledRunningReqs ⊆ s.running
  unpreempted : st.preemptedReqs = [] → st.sched.running = s.running ∧
    st.sched.waiting = s.waiting ∧ st.sched.skippedWaiting = s.skippedWaiting
  pause : st.sched.pauseState = s.pauseState
  noneNew : st.scheduledNewReqs = []
  noneResumed : st.scheduledResumedReqs = []

theorem FromRunning.move {s : Scheduler κ ε} (hmove : Move env answers .running st st')
    (h : FromRunning s st) : FromRunning s st' := by
  cases hmove with
  | pass | plan | noSlots =>
    exact ⟨h.loras, h.running, h.scheduled, h.unpreempted, h.pause, h.noneNew, h.noneResumed⟩
  | preempt hpreempt =>
    obtain ⟨-, hpreempted, hnew, hresumed, hscheduled⟩ := preemptOne_lists hpreempt
    obtain ⟨r, kv, encoder, running, hr, -, hperm, -, -, hsched⟩ := preemptOne_sched hpreempt
    refine ⟨?_, ?_, fun x hx => h.scheduled (hscheduled hx), ?_, ?_, hnew.trans h.noneNew,
      hresumed.trans h.noneResumed⟩
    · rw [hsched]
      exact h.loras.trans (.set (u := Scheduler.preempted r) hr rfl)
    · rw [hsched]
      intro x hx
      exact h.running (hperm.mem_iff.mpr (mem_cons_of_mem _ hx))
    · rw [hpreempted]
      simp
    · rw [hsched]
      exact h.pause
  | @record st₁ st₂ x r plan encoder' n blocks kv hr hrunning hplan htokens hzero halloc hrecord =>
    obtain ⟨encoder, budget, -, rfl⟩ := allocateEncoderInputs_eq_ok hrecord
    refine ⟨h.loras.trans (.set (u := { r with specTokenIds := [] }) hr rfl), h.running, ?_,
      h.unpreempted, h.pause, h.noneNew, h.noneResumed⟩
    intro x hx
    obtain hx | hx := mem_append.mp hx
    · exact h.scheduled hx
    · rw [mem_singleton.mp hx]
      exact h.running hrunning
  | loras hloras =>
    obtain ⟨loras, rfl⟩ := recordLoras_eq_ok hloras
    exact ⟨h.loras, h.running, h.scheduled, h.unpreempted, h.pause, h.noneNew, h.noneResumed⟩

theorem runningLoop_fromRunning {s : Scheduler κ ε} {fuel : ℕ}
    (h : runningLoop env answers fuel (s.startStep env) = .ok st) : FromRunning s st :=
  (runningLoop_moves h).induction (fun _ _ hmove hst => hst.move hmove)
    ⟨.refl _, List.Subset.refl _, nil_subset _, fun _ => ⟨rfl, rfl, rfl⟩, rfl, rfl, rfl⟩

section Passing
variable {s : Scheduler κ ε}

/-- A move of the first loop takes no preemption back. -/
theorem Moves.unpreempted (hmoves : Moves env answers .running st st')
    (hnone : st'.preemptedReqs = []) : st.preemptedReqs = [] := by
  refine hmoves.induction (P := fun st' => st'.preemptedReqs = [] → st.preemptedReqs = [])
    ?_ id hnone
  intro st₁ st₂ hmove h hnone
  cases hmove with
  | pass | plan | noSlots => exact h hnone
  | preempt hpreempt =>
    obtain ⟨-, hpreempted, -⟩ := preemptOne_lists hpreempt
    simp [hpreempted] at hnone
  | record hr hrunning hplan htokens hzero halloc hrecord =>
    obtain ⟨encoder, budget, -, rfl⟩ := allocateEncoderInputs_eq_ok hrecord
    exact h hnone
  | loras hloras =>
    obtain ⟨loras, rfl⟩ := recordLoras_eq_ok hloras
    exact h hnone

variable (env answers) in
/-- Without a preemption, a request to the left of the index is scheduled or was passed over. -/
structure Passing (s : Scheduler κ ε) (st : ScheduleStep κ ε) : Prop extends Fresh s st where
  passed : ∀ x ∈ st.sched.running.take st.reqIndex,
    x ∈ st.scheduledRunningReqs ∨ s.MayPassOver env answers x

theorem Passing.runningTurn {go : Bool} (h : Passing env answers s st) (hbudget : 0 < st.tokenBudget)
    (hget : st.sched.running[st.reqIndex]? = some requestId)
    (hturn : ScheduleStep.runningTurn env answers st requestId = .ok (go, st'))
    (hnone : st'.preemptedReqs = []) :
    go = true ∧ Passing env answers s st' ∧ st'.sched.running = st.sched.running ∧
      st'.reqIndex = st.reqIndex + 1 := by
  have hgrow : ∀ x ∈ st.sched.running.take (st.reqIndex + 1),
      x ∈ st.sched.running.take st.reqIndex ∨ x = requestId := by
    intro x hx
    rw [take_add_one, hget] at hx
    simpa using hx
  obtain ⟨r, hr, ⟨rfl, hpass, encoder, rfl⟩ |
    ⟨-, plan, encoder, newBlocks, st₁, -, -, halloc, hend⟩⟩ := runningTurn_cases hturn
  · refine ⟨rfl, ⟨⟨h.step, h.untouched⟩, ?_⟩, rfl, rfl⟩
    intro x hx
    obtain hx | rfl := hgrow x hx
    · exact h.passed x hx
    · by_cases hscheduled : x ∈ st.scheduledRunningReqs
      · exact .inl hscheduled
      · have hsame := h.untouched x (mem_of_getElem? hget) hscheduled
        exact .inr ⟨r, hsame.symm.trans hr, st, h.step, hbudget, hpass⟩
  obtain ⟨blocks, rfl, hst₁⟩ | ⟨rfl, st₂, -, hself⟩ := allocateOrPreempt_rule
    (P := fun st₁ => st₁.preemptedReqs = [] → Passing env answers s st₁ ∧
      st₁.sched.running = st.sched.running ∧ st₁.reqIndex = st.reqIndex)
    (show (st.setEncoder encoder).sched.running.length < _ from Nat.lt_succ_self _)
    (fun _ _ hst hnone => ⟨⟨⟨(hst hnone).1.step, (hst hnone).1.untouched⟩, (hst hnone).1.passed⟩,
      (hst hnone).2⟩)
    (fun _ _ _ _ _ hvictim hnone => by
      obtain ⟨-, hpreempted, -⟩ := preemptOne_lists hvictim
      simp [hpreempted] at hnone)
    (fun _ => ⟨⟨⟨h.step, h.untouched⟩, h.passed⟩, rfl, rfl⟩) halloc
  · obtain ⟨hfalse, -⟩ | ⟨blocks', -, rfl, hrecord⟩ := hend
    · simp at hfalse
    have hfresh : Fresh s st₁ → Fresh s st' := fun hfresh => hfresh.record hrecord
    obtain ⟨encoder', budget, -, rfl⟩ := allocateEncoderInputs_eq_ok hrecord
    obtain ⟨hpassing, hrunning, hindex⟩ := hst₁ hnone
    refine ⟨rfl, ⟨hfresh hpassing.toFresh, ?_⟩, hrunning, by simp [recordRunning, hindex]⟩
    intro x hx
    simp only [recordRunning, Scheduler.put, hrunning, hindex] at hx ⊢
    obtain hx | rfl := hgrow x hx
    · have hpassed := hpassing.passed x (by rwa [hrunning, hindex])
      exact hpassed.imp_left (mem_append_left _)
    · exact .inl (mem_append_right _ (mem_singleton_self x))
  · obtain ⟨-, rfl, rfl⟩ | ⟨blocks, hsome, -⟩ := hend
    · obtain ⟨-, hpreempted, -⟩ := preemptOne_lists hself
      simp [hpreempted] at hnone
    · simp at hsome

theorem Passing.runningLoop {fuel : ℕ} (h : Passing env answers s st) (hfuel : st.remaining ≤ fuel)
    (hloop : ScheduleStep.runningLoop env answers fuel st = .ok st')
    (hnone : st'.preemptedReqs = []) : Passing env answers s st' ∧
      (st'.tokenBudget ≤ 0 ∨ st'.sched.running.length ≤ st'.reqIndex) := by
  induction fuel generalizing st with
  | zero =>
    cases hloop
    exact ⟨h, .inr (Nat.sub_eq_zero_iff_le.mp (Nat.le_zero.mp hfuel))⟩
  | succ fuel ih =>
    unfold ScheduleStep.runningLoop at hloop
    split at hloop
    · next hbudget =>
      split at hloop
      · next hend =>
        cases hloop
        exact ⟨h, .inr (List.getElem?_eq_none_iff.mp hend)⟩
      · next requestId hget =>
        obtain ⟨⟨go, st₁⟩, hturn, hloop⟩ := of_bind hloop
        have hnone₁ : st₁.preemptedReqs = [] := by
          simp only at hloop
          split at hloop
          · exact (runningLoop_moves hloop).unpreempted hnone
          · cases hloop
            exact hnone
        obtain ⟨rfl, h₁, hrunning, hindex⟩ := h.runningTurn hbudget hget hturn hnone₁
        refine ih h₁ ?_ hloop
        have hlt := (List.getElem?_eq_some_iff.mp hget).1
        unfold remaining at hfuel ⊢
        rw [hrunning, hindex]
        omega
    · next hbudget =>
      cases hloop
      exact ⟨h, .inl (by omega)⟩

end Passing

theorem foldlM_loras {s : Scheduler κ ε} {ids : List RequestId} {loras : List ℕ}
    (hids : ∀ x ∈ ids, s.objects.contains x = true) (hloras : loras.Nodup) : ∃ loras',
      ids.foldlM (fun loras requestId => do
        let r ← s.object requestId
        pure (match r.core.loraRequest with
          | none => loras
          | some lora => if lora.loraIntId > 0 then setAdd loras lora.loraIntId else loras)) loras =
        (.ok loras' : Raises (List ℕ)) ∧
      loras'.Nodup ∧ loras'.toFinset = loras.toFinset ∪ loraIds s.objects ids := by
  induction ids generalizing loras with
  | nil => exact ⟨loras, rfl, hloras, by simp [loraIds]⟩
  | cons x ids ih =>
    obtain ⟨r, hr⟩ := Option.isSome_iff_exists.mp (hids x mem_cons_self)
    have hobject : s.object x = .ok r := Scheduler.object_eq_ok.mpr hr
    have hlora : loraIdOf s.objects x = r.loraId := by simp [loraIdOf, hr]
    obtain ⟨next, hnext, hnodup, hmem⟩ : ∃ next, (match r.core.loraRequest with
          | none => loras
          | some lora => if lora.loraIntId > 0 then setAdd loras lora.loraIntId else loras) = next ∧
        next.Nodup ∧ next.toFinset = loras.toFinset ∪ r.loraId.toFinset := by
      refine ⟨_, rfl, ?_⟩
      unfold SchedRequest.loraId
      cases r.core.loraRequest with
      | none => exact ⟨hloras, by simp⟩
      | some lora =>
        by_cases hpos : lora.loraIntId > 0
        · simp only [hpos, ↓reduceIte]
          refine ⟨Scheduler.nodup_setAdd hloras, ?_⟩
          ext i
          simp [EncoderCacheManager.mem_setAdd, hpos, or_comm]
        · simp only [hpos, ↓reduceIte]
          exact ⟨hloras, by simp [hpos]⟩
    obtain ⟨loras', hrest, hnodup', hmem'⟩ := ih (fun y hy => hids y (mem_cons_of_mem x hy)) hnodup
    refine ⟨loras', ?_, hnodup', ?_⟩
    · rw [foldlM_cons, hobject, ← hrest, ← hnext]
      rfl
    · rw [hmem', hmem, ← hlora]
      ext i
      simp [mem_loraIds]

theorem recordLoras_ok (hmax : env.config.maxLoras = some m)
    (h : WithinLoras m st.sched.objects st.scheduledRunningReqs) : ∃ loras,
      recordLoras env st = .ok { st with scheduledLoras := loras } ∧ loras.Nodup ∧
      loras.toFinset = loraIds st.sched.objects st.scheduledRunningReqs := by
  obtain ⟨loras, hfold, hnodup, hmem⟩ := foldlM_loras h.known nodup_nil
  rw [toFinset_nil, Finset.empty_union] at hmem
  have hlength : loras.length ≤ m := by
    rw [← toFinset_card_of_nodup hnodup, hmem]
    exact h.card
  refine ⟨loras, ?_, hnodup, hmem⟩
  unfold recordLoras
  rw [hmax]
  simp only [bind_eq_ok, require_eq_ok, pure_eq_ok, exists_const]
  exact ⟨loras, hfold, hlength, rfl⟩

/-- What a move of the second loop does: the queues only shrink, and a request of theirs starts to
run, if the LoRAs that are counted allow for it, or none does. -/
theorem Move.waiting_cases (hmove : Move env answers .waiting st st') :
    SameLoras st.sched.objects st'.sched.objects ∧ st'.sched.waiting ⊆ st.sched.waiting ∧
      st'.sched.skippedWaiting ⊆ st.sched.skippedWaiting ∧
      ((st'.sched.running = st.sched.running ∧ st'.scheduledIds = st.scheduledIds ∧
          st'.scheduledLoras = st.scheduledLoras) ∨
        ∃ x r, st.sched.objects.get? x = some r ∧
          (x ∈ st.sched.waiting ∨ x ∈ st.sched.skippedWaiting) ∧
          st'.sched.running = st.sched.running ++ [x] ∧
          (∀ y ∈ st'.scheduledIds, y ∈ st.scheduledIds ∨ y = x) ∧
          ∀ m, env.config.maxLoras = some m →
            (r.core.loraRequest = none ∧ st'.scheduledLoras = st.scheduledLoras) ∨
              ∃ lora, r.core.loraRequest = some lora ∧
                (st.scheduledLoras.length ≠ m ∨ lora.loraIntId ∈ st.scheduledLoras) ∧
                st'.scheduledLoras = setAdd st.scheduledLoras lora.loraIntId) := by
  have hqueue : ∀ {sched : Scheduler κ ε} {q x rest}, (sched.queue q).Perm (x :: rest) →
      (sched.setQueue q rest).waiting ⊆ sched.waiting ∧
        (sched.setQueue q rest).skippedWaiting ⊆ sched.skippedWaiting ∧
        (x ∈ sched.waiting ∨ x ∈ sched.skippedWaiting) := by
    intro sched q x rest hperm
    have hrest : rest ⊆ sched.queue q := fun y hy => hperm.mem_iff.mpr (mem_cons_of_mem x hy)
    have hx : x ∈ sched.queue q := hperm.mem_iff.mpr mem_cons_self
    cases q with
    | waiting => exact ⟨hrest, List.Subset.refl _, .inl hx⟩
    | skippedWaiting => exact ⟨List.Subset.refl _, hrest, .inr hx⟩
  cases hmove with
  | plan | noWaitingSlots =>
    exact ⟨.refl _, List.Subset.refl _, List.Subset.refl _, .inl ⟨rfl, rfl, rfl⟩⟩
  | promote hr hpromote =>
    obtain ⟨-, rfl⟩ | ⟨-, -, -, status, c, kv, finished, failed, -, -, rfl⟩ :=
      tryPromote_eq_ok hpromote
    · exact ⟨.refl _, List.Subset.refl _, List.Subset.refl _, .inl ⟨rfl, rfl, rfl⟩⟩
    · have hsame := SameLoras.set hr (u := { SchedRequest.setStatus _ status with
        numComputedTokens := c }) rfl
      exact ⟨hsame, List.Subset.refl _, List.Subset.refl _, .inl ⟨rfl, rfl, rfl⟩⟩
  | @skip st₁ st₂ q x hhead hskip =>
    unfold skipWaiting at hskip
    obtain ⟨st₁, hpop, hskip⟩ := of_bind hskip
    cases hskip
    obtain ⟨rest, hperm, rfl⟩ := popWaiting_eq_ok hhead hpop
    obtain ⟨hwaiting, hskipped, -⟩ := hqueue hperm
    refine ⟨?_, hwaiting, hskipped, .inl ⟨Scheduler.setQueue_running q rest, rfl, rfl⟩⟩
    simp only [setSched, Scheduler.setQueue_objects]
    exact .refl _
  | @remoteLoad st₁ st₂ q x r lookup n plan blocks kv hr hstatus hhead hasync halloc hpop =>
    obtain ⟨rest, hperm, rfl⟩ := popWaiting_setKv_eq_ok hhead hpop
    obtain ⟨hwaiting, hskipped, -⟩ := hqueue (show ((st.setKv kv).sched.queue q).Perm _ from hperm)
    refine ⟨?_, hwaiting, hskipped, .inl ⟨Scheduler.setQueue_running q rest, rfl, rfl⟩⟩
    simp only [startRemoteLoad, Scheduler.put, setSched, setKv, Scheduler.setQueue_objects]
    exact .set hr rfl
  | @startRunning st₁ st₂ st₃ st₄ q x r lookup n plan blocks kv hr hstatus hhead hlookup hplan hroom
      hlora hsync halloc hpop hstarts hencoder =>
    obtain ⟨rest, hperm, rfl⟩ := popWaiting_setKv_eq_ok hhead hpop
    obtain ⟨hwaiting, hskipped, hx⟩ := hqueue (show ((st.setKv kv).sched.queue q).Perm _ from hperm)
    obtain ⟨-, inflight, newReqs, resumedReqs, hlists, rfl⟩ := startRunning_eq_ok hstarts
    obtain ⟨encoder', budget, -, rfl⟩ := allocateEncoderInputs_eq_ok hencoder
    refine ⟨?_, hwaiting, hskipped, .inr ⟨x, r, hr, hx, ?_, ?_, ?_⟩⟩
    · simp only [setSched, setKv, Scheduler.setQueue_objects]
      exact .set hr rfl
    · simp only [setSched, setKv, Scheduler.setQueue_running]
    · intro y hy
      unfold scheduledIds at hy ⊢
      obtain ⟨rfl, rfl⟩ | ⟨rfl, rfl⟩ := hlists
      · simp [setSched, setKv] at hy ⊢
        tauto
      · simp [setSched, setKv] at hy ⊢
        tauto
    · intro m hmax
      unfold exceedsMaxLoras at hlora
      simp only [hmax, setSched, setKv] at hlora ⊢
      cases hrequest : r.core.loraRequest with
      | none => exact .inl ⟨rfl, rfl⟩
      | some lora =>
        simp only [hrequest, decide_eq_false_iff_not, not_and, not_not] at hlora
        exact .inr ⟨lora, rfl, Decidable.or_iff_not_imp_left.mpr fun hlength =>
          hlora (not_not.mp hlength), rfl⟩

/-- What the second loop keeps true: a scheduled request is in the running list, and a request of
the running list is there and comes from the running list and the queues of before. -/
structure Held (objects : Dict RequestId SchedRequest) (pool : List RequestId)
    (st : ScheduleStep κ ε) : Prop where
  loras : SameLoras objects st.sched.objects
  known : ∀ x ∈ st.sched.running, st.sched.objects.contains x = true
  scheduled : st.scheduledIds ⊆ st.sched.running
  running : st.sched.running ⊆ pool
  waiting : st.sched.waiting ⊆ pool
  skipped : st.sched.skippedWaiting ⊆ pool

theorem Held.move {objects : Dict RequestId SchedRequest} {pool : List RequestId}
    (hmove : Move env answers .waiting st st') (h : Held objects pool st) :
    Held objects pool st' := by
  obtain ⟨hsame, hwaiting, hskipped, hcases⟩ := hmove.waiting_cases
  have hwaiting' := List.Subset.trans hwaiting h.waiting
  have hskipped' := List.Subset.trans hskipped h.skipped
  have hknown : ∀ x, st.sched.objects.contains x = true → st'.sched.objects.contains x = true :=
    fun x hx => hsame.keeps.contains hx
  obtain ⟨hrunning, hscheduled, -⟩ | ⟨x, r, hr, hx, hrunning, hscheduled, -⟩ := hcases
  · refine ⟨h.loras.trans hsame, ?_, ?_, ?_, hwaiting', hskipped'⟩
    · rw [hrunning]
      exact fun x hx => hknown x (h.known x hx)
    · rw [hrunning, hscheduled]
      exact h.scheduled
    · rw [hrunning]
      exact h.running
  · refine ⟨h.loras.trans hsame, ?_, ?_, ?_, hwaiting', hskipped'⟩
    · rw [hrunning]
      intro y hy
      obtain hy | hy := mem_append.mp hy
      · exact hknown y (h.known y hy)
      · rw [mem_singleton.mp hy]
        exact hknown x (by simp [Dict.contains, hr])
    · rw [hrunning]
      intro y hy
      obtain hy | rfl := hscheduled y hy
      · exact mem_append_left _ (h.scheduled hy)
      · exact mem_append_right _ (mem_singleton_self y)
    · rw [hrunning]
      apply append_subset.mpr
      refine ⟨h.running, ?_⟩
      intro y hy
      rw [mem_singleton.mp hy]
      exact hx.elim (fun hx => h.waiting hx) fun hx => h.skipped hx

/-- The LoRAs of the running list are all counted. -/
structure Counted (m : ℕ) (st : ScheduleStep κ ε) : Prop where
  loras : loraIds st.sched.objects st.sched.running ⊆ st.scheduledLoras.toFinset
  nodup : st.scheduledLoras.Nodup
  length : st.scheduledLoras.length ≤ m

theorem Counted.move (hmax : env.config.maxLoras = some m)
    (hmove : Move env answers .waiting st st') (h : Counted m st) : Counted m st' := by
  obtain ⟨hsame, -, -, ⟨hrunning, -, hloras⟩ | ⟨x, r, hr, -, hrunning, -, hadmit⟩⟩ :=
    hmove.waiting_cases
  · refine ⟨?_, hloras ▸ h.nodup, hloras ▸ h.length⟩
    rw [hsame.loraIds, hrunning, hloras]
    exact h.loras
  have hx : loraIdOf st.sched.objects x = r.loraId := by simp [loraIdOf, hr]
  have hids : loraIds st'.sched.objects st'.sched.running =
      loraIds st.sched.objects st.sched.running ∪ r.loraId.toFinset := by
    rw [hsame.loraIds, hrunning, loraIds_append_singleton, hx]
  obtain ⟨hnone, hloras⟩ | ⟨lora, hlora, hroom, hloras⟩ := hadmit m hmax
  · refine ⟨?_, hloras ▸ h.nodup, hloras ▸ h.length⟩
    rw [hids, hloras]
    simpa [SchedRequest.loraId, hnone] using h.loras
  · refine ⟨?_, ?_, ?_⟩
    · rw [hids, hloras]
      intro i hi
      rw [mem_toFinset, EncoderCacheManager.mem_setAdd]
      obtain hi | hi := Finset.mem_union.mp hi
      · exact .inl (mem_toFinset.mp (h.loras hi))
      · unfold SchedRequest.loraId at hi
        rw [hlora, Option.bind_some] at hi
        split at hi
        · exact .inr (by simpa using hi)
        · simp at hi
    · rw [hloras]
      exact Scheduler.nodup_setAdd h.nodup
    · rw [hloras]
      unfold setAdd
      split
      · exact h.length
      · next hnew =>
        have := h.length
        have hlt := hroom.resolve_right hnew
        rw [length_append, length_singleton]
        omega

end ScheduleStep

namespace Scheduler
variable {κ ε : Type} {env : SchedulerEnv κ ε} {answers : StepAnswers} {s s' : Scheduler κ ε}
  {st : ScheduleStep κ ε} {m : ℕ}

/-- The running list keeps to the limit. -/
def WithinLoras (m : ℕ) (s : Scheduler κ ε) : Prop := Vllm.WithinLoras m s.objects s.running

theorem Shrinks.withinLoras (hshrinks : s.Shrinks s') (h : s.WithinLoras m) : s'.WithinLoras m :=
  (h.keeps hshrinks.loras).mono hshrinks.running.subset

variable (env answers m) in
/-- The next step cannot go beyond the limit: it admits no request, or all LoRAs that run and wait
are within the limit, or each LoRA that runs is that of a request the step does not pass over. -/
def LorasFit (s : Scheduler κ ε) : Prop :=
  s.pauseState ≠ .unpaused ∨ s.running.length = env.config.maxNumRunningReqs ∨
    (loraIds s.objects (s.running ++ s.waiting ++ s.skippedWaiting)).card ≤ m ∨
    ∀ i ∈ loraIds s.objects s.running,
      ∃ x ∈ s.running, loraIdOf s.objects x = some i ∧ ¬ s.MayPassOver env answers x

theorem recordLoras_runningLoop (hmax : env.config.maxLoras = some m) (h : s.WithinLoras m)
    (hloop : ScheduleStep.runningLoop env answers s.running.length (s.startStep env) = .ok st) :
    ∃ loras, ScheduleStep.recordLoras env st = .ok { st with scheduledLoras := loras } ∧
      loras.Nodup ∧ loras.length ≤ m ∧
      loras.toFinset = loraIds st.sched.objects st.scheduledRunningReqs := by
  have hfrom := ScheduleStep.runningLoop_fromRunning hloop
  have hwithin := (h.keeps hfrom.loras.keeps).mono hfrom.scheduled
  obtain ⟨loras, hloras, hnodup, hmem⟩ := ScheduleStep.recordLoras_ok hmax hwithin
  refine ⟨loras, hloras, hnodup, ?_, hmem⟩
  rw [← toFinset_card_of_nodup hnodup, hmem]
  exact hwithin.card

/-- Without a preemption, the loop that leaves a budget has scheduled the LoRAs that the step does
not pass over. -/
theorem loraIds_runningLoop
    (hloop : ScheduleStep.runningLoop env answers s.running.length (s.startStep env) = .ok st)
    (hnone : st.preemptedReqs = []) (hbudget : 0 < st.tokenBudget)
    (hfit : ∀ i ∈ loraIds s.objects s.running,
      ∃ x ∈ s.running, loraIdOf s.objects x = some i ∧ ¬ s.MayPassOver env answers x) :
    loraIds s.objects s.running ⊆ loraIds s.objects st.scheduledRunningReqs := by
  have hstart : ScheduleStep.Passing env answers s (s.startStep env) :=
    ⟨⟨rfl, fun _ _ _ => rfl⟩, by simp [startStep]⟩
  obtain ⟨hpassing, hend⟩ := hstart.runningLoop le_rfl hloop hnone
  obtain ⟨hrunning, -⟩ := (ScheduleStep.runningLoop_fromRunning hloop).unpreempted hnone
  intro i hi
  obtain ⟨x, hx, hlora, hnot⟩ := hfit i hi
  refine mem_loraIds.mpr ⟨x, ?_, hlora⟩
  refine (hpassing.passed x ?_).resolve_right hnot
  rw [take_of_length_le (hend.resolve_left (by omega)), hrunning]
  exact hx

theorem waitingLoop_stops {fuel : ℕ}
    (h : st.tokenBudget ≤ 0 ∨ st.sched.running.length = env.config.maxNumRunningReqs) :
    ScheduleStep.waitingLoop env answers fuel st = .ok st := by
  cases fuel with
  | zero => rfl
  | succ fuel =>
    unfold ScheduleStep.waitingLoop
    rw [if_neg]
    · rfl
    · rintro ⟨-, hbudget, hroom⟩
      obtain hle | hfull := h
      · omega
      · exact hroom hfull

theorem assembleStep_within (hmax : env.config.maxLoras = some m) (h : s.WithinLoras m)
    (hfit : s.LorasFit env answers m) (hassemble : s.assembleStep env answers = .ok st) :
    Vllm.WithinLoras m st.sched.objects st.scheduledIds ∧ st.sched.WithinLoras m := by
  unfold assembleStep at hassemble
  obtain ⟨st₁, hloop, hassemble⟩ := of_bind hassemble
  obtain ⟨st₂, hst₂, hassemble⟩ := of_bind hassemble
  obtain ⟨loras, hloras, hnodup, hlength, hmem⟩ := recordLoras_runningLoop hmax h hloop
  obtain rfl : { st₁ with scheduledLoras := loras } = st₂ := Except.ok.inj (hloras.symm.trans hst₂)
  have hfrom := ScheduleStep.runningLoop_fromRunning hloop
  have hids : st₁.scheduledIds = st₁.scheduledRunningReqs := by
    simp [ScheduleStep.scheduledIds, hfrom.noneNew, hfrom.noneResumed]
  have hstart := h.keeps hfrom.loras.keeps
  have hsame : Vllm.WithinLoras m st₁.sched.objects st₁.scheduledIds ∧ st₁.sched.WithinLoras m := by
    rw [hids]
    exact ⟨hstart.mono hfrom.scheduled, hstart.mono hfrom.running⟩
  unfold ScheduleStep.scheduleWaiting at hassemble
  split at hassemble
  swap
  · cases hassemble
    exact hsame
  next hgo =>
  obtain ⟨st₃, hwaiting, hassemble⟩ := of_bind hassemble
  cases hassemble
  obtain ⟨hrunning, hwait, hskipped⟩ := hfrom.unpreempted hgo.1
  by_cases hstops : st₁.tokenBudget ≤ 0 ∨ st₁.sched.running.length = env.config.maxNumRunningReqs
  · rw [waitingLoop_stops (by exact hstops)] at hwaiting
    cases hwaiting
    exact hsame
  push Not at hstops
  have hmoves := ScheduleStep.waitingLoop_moves hwaiting
  have hheld : ScheduleStep.Held s.objects (s.running ++ s.waiting ++ s.skippedWaiting) st₃ := by
    refine hmoves.induction (fun _ _ hmove hst => hst.move hmove) ⟨hfrom.loras, ?_, ?_, ?_, ?_, ?_⟩
    · exact fun x hx => hstart.known x (hfrom.running hx)
    · exact fun x hx => hrunning ▸ hfrom.scheduled (hids ▸ hx)
    · exact fun x hx => mem_append_left _ (mem_append_left _ (hfrom.running hx))
    · exact fun x hx => mem_append_left _ (mem_append_right _ (hwait ▸ hx))
    · exact fun x hx => mem_append_right _ (hskipped ▸ hx)
  have hwithin : st₃.sched.WithinLoras m := by
    refine ⟨hheld.known, ?_⟩
    obtain hpause | hfull | hall | hfit := hfit
    · exact absurd (hfrom.pause ▸ hgo.2) hpause
    · exact absurd (hrunning ▸ hfull) hstops.2
    · rw [hheld.loras.loraIds]
      exact (Finset.card_le_card (loraIds_mono hheld.running)).trans hall
    · have hcounted : ScheduleStep.Counted m st₃ := by
        refine hmoves.induction (fun _ _ hmove hst => hst.move hmax hmove) ⟨?_, hnodup, hlength⟩
        rw [hmem, hfrom.loras.loraIds, hfrom.loras.loraIds, hrunning]
        exact loraIds_runningLoop hloop hgo.1 hstops.1 hfit
      calc (loraIds st₃.sched.objects st₃.sched.running).card
          ≤ st₃.scheduledLoras.toFinset.card := Finset.card_le_card hcounted.loras
        _ ≤ st₃.scheduledLoras.length := toFinset_card_le _
        _ ≤ m := hcounted.length
  exact ⟨hwithin.mono hheld.scheduled, hwithin⟩

end Scheduler

/-- No step of the run can go beyond the limit. -/
def EngineEvent.LorasFit {κ ε : Type} (env : SchedulerEnv κ ε) (m : ℕ) (e : EngineState κ ε) :
    EngineEvent → Prop
  | .schedule answers => e.sched.LorasFit env answers m
  | _ => True

theorem EngineReachable.withinLoras {κ ε : Type} {env : SchedulerEnv κ ε} {m : ℕ}
    {e : EngineState κ ε} (hmax : env.config.maxLoras = some m)
    (he : EngineReachable env (fun e event => event.LorasFit env m e) e) :
    e.sched.WithinLoras m := by
  induction he with
  | start kv encoder => exact ⟨by simp [EngineState.init], by simp [EngineState.init, loraIds]⟩
  | @step e e' event _ hadmissible hok h ih =>
    by_cases hevent : ∃ answers, event = .schedule answers
    · obtain ⟨answers, rfl⟩ := hevent
      obtain ⟨⟨output, sched⟩, hschedule, h⟩ := of_bind h
      cases h
      obtain ⟨st, hassemble, -, hshrinks⟩ := Scheduler.schedule_eq_ok hschedule
      exact hshrinks.withinLoras (Scheduler.assembleStep_within hmax ih hok hassemble).2
    · have hother : ∀ answers, event ≠ .schedule answers := fun answers heq => hevent ⟨answers, heq⟩
      exact (EngineState.apply_shrinks hadmissible hother h).withinLoras ih

/-- As long as no step can pass over a request with a LoRA of its own while too many wait, the
assertion after the first loop holds and a step has at most `m` LoRAs. -/
theorem EngineReachable.loras_within {κ ε : Type} {env : SchedulerEnv κ ε} {m : ℕ}
    {e : EngineState κ ε} (hmax : env.config.maxLoras = some m)
    (he : EngineReachable env (fun e event => event.LorasFit env m e) e)
    (answers : StepAnswers) :
    (∀ st, ScheduleStep.runningLoop env answers e.sched.running.length (e.sched.startStep env) =
      .ok st → ∃ st', ScheduleStep.recordLoras env st = .ok st') ∧
    (e.sched.LorasFit env answers m → ∀ st, e.sched.assembleStep env answers = .ok st →
      (loraIds st.sched.objects st.scheduledIds).card ≤ m) := by
  have hwithin := he.withinLoras hmax
  refine ⟨?_, ?_⟩
  · intro st hloop
    obtain ⟨loras, hloras, -⟩ := Scheduler.recordLoras_runningLoop hmax hwithin hloop
    exact ⟨_, hloras⟩
  · intro hfit st hassemble
    exact (Scheduler.assembleStep_within hmax hwithin hfit hassemble).1.card

def oneLora : SchedulerConfig := { fourRunning with maxLoras := some 1 }

def withLora (loraIntId : ℕ) (r : SchedRequest) : SchedRequest :=
  { r with core := { r.core with loraRequest := some {
    loraName := "adapter"
    loraIntId } } }

/-- Before a step every running request is sure to be scheduled. -/
def runningAllocates (e : EngineState KVCacheManager EncoderCacheManager) : EngineEvent → Bool
  | .schedule _ => e.sched.running.all (e.sched.alwaysAllocates (managerEnv oneLora false))
  | _ => true

theorem runningAllocates_sound {e : EngineState KVCacheManager EncoderCacheManager}
    {event : EngineEvent} (h : runningAllocates e event = true) :
    event.LorasFit (managerEnv oneLora false) 1 e := by
  cases event with
  | schedule answers =>
    refine .inr (.inr (.inr ?_))
    intro i hi
    obtain ⟨x, hx, hlora⟩ := mem_loraIds.mp hi
    have hall := all_eq_true.mp (show e.sched.running.all _ = true from h) x hx
    exact ⟨x, hx, hlora, Scheduler.not_mayPassOver rfl hall⟩
  | addRequest | updateFromOutput | updateDraftTokenIds | finishRequests | resetPrefixCache
  | setPauseState => trivial

/-- Two requests with different LoRAs wait for the same step, and a second step follows. -/
def loraWaits : Raises (EngineState KVCacheManager EncoderCacheManager ×
    ScheduleStep KVCacheManager EncoderCacheManager) := do
  let e ← smallRun oneLora 8 runningAllocates [
    .addRequest (withLora 1 (promptRequest 1 [7] 4)) fun _ => false,
    .addRequest (withLora 2 (promptRequest 2 [7] 4)) fun _ => false,
    .schedule {},
    .updateFromOutput oneToken]
  let st ← e.sched.assembleStep (managerEnv oneLora false) {}
  pure (e, st)

/-- The second request is put aside while the first is scheduled. -/
theorem loras_within_waits : ∃ (e : EngineState KVCacheManager EncoderCacheManager)
    (st : ScheduleStep KVCacheManager EncoderCacheManager),
    e.sched.assembleStep (managerEnv oneLora false) {} = .ok st ∧ st.scheduledIds = [1] ∧
    (loraIds st.sched.objects st.scheduledIds).card ≤ 1 := by
  obtain ⟨⟨e, st⟩, hrun, hfacts⟩ := exists_ok
    (show loraWaits.toOption.map (fun (e, st) => (st.scheduledIds,
      e.sched.running, runningAllocates e (.schedule {}))) = some ([1], [1], true) by
        decide +kernel)
  obtain ⟨e', he, hrun⟩ := of_bind hrun
  obtain ⟨st', hst, hrun⟩ := of_bind hrun
  obtain ⟨rfl, rfl⟩ := Prod.mk.inj (pure_eq_ok.mp hrun)
  simp only [Prod.mk.injEq] at hfacts
  obtain ⟨hids, -, hallocates⟩ := hfacts
  have hreach : EngineReachable (managerEnv oneLora false)
      (fun e event => event.LorasFit (managerEnv oneLora false) 1 e) e' :=
    smallRun_reachable (fun _ _ h => runningAllocates_sound h) he
  exact ⟨e', st', hst, hids, (EngineReachable.loras_within rfl hreach {}).2
    (runningAllocates_sound hallocates) st' hst⟩

/-- The first request has its only token in flight, so that the second step passes it over and
admits the second request. The third step schedules both. -/
def loraPassedOver : Raises (EngineState KVCacheManager EncoderCacheManager ×
    ScheduleStep KVCacheManager EncoderCacheManager) := do
  let e ← smallRun oneLora 8 (fun _ _ => true) [
    .addRequest (withLora 1 (promptRequest 1 [7] 4)) fun _ => false,
    .schedule {},
    .addRequest (withLora 2 (promptRequest 2 [7] 4)) fun _ => false,
    .schedule {},
    .updateFromOutput oneToken,
    .updateFromOutput oneToken]
  let st ← ScheduleStep.runningLoop (managerEnv oneLora false) {} e.sched.running.length
    (e.sched.startStep (managerEnv oneLora false))
  pure (e, st)

theorem loraPassedOver_asserts : ∃ (e : EngineState KVCacheManager EncoderCacheManager)
    (st : ScheduleStep KVCacheManager EncoderCacheManager),
    EngineReachable (managerEnv oneLora false) (fun _ _ => True) e ∧
    ScheduleStep.runningLoop (managerEnv oneLora false) {} e.sched.running.length
      (e.sched.startStep (managerEnv oneLora false)) = .ok st ∧
    (loraIds st.sched.objects st.scheduledIds).card = 2 ∧
    ScheduleStep.recordLoras (managerEnv oneLora false) st = .error .assertionError := by
  obtain ⟨⟨e, st⟩, hrun, hfacts⟩ := exists_ok
    (show loraPassedOver.toOption.map (fun (_, st) =>
      ((loraIds st.sched.objects st.scheduledIds).card,
        (ScheduleStep.recordLoras (managerEnv oneLora false) st).map fun _ => ())) =
        some (2, .error .assertionError) by decide +kernel)
  obtain ⟨e', he, hrun⟩ := of_bind hrun
  obtain ⟨st', hst, hrun⟩ := of_bind hrun
  obtain ⟨rfl, rfl⟩ := Prod.mk.inj (pure_eq_ok.mp hrun)
  simp only [Prod.mk.injEq] at hfacts
  obtain ⟨hcard, hloras⟩ := hfacts
  refine ⟨e', st', smallRun_reachable (fun _ _ _ => trivial) he, hst, hcard, ?_⟩
  cases hresult : ScheduleStep.recordLoras (managerEnv oneLora false) st' with
  | ok st'' => simp [hresult, Except.map] at hloras
  | error err =>
    rw [hresult] at hloras
    exact congrArg Except.error (Except.error.inj hloras)

end Vllm
