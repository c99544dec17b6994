import Mathlib.Algebra.Order.Ring.Rat
import Mathlib.Data.Prod.Lex
import Vllm.Sched.Moves

/-! The waiting queues under the priority policy as heaps, and what a step does to them. The key of
a request is what `Request.__lt__` compares; a step changes no key. -/
namespace Vllm
open RequestQueue Option

namespace Request

theorem lt_iff {r other : Request} : r.lt other = true ↔
    toLex (r.priority, toLex (r.arrivalTime, r.requestId)) <
      toLex (other.priority, toLex (other.arrivalTime, other.requestId)) := by
  rw [Prod.Lex.toLex_lt_toLex, Prod.Lex.toLex_lt_toLex]
  unfold lt
  split
  · next hne => simp [hne]
  next heq =>
  rw [ne_eq, not_not] at heq
  split
  · next hne => simp [heq, hne]
  next heq' =>
  rw [ne_eq, not_not] at heq'
  simp [heq, heq']

theorem lt_congr {r r' o o' : Request} (h : r'.sortKey = r.sortKey) (ho : o'.sortKey = o.sortKey) :
    r'.lt o' = r.lt o := by
  simp only [sortKey, Prod.mk.injEq] at h ho
  simp only [lt, h.1, h.2.1, h.2.2, ho.1, ho.2.1, ho.2.2]

theorem lt_asymm {r other : Request} (h : r.lt other = true) : other.lt r = false := by
  rw [← Bool.not_eq_true, lt_iff]
  exact (lt_iff.mp h).asymm

theorem not_lt_trans {r₁ r₂ r₃ : Request} (h : r₂.lt r₁ = false) (h' : r₃.lt r₂ = false) :
    r₃.lt r₁ = false := by
  rw [← Bool.not_eq_true, lt_iff, not_lt] at h h' ⊢
  exact h.trans h'

end Request

namespace Scheduler
variable {κ ε : Type}

/-- The key of a request that the scheduler knows. -/
def sortKey (s : Scheduler κ ε) (x : RequestId) : Option (ℤ × ℚ × RequestId) :=
  (s.objects.get? x).map fun r => r.core.sortKey

/-- A waiting queue: its members are known, and it is a heap. -/
structure HeapQueue (s : Scheduler κ ε) (q : List RequestId) : Prop where
  known : ∀ x ∈ q, (s.sortKey x).isSome = true
  isHeap : Heapq.IsHeap s.lt q

variable {s s' : Scheduler κ ε} {q rest requests : List RequestId} {x y : RequestId}
  {r : SchedRequest}

theorem sortKey_of_get? (h : s.objects.get? x = some r) : s.sortKey x = some r.core.sortKey := by
  rw [sortKey, h, map_some]

theorem sortKey_set {u : SchedRequest} (h : s.objects.get? x = some r)
    (hobjects : s'.objects = s.objects.set x u) (hkey : u.core.sortKey = r.core.sortKey)
    (y : RequestId) : s'.sortKey y = s.sortKey y := by
  unfold sortKey
  rw [hobjects, Dict.get?_set]
  split
  · next hyx => rw [hyx, h, map_some, map_some, hkey]
  · rfl

theorem lt_congr (hx : s'.sortKey x = s.sortKey x) (hy : s'.sortKey y = s.sortKey y) :
    s'.lt x y = s.lt x y := by
  unfold sortKey at hx hy
  unfold lt
  cases hrx : s.objects.get? x with
  | none => simp [map_eq_none_iff.mp (hx.trans (by rw [hrx, map_none]))]
  | some r =>
    obtain ⟨r', hr', hkey⟩ := map_eq_some_iff.mp (hx.trans (by rw [hrx, map_some]))
    rw [hr']
    cases hry : s.objects.get? y with
    | none => simp [map_eq_none_iff.mp (hy.trans (by rw [hry, map_none]))]
    | some o =>
      obtain ⟨o', ho', hkey'⟩ := map_eq_some_iff.mp (hy.trans (by rw [hry, map_some]))
      rw [ho']
      exact Request.lt_congr hkey hkey'

theorem comparable (h : ∀ x ∈ q, (s.sortKey x).isSome = true) : Heapq.Comparable s.lt q := by
  have hget : ∀ x ∈ q, ∃ r, s.objects.get? x = some r := by
    intro x hx
    exact isSome_iff_exists.mp (by simpa [sortKey] using h x hx)
  constructor
  · intro a ha b hb hlt
    obtain ⟨ra, hra⟩ := hget a ha
    obtain ⟨rb, hrb⟩ := hget b hb
    simp only [lt, hra, hrb] at hlt ⊢
    exact Request.lt_asymm hlt
  · intro a ha b hb c hc hlt hlt'
    obtain ⟨ra, hra⟩ := hget a ha
    obtain ⟨rb, hrb⟩ := hget b hb
    obtain ⟨rc, hrc⟩ := hget c hc
    simp only [lt, hra, hrb, hrc] at hlt hlt' ⊢
    exact Request.not_lt_trans hlt hlt'

namespace HeapQueue

section
variable (h : s.HeapQueue q)
include h

theorem comparable : Heapq.Comparable s.lt q := Scheduler.comparable h.known

theorem congr (hkeys : ∀ x ∈ q, s'.sortKey x = s.sortKey x) :
    s'.HeapQueue q where
  known x hx := (hkeys x hx).symm ▸ h.known x hx
  isHeap := h.isHeap.congr fun a ha b hb => lt_congr (hkeys a ha) (hkeys b hb)

theorem addRequest (hx : (s.sortKey x).isSome = true) :
    s.HeapQueue (addRequest .priority s.lt q x) := by
  have hknown : ∀ y ∈ x :: q, (s.sortKey y).isSome = true := by
    intro y hy
    obtain rfl | hy := List.mem_cons.mp hy
    · exact hx
    · exact h.known y hy
  refine ⟨?_, h.isHeap.heappush (Scheduler.comparable hknown)⟩
  intro y hy
  exact hknown y ((addRequest_perm .priority s.lt q x).mem_iff.mp hy)

theorem popRequest (hpop : popRequest .priority s.lt q = some (x, rest)) : s.HeapQueue rest := by
  refine ⟨?_, h.isHeap.heappop h.comparable hpop⟩
  intro y hy
  exact h.known y ((popRequest_perm hpop).2.mem_iff.mpr (List.mem_cons_of_mem x hy))

theorem prependRequests (hrequests : ∀ x ∈ requests, (s.sortKey x).isSome = true) :
    s.HeapQueue (prependRequests .priority s.lt q requests) := by
  have hfold : ∀ (l q : List RequestId), (∀ x ∈ l, (s.sortKey x).isSome = true) → s.HeapQueue q →
      s.HeapQueue (l.foldl (RequestQueue.addRequest .priority s.lt) q) := by
    intro l
    induction l with
    | nil => exact fun q _ hq => hq
    | cons x l ih =>
      intro q hl hq
      rw [List.foldl_cons]
      exact ih _ (fun y hy => hl y (List.mem_cons_of_mem x hy))
        (hq.addRequest (hl x List.mem_cons_self))
  refine hfold _ q ?_ h
  intro x hx
  exact hrequests x ((Heapq.popAll_perm s.lt le_rfl).mem_iff.mp hx)

end

/-- The queue is built anew, so that it does not matter whether it was a heap. -/
theorem removeRequests (hknown : ∀ x ∈ q, (s.sortKey x).isSome = true) :
    s.HeapQueue (removeRequests .priority s.lt q requests) := by
  have hfilter : ∀ x ∈ q.filter (· ∉ requests), (s.sortKey x).isSome = true :=
    fun x hx => hknown x (List.mem_of_mem_filter hx)
  refine ⟨?_, Heapq.isHeap_heapify (Scheduler.comparable hfilter)⟩
  intro x hx
  exact hfilter x ((removeRequests_perm .priority s.lt q requests).mem_iff.mp hx)

theorem peek_le (h : s.HeapQueue q) (hpeek : peekRequest q = some x) (hy : y ∈ q) :
    s.lt y x = false :=
  h.isHeap.root_le h.comparable hpeek hy

end HeapQueue

/-- Both waiting queues. -/
structure HeapQueues (s : Scheduler κ ε) : Prop where
  waiting : s.HeapQueue s.waiting
  skippedWaiting : s.HeapQueue s.skippedWaiting

theorem HeapQueues.queue (h : s.HeapQueues) (q : WaitingQueue) : s.HeapQueue (s.queue q) := by
  cases q with
  | waiting => exact h.waiting
  | skippedWaiting => exact h.skippedWaiting

theorem HeapQueues.setQueue (h : s.HeapQueues) {q : WaitingQueue} (hrest : s.HeapQueue rest) :
    (s.setQueue q rest).HeapQueues := by
  cases q with
  | waiting => exact ⟨hrest.congr fun _ _ => rfl, h.skippedWaiting.congr fun _ _ => rfl⟩
  | skippedWaiting => exact ⟨h.waiting.congr fun _ _ => rfl, hrest.congr fun _ _ => rfl⟩

/-- The queues and the keys are the same. -/
structure SameQueues (s s' : Scheduler κ ε) : Prop where
  waiting : s'.waiting = s.waiting
  skippedWaiting : s'.skippedWaiting = s.skippedWaiting
  sortKey : ∀ x, s'.sortKey x = s.sortKey x

theorem SameQueues.refl (s : Scheduler κ ε) : s.SameQueues s := ⟨rfl, rfl, fun _ => rfl⟩

theorem SameQueues.trans {s'' : Scheduler κ ε} (h : s.SameQueues s') (h' : s'.SameQueues s'') :
    s.SameQueues s'' where
  waiting := h'.waiting.trans h.waiting
  skippedWaiting := h'.skippedWaiting.trans h.skippedWaiting
  sortKey x := (h'.sortKey x).trans (h.sortKey x)

theorem HeapQueues.same (h : s.HeapQueues) (hsame : s.SameQueues s') : s'.HeapQueues where
  waiting := hsame.waiting ▸ h.waiting.congr fun x _ => hsame.sortKey x
  skippedWaiting := hsame.skippedWaiting ▸ h.skippedWaiting.congr fun x _ => hsame.sortKey x

end Scheduler

namespace ScheduleStep
variable {κ ε : Type} {env : SchedulerEnv κ ε} {answers : StepAnswers} {st st' : ScheduleStep κ ε}

/-- The queues during a step. -/
structure HeapStep (st : ScheduleStep κ ε) : Prop where
  queues : st.sched.HeapQueues
  skipped : ∀ x ∈ st.stepSkippedWaiting, (st.sched.sortKey x).isSome = true

theorem HeapStep.same (h : HeapStep st) (hsame : st.sched.SameQueues st'.sched)
    (hskipped : st'.stepSkippedWaiting = st.stepSkippedWaiting) : HeapStep st' where
  queues := h.queues.same hsame
  skipped x hx := by
    rw [hsame.sortKey x]
    exact h.skipped x (hskipped ▸ hx)

section
variable (hpolicy : env.config.policy = .priority)
include hpolicy

theorem HeapStep.preemptOne {victim : RequestId} (h : HeapStep st)
    (hpreempt : preemptOne env st = .ok (victim, st')) : HeapStep st' := by
  obtain ⟨r, kv, encoder, running, hr, -, -, -, -, hsched⟩ := preemptOne_sched hpreempt
  have hobjects : st'.sched.objects = st.sched.objects.set victim (Scheduler.preempted r) := by
    rw [hsched]
  have hkeys := Scheduler.sortKey_set hr hobjects rfl
  have hvictim : (st'.sched.sortKey victim).isSome = true := by
    rw [hkeys, Scheduler.sortKey_of_get? hr, isSome_some]
  refine ⟨⟨?_, ?_⟩, ?_⟩
  · have hlt : st'.sched.lt = (st.sched.put victim (Scheduler.preempted r)).lt := by
      rw [hsched]
      rfl
    have hwaiting : st'.sched.waiting =
        addRequest .priority st'.sched.lt st.sched.waiting victim := by
      rw [hlt, hsched, hpolicy]
      rfl
    rw [hwaiting]
    exact (h.queues.waiting.congr fun x _ => hkeys x).addRequest hvictim
  · have hskipped : st'.sched.skippedWaiting = st.sched.skippedWaiting := by
      rw [hsched]
    rw [hskipped]
    exact h.queues.skippedWaiting.congr fun x _ => hkeys x
  · intro x hx
    rw [hkeys x]
    exact h.skipped x ((preemptOne_lists hpreempt).1 ▸ hx)

theorem HeapStep.popWaiting {q : WaitingQueue} {requestId : RequestId} (h : HeapStep st)
    (hhead : peekRequest (st.sched.queue q) = some requestId)
    (hpop : popWaiting env st q = .ok st') : HeapStep st' ∧
      (st'.sched.sortKey requestId).isSome = true ∧ st'.sched.objects = st.sched.objects ∧
      st'.stepSkippedWaiting = st.stepSkippedWaiting := by
  have hknown := (h.queues.queue q).known requestId (List.mem_of_head? hhead)
  unfold ScheduleStep.popWaiting at hpop
  rw [hpolicy] at hpop
  split at hpop
  · simp at hpop
  · next x rest hrest =>
    cases hpop
    have hobjects : (st.sched.setQueue q rest).objects = st.sched.objects :=
      Scheduler.setQueue_objects q rest
    have hkeys : ∀ y, (st.sched.setQueue q rest).sortKey y = st.sched.sortKey y := by
      intro y
      rw [Scheduler.sortKey, Scheduler.sortKey, hobjects]
    refine ⟨⟨h.queues.setQueue ((h.queues.queue q).popRequest hrest), ?_⟩, ?_, hobjects, rfl⟩
    · intro y hy
      exact (hkeys y).symm ▸ h.skipped y hy
    · exact (hkeys requestId).symm ▸ hknown

theorem HeapStep.putAside {requestId : RequestId}
    (h : HeapStep st) (hknown : (st.sched.sortKey requestId).isSome = true)
    (hsame : st.sched.SameQueues st'.sched)
    (hskipped : st'.stepSkippedWaiting = prependRequest env.config.policy
      st'.sched.lt st.stepSkippedWaiting requestId) : HeapStep st' := by
  refine ⟨h.queues.same hsame, ?_⟩
  intro x hx
  rw [hskipped, hpolicy] at hx
  rw [hsame.sortKey x]
  obtain rfl | hx := List.mem_cons.mp
    ((prependRequest_perm .priority st'.sched.lt _ requestId).mem_iff.mp hx)
  · exact hknown
  · exact h.skipped x hx

theorem HeapStep.move {phase : Phase} (hmove : Move env answers phase st st') (h : HeapStep st) :
    HeapStep st' := by
  cases hmove with
  | pass => exact h.same (.refl _) rfl
  | plan | noSlots => exact h.same ⟨rfl, rfl, fun _ => rfl⟩ rfl
  | preempt hpreempt => exact h.preemptOne hpolicy hpreempt
  | @record _ _ requestId r _ _ kv _ _ hr _ _ _ _ _ hencoder =>
    obtain ⟨encoder, budget, -, rfl⟩ := allocateEncoderInputs_eq_ok hencoder
    exact h.same ⟨rfl, rfl, Scheduler.sortKey_set hr rfl rfl⟩ rfl
  | loras hloras =>
    obtain ⟨loras, rfl⟩ := recordLoras_eq_ok hloras
    exact h.same (.refl _) rfl
  | @promote _ requestId r _ _ hr hpromote =>
    obtain ⟨-, rfl⟩ | ⟨-, -, -, status, c, kv, finished, failed, -, -, rfl⟩ :=
      tryPromote_eq_ok hpromote
    · exact h.same (.refl _) rfl
    · exact h.same ⟨rfl, rfl, Scheduler.sortKey_set hr rfl rfl⟩ rfl
  | skip hhead hskip =>
    unfold skipWaiting at hskip
    obtain ⟨st₁, hpop, hskip⟩ := Raises.of_bind hskip
    cases hskip
    obtain ⟨hst₁, hknown, -, -⟩ := h.popWaiting hpolicy hhead hpop
    exact hst₁.putAside hpolicy hknown (.refl _) rfl
  | noWaitingSlots => exact h.same ⟨rfl, rfl, fun _ => rfl⟩ rfl
  | @remoteLoad _ st₁ q requestId r lookup _ _ _ kv hr _ hhead _ _ hpop =>
    have hkv : HeapStep (st.setKv kv) := h.same ⟨rfl, rfl, fun _ => rfl⟩ rfl
    obtain ⟨hst₁, hknown, hobjects, -⟩ := hkv.popWaiting hpolicy (by cases q <;> exact hhead) hpop
    have hr₁ : st₁.sched.objects.get? requestId = some r := by
      rw [hobjects]
      exact hr
    exact hst₁.putAside hpolicy hknown ⟨rfl, rfl, Scheduler.sortKey_set hr₁ rfl rfl⟩ rfl
  | @startRunning _ st₁ st₂ st₃ q requestId r lookup _ _ _ kv hr _ hhead _ _ _ _ _ _ hpop hstarts
      hencoder =>
    have hkv : HeapStep (st.setKv kv) := h.same ⟨rfl, rfl, fun _ => rfl⟩ rfl
    obtain ⟨hst₁, -, hobjects, -⟩ := hkv.popWaiting hpolicy (by cases q <;> exact hhead) hpop
    have hr₁ : st₁.sched.objects.get? requestId = some r := by
      rw [hobjects]
      exact hr
    obtain ⟨-, inflight, newReqs, resumedReqs, -, rfl⟩ := startRunning_eq_ok hstarts
    obtain ⟨encoder', budget, -, rfl⟩ := allocateEncoderInputs_eq_ok hencoder
    exact hst₁.same ⟨rfl, rfl, Scheduler.sortKey_set hr₁ rfl rfl⟩ rfl

theorem HeapStep.moves {phase : Phase} (h : HeapStep st) (hmoves : Moves env answers phase st st') :
    HeapStep st' :=
  hmoves.induction (fun _ _ hmove hst => hst.move hpolicy hmove) h

theorem HeapStep.requeueSkipped (h : HeapStep st) : HeapStep (st.requeueSkipped env) := by
  refine ⟨⟨h.queues.waiting.congr fun _ _ => rfl, ?_⟩, fun x hx => absurd hx List.not_mem_nil⟩
  have hprepend := h.queues.skippedWaiting.prependRequests h.skipped
  unfold ScheduleStep.requeueSkipped
  rw [hpolicy]
  exact hprepend.congr fun _ _ => rfl

end

end ScheduleStep

end Vllm
