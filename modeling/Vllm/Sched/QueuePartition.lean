import Vllm.Sched.Moves

/-! The three queues partition the unfinished requests. -/
namespace Vllm
open RequestStatus List

/-- Every unfinished request is in exactly one of the two lists, once, and the running requests
are those of the first. The counter is that of the requests that wait for their next input. -/
structure Partitioned (objects : Dict RequestId SchedRequest) (requests : List RequestId)
    (streaming : ℤ) (run rest : List RequestId) : Prop where
  nodup : requests.Nodup
  object : ∀ x ∈ requests, ∃ r, objects.get? x = some r
  alive : ∀ x r, objects.get? x = some r → r.isFinished = false → x ∈ requests
  once : ∀ x r, objects.get? x = some r → r.isFinished = false → (run ++ rest).count x = 1
  running : ∀ x r, objects.get? x = some r → r.isFinished = false →
    (x ∈ run ↔ r.status = .running)
  live : ∀ x ∈ run ++ rest, ∃ r, objects.get? x = some r ∧ r.isFinished = false
  streaming : streaming = requests.countP fun x =>
    (objects.get? x).any fun r => r.status == .waitingForStreamingReq

theorem countP_update {l : List RequestId} (hl : l.Nodup) {a : RequestId} (ha : a ∈ l)
    {p q : RequestId → Bool} (h : ∀ x ≠ a, p x = q x) :
    (l.countP q : ℤ) = l.countP p + (if q a then 1 else 0) - (if p a then 1 else 0) := by
  induction l with
  | nil => simp at ha
  | cons b l ih =>
    rw [nodup_cons] at hl
    rw [countP_cons, countP_cons]
    obtain rfl | hmem := mem_cons.mp ha
    · have hsame : l.countP q = l.countP p := by
        apply countP_congr
        intro x hx
        have hne : x ≠ a := by
          rintro rfl
          exact hl.1 hx
        rw [h x hne]
      rw [hsame]
      push_cast
      ring
    · have hne : b ≠ a := by
        rintro rfl
        exact hl.1 hmem
      rw [h b hne]
      push_cast
      rw [ih hl.2 hmem]
      ring

namespace Partitioned
variable {objects : Dict RequestId SchedRequest} {requests : List RequestId} {streaming : ℤ}
  {run rest run' rest' : List RequestId} {x : RequestId} {r u : SchedRequest}

def isStreaming (r : SchedRequest) : ℤ := if r.status = .waitingForStreamingReq then 1 else 0

theorem isStreaming_of_finished (hf : r.isFinished = true) : isStreaming r = 0 := by
  unfold isStreaming
  rw [if_neg]
  intro hstatus
  simp [SchedRequest.isFinished, hstatus, isFinished] at hf

section
variable (h : Partitioned objects requests streaming run rest)
include h

theorem perm (hrun : run'.Perm run) (hrest : rest'.Perm rest) :
    Partitioned objects requests streaming run' rest' :=
  { h with
    once := by
      intro x r hr hf
      rw [(hrun.append hrest).count_eq x]
      exact h.once x r hr hf
    running := by
      intro x r hr hf
      rw [hrun.mem_iff]
      exact h.running x r hr hf
    live := by
      intro x hx
      exact h.live x ((hrun.append hrest).mem_iff.mp hx) }

theorem set (hr : objects.get? x = some r) (hx : x ∈ requests)
    (hothers : ∀ y ≠ x, (run' ++ rest').count y = (run ++ rest).count y ∧ (y ∈ run' ↔ y ∈ run))
    (hself : if u.isFinished then x ∉ run' ++ rest' else
      (run' ++ rest').count x = 1 ∧ (x ∈ run' ↔ u.status = .running)) :
    Partitioned (objects.set x u) requests (streaming + isStreaming u - isStreaming r)
      run' rest' where
  nodup := h.nodup
  object := by
    intro y hy
    obtain ⟨ry, hry⟩ := h.object y hy
    by_cases hyx : y = x
    · exact ⟨u, by rw [Dict.get?_set, if_pos hyx]⟩
    · exact ⟨ry, by rw [Dict.get?_set, if_neg hyx, hry]⟩
  alive := by
    intro y ry hry hf
    rw [Dict.get?_set] at hry
    split at hry
    · next hyx =>
      rw [hyx]
      exact hx
    · exact h.alive y ry hry hf
  once := by
    intro y ry hry hf
    rw [Dict.get?_set] at hry
    split at hry
    · next hyx =>
      cases hry
      rw [hf] at hself
      rw [hyx]
      exact hself.1
    · next hyx =>
      rw [(hothers y hyx).1]
      exact h.once y ry hry hf
  running := by
    intro y ry hry hf
    rw [Dict.get?_set] at hry
    split at hry
    · next hyx =>
      cases hry
      rw [hf] at hself
      rw [hyx]
      exact hself.2
    · next hyx =>
      rw [(hothers y hyx).2]
      exact h.running y ry hry hf
  live := by
    intro y hy
    by_cases hyx : y = x
    · subst hyx
      refine ⟨u, by rw [Dict.get?_set, if_pos rfl], ?_⟩
      by_contra hf
      rw [Bool.not_eq_false] at hf
      simp only [hf, ↓reduceIte] at hself
      exact hself hy
    · have hcount := (hothers y hyx).1
      have hmem : y ∈ run ++ rest := by
        apply count_pos_iff.mp
        rw [← hcount]
        exact count_pos_iff.mpr hy
      obtain ⟨ry, hry, hf⟩ := h.live y hmem
      exact ⟨ry, by rw [Dict.get?_set, if_neg hyx, hry], hf⟩
  streaming := by
    have hcount := countP_update h.nodup hx
      (p := fun y => (objects.get? y).any fun r => r.status == .waitingForStreamingReq)
      (q := fun y => ((objects.set x u).get? y).any fun r => r.status == .waitingForStreamingReq)
      (by
        intro y hy
        rw [Dict.get?_set, if_neg hy])
    rw [hcount, ← h.streaming]
    simp [hr, isStreaming]

/-- The request changes but neither its status nor its place does. -/
theorem setSame (hr : objects.get? x = some r) (hstatus : u.status = r.status) :
    Partitioned (objects.set x u) requests streaming run rest := by
  have hfinished : u.isFinished = r.isFinished := congrArg isFinished hstatus
  by_cases hx : x ∈ requests
  · have hset : Partitioned (objects.set x u) requests
        (streaming + isStreaming u - isStreaming r) run rest := by
      refine h.set hr hx (fun y _ => ⟨rfl, Iff.rfl⟩) ?_
      rw [hfinished, hstatus]
      split
      · next hf =>
        intro hmem
        obtain ⟨ry, hry, hlive⟩ := h.live x hmem
        obtain rfl := Option.some.inj (hr.symm.trans hry)
        simp [hf] at hlive
      · next hf =>
        rw [Bool.not_eq_true] at hf
        exact ⟨h.once x r hr hf, h.running x r hr hf⟩
    have hsame : streaming + isStreaming u - isStreaming r = streaming := by
      simp [isStreaming, hstatus]
    rwa [hsame] at hset
  · have hfin : u.isFinished = true := by
      by_contra hf
      rw [hfinished, Bool.not_eq_true] at hf
      exact hx (h.alive x r hr hf)
    have hget : ∀ y, y ∈ requests → (objects.set x u).get? y = objects.get? y := by
      intro y hy
      rw [Dict.get?_set, if_neg]
      rintro rfl
      exact hx hy
    have hunfinished : ∀ y ry, (objects.set x u).get? y = some ry → ry.isFinished = false →
        objects.get? y = some ry := by
      intro y ry hry hf
      rw [Dict.get?_set] at hry
      split at hry
      · cases hry
        simp [hfin] at hf
      · exact hry
    exact {
      nodup := h.nodup
      object := fun y hy => by rw [hget y hy]; exact h.object y hy
      alive := fun y ry hry hf => h.alive y ry (hunfinished y ry hry hf) hf
      once := fun y ry hry hf => h.once y ry (hunfinished y ry hry hf) hf
      running := fun y ry hry hf => h.running y ry (hunfinished y ry hry hf) hf
      live := by
        intro y hy
        obtain ⟨ry, hry, hf⟩ := h.live y hy
        exact ⟨ry, by rw [hget y (h.alive y ry hry hf), hry], hf⟩
      streaming := by
        rw [h.streaming]
        congr 1
        apply countP_congr
        intro y hy
        rw [hget y hy] }

theorem move (hr : objects.get? x = some r) (hf : r.isFinished = false) (hf' : u.isFinished = false)
    (hperm : (run' ++ rest').Perm (run ++ rest)) (hothers : ∀ y ≠ x, y ∈ run' ↔ y ∈ run)
    (hself : x ∈ run' ↔ u.status = .running) :
    Partitioned (objects.set x u) requests (streaming + isStreaming u - isStreaming r)
      run' rest' := by
  refine h.set hr (h.alive x r hr hf) (fun y hy => ⟨hperm.count_eq y, hothers y hy⟩) ?_
  rw [hf']
  exact ⟨(hperm.count_eq x).trans (h.once x r hr hf), hself⟩

end

theorem not_mem_run (h : Partitioned objects requests streaming run (x :: rest)) : x ∉ run := by
  intro hmem
  obtain ⟨r, hr, hf⟩ := h.live x (by simp)
  have honce := h.once x r hr hf
  have hpos := count_pos_iff.mpr hmem
  rw [count_append, count_cons_self] at honce
  omega

theorem not_mem_of_cons_run (h : Partitioned objects requests streaming (x :: run) rest) :
    x ∉ run ++ rest := by
  intro hmem
  obtain ⟨r, hr, hf⟩ := h.live x (by simp)
  have honce := h.once x r hr hf
  have hpos := count_pos_iff.mpr hmem
  rw [cons_append, count_cons_self] at honce
  omega

/-- A waiting request starts to run. -/
theorem start (h : Partitioned objects requests streaming run (x :: rest))
    (hr : objects.get? x = some r) (hstatus : r.status = .waiting ∨ r.status = .preempted)
    (hstatus' : u.status = .running) :
    Partitioned (objects.set x u) requests streaming (run ++ [x]) rest := by
  have hf : r.isFinished = false := by
    obtain hs | hs := hstatus <;> simp [SchedRequest.isFinished, hs, isFinished]
  have hf' : u.isFinished = false := by
    simp [SchedRequest.isFinished, hstatus', isFinished]
  have hcounter : streaming + isStreaming u - isStreaming r = streaming := by
    obtain hs | hs := hstatus <;> simp [isStreaming, hs, hstatus']
  rw [← hcounter]
  refine h.move hr hf hf' ?_ ?_ ?_
  · rw [append_assoc]
    exact .refl _
  · intro y hy
    simp [hy]
  · simp [hstatus']

/-- A running request is preempted. -/
theorem preempt (h : Partitioned objects requests streaming (x :: run) rest)
    (hr : objects.get? x = some r) (hstatus : r.status = .running)
    (hstatus' : u.status = .preempted) :
    Partitioned (objects.set x u) requests streaming run (x :: rest) := by
  have hf : r.isFinished = false := by
    simp [SchedRequest.isFinished, hstatus, isFinished]
  have hf' : u.isFinished = false := by
    simp [SchedRequest.isFinished, hstatus', isFinished]
  have hcounter : streaming + isStreaming u - isStreaming r = streaming := by
    simp [isStreaming, hstatus, hstatus']
  rw [← hcounter]
  refine h.move hr hf hf' ?_ ?_ ?_
  · exact perm_middle
  · intro y hy
    simp [hy]
  · have hnot := h.not_mem_of_cons_run
    simp only [mem_append, not_or] at hnot
    simp [hnot.1, hstatus']

section
variable (h : Partitioned objects requests streaming run rest)
include h

/-- A waiting request changes its status but goes on waiting. -/
theorem wait (hr : objects.get? x = some r) (hf : r.isFinished = false)
    (hstatus : r.status ≠ .running) (hf' : u.isFinished = false) (hstatus' : u.status ≠ .running)
    (hstreaming : isStreaming u = isStreaming r) :
    Partitioned (objects.set x u) requests streaming run rest := by
  have hcounter : streaming + isStreaming u - isStreaming r = streaming := by
    rw [hstreaming, add_sub_cancel_right]
  rw [← hcounter]
  refine h.move hr hf hf' (.refl _) (fun _ _ => Iff.rfl) ?_
  rw [h.running x r hr hf]
  simp [hstatus, hstatus']

theorem nodup_queues : (run ++ rest).Nodup := by
  rw [nodup_iff_count_le_one]
  intro x
  by_cases hx : x ∈ run ++ rest
  · obtain ⟨r, hr, hf⟩ := h.live x hx
    exact (h.once x r hr hf).le
  · rw [count_eq_zero_of_not_mem hx]
    exact Nat.zero_le 1

theorem finish (hr : objects.get? x = some r) (hf : r.isFinished = false)
    (hf' : u.isFinished = true) :
    Partitioned (objects.set x u) requests (streaming - isStreaming r) (run.filter (· ≠ x))
      (rest.filter (· ≠ x)) := by
  have hset : Partitioned (objects.set x u) requests (streaming + isStreaming u - isStreaming r)
      (run.filter (· ≠ x)) (rest.filter (· ≠ x)) := h.set hr (h.alive x r hr hf) ?_ ?_
  · rwa [isStreaming_of_finished hf', add_zero] at hset
  · intro y hy
    rw [← filter_append, count_filter (p := fun z => decide (z ≠ x)) (decide_eq_true hy)]
    exact ⟨rfl, by simp [hy]⟩
  · simp [hf']

theorem discard (hr : objects.get? x = some r) (hf : r.isFinished = true) :
    Partitioned objects (setDiscard requests x) streaming run rest :=
  { h with
    nodup := h.nodup.filter _
    object := fun y hy => h.object y (mem_of_mem_filter hy)
    alive := by
      intro y ry hry hlive
      refine mem_filter.mpr ⟨h.alive y ry hry hlive, ?_⟩
      apply decide_eq_true
      rintro rfl
      obtain rfl := Option.some.inj (hr.symm.trans hry)
      simp [hf] at hlive
    streaming := by
      rw [h.streaming]
      unfold setDiscard
      rw [countP_filter]
      congr 1
      apply countP_congr
      intro y _
      constructor
      · intro hy
        refine Bool.and_eq_true_iff.mpr ⟨hy, ?_⟩
        apply decide_eq_true
        rintro rfl
        rw [hr, Option.any_some, beq_iff_eq] at hy
        simp [SchedRequest.isFinished, hy, isFinished] at hf
      · intro hy
        exact (Bool.and_eq_true_iff.mp hy).1 }

/-- A new request joins those that wait. -/
theorem add (hfresh : objects.get? x = none) (hf : r.isFinished = false)
    (hrunning : r.status ≠ .running) (hstreaming : r.status ≠ .waitingForStreamingReq) :
    Partitioned (objects.set x r) (requests ++ [x]) streaming run (x :: rest) := by
  have hqueues : x ∉ run ++ rest := by
    intro hmem
    obtain ⟨ry, hry, -⟩ := h.live x hmem
    simp [hfresh] at hry
  have hrequests : x ∉ requests := by
    intro hmem
    obtain ⟨ry, hry⟩ := h.object x hmem
    simp [hfresh] at hry
  have hcount : ∀ y ≠ x, (run ++ x :: rest).count y = (run ++ rest).count y := by
    intro y hy
    rw [perm_middle.count_eq, count_cons_of_ne (Ne.symm hy)]
  have hold : ∀ y ≠ x, (objects.set x r).get? y = objects.get? y := by
    intro y hy
    rw [Dict.get?_set, if_neg hy]
  have hself : (objects.set x r).get? x = some r := by rw [Dict.get?_set, if_pos rfl]
  constructor
  case nodup =>
    rw [nodup_append]
    refine ⟨h.nodup, nodup_singleton x, ?_⟩
    rintro y hy _ hx rfl
    rw [mem_singleton.mp hx] at hy
    exact hrequests hy
  case object =>
    intro y hy
    obtain rfl | hne := eq_or_ne y x
    · exact ⟨r, hself⟩
    · rw [hold y hne]
      apply h.object
      simpa [hne] using hy
  case alive =>
    intro y ry hry hlive
    obtain rfl | hne := eq_or_ne y x
    · simp
    · rw [hold y hne] at hry
      exact mem_append_left _ (h.alive y ry hry hlive)
  case once =>
    intro y ry hry hlive
    obtain rfl | hne := eq_or_ne y x
    · rw [perm_middle.count_eq, count_cons_self, count_eq_zero_of_not_mem hqueues]
    · rw [hold y hne] at hry
      rw [hcount y hne]
      exact h.once y ry hry hlive
  case running =>
    intro y ry hry hlive
    obtain rfl | hne := eq_or_ne y x
    · obtain rfl := Option.some.inj (hself.symm.trans hry)
      simp only [mem_append, not_or] at hqueues
      simp [hqueues.1, hrunning]
    · rw [hold y hne] at hry
      exact h.running y ry hry hlive
  case live =>
    intro y hy
    obtain rfl | hne := eq_or_ne y x
    · exact ⟨r, hself, hf⟩
    · rw [hold y hne]
      apply h.live
      simpa [hne] using hy
  case streaming =>
    rw [h.streaming, countP_append, countP_singleton, hself, Option.any_some,
      beq_false_of_ne hstreaming]
    simp only [Bool.false_eq_true, ↓reduceIte, add_zero]
    congr 1
    apply countP_congr
    intro y hy
    rw [hold y (by
      rintro rfl
      exact hrequests hy)]

end

end Partitioned

namespace ScheduleStep
variable {κ ε : Type} {env : SchedulerEnv κ ε} {answers : StepAnswers}

/-- The queues in the middle of a step: requests put aside wait as well. -/
def QueuesPartitioned (st : ScheduleStep κ ε) : Prop :=
  Partitioned st.sched.objects st.sched.requests st.sched.numWaitingForStreamingInput
    st.sched.running (st.sched.waiting ++ st.sched.skippedWaiting ++ st.stepSkippedWaiting)

variable {st st' : ScheduleStep κ ε}

theorem waiting_perm_of_pop {q : WaitingQueue} {x : RequestId} {rest : List RequestId}
    (h : (st.sched.queue q).Perm (x :: rest)) :
    (st.sched.waiting ++ st.sched.skippedWaiting ++ st.stepSkippedWaiting).Perm
      (x :: ((st.sched.setQueue q rest).waiting ++ (st.sched.setQueue q rest).skippedWaiting ++
        st.stepSkippedWaiting)) := by
  cases q with
  | waiting => exact (h.append_right _).append_right _
  | skippedWaiting =>
    have hmiddle : (st.sched.waiting ++ st.sched.skippedWaiting).Perm
        (x :: (st.sched.waiting ++ rest)) :=
      (h.append_left st.sched.waiting).trans perm_middle
    exact hmiddle.append_right _

section
variable (hst : st.QueuesPartitioned)
include hst

theorem QueuesPartitioned.preemptOne {victim : RequestId}
    (h : preemptOne env st = .ok (victim, st')) :
    st'.QueuesPartitioned := by
  obtain ⟨r, kv, encoder, running, hr, hstatus, hperm, -, -, hsched⟩ := preemptOne_sched h
  unfold QueuesPartitioned
  rw [hsched, (preemptOne_lists h).1]
  have hrun := hst.perm hperm.symm (.refl _)
  apply (hrun.preempt hr hstatus rfl).perm (.refl _)
  have hwaiting := RequestQueue.prependRequest_perm env.config.policy
    (st.sched.put victim (Scheduler.preempted r)).lt st.sched.waiting victim
  exact (hwaiting.append_right _).append_right _

theorem QueuesPartitioned.allocateEncoderInputs {requestId : RequestId} {r : SchedRequest}
    {plan : EncoderPlan} (h : allocateEncoderInputs env st requestId r plan = .ok st') :
    st'.QueuesPartitioned := by
  obtain ⟨encoder, budget, -, rfl⟩ := allocateEncoderInputs_eq_ok h
  exact hst

theorem QueuesPartitioned.popWaiting {q : WaitingQueue} {requestId : RequestId}
    (hhead : RequestQueue.peekRequest (st.sched.queue q) = some requestId)
    (h : popWaiting env st q = .ok st') :
    st'.sched.objects = st.sched.objects ∧
    Partitioned st'.sched.objects st'.sched.requests st'.sched.numWaitingForStreamingInput
      st'.sched.running (requestId ::
        (st'.sched.waiting ++ st'.sched.skippedWaiting ++ st'.stepSkippedWaiting)) := by
  obtain ⟨rest, hperm, rfl⟩ := popWaiting_eq_ok hhead h
  refine ⟨by simp [setSched], ?_⟩
  have hpop := hst.perm (.refl _) (waiting_perm_of_pop hperm).symm
  simpa [setSched] using hpop

end

theorem QueuesPartitioned.move {phase : Phase} (h : Move env answers phase st st')
    (hst : st.QueuesPartitioned) : st'.QueuesPartitioned := by
  cases h with
  | pass | plan | noSlots => exact hst
  | preempt h => exact hst.preemptOne h
  | record hr _ _ _ _ _ h =>
    refine QueuesPartitioned.allocateEncoderInputs ?_ h
    exact hst.setSame hr rfl
  | loras h =>
    obtain ⟨loras, rfl⟩ := recordLoras_eq_ok h
    exact hst
  | @promote _ _ r _ _ hr h =>
    obtain ⟨-, rfl⟩ | ⟨-, hne, hblocked, status, c, kv, finished, failed, hstatus, -, rfl⟩ :=
      tryPromote_eq_ok h
    · exact hst
    have hold : r.isFinished = false ∧ r.status ≠ .running := by
      unfold SchedRequest.isFinished
      revert hblocked
      cases r.status <;> simp [Scheduler.isBlockedWaitingStatus, isFinished]
    refine Partitioned.wait hst hr hold.1 hold.2 ?_ ?_ ?_
    · obtain rfl | rfl := hstatus <;> rfl
    · obtain rfl | rfl := hstatus <;> exact noConfusion
    · have hnew : ({ r.setStatus status with numComputedTokens := c } : SchedRequest).status ≠
          .waitingForStreamingReq := by
        obtain rfl | rfl := hstatus <;> exact noConfusion
      simp only [Partitioned.isStreaming, if_neg hne, if_neg hnew]
  | @skip _ _ _ requestId hhead h =>
    obtain ⟨st₁, hpop, h⟩ := Raises.of_bind h
    cases h
    obtain ⟨-, hst₁⟩ := hst.popWaiting hhead hpop
    have hprepend := RequestQueue.prependRequest_perm env.config.policy st₁.sched.lt
      st₁.stepSkippedWaiting requestId
    exact hst₁.perm (.refl _) ((hprepend.append_left _).trans perm_middle)
  | noWaitingSlots => exact hst
  | @remoteLoad _ st₁ _ requestId r lookup _ _ _ kv hr hstatus hhead _ _ hpop =>
    obtain ⟨hobjects, hst₁⟩ := (show (st.setKv kv).QueuesPartitioned from hst).popWaiting hhead hpop
    have hr₁ : st₁.sched.objects.get? requestId = some r := by
      rw [hobjects]
      exact hr
    obtain ⟨r', hr', hf⟩ := hst₁.live requestId (by simp)
    obtain rfl := Option.some.inj (hr₁.symm.trans hr')
    have hrunning : r.status ≠ .running := by
      rw [Ne, ← hst₁.running requestId r hr₁ hf]
      exact hst₁.not_mem_run
    have hstreaming : r.status ≠ .waitingForStreamingReq := by
      intro heq
      simp [heq, Scheduler.isBlockedWaitingStatus] at hstatus
    have hload := hst₁.wait (u := { r.setStatus .waitingForRemoteKvs with
      numComputedTokens := lookup.numComputedTokens }) hr₁ hf hrunning rfl
      noConfusion (by
        simp only [Partitioned.isStreaming, if_neg hstreaming]
        rfl)
    have hprepend := RequestQueue.prependRequest_perm env.config.policy
      (st₁.sched.put requestId { r.setStatus .waitingForRemoteKvs with
        numComputedTokens := lookup.numComputedTokens }).lt st₁.stepSkippedWaiting requestId
    exact hload.perm (.refl _) ((hprepend.append_left _).trans perm_middle)
  | @startRunning _ st₁ _ _ _ requestId r _ _ _ _ kv hr _ hhead _ _ _ _ _ _ hpop hstarts hencoder =>
    obtain ⟨hobjects, hst₁⟩ := (show (st.setKv kv).QueuesPartitioned from hst).popWaiting hhead hpop
    have hr₁ : st₁.sched.objects.get? requestId = some r := by
      rw [hobjects]
      exact hr
    obtain ⟨hstatus, inflight, newReqs, resumedReqs, -, rfl⟩ := startRunning_eq_ok hstarts
    refine QueuesPartitioned.allocateEncoderInputs ?_ hencoder
    exact hst₁.start hr₁ hstatus rfl

end ScheduleStep

end Vllm
