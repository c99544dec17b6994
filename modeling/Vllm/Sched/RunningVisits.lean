import Vllm.Sched.Runs
import Vllm.Sched.RunningLoop

/-! Which requests the loop over the running requests visits. A request that was passed over and
is preempted later in the same loop moves the list under the index, and the next request is left
out. -/
namespace Vllm
open Raises List

/-- What a turn of the loop does with its request. -/
inductive TurnOutcome where
  | passed | scheduled | preempted
  deriving DecidableEq

/-- Why the loop is left. -/
inductive LoopExit where
  | reachedEnd | budgetExhausted | selfPreempted
  deriving DecidableEq

namespace ScheduleStep
variable {κ ε : Type} (env : SchedulerEnv κ ε)

def loopExit (st : ScheduleStep κ ε) : LoopExit :=
  if st.sched.running.length ≤ st.reqIndex then .reachedEnd else .budgetExhausted

def turnOutcome (st : ScheduleStep κ ε) (requestId : RequestId) : TurnOutcome :=
  if requestId ∈ st.scheduledRunningReqs then .scheduled else .passed

/-- `runningLoop` with the requests it visits. -/
def runningVisits (answers : StepAnswers) : ℕ → ScheduleStep κ ε →
    Raises (List (RequestId × TurnOutcome) × LoopExit × ScheduleStep κ ε)
  | 0, st => pure ([], loopExit st, st)
  | fuel + 1, st =>
    if st.tokenBudget > 0 then
      match st.sched.running[st.reqIndex]? with
      | none => pure ([], loopExit st, st)
      | some requestId => do
        let (go, st) ← runningTurn env answers st requestId
        if go then do
          let (visits, exit, st') ← runningVisits answers fuel st
          pure ((requestId, turnOutcome st requestId) :: visits, exit, st')
        else pure ([(requestId, .preempted)], .selfPreempted, st)
    else pure ([], loopExit st, st)

theorem map_runningVisits (answers : StepAnswers) (fuel : ℕ) (st : ScheduleStep κ ε) :
    (runningVisits env answers fuel st).map (fun result => result.2.2) =
      runningLoop env answers fuel st := by
  induction fuel generalizing st with
  | zero => rfl
  | succ fuel ih =>
    unfold runningVisits runningLoop
    split
    · cases st.sched.running[st.reqIndex]? with
      | none => rfl
      | some requestId =>
        simp only
        cases hturn : runningTurn env answers st requestId with
        | error e => rfl
        | ok result =>
          obtain ⟨go, st₁⟩ := result
          simp only [bind, Except.bind]
          cases go with
          | false => rfl
          | true =>
            simp only [↓reduceIte]
            rw [← ih st₁]
            cases runningVisits env answers fuel st₁ with
            | error e => rfl
            | ok result => rfl
    · rfl

variable {env} {answers : StepAnswers} {st st' : ScheduleStep κ ε} {start : List RequestId}
  {requestId victim : RequestId} {fuel : ℕ}

/-- How far the index is from the end of the list. -/
def remaining (st : ScheduleStep κ ε) : ℕ := st.sched.running.length - st.reqIndex

theorem remaining_preemptOne (hnodup : st.sched.running.Nodup)
    (h : preemptOne env st = .ok (victim, st')) : st'.remaining ≤ st.remaining := by
  obtain ⟨hmem, hrunning, -, -, -, hledgers⟩ := preemptOne_cases hnodup h
  unfold remaining
  rw [hrunning, length_erase_of_mem hmem]
  obtain ⟨-, -, numTokens, blocks, -, -, -, -, -, -, hindex⟩ | ⟨-, -, -, -, -, hindex⟩ := hledgers
  · rw [hindex]
    omega
  · rw [hindex]
    omega

theorem Walk.remaining_lt (h : Walk start st)
    (hget : st.sched.running[st.reqIndex]? = some requestId)
    (hturn : ScheduleStep.runningTurn env answers st requestId = .ok (true, st')) :
    st'.remaining < st.remaining := by
  have hpos : 0 < st.remaining := by
    by_contra hzero
    unfold remaining at hzero
    rw [List.getElem?_eq_none (by omega)] at hget
    simp at hget
  obtain ⟨r, -, ⟨-, -, encoder, rfl⟩ |
    ⟨plan, encoder, st₁, -, -, -, -, hle, ⟨hgo, -⟩ | ⟨-, blocks, hrecord⟩⟩⟩ :=
      h.turn_rule (P := fun st₁ => st₁.remaining ≤ st.remaining) hget (fun _ _ hle => hle)
        (fun _ => Nat.le_refl _) (fun _ _ _ hst _ hle _ hvictim =>
          (remaining_preemptOne hst.nodup hvictim).trans hle) hturn
  · unfold remaining at hpos ⊢
    simp only [setEncoder, setSched]
    omega
  · simp at hgo
  · obtain ⟨encoder', budget, -, rfl⟩ := allocateEncoderInputs_eq_ok hrecord
    unfold remaining at hpos hle ⊢
    simp only [recordRunning, Scheduler.put]
    omega

/-- The requests visited so far: each only once, and to the left of the index if it still runs. -/
structure Visited (start done : List RequestId) (st : ScheduleStep κ ε) : Prop
    extends Walk start st where
  once : done.Nodup
  known : done ⊆ start
  left : ∀ x ∈ done, x ∈ st.sched.running → x ∈ st.sched.running.take st.reqIndex

variable {done : List RequestId}

theorem Visited.fresh (h : Visited start done st)
    (hget : st.sched.running[st.reqIndex]? = some requestId) : requestId ∉ done := by
  intro hmem
  obtain ⟨hlen, heq⟩ := List.getElem?_eq_some_iff.mp hget
  obtain ⟨j, hj, hgetj⟩ := mem_take_iff_getElem.mp (h.left requestId hmem (mem_of_getElem? hget))
  have := h.nodup.getElem_inj_iff.mp (hgetj.trans heq.symm)
  omega

/-- A preemption leaves the requests to the left of the index there. -/
theorem mem_take_preemptOne (hwalk : Walk start st) {x : RequestId}
    (hx : x ∈ st.sched.running.take st.reqIndex)
    (hpreempt : preemptOne env st = .ok (victim, st')) (hrunning : x ∈ st'.sched.running) :
    x ∈ st'.sched.running.take st'.reqIndex := by
  obtain ⟨-, herase, -, -, -, hledgers⟩ := preemptOne_cases hwalk.nodup hpreempt
  have hne : x ≠ victim := by
    rintro rfl
    rw [herase] at hrunning
    exact hwalk.nodup.not_mem_erase hrunning
  rw [herase]
  obtain ⟨-, hscheduled, n, blocks, -, -, -, -, -, -, hindex⟩ | ⟨-, -, -, -, -, hindex⟩ := hledgers
  · rw [hindex, take_erase_of_mem (hwalk.scheduled hscheduled)]
    exact (mem_erase_of_ne hne).mpr hx
  · rw [hindex]
    exact mem_take_erase hx hne

theorem Visited.runningTurn {go : Bool} (h : Visited start done st)
    (hget : st.sched.running[st.reqIndex]? = some requestId)
    (hturn : ScheduleStep.runningTurn env answers st requestId = .ok (go, st')) :
    Visited start (done ++ [requestId]) st' ∧ (go = false →
      st'.preemptedReqs.getLast? = some requestId ∧ requestId ∉ st'.sched.running) := by
  have hwalk := h.toWalk.runningTurn hget hturn
  have honce : (done ++ [requestId]).Nodup := by
    apply nodup_append.mpr
    refine ⟨h.once, nodup_singleton requestId, ?_⟩
    rintro x hx y hy rfl
    rw [mem_singleton.mp hy] at hx
    exact h.fresh hget hx
  have hknown : done ++ [requestId] ⊆ start := by
    apply append_subset.mpr
    refine ⟨h.known, ?_⟩
    rintro x hx
    rw [mem_singleton.mp hx]
    exact h.sublist.subset (mem_of_getElem? hget)
  have hleft : ∀ {st₁ : ScheduleStep κ ε}, (∀ x ∈ done, x ∈ st₁.sched.running →
        x ∈ st₁.sched.running.take st₁.reqIndex) →
      requestId ∈ st₁.sched.running.take (st₁.reqIndex + 1) → ∀ x ∈ done ++ [requestId],
        x ∈ st₁.sched.running → x ∈ st₁.sched.running.take (st₁.reqIndex + 1) := by
    intro st₁ hdone hself x hx hrunning
    obtain hx | hx := mem_append.mp hx
    · exact take_subset_take_left _ (Nat.le_succ _) (hdone x hx hrunning)
    · rw [mem_singleton.mp hx]
      exact hself
  obtain ⟨r, -, ⟨rfl, -, encoder, rfl⟩ |
    ⟨plan, encoder, st₁, -, -, -, hst₁, hdone, ⟨rfl, hself⟩ | ⟨rfl, blocks, hrecord⟩⟩⟩ :=
      h.turn_rule (P := fun st₁ => ∀ x ∈ done, x ∈ st₁.sched.running →
          x ∈ st₁.sched.running.take st₁.reqIndex) hget (fun _ _ hst => hst) (fun _ => h.left)
        (fun _ _ _ hst _ hdone _ hvictim x hx hrunning =>
          mem_take_preemptOne hst.toWalk (hdone x hx (by
            obtain ⟨-, herase, -⟩ := preemptOne_cases hst.nodup hvictim
            rw [herase] at hrunning
            exact mem_of_mem_erase hrunning)) hvictim hrunning) hturn
  · refine ⟨⟨hwalk, honce, hknown, hleft h.left ?_⟩, by simp⟩
    rw [take_add_one, hget]
    simp
  · obtain ⟨-, herase, hpreempted, -⟩ := preemptOne_cases hst₁.nodup hself
    have hgone : requestId ∉ st'.sched.running := by
      rw [herase]
      exact hst₁.nodup.not_mem_erase
    refine ⟨⟨hwalk, honce, hknown, ?_⟩, fun _ => ⟨?_, hgone⟩⟩
    · intro x hx hrunning
      obtain hx | hx := mem_append.mp hx
      · refine mem_take_preemptOne hst₁.toWalk (hdone x hx ?_) hself hrunning
        rw [herase] at hrunning
        exact mem_of_mem_erase hrunning
      · rw [mem_singleton.mp hx] at hrunning
        exact absurd hrunning hgone
    · rw [hpreempted, getLast?_append, getLast?_singleton, Option.some_or]
  · obtain ⟨encoder', budget, -, rfl⟩ := allocateEncoderInputs_eq_ok hrecord
    exact ⟨⟨hwalk, honce, hknown, hleft hdone hst₁.current⟩, by simp⟩

variable {visits : List (RequestId × TurnOutcome)}

/-- The loop: what each completed turn keeps true holds at its end, unless it is left because the
request of its last turn was itself preempted. -/
theorem Visited.runningVisits_rule {I : List RequestId → ScheduleStep κ ε → Prop}
    {exit : LoopExit} (hstep : ∀ done st st' requestId, Visited start done st → I done st →
      0 < st.tokenBudget → st.sched.running[st.reqIndex]? = some requestId →
      ScheduleStep.runningTurn env answers st requestId = .ok (true, st') →
      I (done ++ [requestId]) st')
    (h : Visited start done st) (hI : I done st) (hfuel : st.remaining ≤ fuel)
    (hvisits : runningVisits env answers fuel st = .ok (visits, exit, st')) :
    Visited start (done ++ visits.map Prod.fst) st' ∧
      ((exit = .selfPreempted ∧ ∃ x, visits.getLast? = some (x, .preempted) ∧
          st'.preemptedReqs.getLast? = some x ∧ x ∉ st'.sched.running) ∨
        (I (done ++ visits.map Prod.fst) st' ∧ exit = loopExit st' ∧
          (st'.tokenBudget ≤ 0 ∨ st'.sched.running.length ≤ st'.reqIndex))) := by
  induction fuel generalizing st done visits exit with
  | zero =>
    cases hvisits
    rw [map_nil, append_nil]
    exact ⟨h, .inr ⟨hI, rfl, .inr (Nat.sub_eq_zero_iff_le.mp (Nat.le_zero.mp hfuel))⟩⟩
  | succ fuel ih =>
    unfold runningVisits at hvisits
    split at hvisits
    · next hbudget =>
      split at hvisits
      · next hnone =>
        cases hvisits
        rw [map_nil, append_nil]
        exact ⟨h, .inr ⟨hI, rfl, .inr (List.getElem?_eq_none_iff.mp hnone)⟩⟩
      · next requestId hget =>
        obtain ⟨⟨go, st₁⟩, hturn, hvisits⟩ := of_bind hvisits
        obtain ⟨h₁, hself⟩ := h.runningTurn hget hturn
        simp only at hvisits
        split at hvisits
        · next hgo =>
          subst hgo
          obtain ⟨⟨rest, exit', st₂⟩, hrest, hvisits⟩ := of_bind hvisits
          cases hvisits
          have hlt := h.remaining_lt hget hturn
          have hrest' := ih h₁ (hstep done st st₁ requestId h hI hbudget hget hturn) (by omega) hrest
          rw [append_assoc] at hrest'
          obtain ⟨hvisited, ⟨rfl, x, hlast, hpreempted⟩ | hend⟩ := hrest'
          · refine ⟨hvisited, .inl ⟨rfl, x, ?_, hpreempted⟩⟩
            rw [getLast?_cons, hlast]
            rfl
          · exact ⟨hvisited, .inr hend⟩
        · next hgo =>
          cases hvisits
          exact ⟨h₁, .inl ⟨rfl, requestId, rfl, hself (by simpa using hgo)⟩⟩
    · next hbudget =>
      cases hvisits
      rw [map_nil, append_nil]
      exact ⟨h, .inr ⟨hI, rfl, .inl (by omega)⟩⟩

end ScheduleStep

namespace Scheduler
variable {κ ε : Type} (env : SchedulerEnv κ ε) (answers : StepAnswers) (s : Scheduler κ ε)

/-- With some budget left, the next step passes over the request. -/
def MayPassOver (requestId : RequestId) : Prop :=
  ∃ r, s.objects.get? requestId = some r ∧ ∃ st : ScheduleStep κ ε,
    st.sched.currentStep = s.currentStep + 1 ∧ 0 < st.tokenBudget ∧ st.PassesOver env answers r

/-- With some budget left, the next step asks for slots for the request. -/
def MayAllocate (requestId : RequestId) : Prop :=
  ∃ r, s.objects.get? requestId = some r ∧ ∃ st : ScheduleStep κ ε,
    st.sched.currentStep = s.currentStep + 1 ∧ 0 < st.tokenBudget ∧ ¬ st.PassesOver env answers r

/-- The second request is preempted before the first. -/
def Outranks (x y : RequestId) : Prop :=
  ∃ r r', s.objects.get? x = some r ∧ s.objects.get? y = some r' ∧
    toLex (r.core.priority, r.core.arrivalTime) < toLex (r'.core.priority, r'.core.arrivalTime)

/-- Under the priority policy, no request that may be passed over is the victim of a later one that
has another one behind it. -/
def SparesPassed : Prop :=
  env.config.policy = .priority → ∀ x y z, [x, y, z].Sublist s.running →
    s.MayPassOver env answers x → s.MayAllocate env answers y → s.Outranks x y ∨ s.Outranks x z

end Scheduler

section Outranks
variable {κ ε : Type} {sched s : Scheduler κ ε} {x y : RequestId}

theorem Scheduler.Outranks.congr (hx : sched.objects.get? x = s.objects.get? x)
    (hy : sched.objects.get? y = s.objects.get? y) (h : s.Outranks x y) : sched.Outranks x y := by
  obtain ⟨r, r', hr, hr', hrank⟩ := h
  exact ⟨r, r', hx.trans hr, hy.trans hr', hrank⟩

/-- The victim outranks no other running request. -/
theorem ScheduleStep.lowestPriority_max {victim : RequestId} {ids : List RequestId}
    (h : lowestPriority sched ids = .ok victim) (hx : x ∈ ids) : ¬ sched.Outranks victim x := by
  have hfold : ∀ (rest : List RequestId) (best : RequestId), rest.foldlM (fun best requestId => do
      let r ← sched.object best
      let r' ← sched.object requestId
      pure (if r.core.priority < r'.core.priority ∨
        (r.core.priority = r'.core.priority ∧ r.core.arrivalTime < r'.core.arrivalTime)
        then requestId else best)) best = .ok victim →
      ∀ x ∈ best :: rest, ¬ sched.Outranks victim x := by
    intro rest
    induction rest with
    | nil =>
      intro best h x hx
      cases h
      rw [mem_singleton.mp hx]
      rintro ⟨r, r', hr, hr', hrank⟩
      obtain rfl := Option.some.inj (hr.symm.trans hr')
      exact lt_irrefl _ hrank
    | cons y rest ih =>
      intro best h x hx
      rw [foldlM_cons] at h
      obtain ⟨next, hnext, h⟩ := of_bind h
      obtain ⟨b, hb, hnext⟩ := of_bind hnext
      obtain ⟨c, hc, hnext⟩ := of_bind hnext
      rw [Scheduler.object_eq_ok] at hb hc
      rw [pure_eq_ok] at hnext
      have hbest := ih next h next mem_cons_self
      obtain hx | hx := mem_cons.mp hx
      · subst hx
        rintro ⟨r, r', hr, hr', hrank⟩
        obtain rfl := Option.some.inj (hb.symm.trans hr')
        split at hnext
        · next hlt =>
          subst hnext
          exact hbest ⟨r, c, hr, hc, hrank.trans (Prod.Lex.toLex_lt_toLex.mpr hlt)⟩
        · subst hnext
          exact hbest ⟨r, b, hr, hb, hrank⟩
      obtain rfl | hx := mem_cons.mp hx
      · rintro ⟨r, r', hr, hr', hrank⟩
        obtain rfl := Option.some.inj (hc.symm.trans hr')
        split at hnext
        · subst hnext
          exact hbest ⟨r, c, hr, hc, hrank⟩
        · next hge =>
          subst hnext
          exact hbest ⟨r, b, hr, hb, hrank.trans_le (not_lt.mp fun hlt =>
            hge (Prod.Lex.toLex_lt_toLex.mp hlt))⟩
      · exact ih next h x (mem_cons_of_mem _ hx)
  cases ids with
  | nil => simp [lowestPriority] at h
  | cons y rest => exact hfold rest y h x hx

end Outranks

namespace ScheduleStep
variable {κ ε : Type} {env : SchedulerEnv κ ε} {answers : StepAnswers} {st st' : ScheduleStep κ ε}
  {s : Scheduler κ ε} {requestId victim x : RequestId} {done : List RequestId}

theorem preemptOne_lowest (hpolicy : env.config.policy = .priority)
    (h : preemptOne env st = .ok (victim, st')) (hx : x ∈ st.sched.running) :
    ¬ st.sched.Outranks victim x := by
  obtain ⟨⟨v, st₁⟩, hvictim, h⟩ := of_bind h
  obtain ⟨sched, -, h⟩ := of_bind h
  cases h
  unfold takeVictim at hvictim
  rw [hpolicy] at hvictim
  obtain ⟨v, hv, hvictim⟩ := of_bind hvictim
  obtain ⟨st₂, -, hvictim⟩ := of_bind hvictim
  cases hvictim
  exact lowestPriority_max hv hx

variable (env answers) in
/-- What is to the left of the index has been visited, and was passed over if it is not
scheduled. -/
structure Reached (s : Scheduler κ ε) (done : List RequestId) (st : ScheduleStep κ ε) : Prop where
  visited : ∀ x ∈ st.sched.running.take st.reqIndex, x ∈ done
  passed : ∀ x ∈ st.sched.running.take st.reqIndex, x ∉ st.scheduledRunningReqs →
    s.MayPassOver env answers x

theorem Turn.getElem?_preemptOne (h : Turn env s.running requestId st) (hne : victim ≠ requestId)
    (hget : st.sched.running[st.reqIndex]? = some requestId)
    (hkept : victim ∈ st.sched.running.take st.reqIndex → victim ∈ st.scheduledRunningReqs)
    (hpreempt : ScheduleStep.preemptOne env st = .ok (victim, st')) :
    st'.sched.running[st'.reqIndex]? = some requestId ∧
      ∀ x ∈ st'.sched.running.take st'.reqIndex, x ∈ st.sched.running.take st.reqIndex ∧
        (x ∉ st'.scheduledRunningReqs → x ∉ st.scheduledRunningReqs) := by
  obtain ⟨-, herase, -, -, -, hledgers⟩ := preemptOne_cases h.nodup hpreempt
  have hlen := (List.getElem?_eq_some_iff.mp hget).1
  obtain ⟨-, hscheduled, n, blocks, -, -, hlist, -, -, -, hindex⟩ |
    ⟨hcases, hlist, -, -, -, hindex⟩ := hledgers
  · have htake := h.scheduled hscheduled
    rw [herase, hindex, getElem?_erase_of_mem htake hlen.le, take_erase_of_mem htake, hlist]
    refine ⟨hget, ?_⟩
    intro x hx
    have hne : x ≠ victim := by
      rintro rfl
      exact (h.nodup.sublist (take_sublist _ _)).not_mem_erase hx
    rw [mem_erase_of_ne hne] at hx ⊢
    exact ⟨hx, id⟩
  · have hbefore : victim ∉ st.sched.running.take st.reqIndex := by
      obtain ⟨-, hnot⟩ | ⟨hpolicy, hlast⟩ := hcases
      · exact fun htake => hnot (hkept htake)
      · exact h.last_not_scheduled hpolicy hlast
    have hbeyond : victim ∉ st.sched.running.take (st.reqIndex + 1) := by
      rw [take_add_one, hget, mem_append]
      rintro (hin | hin)
      · exact hbefore hin
      · exact hne (by simpa using hin)
    rw [herase, hindex, hlist, take_erase_of_not_mem hbefore]
    refine ⟨?_, fun x hx => ⟨hx, id⟩⟩
    rw [← List.getElem?_take_of_lt (l := st.sched.running.erase victim) (Nat.lt_succ_self _),
      take_erase_of_not_mem hbeyond, List.getElem?_take_of_lt (Nat.lt_succ_self _), hget]

/-- A request that was passed over is the victim of a later one only if no request is left behind
this one. -/
theorem Reached.no_more (h : Reached env answers s done st) (hfresh : Fresh s st)
    (hturn : Turn env s.running requestId st) (hspares : s.SparesPassed env answers)
    (hmay : s.MayAllocate env answers requestId)
    (hget : st.sched.running[st.reqIndex]? = some requestId)
    (htake : victim ∈ st.sched.running.take st.reqIndex)
    (hscheduled : victim ∉ st.scheduledRunningReqs)
    (hpreempt : ScheduleStep.preemptOne env st = .ok (victim, st')) :
    st.sched.running = st.sched.running.take st.reqIndex ++ [requestId] := by
  obtain ⟨hlen, heq⟩ := List.getElem?_eq_some_iff.mp hget
  have hsplit : st.sched.running =
      st.sched.running.take st.reqIndex ++ requestId :: st.sched.running.drop (st.reqIndex + 1) := by
    rw [← heq, ← drop_eq_getElem_cons hlen, take_append_drop]
  have hpolicy : env.config.policy = .priority := by
    obtain ⟨-, -, -, -, -, ⟨hpolicy, -⟩ | ⟨⟨hpolicy, -⟩ | ⟨hfcfs, hlast⟩, -⟩⟩ :=
      preemptOne_cases hturn.nodup hpreempt
    · exact hpolicy
    · exact hpolicy
    · exact absurd htake (hturn.last_not_scheduled hfcfs hlast)
  cases hdrop : st.sched.running.drop (st.reqIndex + 1) with
  | nil => rwa [hdrop] at hsplit
  | cons z rest =>
    rw [hdrop] at hsplit
    have hnodup := hturn.nodup
    rw [hsplit] at hnodup
    have hz : z ∈ st.sched.running := by
      rw [hsplit]
      simp
    have hnotz : z ∉ st.scheduledRunningReqs := by
      intro hmem
      exact disjoint_of_nodup_append hnodup (hturn.scheduled hmem) (by simp)
    have hsub : [victim, requestId, z].Sublist s.running := by
      refine Sublist.trans ?_ hturn.sublist
      rw [hsplit]
      exact (singleton_sublist.mpr htake).append
        (((nil_sublist rest).cons_cons z).cons_cons requestId)
    have hsame : ∀ x ∈ st.sched.running, x ∉ st.scheduledRunningReqs →
        ¬ s.Outranks victim x := by
      intro x hx hnot hrank
      exact preemptOne_lowest hpolicy hpreempt hx (hrank.congr
        (hfresh.untouched victim (mem_of_mem_take htake) hscheduled) (hfresh.untouched x hx hnot))
    obtain hrank | hrank := hspares hpolicy victim requestId z hsub
      (h.passed victim htake hscheduled) hmay
    · exact absurd hrank (hsame requestId (mem_of_getElem? hget) hturn.notScheduled)
    · exact absurd hrank (hsame z hz hnotz)

variable (env answers) in
/-- Between two turns: the index has only visited requests to its left, or nothing is left to
visit. -/
structure Complete (s : Scheduler κ ε) (done : List RequestId) (st : ScheduleStep κ ε) : Prop where
  fresh : Fresh s st
  covers : Reached env answers s done st ∨ st.sched.running ⊆ done

theorem Complete.runningTurn (hspares : s.SparesPassed env answers)
    (hvisited : Visited s.running done st) (h : Complete env answers s done st)
    (hbudget : 0 < st.tokenBudget) (hget : st.sched.running[st.reqIndex]? = some requestId)
    (hturn : ScheduleStep.runningTurn env answers st requestId = .ok (true, st')) :
    Complete env answers s (done ++ [requestId]) st' := by
  have hmem : requestId ∈ st.sched.running := mem_of_getElem? hget
  have hstart : Turn env s.running requestId st := hvisited.turn hget
  have hsame := h.fresh.untouched requestId hmem hstart.notScheduled
  have hreached : Reached env answers s done st := by
    obtain hreached | hall := h.covers
    · exact hreached
    · exact absurd (hall hmem) (hvisited.fresh hget)
  have hgrow : ∀ {st₁ : ScheduleStep κ ε}, st₁.sched.running[st₁.reqIndex]? = some requestId →
      ∀ x ∈ st₁.sched.running.take (st₁.reqIndex + 1),
        x ∈ st₁.sched.running.take st₁.reqIndex ∨ x = requestId := by
    intro st₁ hget₁ x hx
    rw [take_add_one, hget₁] at hx
    simpa using hx
  obtain ⟨r, hr, ⟨-, hpass, encoder, rfl⟩ |
    ⟨plan, encoder, st₁, -, -, -, hst₁, ⟨hfresh, hcovers⟩, ⟨hgo, -⟩ | ⟨-, blocks, hrecord⟩⟩⟩ :=
      hvisited.toWalk.turn_rule
        (P := fun st₁ => Fresh s st₁ ∧ ((st₁.sched.running[st₁.reqIndex]? = some requestId ∧
          Reached env answers s done st₁) ∨ st₁.sched.running ⊆ done ++ [requestId]))
        hget (fun _ _ hst => ⟨⟨hst.1.step, hst.1.untouched⟩, hst.2.imp_left
          fun hget => ⟨hget.1, hget.2.visited, hget.2.passed⟩⟩)
        (fun _ => ⟨⟨h.fresh.step, h.fresh.untouched⟩,
          .inl ⟨hget, hreached.visited, hreached.passed⟩⟩)
        (by
          rintro st₁ st₂ victim hst₁ ⟨r, hr, hasks⟩ ⟨hfresh, hcovers⟩ hne hvictim
          refine ⟨hfresh.preemptOne hst₁.nodup hvictim, ?_⟩
          obtain ⟨-, herase, -⟩ := preemptOne_cases hst₁.nodup hvictim
          obtain ⟨hget₁, hreached₁⟩ | hall := hcovers
          · by_cases hkept : victim ∈ st₁.sched.running.take st₁.reqIndex →
                victim ∈ st₁.scheduledRunningReqs
            · obtain ⟨hget₂, htake⟩ := hst₁.getElem?_preemptOne hne hget₁ hkept hvictim
              exact .inl ⟨hget₂, fun x hx => hreached₁.visited x (htake x hx).1,
                fun x hx hnot => hreached₁.passed x (htake x hx).1 ((htake x hx).2 hnot)⟩
            · push Not at hkept
              have hlast := hreached₁.no_more hfresh hst₁ hspares
                ⟨r, hsame.symm.trans hr, st, h.fresh.step, hbudget, hasks⟩ hget₁ hkept.1 hkept.2
                hvictim
              apply Or.inr
              intro x hx
              rw [herase] at hx
              replace hx := mem_of_mem_erase hx
              rw [hlast] at hx
              obtain hx | hx := mem_append.mp hx
              · exact mem_append_left _ (hreached₁.visited x hx)
              · exact mem_append_right _ hx
          · apply Or.inr
            rw [herase]
            exact List.Subset.trans erase_subset hall) hturn
  · refine ⟨⟨h.fresh.step, h.fresh.untouched⟩, .inl ⟨?_, ?_⟩⟩
    · intro x hx
      obtain hx | rfl := hgrow hget x hx
      · exact mem_append_left _ (hreached.visited x hx)
      · exact mem_append_right _ (mem_singleton_self x)
    · intro x hx hnot
      obtain hx | rfl := hgrow hget x hx
      · exact hreached.passed x hx hnot
      · exact ⟨r, hsame.symm.trans hr, st, h.fresh.step, hbudget, hpass⟩
  · simp at hgo
  · refine ⟨hfresh.record hrecord, ?_⟩
    obtain ⟨encoder', budget, -, rfl⟩ := allocateEncoderInputs_eq_ok hrecord
    obtain ⟨hget₁, hreached₁⟩ | hall := hcovers
    · refine .inl ⟨?_, ?_⟩
      · intro x hx
        obtain hx | rfl := hgrow hget₁ x hx
        · exact mem_append_left _ (hreached₁.visited x hx)
        · exact mem_append_right _ (mem_singleton_self x)
      · intro x hx hnot
        simp only [recordRunning, mem_append, mem_singleton, not_or] at hnot
        obtain hx | heq := hgrow hget₁ x hx
        · exact hreached₁.passed x hx hnot.1
        · exact absurd heq hnot.2
    · exact .inr hall

end ScheduleStep

namespace Scheduler
variable {κ ε : Type} {env : SchedulerEnv κ ε} {answers : StepAnswers} {s : Scheduler κ ε}

theorem startStep_visited (hs : s.running.Nodup) :
    ScheduleStep.Visited s.running [] (s.startStep env) where
  toWalk := ⟨hs, .refl _, nil_subset _, nodup_nil, by simp [startStep]⟩
  once := nodup_nil
  known := nil_subset _
  left := by simp

variable (env answers s) in
theorem startStep_complete : ScheduleStep.Complete env answers s [] (s.startStep env) where
  fresh := ⟨rfl, fun _ _ _ => rfl⟩
  covers := .inl ⟨by simp [startStep], by simp [startStep]⟩

/-- A loop that reaches the end of the running list has visited every request that is still in it
exactly once, unless a request that may be passed over can be the victim of a later one. -/
theorem runningVisits_once {visits : List (RequestId × TurnOutcome)} {st : ScheduleStep κ ε}
    (hs : s.running.Nodup) (hspares : s.SparesPassed env answers)
    (hvisits : ScheduleStep.runningVisits env answers s.running.length (s.startStep env) =
      .ok (visits, .reachedEnd, st)) :
    st.sched.running ⊆ s.running ∧
      ∀ x ∈ st.sched.running, (visits.map Prod.fst).count x = 1 := by
  obtain ⟨hvisited, ⟨hexit, -⟩ | ⟨hcomplete, hexit, -⟩⟩ := (startStep_visited hs).runningVisits_rule
    (I := ScheduleStep.Complete env answers s)
    (fun _ _ _ _ hvisited h hbudget hget hturn =>
      h.runningTurn hspares hvisited hbudget hget hturn)
    (startStep_complete env answers s) le_rfl hvisits
  · simp at hexit
  rw [nil_append] at hvisited hcomplete
  refine ⟨hvisited.sublist.subset, ?_⟩
  intro x hx
  refine count_eq_one_of_mem hvisited.once ?_
  obtain hreached | hall := hcomplete.covers
  · apply hreached.visited
    have hend : st.sched.running.length ≤ st.reqIndex := by
      unfold ScheduleStep.loopExit at hexit
      split at hexit
      · next hle => exact hle
      · simp at hexit
    rwa [take_of_length_le hend]
  · exact hall hx

/-- The loop over the running requests visits none of them twice, whatever is preempted meanwhile,
and is left only because the request at hand was itself preempted, because it has reached the end
of the list, or because the budget is used up. -/
theorem runningLoop_ends {visits : List (RequestId × TurnOutcome)} {exit : LoopExit}
    {st : ScheduleStep κ ε} (hs : s.running.Nodup)
    (hvisits : ScheduleStep.runningVisits env answers s.running.length (s.startStep env) =
      .ok (visits, exit, st)) :
    ScheduleStep.runningLoop env answers s.running.length (s.startStep env) = .ok st ∧
    (visits.map Prod.fst).Nodup ∧ visits.map Prod.fst ⊆ s.running ∧
    ((exit = .selfPreempted ∧ ∃ x, visits.getLast? = some (x, .preempted) ∧
        st.preemptedReqs.getLast? = some x ∧ x ∉ st.sched.running) ∨
      (exit = .reachedEnd ∧ st.sched.running.length ≤ st.reqIndex) ∨
      (exit = .budgetExhausted ∧ st.tokenBudget ≤ 0)) := by
  have hloop := ScheduleStep.map_runningVisits env answers s.running.length (s.startStep env)
  rw [hvisits] at hloop
  obtain ⟨hvisited, hend⟩ := (startStep_visited hs).runningVisits_rule (I := fun _ _ => True)
    (fun _ _ _ _ _ _ _ _ _ => trivial) trivial le_rfl hvisits
  rw [nil_append] at hvisited
  refine ⟨hloop.symm, hvisited.once, hvisited.known, ?_⟩
  obtain hself | ⟨-, rfl, hend⟩ := hend
  · exact .inl hself
  · unfold ScheduleStep.loopExit
    apply Or.inr
    split
    · next hle => exact .inl ⟨rfl, hle⟩
    · next hlt => exact .inr ⟨rfl, hend.resolve_right hlt⟩

variable (env) in
/-- A request without encoder inputs that has a token to run, whatever is left of the budget. -/
def alwaysAllocates (s : Scheduler κ ε) (requestId : RequestId) : Bool :=
  match s.objects.get? requestId with
  | none => false
  | some r => !r.core.hasEncoderInputs && !(s.startStep env).isDeferred r &&
    decide (0 < ScheduleStep.numNewTokensRunning env
      { s.startStep env with tokenBudget := 1 } r)

theorem not_mayPassOver {requestId : RequestId}
    (hmamba : env.config.needMambaBlockAlignedSplit = false)
    (h : s.alwaysAllocates env requestId = true) : ¬ s.MayPassOver env answers requestId := by
  rintro ⟨r, hr, st, hstep, hbudget, hpass⟩
  unfold alwaysAllocates at h
  rw [hr] at h
  simp only [Bool.and_eq_true, Bool.not_eq_true', decide_eq_true_eq] at h
  obtain ⟨⟨hencoder, hdue⟩, htokens⟩ := h
  obtain hdeferred | ⟨plan, encoder, hplan, hzero⟩ := hpass
  · have hsame : st.isDeferred r = (s.startStep env).isDeferred r := by
      unfold ScheduleStep.isDeferred
      rw [hstep]
      rfl
    simp [hsame, hdue] at hdeferred
  · unfold ScheduleStep.planEncoderInputs at hplan
    rw [hencoder] at hplan
    obtain ⟨rfl, -⟩ := Prod.mk.inj (pure_eq_ok.mp hplan)
    unfold ScheduleStep.alignedSplit at hzero
    rw [hmamba] at hzero
    simp only [Bool.false_eq_true, ↓reduceIte, ScheduleStep.numNewTokensRunning] at hzero htokens
    omega

end Scheduler

def prioritised (priority : ℤ) (r : SchedRequest) : SchedRequest :=
  { r with core := { r.core with priority } }

def priorityAsync : SchedulerConfig where
  policy := .priority
  asyncScheduling := true
  maxNumRunningReqs := 4
  maxNumScheduledTokens := 8
  maxModelLen := 16
  blockSize := 1

/-- Three requests run, the first with the lowest priority. -/
def threeRunning (numBlocks maxTokens : ℕ) :
    Raises (EngineState KVCacheManager EncoderCacheManager) :=
  smallRun priorityAsync numBlocks (fun _ _ => true) [
    .addRequest (prioritised 5 (promptRequest 1 [7] maxTokens)) fun _ => false,
    .schedule {},
    .addRequest (prioritised 0 (promptRequest 2 [7, 8] 4)) fun _ => false,
    .addRequest (prioritised 1 (promptRequest 3 [7, 8] 4)) fun _ => false,
    .schedule {},
    .updateFromOutput { sampledTokenIds _ := [5] }]

/-- What the next step does with them. -/
def nextVisits (e : EngineState KVCacheManager EncoderCacheManager) :
    Raises (List (RequestId × TurnOutcome) × LoopExit ×
      ScheduleStep KVCacheManager EncoderCacheManager) :=
  ScheduleStep.runningVisits (managerEnv priorityAsync false) {} e.sched.running.length
    (e.sched.startStep (managerEnv priorityAsync false))

/-- The state before the next step, and what its first loop does. -/
def threeRunningVisits (numBlocks maxTokens : ℕ) :
    Raises (EngineState KVCacheManager EncoderCacheManager × List (RequestId × TurnOutcome) ×
      LoopExit × ScheduleStep KVCacheManager EncoderCacheManager) := do
  let e ← threeRunning numBlocks maxTokens
  let result ← nextVisits e
  pure (e, result)

theorem threeRunningVisits_eq_ok {numBlocks maxTokens : ℕ}
    {e : EngineState KVCacheManager EncoderCacheManager} {visits : List (RequestId × TurnOutcome)}
    {exit : LoopExit} {st : ScheduleStep KVCacheManager EncoderCacheManager}
    (h : threeRunningVisits numBlocks maxTokens = .ok (e, visits, exit, st)) :
    EngineReachable (managerEnv priorityAsync false) (fun _ _ => True) e ∧
      nextVisits e = .ok (visits, exit, st) := by
  obtain ⟨e', he, h⟩ := of_bind h
  obtain ⟨result, hresult, h⟩ := of_bind h
  cases h
  exact ⟨smallRun_reachable (fun _ _ _ => trivial) he, hresult⟩

/-- The second of two requests finds no slots and no other victim, and its turn ends the loop. -/
theorem runningLoop_ends_selfPreempted : ∃ e : EngineState KVCacheManager EncoderCacheManager,
    EngineReachable (managerEnv priorityAsync false) (fun _ _ => True) e ∧ ∃ visits st,
      nextVisits e = .ok (visits, .selfPreempted, st) ∧ (visits.map Prod.fst).Nodup ∧
      visits.map Prod.fst ⊆ e.sched.running ∧ visits.length = 2 ∧
      ∃ x, visits.getLast? = some (x, .preempted) ∧ st.preemptedReqs.getLast? = some x ∧
        x ∉ st.sched.running := by
  obtain ⟨⟨e, visits, exit, st⟩, hrun, hfacts⟩ := exists_ok
    (show (threeRunningVisits 6 1).toOption.map (fun (e, visits, exit, _) =>
      (e.sched.running, visits, exit)) =
        some ([2, 3], [(2, .scheduled), (3, .preempted)], .selfPreempted) by decide +kernel)
  simp only [Prod.mk.injEq] at hfacts
  obtain ⟨hrunning, rfl, rfl⟩ := hfacts
  obtain ⟨hreach, hvisits⟩ := threeRunningVisits_eq_ok hrun
  obtain ⟨-, honce, hknown, hend⟩ := Scheduler.runningLoop_ends (by simp [hrunning]) hvisits
  exact ⟨e, hreach, _, st, hvisits, honce, hknown, rfl, by simpa using hend⟩

/-- The first request is scheduled, then preempted for the second, and all three are visited. -/
theorem runningVisits_once_withdrawn : ∃ e : EngineState KVCacheManager EncoderCacheManager,
    EngineReachable (managerEnv priorityAsync false) (fun _ _ => True) e ∧ ∃ visits st,
      nextVisits e = .ok (visits, .reachedEnd, st) ∧ st.preemptedReqs = [1] ∧
      st.sched.running ⊆ e.sched.running ∧
        ∀ x ∈ st.sched.running, (visits.map Prod.fst).count x = 1 := by
  obtain ⟨⟨e, visits, exit, st⟩, hrun, hfacts⟩ := exists_ok
    (show (threeRunningVisits 8 9).toOption.map (fun (e, _, exit, st) =>
      (e.sched.running, e.sched.alwaysAllocates (managerEnv priorityAsync false) 1, exit,
        st.preemptedReqs)) = some ([1, 2, 3], true, .reachedEnd, [1]) by decide +kernel)
  simp only [Prod.mk.injEq] at hfacts
  obtain ⟨hrunning, hallocates, rfl, hpreempted⟩ := hfacts
  obtain ⟨hreach, hvisits⟩ := threeRunningVisits_eq_ok hrun
  have hspares : e.sched.SparesPassed (managerEnv priorityAsync false) {} := by
    intro _ x y z hsub hpass
    rw [hrunning] at hsub
    obtain ⟨rfl, -⟩ := cons.inj (hsub.eq_of_length rfl)
    exact absurd hpass (Scheduler.not_mayPassOver rfl hallocates)
  have honce := Scheduler.runningVisits_once (by simp [hrunning]) hspares hvisits
  exact ⟨e, hreach, visits, st, hvisits, hpreempted, honce⟩

/-- The last token of the first request is in flight, so that it is passed over. It is preempted
for the second, and the third is not visited. -/
theorem runningVisits_passed_preempted : ∃ e : EngineState KVCacheManager EncoderCacheManager,
    EngineReachable (managerEnv priorityAsync false) (fun _ _ => True) e ∧ ∃ visits st,
      nextVisits e = .ok (visits, .reachedEnd, st) ∧ 3 ∈ e.sched.running ∧ 3 ∈ st.sched.running ∧
      (visits.map Prod.fst).count 3 = 0 := by
  obtain ⟨⟨e, visits, exit, st⟩, hrun, hfacts⟩ := exists_ok
    (show (threeRunningVisits 7 2).toOption.map (fun (e, visits, exit, st) =>
      (e.sched.running, visits, exit, st.sched.running)) = some ([1, 2, 3],
        [(1, .passed), (2, .scheduled)], .reachedEnd, [2, 3]) by decide +kernel)
  simp only [Prod.mk.injEq] at hfacts
  obtain ⟨hrunning, rfl, rfl, hend⟩ := hfacts
  obtain ⟨hreach, hvisits⟩ := threeRunningVisits_eq_ok hrun
  exact ⟨e, hreach, _, st, hvisits, by simp [hrunning], by simp [hend], by decide⟩

end Vllm
