import Vllm.Dp.WaveInvariant

/-! Every event keeps the wave invariant: the actions of the engines within a wave, the messages
of the front-ends and the coordinator, and the all-reduce that ends the wave for all engines. -/
namespace Vllm.Dp
open Function List

namespace DPEngineCoreProc
variable {engine : DPEngineCoreProc} {request : EngineCoreRequest}

theorem Engaged.of_finishRequests (engine : DPEngineCoreProc) (ids : List ℕ)
    (h : (engine.finishRequests ids).Engaged) : engine.Engaged := by
  obtain h | h := h
  · exact .inl h
  · refine .inr ?_
    simp only [hasUnfinishedRequests, finishRequests, Bool.not_eq_true', isEmpty_eq_false_iff,
      ne_eq, filter_eq_nil_iff, not_forall] at h ⊢
    obtain ⟨i, hi, -⟩ := h
    exact ne_nil_of_mem hi

/-- Only requests, aborts and batches have changed, and no request is new. -/
def Settles (engine engine' : DPEngineCoreProc) : Prop :=
  ∃ unfinished ⊆ engine.unfinished, ∃ finished aborts batches,
    engine' = { engine with
      unfinished := unfinished, finishedReqIds := finished, abortsQueue := aborts
      batchQueue := batches }

theorem unfinished_updateFromOutput (engine : DPEngineCoreProc) (stopped : List ℕ) :
    (engine.updateFromOutput stopped).unfinished ⊆ engine.unfinished :=
  fun _ hi => mem_of_mem_filter (mem_of_mem_filter hi)

theorem settles_stepIdle (engine : DPEngineCoreProc) (stopped : List ℕ) :
    engine.Settles (engine.stepIdle stopped) := by
  have hrefl : engine.unfinished ⊆ engine.unfinished := Subset.refl _
  have hstopped := unfinished_updateFromOutput engine stopped
  unfold stepIdle
  dsimp only
  split_ifs
  · exact ⟨_, fun _ hi => mem_of_mem_filter hi, _, _, _, rfl⟩
  · exact ⟨_, hrefl, _, _, _, rfl⟩
  · exact ⟨_, hrefl, _, _, _, rfl⟩
  · exact ⟨_, hstopped, _, _, _, rfl⟩
  · exact ⟨_, hrefl, _, _, _, rfl⟩
  · exact ⟨_, hstopped, _, _, _, rfl⟩

theorem settles_stepExecuted (engine : DPEngineCoreProc) (deferred : Bool) (stopped : List ℕ) :
    engine.Settles (engine.stepExecuted deferred stopped) := by
  have hstopped := unfinished_updateFromOutput engine stopped
  unfold stepExecuted
  dsimp only
  split_ifs
  · exact ⟨_, hstopped, _, _, _, rfl⟩
  · exact ⟨_, Subset.refl _, _, _, _, rfl⟩
  · exact ⟨_, hstopped, _, _, _, rfl⟩

theorem Settles.engaged {engine' : DPEngineCoreProc} (h : engine.Settles engine')
    (hengaged : engine'.Engaged) : engine.Engaged := by
  obtain ⟨unfinished, hsub, finished, aborts, batches, rfl⟩ := h
  obtain hrun | hreq := hengaged
  · exact .inl hrun
  · refine .inr ?_
    simp only [hasUnfinishedRequests, Bool.not_eq_true', isEmpty_eq_false_iff] at hreq ⊢
    exact fun hnil => hreq (subset_nil.mp (hnil ▸ hsub))

/-- An engine that takes no part in a wave goes on alone. -/
theorem stepsAlone_of_not_engaged (h : ¬engine.Engaged) : engine.StepsAlone := by
  intro scheduled stopped engine' hstep
  unfold enterStep at hstep
  split_ifs at hstep with hguard hscheduled hunfinished
  · exact absurd (.inr hunfinished) h
  · have hidle : ¬({ engine with phase := .draining }.stepIdle stopped).Engaged :=
      fun hengaged => h ((settles_stepIdle { engine with phase := .draining } stopped).engaged
        hengaged)
    dsimp only at hstep
    split_ifs at hstep with hno
    · cases hstep
      rfl
    · refine absurd ?_ hidle
      rw [Engaged]
      by_contra hnot
      push Not at hnot
      simp_all

theorem coreAddRequest_frame (engine : DPEngineCoreProc) (request : EngineCoreRequest) :
    ∃ unfinished finished, engine.coreAddRequest request =
      { engine with unfinished := unfinished, finishedReqIds := finished } := by
  unfold coreAddRequest
  split
  · exact ⟨_, _, rfl⟩
  · exact ⟨_, _, rfl⟩

/-- A request of an older wave starts an engine that is not running; any other request is only
added. -/
theorem addRequest_cases (engine : DPEngineCoreProc)
    (h : request.currentWave ≤ engine.currentWave) :
    ∃ unfinished finished,
      (engine.addRequest request =
          { engine with unfinished := unfinished, finishedReqIds := finished } ∧
        (request.currentWave = engine.currentWave ∨ engine.enginesRunning)) ∨
      (engine.addRequest request =
          { engine with
            unfinished := unfinished, finishedReqIds := finished, enginesRunning := true
            outputQueue := engine.outputQueue ++ [{ startWave := some engine.currentWave }] } ∧
        engine.enginesRunning = false) := by
  obtain ⟨unfinished, finished, hcore⟩ := coreAddRequest_frame engine request
  refine ⟨unfinished, finished, ?_⟩
  unfold addRequest
  rw [hcore]
  dsimp only
  by_cases hwave : request.currentWave = engine.currentWave
  · rw [if_neg (by simpa using hwave)]
    exact .inl ⟨rfl, .inl hwave⟩
  rw [if_pos hwave, if_neg (by omega)]
  by_cases hrun : engine.enginesRunning
  · rw [if_neg (by simpa using hrun)]
    exact .inl ⟨rfl, .inr hrun⟩
  · rw [if_pos (by simpa using hrun)]
    exact .inr ⟨rfl, by simpa using hrun⟩

end DPEngineCoreProc

namespace WaveSystem
open DPEngineCoreProc
variable {m n W w : ℕ} {s s' : WaveSystem m n} {f : Fin m} {e : Fin n}
  {engine engine' : DPEngineCoreProc}

/-- An engine that keeps its flag, its wave and its queues, and gets no new request. -/
theorem EngineMove.of_frame (h : EngineOk W engine)
    (hrun : engine'.enginesRunning = engine.enginesRunning)
    (hwave : engine'.currentWave = engine.currentWave)
    (hcounter : engine'.stepCounter = engine.stepCounter)
    (hinput : engine'.inputQueue = engine.inputQueue)
    (houtput : engine'.outputQueue = engine.outputQueue)
    (hengaged : engine'.Engaged → engine.Engaged)
    (hmodel : ∀ executed, engine'.phase = .inModel executed → engine'.Engaged)
    (hreduce : ∀ unfinished, engine'.phase = .inAllReduce unfinished →
      engine'.enginesRunning ∧ unfinished = engine'.hasUnfinishedRequests) :
    EngineMove s W e engine engine' where
  ok := by
    refine ⟨hwave ▸ h.wave, ?_, houtput ▸ h.outputs, ?_, hmodel, hreduce⟩
    · rw [hcounter, hrun]
      exact h.counter
    · rw [houtput, hrun]
      exact h.selfStarted
  inputs i hi := .inl (hinput ▸ hi)
  outputs := houtput ▸ List.Subset.refl _
  engaged h := .inl (hengaged h)
  running h := hrun ▸ h
  starts x _ hx := .inr (hinput ▸ hx)

theorem engineMove_wake (h : EngineOk W engine) (hstep : engine.wake = some engine') :
    EngineMove s W e engine engine' := by
  unfold wake at hstep
  split at hstep
  · cases hstep
    exact .of_frame h rfl rfl rfl rfl rfl id (by simp) (by simp)
  · simp at hstep

theorem engineMove_clearAborts (h : EngineOk W engine)
    (hstep : engine.clearAborts = some engine') : EngineMove s W e engine engine' := by
  unfold clearAborts at hstep
  split at hstep
  · next hphase =>
    cases hstep
    exact .of_frame h rfl rfl rfl rfl rfl id (by simp [hphase.1]) (by simp [hphase.1])
  · simp at hstep

theorem engineMove_enterStep (h : EngineOk W engine) {scheduled : Bool} {stopped : List ℕ}
    (hstep : engine.enterStep scheduled stopped = some engine') :
    EngineMove s W e engine engine' := by
  unfold enterStep at hstep
  split_ifs at hstep with hguard hscheduled hunfinished
  · cases hstep
    refine .of_frame h rfl rfl rfl rfl rfl id ?_ (by simp)
    exact fun _ _ => .inr hunfinished
  have hsettles := settles_stepIdle engine stopped
  have hback := fun hengaged => hsettles.engaged hengaged
  obtain ⟨unfinished, -, finished, aborts, batches, heq⟩ := hsettles
  rw [heq] at hstep hback
  dsimp only at hstep
  split_ifs at hstep with hidle
  · cases hstep
    exact .of_frame h rfl rfl rfl rfl rfl hback (by simp) (by simp)
  · cases hstep
    refine .of_frame h rfl rfl rfl rfl rfl hback (fun _ _ => ?_) (by simp)
    rw [Engaged]
    by_contra hno
    push Not at hno
    simp_all [hasUnfinishedRequests]

theorem engineMove_connectorState (h : EngineOk W engine) (delayedFrees : ℕ)
    (pendingPushWork : Bool) :
    EngineMove s W e engine { engine with delayedFrees, pendingPushWork } :=
  .of_frame h rfl rfl rfl rfl rfl id h.inModel h.inAllReduce

theorem EngineMove.of_handled {input : EngineInput} {rest : List EngineInput}
    (h : EngineOk W engine) (hqueue : engine.inputQueue = input :: rest)
    (hphase : ∀ x, engine.phase ≠ .inModel x ∧ engine.phase ≠ .inAllReduce x)
    (hrun : engine.enginesRunning → engine'.enginesRunning)
    (hwave : engine'.currentWave = W) (hcounter : engine'.stepCounter = engine.stepCounter)
    (hinput : engine'.inputQueue = rest) (hsame : engine'.phase = engine.phase)
    (houtput : engine'.outputQueue = engine.outputQueue ∨ engine'.enginesRunning ∧
      engine'.outputQueue = engine.outputQueue ++ [{ startWave := some W }])
    (hengaged : engine'.Engaged →
      engine.Engaged ∨ s.Covered W ∨ { startWave := some W } ∈ engine'.outputQueue)
    (hstart : ∀ x ≠ EngineRef.index e, input = .startDpWave W x → engine'.enginesRunning) :
    EngineMove s W e engine engine' where
  ok := by
    refine ⟨hwave, ?_, ?_, ?_, ?_, ?_⟩
    · rw [hcounter]
      exact fun hpos => hrun (h.counter hpos)
    · intro o ho
      obtain hout | ⟨-, hout⟩ := houtput
      · exact h.outputs o (hout ▸ ho)
      · rw [hout, mem_append, mem_singleton] at ho
        obtain ho | rfl := ho
        · exact h.outputs o ho
        · exact .inl ⟨W, le_rfl, rfl⟩
    · intro ho
      obtain hout | ⟨hrun', -⟩ := houtput
      · exact hrun (h.selfStarted (hout ▸ ho))
      · exact hrun'
    · exact fun x hx => absurd (hsame ▸ hx) (hphase x).1
    · exact fun x hx => absurd (hsame ▸ hx) (hphase x).2
  inputs i hi := by
    rw [hinput] at hi
    rw [hqueue]
    exact .inl (mem_cons_of_mem _ hi)
  outputs := by
    obtain hout | ⟨-, hout⟩ := houtput
    · rw [hout]
      exact List.Subset.refl _
    · rw [hout]
      exact subset_append_left _ _
  engaged := hengaged
  running := hrun
  starts x hx hmem := by
    rw [hqueue, mem_cons] at hmem
    rw [hinput]
    obtain hhead | hmem := hmem
    · exact .inl (hstart x hx hhead.symm)
    · exact .inr hmem

theorem engineMove_handleNext (h : WaveInv W s)
    (hstep : (s.engines e).handleNext e = some engine') :
    EngineMove s W e (s.engines e) engine' := by
  have hok := h.engines e
  unfold handleNext at hstep
  split at hstep
  · cases hstep
  next input rest hqueue =>
  split at hstep
  swap
  · cases hstep
  next hguard =>
  cases hstep
  have hphase : ∀ x, (s.engines e).phase ≠ .inModel x ∧ (s.engines e).phase ≠ .inAllReduce x := by
    intro x
    obtain ⟨hwaiting, -⟩ | hdraining := hguard
    · simp [hwaiting]
    · simp [hdraining]
  have hinput : s.InputOk input := h.inputs e input (hqueue ▸ mem_cons_self)
  cases input with
  | abort ids =>
    refine .of_handled hok hqueue hphase id hok.wave rfl rfl rfl (.inl rfl) ?_ (by simp)
    exact fun he => .inl (Engaged.of_finishRequests { s.engines e with inputQueue := rest } ids he)
  | startDpWave wave exclude =>
    have hwave : wave ≤ W := (Started.covered hinput).1.trans h.coordinator
    simp only [handleClientRequest]
    split
    · next hnew =>
      have hsame : wave = W := by
        have hle : (s.engines e).currentWave ≤ wave := hnew.2
        rw [hok.wave] at hle
        exact hwave.antisymm hle
      subst hsame
      refine .of_handled hok hqueue hphase (fun _ => rfl) rfl rfl rfl rfl (.inl rfl) ?_
        fun _ _ _ => rfl
      exact fun _ => .inr (.inl (Started.covered hinput))
    · next hold =>
      refine .of_handled hok hqueue hphase id hok.wave rfl rfl rfl (.inl rfl) .inl ?_
      intro x hx hinput'
      obtain ⟨rfl, rfl⟩ := EngineInput.startDpWave.inj hinput'
      exact absurd ⟨hx, hok.wave.le⟩ hold
  | add request =>
    have hcovered : s.Covered request.currentWave := hinput
    have hle : request.currentWave ≤ (s.engines e).currentWave := by
      rw [hok.wave]
      exact hcovered.1.trans h.coordinator
    simp only [handleClientRequest]
    obtain ⟨unfinished, finished, ⟨hadd, hwhy⟩ | ⟨hadd, hidle⟩⟩ :=
      addRequest_cases { s.engines e with inputQueue := rest } hle
    · rw [hadd]
      refine .of_handled hok hqueue hphase id hok.wave rfl rfl rfl (.inl rfl) ?_ (by simp)
      intro _
      obtain hwave | hrun := hwhy
      · have hwave' : request.currentWave = W := Eq.trans hwave hok.wave
        exact .inr (.inl (hwave' ▸ hcovered))
      · exact .inl (.inl hrun)
    · rw [hadd]
      have hout : (s.engines e).outputQueue ++ [{ startWave := some (s.engines e).currentWave }] =
          (s.engines e).outputQueue ++ [{ startWave := some W }] := by
        rw [hok.wave]
      refine .of_handled hok hqueue hphase (fun _ => rfl) hok.wave rfl rfl rfl (.inr ⟨rfl, hout⟩) ?_
        fun _ _ _ => rfl
      refine fun _ => .inr (.inr ?_)
      exact hout ▸ mem_append_right _ mem_cons_self

theorem engineMove_leaveModel (h : EngineOk W engine) {executed : Bool}
    (hphase : engine.phase = .inModel executed) (deferred : Bool) (stopped : List ℕ) :
    EngineMove s W e engine (engine.leaveModel deferred stopped) := by
  have hengaged := h.inModel executed hphase
  have hframe : engine.Settles
      (if engine.phase = .inModel true then engine.stepExecuted deferred stopped else engine) := by
    split_ifs
    · exact settles_stepExecuted engine deferred stopped
    · exact ⟨_, Subset.refl _, _, _, _, rfl⟩
  obtain ⟨unfinished, -, finished, aborts, batches, hframe⟩ := hframe
  unfold leaveModel
  rw [hframe]
  dsimp only
  split
  · exact {
      ok := ⟨h.wave, fun _ => rfl, h.outputs, fun _ => rfl, by simp, by simp⟩
      inputs := fun i hi => .inl hi
      outputs := List.Subset.refl _
      engaged := fun _ => .inl hengaged
      running := fun _ => rfl
      starts := fun x _ hx => .inr hx }
  · next hcounter =>
    have hrun : engine.enginesRunning := h.counter (by omega)
    exact {
      ok := ⟨h.wave, fun _ => hrun, h.outputs, fun _ => hrun, by simp, by
        rintro l ⟨⟩
        exact ⟨hrun, rfl⟩⟩
      inputs := fun i hi => .inl hi
      outputs := List.Subset.refl _
      engaged := fun _ => .inl hengaged
      running := id
      starts := fun x _ hx => .inr hx }

theorem WaveInv.modelStep (h : WaveInv W s) {deferred : Fin n → Bool} {stopped : Fin n → List ℕ}
    (hstep : s.modelStep deferred stopped = some s') : WaveInv W s' := by
  unfold WaveSystem.modelStep at hstep
  split at hstep
  · next hphase =>
    cases hstep
    refine h.setEngines fun e => ?_
    obtain hp | hp := hphase e
    · exact engineMove_leaveModel (h.engines e) hp _ _
    · exact engineMove_leaveModel (h.engines e) hp _ _
  · cases hstep

theorem engineOk_leaveAllReduce (h : EngineOk W engine) (dpRank : ℕ) :
    EngineOk (W + 1) (engine.leaveAllReduce dpRank false) := by
  unfold leaveAllReduce
  dsimp only
  rw [Bool.not_false, if_pos rfl]
  have hout : ∀ o ∈ (if dpRank = 0 then
      engine.outputQueue ++ [{ waveComplete := some engine.currentWave }]
      else engine.outputQueue),
      (∃ w ≤ W, o = { startWave := some w }) ∨ ∃ w < W + 1, o = { waveComplete := some w } := by
    intro o ho
    have hold : o ∈ engine.outputQueue → (∃ w ≤ W, o = { startWave := some w }) ∨
        ∃ w < W + 1, o = { waveComplete := some w } := by
      intro ho
      obtain ho | ⟨w, hw, rfl⟩ := h.outputs o ho
      · exact .inl ho
      · exact .inr ⟨w, hw.trans W.lt_succ_self, rfl⟩
    split at ho
    · rw [mem_append, mem_singleton] at ho
      obtain ho | rfl := ho
      · exact hold ho
      · exact .inr ⟨W, W.lt_succ_self, by rw [h.wave]⟩
    · exact hold ho
  refine ⟨?_, by simp, ?_, ?_, by simp, by simp⟩
  · exact congrArg (· + 1) h.wave
  · intro o ho
    obtain ⟨w, hw, rfl⟩ | hcomplete := hout o ho
    · exact .inl ⟨w, hw.trans W.le_succ, rfl⟩
    · exact .inr hcomplete
  · intro ho
    obtain ⟨w, hw, heq⟩ | ⟨w, -, heq⟩ := hout _ ho
    · simp only [EngineCoreOutputs.mk.injEq, Option.some.injEq, true_and] at heq
      omega
    · simp at heq

/-- The all-reduce either lets all engines run on, or moves all of them to the next wave. -/
theorem WaveInv.allReduce (h : WaveInv W s) (hstep : s.allReduce = some s') :
    ∃ W', WaveInv W' s' := by
  unfold WaveSystem.allReduce at hstep
  split at hstep
  swap
  · cases hstep
  next hphase =>
  have hreduce : ∀ e, ∃ l, (s.engines e).phase = .inAllReduce l := by
    intro e
    obtain hp | hp := hphase e
    · exact ⟨_, hp⟩
    · exact ⟨_, hp⟩
  cases hstep
  by_cases hunfinished : ∃ e, (s.engines e).phase = .inAllReduce true
  · refine ⟨W, ?_⟩
    rw [decide_eq_true hunfinished]
    refine h.setEngines fun e => ?_
    obtain ⟨l, hl⟩ := hreduce e
    have hok := h.engines e
    have hrun := (hok.inAllReduce l hl).1
    exact {
      ok := ⟨hok.wave, fun _ => rfl, hok.outputs, fun _ => rfl, nofun, nofun⟩
      inputs := fun i hi => .inl hi
      outputs := List.Subset.refl _
      engaged := fun _ => .inl (.inl hrun)
      running := fun _ => rfl
      starts := fun x _ hx => .inr hx }
  · refine ⟨W + 1, ?_⟩
    rw [decide_eq_false hunfinished]
    have hidle : ∀ e, (s.engines e).hasUnfinishedRequests = false := by
      intro e
      obtain ⟨l, hl⟩ := hreduce e
      rw [← ((h.engines e).inAllReduce l hl).2]
      cases l with
      | true => exact absurd ⟨e, hl⟩ hunfinished
      | false => rfl
    refine ⟨?_, fun e => engineOk_leaveAllReduce (h.engines e) e, h.coordinator.trans W.le_succ,
      ?_, h.startWaves, ?_, ?_⟩
    · exact ⟨h.clients.wave, h.clients.running, h.clients.firstReqs, h.clients.toCoordinator,
        h.clients.published, h.clients.toEngine⟩
    · intro e i hi
      exact (h.inputs e i hi).mono (fun _ => id) fun _ => id
    · intro e he
      have hunf := hidle e
      obtain hrun | hno := he
      · exact absurd hrun (by simp [leaveAllReduce])
      · exact absurd hno (by simpa [leaveAllReduce, hasUnfinishedRequests] using hunf)
    · intro hstarted
      have hcoord := h.coordinator
      have hle := (Started.covered hstarted).1
      change W + 1 ≤ s.coordinator.currentWave at hle
      omega

/-- An event that leaves the engines, the coordinator and its START_DP_WAVE messages alone. -/
theorem WaveInv.of_clients (h : WaveInv W s) (hengines : s'.engines = s.engines)
    (hcoordinator : s'.coordinator = s.coordinator) (hstarts : s'.startWaves = s.startWaves)
    (hcovered : ∀ w, s.Covered w → s'.Covered w) (hclients : s'.ClientsOk) : WaveInv W s' where
  clients := hclients
  engines := hengines ▸ h.engines
  coordinator := hcoordinator ▸ h.coordinator
  inputs e i hi := by
    rw [hengines] at hi
    refine (h.inputs e i hi).mono ?_ hcovered
    intro w hw
    rwa [Started, hcoordinator]
  startWaves e p hp := by
    rw [hstarts] at hp
    rw [Started, hcoordinator]
    exact h.startWaves e p hp
  engaged e he := by
    rw [hengines] at he
    obtain hc | ⟨e', he'⟩ := h.engaged e he
    · exact .inl (hcovered _ hc)
    · exact .inr ⟨e', hengines ▸ he'⟩
  started hs e := by
    rw [Started, hcoordinator] at hs
    rw [StartPending, hstarts, hengines]
    exact h.started hs e

theorem Covered.of_notified (s s' : WaveSystem m n) (hcoordinator : s'.coordinator = s.coordinator)
    (hnotified : s.Notified → s'.Notified) (w : ℕ) (h : s.Covered w) : s'.Covered w := by
  refine ⟨hcoordinator ▸ h.1, ?_⟩
  obtain hs | hn := h.2
  · exact .inl (by rwa [Started, hcoordinator])
  · exact .inr (hnotified hn)

theorem mem_sendToEngine {message message' : ClientMessage} {f' : Fin m} {e' : Fin n}
    (h : message' ∈ (s.sendToEngine f e message).toEngine f' e') :
    message' ∈ s.toEngine f' e' ∨ (message' = message ∧ f' = f) := by
  unfold sendToEngine at h
  dsimp only at h
  by_cases hf : f' = f
  · subst hf
    rw [update_self] at h
    by_cases he : e' = e
    · subst he
      rw [update_self, mem_append, mem_singleton] at h
      exact h.imp id fun heq => ⟨heq, rfl⟩
    · rw [update_of_ne he] at h
      exact .inl h
  · rw [update_of_ne hf] at h
    exact .inl h

theorem WaveInv.abortRequests (h : WaveInv W s) (ids : List ℕ) :
    WaveInv W (s.sendToEngine f e (.abort ids)) := by
  refine h.of_clients rfl rfl rfl (fun _ => id) ?_
  refine { h.clients with toEngine := ?_ }
  intro f' e' request hr
  obtain hr | ⟨hr, -⟩ := mem_sendToEngine hr
  · exact h.clients.toEngine f' e' request hr
  · cases hr

theorem WaveInv.addRequestAsync (h : WaveInv W s) (requestId : ℕ) (abortImmediately : Bool) :
    WaveInv W (s.addRequestAsync f e requestId abortImmediately) := by
  have hc := h.clients
  unfold WaveSystem.addRequestAsync
  dsimp only
  split
  · next hrun =>
    set client : DPAsyncMPClient := { s.clients f with
      firstReqs := (s.clients f).firstReqs ++ [engineIdentity e] } with hclient
    have hsame : ∀ f', ((update s.clients f client f').currentWave =
        (s.clients f').currentWave ∧
        (update s.clients f client f').enginesRunning = (s.clients f').enginesRunning) ∧
        (s.clients f').firstReqs ⊆ (update s.clients f client f').firstReqs ∧
        ∀ x ∈ (update s.clients f client f').firstReqs,
          x ∈ (s.clients f').firstReqs ∨ x = engineIdentity e := by
      intro f'
      by_cases hf : f' = f
      · subst hf
        rw [update_self]
        exact ⟨⟨rfl, rfl⟩, subset_append_left _ _, fun x hx => by simpa [hclient] using hx⟩
      · rw [update_of_ne hf]
        exact ⟨⟨rfl, rfl⟩, List.Subset.refl _, fun x hx => .inl hx⟩
    have hnotified : ((s.sendToEngine f e (.add ⟨requestId, (s.clients f).currentWave,
        abortImmediately⟩)).setClient f client).Notified := by
      refine ⟨f, .inl ?_⟩
      change (update s.clients f client f).firstReqs ≠ []
      rw [update_self]
      exact append_ne_nil_of_right_ne_nil _ (cons_ne_nil _ _)
    have hcovered := Covered.of_notified s ((s.sendToEngine f e (.add ⟨requestId,
      (s.clients f).currentWave, abortImmediately⟩)).setClient f client) rfl fun _ => hnotified
    refine h.of_clients rfl rfl rfl hcovered ⟨?_, ?_, ?_, hc.toCoordinator, hc.published, ?_⟩
    · exact fun f' => (hsame f').1.1 ▸ hc.wave f'
    · intro f' hf'
      have hold := hc.running f' ((hsame f').1.2 ▸ hf')
      exact (hsame f').1.1 ▸ hcovered _ hold
    · intro f' x hx i
      obtain hx | rfl := (hsame f').2.2 x hx
      · exact hc.firstReqs f' x hx i
      · exact nofun
    · intro f' e' request hr
      obtain hr | ⟨hr, -⟩ := mem_sendToEngine hr
      · exact hcovered _ (hc.toEngine f' e' request hr)
      · obtain rfl := ClientMessage.add.inj hr
        exact ⟨hc.wave f, .inr hnotified⟩
  · next hrun =>
    refine h.of_clients rfl rfl rfl (fun _ => id) ?_
    refine { hc with toEngine := ?_ }
    intro f' e' request hr
    obtain hr | ⟨hr, -⟩ := mem_sendToEngine hr
    · exact hc.toEngine f' e' request hr
    · obtain rfl := ClientMessage.add.inj hr
      exact hc.running f (by simpa using hrun)

end WaveSystem

end Vllm.Dp
