import Vllm.Dp.EngineWaves

/-! What holds in every reachable state of the wave protocol. All engines are in the same wave,
which the coordinator never runs ahead of, and a request carries a wave that it has started or will
start. -/
namespace Vllm.Dp

/-- The engine takes part in the current wave. -/
def DPEngineCoreProc.Engaged (engine : DPEngineCoreProc) : Prop :=
  engine.enginesRunning ∨ engine.hasUnfinishedRequests

/-- What holds of one engine in wave `W`. -/
structure EngineOk (W : ℕ) (engine : DPEngineCoreProc) : Prop where
  wave : engine.currentWave = W
  counter : 0 < engine.stepCounter → engine.enginesRunning
  outputs : ∀ o ∈ engine.outputQueue,
    (∃ w ≤ W, o = { startWave := some w }) ∨ ∃ w < W, o = { waveComplete := some w }
  selfStarted : { startWave := some W } ∈ engine.outputQueue → engine.enginesRunning
  inModel : ∀ executed, engine.phase = .inModel executed → engine.Engaged
  inAllReduce : ∀ unfinished, engine.phase = .inAllReduce unfinished →
    engine.enginesRunning ∧ unfinished = engine.hasUnfinishedRequests

namespace WaveSystem
variable {m n W w : ℕ} {s s' : WaveSystem m n} {f : Fin m} {e : Fin n}

/-- The coordinator has started wave `w`. -/
def Started (s : WaveSystem m n) (w : ℕ) : Prop :=
  w < s.coordinator.currentWave ∨
    (w = s.coordinator.currentWave ∧ s.coordinator.enginesRunning)

/-- A notification of a front-end is on its way to the coordinator. -/
def Notified (s : WaveSystem m n) : Prop :=
  ∃ f, (s.clients f).firstReqs ≠ [] ∨ s.toCoordinator f ≠ []

/-- The coordinator has started wave `w`, or will on the next notification. -/
def Covered (s : WaveSystem m n) (w : ℕ) : Prop :=
  w ≤ s.coordinator.currentWave ∧ (s.Started w ∨ s.Notified)

/-- An engine has started wave `w` and the coordinator does not know yet. -/
def SelfStarted (s : WaveSystem m n) (w : ℕ) : Prop :=
  ∃ e, { startWave := some w } ∈ (s.engines e).outputQueue

def InputOk (s : WaveSystem m n) : EngineInput → Prop
  | .add request => s.Covered request.currentWave
  | .abort _ => True
  | .startDpWave wave _ => s.Started wave

/-- A START_DP_WAVE message that will start engine `e` is on its way to it. -/
def StartPending (s : WaveSystem m n) (w : ℕ) (e : Fin n) : Prop :=
  ∃ x, x ≠ EngineRef.index e ∧
    ((w, x) ∈ s.startWaves e ∨ .startDpWave w x ∈ (s.engines e).inputQueue)

/-- The front-ends and the messages that were sent to and by them. -/
structure ClientsOk (s : WaveSystem m n) : Prop where
  wave : ∀ f, (s.clients f).currentWave ≤ s.coordinator.currentWave
  running : ∀ f, (s.clients f).enginesRunning → s.Covered (s.clients f).currentWave
  firstReqs : ∀ f, ∀ x ∈ (s.clients f).firstReqs, ∀ i, x ≠ .index i
  toCoordinator : ∀ f, ∀ p ∈ s.toCoordinator f, ∀ i, p.1 ≠ .index i
  published : ∀ f, ∀ p ∈ s.published f,
    p.1 ≤ s.coordinator.currentWave ∧ (p.2 → s.Started p.1)
  toEngine : ∀ f e, ∀ request, .add request ∈ s.toEngine f e → s.Covered request.currentWave

structure WaveInv (W : ℕ) (s : WaveSystem m n) : Prop where
  clients : s.ClientsOk
  engines : ∀ e, EngineOk W (s.engines e)
  coordinator : s.coordinator.currentWave ≤ W
  inputs : ∀ e, ∀ i ∈ (s.engines e).inputQueue, s.InputOk i
  startWaves : ∀ e, ∀ p ∈ s.startWaves e, s.Started p.1
  engaged : ∀ e, (s.engines e).Engaged → s.Covered W ∨ s.SelfStarted W
  started : s.Started W → ∀ e, (s.engines e).enginesRunning ∨ s.StartPending W e

theorem WaveInv.init (batchQueueSize : Fin n → ℕ) :
    WaveInv 0 (.init batchQueueSize : WaveSystem m n) where
  clients := by constructor <;> simp [WaveSystem.init]
  engines := by intro e; constructor <;> simp [WaveSystem.init]
  coordinator := by simp [WaveSystem.init]
  inputs := by simp [WaveSystem.init]
  startWaves := by simp [WaveSystem.init]
  engaged := by
    simp [WaveSystem.init, DPEngineCoreProc.Engaged, DPEngineCoreProc.hasUnfinishedRequests]
  started := by simp [WaveSystem.init, Started]

theorem Started.covered (h : s.Started w) : s.Covered w :=
  ⟨h.elim Nat.le_of_lt (Nat.le_of_eq ·.1), .inl h⟩

theorem Covered.mono (hstarted : ∀ w, s.Started w → s'.Started w)
    (hwave : s.coordinator.currentWave ≤ s'.coordinator.currentWave)
    (hnotified : s.Notified → s'.Notified ∨ s'.Started s.coordinator.currentWave)
    (h : s.Covered w) : s'.Covered w := by
  obtain ⟨hle, hcover⟩ := h
  refine ⟨hle.trans hwave, ?_⟩
  obtain hw | hw := hcover
  · exact .inl (hstarted w hw)
  obtain hw | hw := hnotified hw
  · exact .inr hw
  · rcases Nat.lt_or_eq_of_le hle with hlt | rfl
    · refine .inl (.inl ?_)
      omega
    · exact .inl hw

theorem InputOk.mono (hstarted : ∀ w, s.Started w → s'.Started w)
    (hcovered : ∀ w, s.Covered w → s'.Covered w) {i : EngineInput} (h : s.InputOk i) :
    s'.InputOk i := by
  cases i with
  | add request => exact hcovered _ h
  | abort ids => trivial
  | startDpWave wave exclude => exact hstarted _ h

/-- The front-ends' part of the invariant when only the coordinator and the channels from it and
to it have changed. -/
theorem ClientsOk.mono (h : s.ClientsOk) (hclients : s'.clients = s.clients)
    (htoEngine : s'.toEngine = s.toEngine)
    (hwave : s.coordinator.currentWave ≤ s'.coordinator.currentWave)
    (hstarted : ∀ w, s.Started w → s'.Started w) (hcovered : ∀ w, s.Covered w → s'.Covered w)
    (htoCoordinator : ∀ f, s'.toCoordinator f ⊆ s.toCoordinator f)
    (hpublished : ∀ f, ∀ p ∈ s'.published f, p ∈ s.published f ∨
      p = (s'.coordinator.currentWave, s'.coordinator.enginesRunning)) : s'.ClientsOk where
  wave f := by
    rw [hclients]
    exact (h.wave f).trans hwave
  running f hf := by
    rw [hclients] at hf ⊢
    exact hcovered _ (h.running f hf)
  firstReqs := by
    rw [hclients]
    exact h.firstReqs
  toCoordinator f p hp := h.toCoordinator f p (htoCoordinator f hp)
  published f p hp := by
    obtain hp | rfl := hpublished f p hp
    · obtain ⟨hle, hrun⟩ := h.published f p hp
      exact ⟨hle.trans hwave, fun hp => hstarted _ (hrun hp)⟩
    · exact ⟨le_rfl, fun hrun => .inr ⟨rfl, hrun⟩⟩
  toEngine := by
    rw [htoEngine]
    exact fun f e r hr => hcovered _ (h.toEngine f e r hr)

/-- What an action of engine `e` may do in wave `W`. -/
structure EngineMove (s : WaveSystem m n) (W : ℕ) (e : Fin n)
    (engine engine' : DPEngineCoreProc) : Prop where
  ok : EngineOk W engine'
  inputs : ∀ i ∈ engine'.inputQueue, i ∈ engine.inputQueue ∨ s.InputOk i
  outputs : engine.outputQueue ⊆ engine'.outputQueue
  engaged : engine'.Engaged →
    engine.Engaged ∨ s.Covered W ∨ { startWave := some W } ∈ engine'.outputQueue
  running : engine.enginesRunning → engine'.enginesRunning
  starts : ∀ x ≠ EngineRef.index e, .startDpWave W x ∈ engine.inputQueue →
    engine'.enginesRunning ∨ .startDpWave W x ∈ engine'.inputQueue

theorem EngineMove.refl (h : WaveInv W s) (e : Fin n) :
    EngineMove s W e (s.engines e) (s.engines e) where
  ok := h.engines e
  inputs _ hi := .inl hi
  outputs := List.Subset.refl _
  engaged := .inl
  running := id
  starts _ _ hx := .inr hx

theorem WaveInv.setEngines (h : WaveInv W s) {engines' : Fin n → DPEngineCoreProc}
    (hmove : ∀ e, EngineMove s W e (s.engines e) (engines' e)) :
    WaveInv W { s with engines := engines' } where
  clients := ⟨h.clients.wave, h.clients.running, h.clients.firstReqs, h.clients.toCoordinator,
    h.clients.published, h.clients.toEngine⟩
  engines e := (hmove e).ok
  coordinator := h.coordinator
  inputs e i hi := by
    obtain hi | hi := (hmove e).inputs i hi
    · exact (h.inputs e i hi).mono (fun _ => id) fun _ => id
    · exact hi.mono (fun _ => id) fun _ => id
  startWaves := h.startWaves
  engaged e he := by
    obtain he | he | he := (hmove e).engaged he
    · obtain hc | ⟨e', he'⟩ := h.engaged e he
      · exact .inl hc
      · exact .inr ⟨e', (hmove e').outputs he'⟩
    · exact .inl he
    · exact .inr ⟨e, he⟩
  started hs e := by
    obtain hrun | ⟨x, hx, hpending⟩ := h.started hs e
    · exact .inl ((hmove e).running hrun)
    obtain hx' | hx' := hpending
    · exact .inr ⟨x, hx, .inl hx'⟩
    obtain hrun | hx' := (hmove e).starts x hx hx'
    · exact .inl hrun
    · exact .inr ⟨x, hx, .inr hx'⟩

theorem WaveInv.setEngine (h : WaveInv W s) {engine : DPEngineCoreProc}
    (hmove : EngineMove s W e (s.engines e) engine) : WaveInv W (s.setEngine e engine) := by
  refine h.setEngines fun e' => ?_
  by_cases he : e' = e
  · subst he
    rw [Function.update_self]
    exact hmove
  · rw [Function.update_of_ne he]
    exact EngineMove.refl h e'

end WaveSystem

end Vllm.Dp
