import Vllm.Dp.WaveSteps

/-! The messages keep the wave invariant: what the coordinator has published stays true, and the
engine that it leaves out of a START_DP_WAVE has started the wave itself. So no engine is stranded:
when no message is in flight, either every engine has work, or none is running, has an unfinished
request or waits in a collective. -/
namespace Vllm.Dp
open Function List
namespace WaveSystem
open DPEngineCoreProc
variable {m n W w : ℕ} {s s' : WaveSystem m n} {f : Fin m} {e : Fin n}

theorem WaveInv.subscribe (h : WaveInv W s) :
    WaveInv W (s.setClient f { s.clients f with subscribed := true }) := by
  have hc := h.clients
  have hsame : ∀ f', ∃ subscribed, update s.clients f
      { s.clients f with subscribed := true } f' =
      { s.clients f' with subscribed := subscribed } := by
    intro f'
    by_cases hf : f' = f
    · subst hf
      exact ⟨true, update_self ..⟩
    · exact ⟨_, update_of_ne hf ..⟩
  have hcovered := Covered.of_notified s (s.setClient f { s.clients f with subscribed := true }) rfl
    fun ⟨f', hf'⟩ => ⟨f', by
      obtain ⟨b, hb⟩ := hsame f'
      change (update s.clients f _ f').firstReqs ≠ [] ∨ _
      rwa [hb]⟩
  refine h.of_clients rfl rfl rfl hcovered ⟨?_, ?_, ?_, hc.toCoordinator, hc.published, ?_⟩
  · intro f'
    obtain ⟨b, hb⟩ := hsame f'
    change (update s.clients f _ f').currentWave ≤ _
    rw [hb]
    exact hc.wave f'
  · intro f' hf'
    obtain ⟨b, hb⟩ := hsame f'
    change (update s.clients f _ f').enginesRunning at hf'
    change Covered _ (update s.clients f _ f').currentWave
    rw [hb] at hf' ⊢
    exact hcovered _ (hc.running f' hf')
  · intro f' x hx
    obtain ⟨b, hb⟩ := hsame f'
    change x ∈ (update s.clients f _ f').firstReqs at hx
    rw [hb] at hx
    exact hc.firstReqs f' x hx
  · exact fun f' e' r hr => hcovered _ (hc.toEngine f' e' r hr)

theorem WaveInv.sendFirstReq (h : WaveInv W s) (hstep : s.sendFirstReq f = some s') :
    WaveInv W s' := by
  have hc := h.clients
  unfold WaveSystem.sendFirstReq at hstep
  dsimp only at hstep
  split at hstep
  · cases hstep
  next target rest hqueue =>
  split at hstep
  swap
  · cases hstep
  cases hstep
  have hnotified : Notified { s.setClient f { s.clients f with
      enginesRunning := true, firstReqs := rest } with
      toCoordinator := update s.toCoordinator f
        (s.toCoordinator f ++ [(target, (s.clients f).currentWave)]) } := by
    refine ⟨f, .inr ?_⟩
    dsimp only
    rw [update_self]
    exact append_ne_nil_of_right_ne_nil _ (cons_ne_nil _ _)
  have hcovered := Covered.of_notified s { s.setClient f { s.clients f with
      enginesRunning := true, firstReqs := rest } with
      toCoordinator := update s.toCoordinator f
        (s.toCoordinator f ++ [(target, (s.clients f).currentWave)]) } rfl fun _ => hnotified
  refine h.of_clients rfl rfl rfl hcovered ⟨?_, ?_, ?_, ?_, hc.published, ?_⟩
  · intro f'
    by_cases hf : f' = f
    · subst hf
      simpa [setClient] using hc.wave f'
    · simpa [setClient, hf] using hc.wave f'
  · intro f' hf'
    refine ⟨?_, .inr hnotified⟩
    by_cases hf : f' = f
    · subst hf
      simpa [setClient] using hc.wave f'
    · simpa [setClient, hf] using hc.wave f'
  · intro f' x hx
    by_cases hf : f' = f
    · subst hf
      simp only [setClient, update_self] at hx
      exact hc.firstReqs f' x (hqueue ▸ mem_cons_of_mem _ hx)
    · simp only [setClient, update_of_ne hf] at hx
      exact hc.firstReqs f' x hx
  · intro f' p hp
    by_cases hf : f' = f
    · subst hf
      simp only [update_self, mem_append, mem_singleton] at hp
      obtain hp | rfl := hp
      · exact hc.toCoordinator f' p hp
      · exact hc.firstReqs f' target (hqueue ▸ mem_cons_self)
    · simp only [update_of_ne hf] at hp
      exact hc.toCoordinator f' p hp
  · exact fun f' e' r hr => hcovered _ (hc.toEngine f' e' r hr)

theorem WaveInv.readStats (h : WaveInv W s) {k : ℕ} (hstep : s.readStats f k = some s') :
    WaveInv W s' := by
  have hc := h.clients
  unfold WaveSystem.readStats at hstep
  obtain ⟨⟨wave, running⟩, hget, rfl⟩ := Option.map_eq_some_iff.mp hstep
  obtain ⟨hle, hrunning⟩ := hc.published f _ (mem_of_getElem? hget)
  have hcovered := Covered.of_notified s
    { s.setClient f { s.clients f with currentWave := wave, enginesRunning := running } with
      published := update s.published f ((s.published f).drop (k + 1)) } rfl
    fun ⟨f', hf'⟩ => ⟨f', by
      by_cases hf : f' = f
      · subst hf
        simpa [setClient] using hf'
      · simpa [setClient, hf] using hf'⟩
  refine h.of_clients rfl rfl rfl hcovered ⟨?_, ?_, ?_, hc.toCoordinator, ?_, ?_⟩
  · intro f'
    by_cases hf : f' = f
    · subst hf
      simpa [setClient] using hle
    · simpa [setClient, hf] using hc.wave f'
  · intro f' hf'
    by_cases hf : f' = f
    · subst hf
      simp only [setClient, update_self] at hf' ⊢
      exact hcovered _ (hrunning hf').covered
    · simp only [setClient, update_of_ne hf] at hf' ⊢
      exact hcovered _ (hc.running f' hf')
  · intro f' x hx
    by_cases hf : f' = f
    · subst hf
      simp only [setClient, update_self] at hx
      exact hc.firstReqs f' x hx
    · simp only [setClient, update_of_ne hf] at hx
      exact hc.firstReqs f' x hx
  · intro f' p hp
    by_cases hf : f' = f
    · subst hf
      simp only [update_self] at hp
      exact hc.published f' p (mem_of_mem_drop hp)
    · simp only [update_of_ne hf] at hp
      exact hc.published f' p hp
  · exact fun f' e' r hr => hcovered _ (hc.toEngine f' e' r hr)

theorem EngineMove.of_received {engine : DPEngineCoreProc} (h : EngineOk W engine)
    (input : EngineInput) (hinput : s.InputOk input) (aborts : List (List ℕ)) :
    EngineMove s W e engine
      { engine with abortsQueue := aborts, inputQueue := engine.inputQueue ++ [input] } where
  ok := ⟨h.wave, h.counter, h.outputs, h.selfStarted, h.inModel, h.inAllReduce⟩
  inputs i hi := by
    rw [mem_append, mem_singleton] at hi
    obtain hi | rfl := hi
    · exact .inl hi
    · exact .inr hinput
  outputs := List.Subset.refl _
  engaged := .inl
  running := id
  starts _ _ hx := .inr (mem_append_left _ hx)

section Popped
variable {outputs : EngineCoreOutputs} {rest : List EngineCoreOutputs}
  (hqueue : (s.engines e).outputQueue = outputs :: rest)
include hqueue

/-- A message that the coordinator takes leaves its engine, and nothing else changes. -/
theorem engines_popped (e' : Fin n) : ∃ rest' ⊆ (s.engines e').outputQueue,
    update s.engines e { s.engines e with outputQueue := rest } e' =
      { s.engines e' with outputQueue := rest' } := by
  by_cases he : e' = e
  · subst he
    refine ⟨rest, ?_, update_self ..⟩
    rw [hqueue]
    exact subset_cons_self _ _
  · exact ⟨_, List.Subset.refl _, update_of_ne he ..⟩

theorem SelfStarted.popped (hs : s.SelfStarted W) (hne : outputs ≠ { startWave := some W })
    (ht : s'.engines = update s.engines e { s.engines e with outputQueue := rest }) :
    s'.SelfStarted W := by
  obtain ⟨e', he'⟩ := hs
  refine ⟨e', ?_⟩
  rw [ht]
  by_cases he : e' = e
  · subst he
    rw [hqueue, mem_cons] at he'
    rw [update_self]
    exact he'.resolve_left (Ne.symm hne)
  · rwa [update_of_ne he]

end Popped

section
variable (h : WaveInv W s)
include h

theorem WaveInv.receiveClient {preprocessed : Bool}
    (hstep : s.receiveClient f e preprocessed = some s') : WaveInv W s' := by
  unfold WaveSystem.receiveClient at hstep
  split at hstep
  · cases hstep
  next message rest hqueue =>
  cases hstep
  have hmove : EngineMove s W e (s.engines e)
      ((s.engines e).receiveClient preprocessed message) := by
    cases message with
    | abort ids => exact .of_received (h.engines e) (.abort ids) trivial _
    | add request =>
      simp only [DPEngineCoreProc.receiveClient]
      split
      · refine .of_received (h.engines e) (.add request) ?_ _
        exact h.clients.toEngine f e request (hqueue ▸ mem_cons_self)
      · exact EngineMove.refl h e
  have hset := h.setEngine hmove
  refine hset.of_clients rfl rfl rfl (fun _ => id) { hset.clients with toEngine := ?_ }
  intro f' e' request hr
  refine hset.clients.toEngine f' e' request ?_
  change _ ∈ update s.toEngine f (update (s.toEngine f) e rest) f' e' at hr
  change _ ∈ s.toEngine f' e'
  by_cases hf : f' = f
  · subst hf
    rw [update_self] at hr
    by_cases he : e' = e
    · subst he
      rw [update_self] at hr
      exact hqueue ▸ mem_cons_of_mem _ hr
    · rwa [update_of_ne he] at hr
  · rwa [update_of_ne hf] at hr

theorem WaveInv.receiveStart (hstep : s.receiveStart e = some s') : WaveInv W s' := by
  unfold WaveSystem.receiveStart at hstep
  split at hstep
  · cases hstep
  next wave exclude rest hqueue =>
  cases hstep
  have hstarted : s.InputOk (.startDpWave wave exclude) :=
    h.startWaves e (wave, exclude) (hqueue ▸ mem_cons_self)
  have hset := h.setEngine (.of_received (e := e) (h.engines e) (.startDpWave wave exclude)
    hstarted (s.engines e).abortsQueue)
  refine ⟨⟨hset.clients.wave, hset.clients.running, hset.clients.firstReqs,
    hset.clients.toCoordinator, hset.clients.published, hset.clients.toEngine⟩, hset.engines,
    hset.coordinator, ?_, ?_, hset.engaged, ?_⟩
  · intro e' i hi
    exact (hset.inputs e' i hi).mono (fun _ => id) fun _ => id
  · intro e' p hp
    refine hset.startWaves e' p ?_
    change p ∈ update s.startWaves e rest e' at hp
    change p ∈ s.startWaves e'
    by_cases he : e' = e
    · subst he
      rw [update_self] at hp
      exact hqueue ▸ mem_cons_of_mem _ hp
    · rwa [update_of_ne he] at hp
  · intro hs e'
    obtain hrun | ⟨x, hx, hpending⟩ := hset.started hs e'
    · exact .inl hrun
    refine .inr ⟨x, hx, ?_⟩
    obtain hmem | hmem := hpending
    · change (W, x) ∈ s.startWaves e' at hmem
      by_cases he : e' = e
      · subst he
        rw [hqueue, mem_cons] at hmem
        obtain heq | hmem := hmem
        · cases heq
          refine .inr ?_
          change _ ∈ (update s.engines e' _ e').inputQueue
          rw [update_self]
          exact mem_append_right _ mem_cons_self
        · refine .inl ?_
          change _ ∈ update s.startWaves e' rest e'
          rwa [update_self]
      · refine .inl ?_
        change _ ∈ update s.startWaves e rest e'
        rwa [update_of_ne he]
    · exact .inr hmem

theorem WaveInv.publish : WaveInv W s.publish := by
  refine h.of_clients rfl rfl rfl (fun _ => id) ?_
  refine h.clients.mono rfl rfl le_rfl (fun _ => id) (fun _ => id) (fun f => List.Subset.refl _) ?_
  intro f p hp
  simp only [WaveSystem.publish] at hp
  split at hp
  · rw [mem_append, mem_singleton] at hp
    exact hp
  · exact .inl hp

/-- A turn of the coordinator that leaves the engines as they are, but for an output that it has
taken from one of them. -/
theorem WaveInv.of_coordinator (hengines : ∀ e, ∃ rest ⊆ (s.engines e).outputQueue,
      s'.engines e = { s.engines e with outputQueue := rest })
    (hwave : s.coordinator.currentWave ≤ s'.coordinator.currentWave)
    (hle : s'.coordinator.currentWave ≤ W)
    (hstarted : ∀ w, s.Started w → s'.Started w) (hcovered : ∀ w, s.Covered w → s'.Covered w)
    (hclients : s'.clients = s.clients) (htoEngine : s'.toEngine = s.toEngine)
    (htoCoordinator : ∀ f, s'.toCoordinator f ⊆ s.toCoordinator f)
    (hpublished : s'.published = s.published)
    (hstarts : ∀ e, ∀ p ∈ s'.startWaves e, p ∈ s.startWaves e ∨ s'.Started p.1)
    (hself : s.SelfStarted W → s'.SelfStarted W ∨ s'.Covered W)
    (hnew : s'.Started W → (s.Started W ∧ s'.startWaves = s.startWaves) ∨
      ∀ e, (s.engines e).enginesRunning ∨
        ∃ x, x ≠ EngineRef.index e ∧ (W, x) ∈ s'.startWaves e) : WaveInv W s' where
  clients := h.clients.mono hclients htoEngine hwave hstarted hcovered htoCoordinator
    fun f p hp => .inl (hpublished ▸ hp)
  engines e := by
    obtain ⟨rest, hsub, he⟩ := hengines e
    have hok := h.engines e
    rw [he]
    exact ⟨hok.wave, hok.counter, fun o ho => hok.outputs o (hsub ho),
      fun ho => hok.selfStarted (hsub ho), hok.inModel, hok.inAllReduce⟩
  coordinator := hle
  inputs e i hi := by
    obtain ⟨rest, -, he⟩ := hengines e
    rw [he] at hi
    exact (h.inputs e i hi).mono hstarted hcovered
  startWaves e p hp := (hstarts e p hp).elim (fun hp => hstarted _ (h.startWaves e p hp)) id
  engaged e he := by
    obtain ⟨rest, -, heq⟩ := hengines e
    rw [heq] at he
    obtain hc | hs := h.engaged e he
    · exact .inl (hcovered _ hc)
    · exact (hself hs).symm
  started hs e := by
    obtain ⟨rest, -, heq⟩ := hengines e
    rw [StartPending, heq]
    obtain ⟨hold, hsame⟩ | hnew := hnew hs
    · rw [hsame]
      exact h.started hold e
    · obtain hrun | ⟨x, hx, hmem⟩ := hnew e
      · exact .inl hrun
      · exact .inr ⟨x, hx, .inl hmem⟩

theorem WaveInv.handleFront {changed : Bool} (hstep : s.handleFront f = some (s', changed)) :
    WaveInv W s' := by
  unfold WaveSystem.handleFront at hstep
  split at hstep
  · cases hstep
  next target wave rest hqueue =>
  have hpop : ∀ f', update s.toCoordinator f rest f' ⊆ s.toCoordinator f' := by
    intro f'
    by_cases hf : f' = f
    · subst hf
      rw [update_self, hqueue]
      exact subset_cons_self _ _
    · rw [update_of_ne hf]
      exact List.Subset.refl _
  have hengines : ∀ e, ∃ rest ⊆ (s.engines e).outputQueue,
      s.engines e = { s.engines e with outputQueue := rest } :=
    fun e => ⟨_, List.Subset.refl _, rfl⟩
  dsimp only at hstep
  split at hstep
  · next hidle =>
    obtain ⟨rfl, -⟩ := Prod.mk.inj (Option.some.inj hstep)
    have hidle' : s.coordinator.enginesRunning = false := by simpa using hidle
    generalize hexclude : (if wave < s.coordinator.currentWave then EngineRef.none else target) =
      exclude at *
    have hindex : ∀ i, exclude ≠ .index i := by
      intro i
      rw [← hexclude]
      split
      · exact nofun
      · exact h.clients.toCoordinator f _ (hqueue ▸ mem_cons_self) i
    have hstarted : ∀ w, s.Started w → w < s.coordinator.currentWave := by
      intro w hw
      obtain hw | ⟨-, hrun⟩ := hw
      · exact hw
      · rw [hidle'] at hrun
        cases hrun
    refine h.of_coordinator hengines le_rfl h.coordinator (fun w hw => .inl (hstarted w hw)) ?_
      rfl rfl hpop rfl ?_ .inl ?_
    · intro w
      exact Covered.mono (fun w hw => .inl (hstarted w hw)) le_rfl fun _ => .inr (.inr ⟨rfl, rfl⟩)
    · intro e p hp
      simp only [sendStartWave, mem_append, mem_singleton] at hp
      obtain hp | rfl := hp
      · exact .inl hp
      · exact .inr (.inr ⟨rfl, rfl⟩)
    · intro hs
      have hwave : W = s.coordinator.currentWave := hs.covered.1.antisymm h.coordinator
      refine .inr fun e => .inr ⟨exclude, hindex e, ?_⟩
      rw [hwave]
      exact mem_append_right _ mem_cons_self
  · next hrun =>
    obtain ⟨rfl, -⟩ := Prod.mk.inj (Option.some.inj hstep)
    have hrun' : s.coordinator.enginesRunning = true := by simpa using hrun
    refine h.of_coordinator hengines le_rfl h.coordinator (fun _ => id) ?_ rfl rfl hpop rfl
      (fun _ _ => .inl) .inl fun hs => .inl ⟨hs, rfl⟩
    intro w
    exact Covered.mono (fun _ => id) le_rfl fun _ => .inr (.inr ⟨rfl, hrun'⟩)

theorem WaveInv.handleBack {changed : Bool} (hstep : s.handleBack e = some (s', changed)) :
    WaveInv W s' := by
  have hok := h.engines e
  unfold WaveSystem.handleBack at hstep
  dsimp only at hstep
  split at hstep
  · cases hstep
  next outputs rest hqueue =>
  have hengines := engines_popped hqueue
  obtain ⟨wave, hwave, rfl⟩ | ⟨wave, hwave, rfl⟩ :=
    hok.outputs outputs (hqueue ▸ mem_cons_self)
  · dsimp only at hstep
    split at hstep
    · next hnew =>
      obtain ⟨rfl, -⟩ := Prod.mk.inj (Option.some.inj hstep)
      have hle : s.coordinator.currentWave ≤ wave := by
        obtain hlt | ⟨heq, -⟩ := hnew
        · exact Nat.le_of_lt hlt
        · exact heq.ge
      have hstarted : ∀ w, s.Started w → w < wave ∨ w = wave ∧ true = true := by
        intro w hw
        obtain hw | ⟨rfl, hrun⟩ := hw
        · exact .inl (hw.trans_le hle)
        · exact (Nat.lt_or_eq_of_le hle).imp id fun heq => ⟨heq, rfl⟩
      refine h.of_coordinator hengines hle hwave hstarted ?_ rfl rfl
        (fun _ => List.Subset.refl _) rfl ?_ ?_ ?_
      · intro w
        refine Covered.mono hstarted hle fun hn => .inl hn
      · intro e' p hp
        simp only [sendStartWave, mem_append, mem_singleton] at hp
        obtain hp | rfl := hp
        · exact .inl hp
        · exact .inr (.inr ⟨rfl, rfl⟩)
      · intro hs
        by_cases hsame : wave = W
        · subst hsame
          exact .inr (Started.covered (.inr ⟨rfl, rfl⟩))
        · refine .inl (hs.popped hqueue ?_ rfl)
          simpa using hsame
      · intro hs
        have hsame : W = wave := hs.covered.1.antisymm hwave
        subst hsame
        refine .inr fun e' => ?_
        by_cases he : e' = e
        · subst he
          exact .inl (hok.selfStarted (hqueue ▸ mem_cons_self))
        · refine .inr ⟨.index e, ?_, mem_append_right _ mem_cons_self⟩
          simpa [Fin.val_inj] using Ne.symm he
    · next hold =>
      obtain ⟨rfl, -⟩ := Prod.mk.inj (Option.some.inj hstep)
      refine h.of_coordinator hengines le_rfl h.coordinator (fun _ => id) (fun _ => id) rfl rfl
        (fun _ => List.Subset.refl _) rfl (fun _ _ => .inl) ?_ fun hs => .inl ⟨hs, rfl⟩
      intro hs
      by_cases hsame : wave = W
      · subst hsame
        refine .inr (Started.covered (s := s) ?_)
        push Not at hold
        obtain hlt | heq := Nat.lt_or_eq_of_le hold.1
        · exact .inl hlt
        · have hrun := hold.2 heq
          simp only [Bool.not_eq_true', ne_eq, Bool.not_eq_false] at hrun
          exact .inr ⟨heq, hrun⟩
      · refine .inl (hs.popped hqueue ?_ rfl)
        simpa using hsame
  · dsimp only at hstep
    split at hstep
    · next hnew =>
      obtain ⟨rfl, -⟩ := Prod.mk.inj (Option.some.inj hstep)
      have hstarted : ∀ w, s.Started w → w < wave + 1 := by
        rintro w (hw | ⟨rfl, -⟩)
        · exact (hw.trans_le hnew).trans wave.lt_succ_self
        · exact Nat.lt_succ_of_le hnew
      refine h.of_coordinator hengines (hnew.trans wave.le_succ) hwave
        (fun w hw => .inl (hstarted w hw)) ?_ rfl rfl (fun _ => List.Subset.refl _) rfl
        (fun _ _ => .inl) (fun hs => .inl (hs.popped hqueue (by simp) rfl)) ?_
      · intro w
        refine Covered.mono (fun w hw => .inl (hstarted w hw)) (hnew.trans wave.le_succ) .inl
      · rintro (hs | ⟨-, hrun⟩)
        · exact absurd hs (by change ¬W < wave + 1; omega)
        · cases hrun
    · obtain ⟨rfl, -⟩ := Prod.mk.inj (Option.some.inj hstep)
      exact h.of_coordinator hengines le_rfl h.coordinator (fun _ => id) (fun _ => id) rfl rfl
        (fun _ => List.Subset.refl _) rfl (fun _ _ => .inl)
        (fun hs => .inl (hs.popped hqueue (by simp) rfl)) fun hs => .inl ⟨hs, rfl⟩

end

open Interleaving
variable {batchQueueSize : Fin n → ℕ}

theorem WaveInv.coordinate (h : WaveInv W s) {front : Option (Fin m)} {back : Option (Fin n)}
    (hstep : s.coordinate front back = some s') : WaveInv W s' := by
  unfold WaveSystem.coordinate at hstep
  simp only [Option.bind_eq_bind, Option.bind_eq_some_iff, Option.some.injEq, Prod.exists] at hstep
  obtain ⟨t, frontChanged, hfront, u, backChanged, hback, rfl⟩ := hstep
  have ht : WaveInv W t := by
    cases front with
    | none =>
      obtain ⟨rfl, -⟩ := Prod.mk.inj (Option.some.inj hfront)
      exact h
    | some f => exact h.handleFront hfront
  have hu : WaveInv W u := by
    cases back with
    | none =>
      obtain ⟨rfl, -⟩ := Prod.mk.inj (Option.some.inj hback)
      exact ht
    | some e => exact ht.handleBack hback
  split
  · exact hu.publish
  · exact hu

theorem WaveInv.step {ev : Event m n} (h : WaveInv W s) (hstep : s.step ev = some s') :
    ∃ W', WaveInv W' s' := by
  have hengine : ∀ {e : Fin n} {next : Option DPEngineCoreProc},
      next.map (s.setEngine e) = some s' →
      (∀ engine', next = some engine' → EngineMove s W e (s.engines e) engine') →
      ∃ W', WaveInv W' s' := by
    intro e next hnext hmove
    obtain ⟨engine', hengine', rfl⟩ := Option.map_eq_some_iff.mp hnext
    exact ⟨W, h.setEngine (hmove engine' hengine')⟩
  cases ev with
  | addRequest f e requestId abortImmediately =>
    cases hstep
    exact ⟨W, h.addRequestAsync requestId abortImmediately⟩
  | abortRequests f e ids =>
    cases hstep
    exact ⟨W, h.abortRequests ids⟩
  | subscribe f =>
    cases hstep
    exact ⟨W, h.subscribe⟩
  | sendFirstReq f => exact ⟨W, h.sendFirstReq hstep⟩
  | readStats f k => exact ⟨W, h.readStats hstep⟩
  | coordinate front back => exact ⟨W, h.coordinate hstep⟩
  | receiveClient f e preprocessed => exact ⟨W, h.receiveClient hstep⟩
  | receiveStart e => exact ⟨W, h.receiveStart hstep⟩
  | wake e => exact hengine hstep fun _ => engineMove_wake (h.engines e)
  | handleNext e => exact hengine hstep fun _ => engineMove_handleNext h
  | clearAborts e => exact hengine hstep fun _ => engineMove_clearAborts (h.engines e)
  | connectorState e delayedFrees pendingPushWork =>
    cases hstep
    exact ⟨W, h.setEngine (engineMove_connectorState (h.engines e) delayedFrees pendingPushWork)⟩
  | enterStep e scheduled stopped =>
    exact hengine hstep fun _ => engineMove_enterStep (h.engines e)
  | modelStep deferred stopped => exact ⟨W, h.modelStep hstep⟩
  | allReduce => exact h.allReduce hstep

theorem reachable_waveInv
    (h : Reachable WaveSystem.step (fun _ _ => True) (.init batchQueueSize) s) :
    ∃ W, WaveInv W s := by
  refine h.rule (P := fun s => ∃ W, WaveInv W s) ⟨0, WaveInv.init batchQueueSize⟩ ?_
  rintro s e s' ⟨W, hs⟩ - hstep
  exact hs.step hstep

theorem WaveInv.all_running (h : WaveInv W s) (hquiet : s.Quiet) {e : Fin n}
    (he : (s.engines e).Engaged) (e' : Fin n) : (s.engines e').enginesRunning := by
  have hstarted : s.Started W := by
    obtain ⟨-, hs | ⟨f, hf⟩⟩ | ⟨e'', hself⟩ := h.engaged e he
    · exact hs
    · obtain hf | hf := hf
      · exact absurd (hquiet.firstReqs f) hf
      · exact absurd (hquiet.toCoordinator f) hf
    · rw [hquiet.outputQueue e''] at hself
      cases hself
  obtain hrun | ⟨x, -, hmem⟩ := h.started hstarted e'
  · exact hrun
  · rw [hquiet.startWaves e', hquiet.inputQueue e'] at hmem
    simp at hmem

/-- In a quiet state all engines have work, or none is running, has an unfinished request or
waits in a collective. Then an engine has work only for the ids of finished requests, a connector or
its batch queue, and sees to it without the other engines. -/
theorem none_stranded (h : Reachable WaveSystem.step (fun _ _ => True) (.init batchQueueSize) s)
    (hquiet : s.Quiet) :
    (∀ e, (s.engines e).hasWork) ∨
      ∀ e, ¬(s.engines e).Engaged ∧ ¬(s.engines e).phase.Collective ∧
        ((s.engines e).hasWork ↔ (s.engines e).hasFinishedRequests ∨
          (s.engines e).pendingPushWork ∨ 0 < (s.engines e).batchQueue) ∧
        (s.engines e).StepsAlone := by
  obtain ⟨W, hinv⟩ := reachable_waveInv h
  by_cases hany : ∃ e, (s.engines e).Engaged
  · obtain ⟨e, he⟩ := hany
    refine .inl fun e' => ?_
    rw [hasWork, hinv.all_running hquiet he e', Bool.true_or, Bool.true_or]
  · refine .inr fun e => ?_
    have he : ¬(s.engines e).Engaged := fun he => hany ⟨e, he⟩
    refine ⟨he, ?_, ?_, stepsAlone_of_not_engaged he⟩
    · intro hphase
      have hok := hinv.engines e
      cases hp : (s.engines e).phase with
      | inModel executed => exact he (hok.inModel executed hp)
      | inAllReduce unfinished => exact he (.inl (hok.inAllReduce unfinished hp).1)
      | waiting => simp [hp, LoopPhase.Collective] at hphase
      | draining => simp [hp, LoopPhase.Collective] at hphase
    · rw [Engaged, not_or, Bool.not_eq_true, Bool.not_eq_true] at he
      simp [hasWork, hasRequests, he.1, he.2, or_assoc]

/-- Engines with async scheduling: a batch queue of two. -/
abbrev asyncEngines (m n : ℕ) : WaveSystem m n := .init fun _ => 2

/-- A request on engine 0 that finishes in the last step of its wave. -/
def lastStepRun : List (Event 1 2) :=
  [.addRequest 0 0 7 false, .subscribe 0, .sendFirstReq 0, .coordinate (some 0) none,
    .receiveClient 0 0 true, .receiveStart 0, .receiveStart 1, .handleNext 0, .wake 0,
    .handleNext 0, .enterStep 0 true [], .handleNext 1, .wake 1, .enterStep 1 false [],
    .modelStep (fun _ => false) fun _ => []] ++
  (List.replicate 30 [.wake 0, .enterStep 0 true [], .wake 1, .enterStep 1 false [],
    .modelStep (fun _ => false) fun _ => []]).flatten ++
  [.wake 0, .enterStep 0 true [], .wake 1, .enterStep 1 false [],
    .modelStep (fun _ => false) fun _ => [7], .allReduce, .coordinate none (some 0), .readStats 0 1]

theorem lastStepRun_quiet : ∃ s, run WaveSystem.step (asyncEngines 1 2) lastStepRun = some s ∧
    s.Quiet ∧ (s.engines 0).hasWork = true ∧ (s.engines 1).hasWork = false := by
  have hrun : (run WaveSystem.step (asyncEngines 1 2) lastStepRun).map (fun s =>
      (decide ((∀ f e, s.toEngine f e = []) ∧ (∀ f, s.toCoordinator f = []) ∧
        (∀ f, (s.clients f).firstReqs = []) ∧ (∀ f, s.published f = []) ∧
        (∀ e, s.startWaves e = []) ∧ (∀ e, (s.engines e).outputQueue = []) ∧
        ∀ e, (s.engines e).inputQueue = []),
      (s.engines 0).hasWork, (s.engines 1).hasWork)) = some (true, true, false) := by
    decide +kernel
  obtain ⟨s, hs, heq⟩ := Option.map_eq_some_iff.mp hrun
  obtain ⟨hquiet, hwork⟩ := Prod.mk.inj heq
  obtain ⟨h0, h1⟩ := Prod.mk.inj hwork
  obtain ⟨h₁, h₂, h₃, h₄, h₅, h₆, h₇⟩ := of_decide_eq_true hquiet
  exact ⟨s, hs, ⟨h₁, h₂, h₃, h₄, h₅, h₆, h₇⟩, h0, h1⟩

/-- After a wave whose last request finished in the step of its last all-reduce, one engine still
has the id of the request to pass on, and the other has no work. -/
theorem has_work_differs : ∃ s,
    Reachable WaveSystem.step (fun _ _ => True) (asyncEngines 1 2) s ∧ s.Quiet ∧
      ¬((∀ e, (s.engines e).hasWork) ∨ ∀ e, ¬(s.engines e).hasWork) := by
  obtain ⟨s, hrun, hquiet, h0, h1⟩ := lastStepRun_quiet
  refine ⟨s, Reachable.init.run (fun _ _ _ => trivial) hrun, hquiet, ?_⟩
  rintro (hall | hnone)
  · simp [h1] at hall
  · exact hnone 0 h0

theorem none_stranded_last_step :
    ∃ s, run WaveSystem.step (asyncEngines 1 2) lastStepRun = some s ∧
      ((∀ e, (s.engines e).hasWork) ∨
        ∀ e, ¬(s.engines e).Engaged ∧ ¬(s.engines e).phase.Collective ∧
          ((s.engines e).hasWork ↔ (s.engines e).hasFinishedRequests ∨
            (s.engines e).pendingPushWork ∨ 0 < (s.engines e).batchQueue) ∧
          (s.engines e).StepsAlone) := by
  obtain ⟨s, hrun, hquiet, -⟩ := lastStepRun_quiet
  exact ⟨s, hrun, none_stranded (Reachable.init.run (fun _ _ _ => trivial) hrun) hquiet⟩

/-- All engines are in one wave, which neither the coordinator nor a front-end runs ahead of. While
an engine takes part in it, each other one runs or has its START_DP_WAVE on the way, or the
coordinator has yet to hear. -/
theorem waves_agree (h : Reachable WaveSystem.step (fun _ _ => True) (.init batchQueueSize) s) :
    (∀ e e', (s.engines e).currentWave = (s.engines e').currentWave) ∧
    (∀ e, s.coordinator.currentWave ≤ (s.engines e).currentWave) ∧
    (∀ f, (s.clients f).currentWave ≤ s.coordinator.currentWave) ∧
    ∀ e, (s.engines e).Engaged →
      (∀ e', (s.engines e').enginesRunning ∨ s.StartPending (s.engines e).currentWave e') ∨
        s.Notified ∨ s.SelfStarted (s.engines e).currentWave := by
  obtain ⟨W, hinv⟩ := reachable_waveInv h
  have hwave : ∀ e, (s.engines e).currentWave = W := fun e => (hinv.engines e).wave
  refine ⟨fun e e' => (hwave e).trans (hwave e').symm, ?_, hinv.clients.wave, ?_⟩
  · intro e
    rw [hwave e]
    exact hinv.coordinator
  · intro e he
    rw [hwave e]
    rcases hinv.engaged e he with ⟨-, hstarted | hnotified⟩ | hself
    · exact .inl (hinv.started hstarted)
    · exact .inr (.inl hnotified)
    · exact .inr (.inr hself)

/-- Engine 0 has started the wave, and engine 1 has not yet looked at its START_DP_WAVE. -/
theorem waves_agree_started : ∃ s : WaveSystem 1 2, (s.engines 0).enginesRunning = true ∧
    (s.engines 1).enginesRunning = false ∧ s.StartPending (s.engines 0).currentWave 1 := by
  have hrun : (run WaveSystem.step (asyncEngines 1 2) (lastStepRun.take 10)).map (fun s =>
      (((s.engines 0).enginesRunning, (s.engines 1).enginesRunning),
      decide (∀ f, (s.clients f).firstReqs = [] ∧ s.toCoordinator f = []),
      decide (∀ e, (s.engines e).outputQueue = []))) = some ((true, false), true, true) := by
    decide +kernel
  obtain ⟨s, hs, heq⟩ := Option.map_eq_some_iff.mp hrun
  simp only [Prod.mk.injEq, decide_eq_true_eq] at heq
  obtain ⟨⟨h0, h1⟩, hclients, houtputs⟩ := heq
  have hreach : Reachable WaveSystem.step (fun _ _ => True) (asyncEngines 1 2) s :=
    Reachable.init.run (fun _ _ _ => trivial) hs
  refine ⟨s, h0, h1, ?_⟩
  rcases (waves_agree hreach).2.2.2 0 (.inl h0) with hall | ⟨f, hf⟩ | ⟨e, he⟩
  · exact (hall 1).resolve_left (by simp [h1])
  · exact absurd hf (by simp [hclients f])
  · exact absurd he (by simp [houtputs e])

end WaveSystem
end Vllm.Dp
