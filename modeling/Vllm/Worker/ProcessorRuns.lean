import Vllm.Worker.BatchOrigins

/-! The logits processors over whole runs hold, at every row, the state of its request, unless a
minimum probability is too small for single precision or an output list is cut below its minimum. -/
namespace Vllm.Worker
open InputBatch SlotUpdate CachedRequestState Option

/-- The sampling parameters; requests that are pooled have none, as if all were left out. -/
def CachedRequestState.params (r : CachedRequestState) : SamplingParams :=
  r.samplingParams.getD {}

/-- The entry of a request whose output is shorter than its minimum. -/
def CachedRequestState.minTokensEntry (outputs : Outputs) (r : CachedRequestState) :
    Option MinTokensEntry :=
  if (outputs r.outputTokenIds).length < r.params.minTokens then
    some ⟨r.params.minTokens, r.outputTokenIds, r.params.allStopTokenIds⟩
  else none

/-- Every processor holds, at every row, the state of the row's request. -/
structure ProcessorsFollow (s : RunnerState) : Prop where
  rows : ∀ i id, s.batch.owner i = some id → ∃ t, s.ledger id = some t ∧
    s.batch.logitsprocs.minP.minPCpu i = Float32.ofRat t.request.params.minP ∧
    s.batch.logitsprocs.logitBias.biases.get? i = t.request.params.logitBias.filter (· ≠ []) ∧
    s.batch.logitsprocs.minTokens.minToks.get? i = t.request.minTokensEntry s.outputs
  idle : ∀ i, s.batch.numReqs ≤ i →
    s.batch.logitsprocs.minP.minPCpu i = 0 ∧
    s.batch.logitsprocs.logitBias.biases.get? i = none ∧
    s.batch.logitsprocs.minTokens.minToks.get? i = none
  count : ∃ F : Finset RequestId, (∀ id, id ∈ F ↔
      ∃ i t, s.batch.owner i = some id ∧ s.ledger id = some t ∧ t.request.params.minP ≠ 0) ∧
    s.batch.logitsprocs.minP.minPCount = F.card

/-- A minimum probability that is not lost in single precision. -/
def Storable (q : ℚ) : Prop := q = 0 ∨ 2 ^ (-150 : ℤ) < |q|

instance (q : ℚ) : Decidable (Storable q) := inferInstanceAs (Decidable (_ ∨ _))

theorem Storable.ofRat_eq_zero_iff {q : ℚ} (h : Storable q) : Float32.ofRat q = 0 ↔ q = 0 := by
  refine ⟨fun hzero => ?_, fun hzero => by rw [hzero, Float32.ofRat_zero]⟩
  rcases h with h | h
  · exact h
  · exact absurd (Float32.ofRat_eq_zero_iff.mp hzero) (not_le.mpr h)

/-- The steps after which the processors are right: minimum probabilities are storable, and no
output list is cut below the minimum that a request of the last refresh had attained. -/
def steadyStep (s : RunnerState) : Event → Prop
  | .add r => Storable r.params.minP
  | .setOutput ref tokens => ∀ id t j, s.batch.Live id → s.ledger id = some t →
      s.origin id = .kept j → t.request.outputTokenIds = ref →
      t.request.params.minTokens ≤ (s.outputs ref).length →
      t.request.params.minTokens ≤ tokens.length
  | _ => True

/-- What the min-tokens processor may hold for a request between two refreshes. -/
def SuitsMinTokens (outputs : Outputs) (r : CachedRequestState) (o : Option MinTokensEntry) :
    Prop :=
  o = none ∧ r.params.minTokens ≤ (outputs r.outputTokenIds).length ∨
    o = some ⟨r.params.minTokens, r.outputTokenIds, r.params.allStopTokenIds⟩

variable {r : CachedRequestState} {s : RunnerState}

theorem RecordOf.params_eq {a : AddedRequest} (h : RecordOf a r) : r.params = a.params := by
  rw [params, h.1, getD_some]

theorem RecordOf.suitsMinTokens {a : AddedRequest} (h : RecordOf a r) (outputs : Outputs) :
    SuitsMinTokens outputs r (MinTokensLogitsProcessor.addRequest outputs a) := by
  rw [SuitsMinTokens, MinTokensLogitsProcessor.addRequest, h.params_eq, ← h.2.2]
  split
  · rename_i hdone
    refine .inl ⟨rfl, ?_⟩
    omega
  · exact .inr rfl

theorem SuitsMinTokens.filter_eq {outputs : Outputs} {o : Option MinTokensEntry}
    (h : SuitsMinTokens outputs r o) :
    (o.filter fun e => (outputs e.outTokIds).length < e.minTokens) = r.minTokensEntry outputs := by
  rw [minTokensEntry]
  rcases h with ⟨rfl, hle⟩ | rfl
  · rw [if_neg (not_lt.mpr hle)]
    rfl
  · rw [filter_some]
    split <;> simp_all

theorem suitsMinTokens_entry (outputs : Outputs) (r : CachedRequestState) :
    SuitsMinTokens outputs r (r.minTokensEntry outputs) := by
  rw [minTokensEntry]
  split
  · exact .inr rfl
  · rename_i hle
    exact .inl ⟨rfl, not_lt.mp hle⟩

/-- What the processors hold between two refreshes. -/
structure ProcessorInv (s : RunnerState) : Prop where
  counts : s.batch.logitsprocs.minP.CountsRows
  minP : Carries s 0 s.batch.logitsprocs.minP.minPCpu
    fun _ r v => v = Float32.ofRat r.params.minP
  bias : Carries s none s.batch.logitsprocs.logitBias.biases.get?
    fun _ r v => v = r.params.logitBias.filter (· ≠ [])
  minTokens : Carries s none s.batch.logitsprocs.minTokens.minToks.get?
    fun _ => SuitsMinTokens s.outputs
  added : ∀ a ∈ s.batch.batchUpdateBuilder.added, Storable a.params.minP

namespace ProcessorInv

theorem init (c : BatchConfig) (outputs : Outputs) : ProcessorInv (RunnerState.init c outputs) := by
  have hlive : ∀ id, ¬(RunnerState.init c outputs).batch.Live id := by
    rintro id ⟨i, hi⟩
    exact absurd hi (by simp [RunnerState.init, BatchConfig.newBatch, owner])
  refine ⟨⟨∅, fun i => ?_, rfl⟩, ⟨?_, fun _ _ => rfl⟩, ⟨?_, fun _ _ => rfl⟩,
    ⟨?_, fun _ _ => rfl⟩, ?_⟩
  · simp [RunnerState.init, BatchConfig.newBatch]
  · exact fun id _ _ h => absurd h (hlive id)
  · exact fun id _ _ h => absurd h (hlive id)
  · exact fun id _ _ h => absurd h (hlive id)
  · intro a ha
    exact absurd ha (by simp [RunnerState.init, BatchConfig.newBatch])

theorem continues {s s' : RunnerState} {e : Event} (h : ProcessorInv s)
    (hok : steadyStep s e) (ht : Transition s e s') (he : e ≠ .refresh) : ProcessorInv s' := by
  have hcont := ht.continues he
  have hsame := hcont.setup.logitsprocs
  refine ⟨?_, ?_, ?_, ?_, ?_⟩
  · rw [hsame]
    exact h.counts
  · rw [hsame]
    exact h.minP.continues hcont
  · rw [hsame]
    exact h.bias.continues hcont
  · rw [hsame]
    cases ht with
    | setOutput =>
      rename_i ref tokens
      refine ⟨?_, h.minTokens.idle⟩
      intro id t j hlive hledger horigin
      rcases h.minTokens.kept id t j hlive hledger horigin with ⟨hnone, hle⟩ | hsome
      · refine .inl ⟨hnone, ?_⟩
        dsimp only
        by_cases href : t.request.outputTokenIds = ref
        · rw [href, Function.update_self]
          rw [href] at hle
          exact hok id t j hlive hledger horigin href hle
        · rw [Function.update_of_ne href]
          exact hle
      · exact .inr hsome
    | refresh => exact absurd rfl he
    | absent | remove | add | condense | swap | write => exact h.minTokens.continues hcont
  · obtain ⟨extra, hadded, hextra⟩ := ht.added_eq he
    intro a ha
    rw [hadded, List.mem_append] at ha
    rcases ha with ha | ha
    · exact h.added a ha
    · obtain ⟨r, rfl, hrecord⟩ := hextra a ha
      rw [← hrecord.params_eq]
      exact hok

end ProcessorInv

theorem refreshMetadata_logitsprocs (outputs : Outputs) {b : InputBatch}
    (hp : b.isPoolingModel = false) :
    ∃ batchUpdate, HandedOver batchUpdate b.batchUpdateBuilder ∧
      (b.refreshMetadata outputs).logitsprocs = b.logitsprocs.updateState outputs batchUpdate := by
  refine ⟨(b.batchUpdateBuilder.getAndReset b.numReqs).1, ?_, ?_⟩
  · obtain ⟨-, -, -, hcases⟩ := b.batchUpdateBuilder.getAndReset_cases b.numReqs
    rcases hcases with hnone | hsome
    · exact .inl hnone
    · exact .inr ⟨b.numReqs, hsome⟩
  · unfold refreshMetadata
    rw [hp, if_neg Bool.false_ne_true]
    dsimp only
    split <;> rfl

theorem refreshMetadata_pooling (outputs : Outputs) {b : InputBatch}
    (hp : b.isPoolingModel = true) :
    (b.refreshMetadata outputs).logitsprocs = b.logitsprocs ∧
      (b.refreshMetadata outputs).thinkingBudgetStateHolder = b.thinkingBudgetStateHolder := by
  unfold refreshMetadata
  rw [hp, if_pos rfl]
  dsimp only [BatchUpdateBuilder.reset]
  split <;> exact ⟨rfl, rfl⟩

/-- The rows right after a refresh. -/
structure RowsRefreshed (s : RunnerState) (procs : LogitsProcessors) : Prop where
  counts : procs.minP.CountsRows
  rows : ∀ i id t, s.batch.owner i = some id → s.ledger id = some t →
    procs.minP.minPCpu i = Float32.ofRat t.request.params.minP ∧
    procs.logitBias.biases.get? i = t.request.params.logitBias.filter (· ≠ []) ∧
    procs.minTokens.minToks.get? i = t.request.minTokensEntry s.outputs
  idle : ∀ i, s.batch.owner i = none → procs.minP.minPCpu i = 0 ∧
    procs.logitBias.biases.get? i = none ∧ procs.minTokens.minToks.get? i = none

theorem ProcessorInv.rowsRefreshed (h : ProcessorInv s) (ho : OriginInv s)
    (hp : s.batch.isPoolingModel = false) :
    RowsRefreshed s (s.batch.refreshMetadata s.outputs).logitsprocs := by
  obtain ⟨batchUpdate, hhanded, hprocs⟩ := refreshMetadata_logitsprocs s.outputs hp
  obtain ⟨hcounts, hminP, hbias, hminTokens⟩ := LogitsProcessors.updateState_spec s.outputs
    hhanded ho.traced.proper h.counts fun a ha => (h.added a ha).ofRat_eq_zero_iff.mp
  obtain ⟨hminProws, hminPidle⟩ := h.minP.applied_records ho
    (fun a => Float32.ofRat a.params.minP) fun _ a r hrecord => by rw [hrecord.params_eq]
  obtain ⟨hbiasRows, hbiasIdle⟩ := h.bias.applied_records ho
    LogitBiasLogitsProcessor.newState fun _ a r hrecord => by
      rw [hrecord.params_eq]
      rfl
  obtain ⟨hminTokensRows, hminTokensIdle⟩ := h.minTokens.applied_records ho
    (MinTokensLogitsProcessor.addRequest s.outputs) fun _ a r hrecord =>
      hrecord.suitsMinTokens s.outputs
  rw [hprocs]
  refine ⟨hcounts, ?_, ?_⟩
  · intro i id t howner hledger
    rw [hminP, hbias, hminTokens]
    exact ⟨hminProws i id t howner hledger, hbiasRows i id t howner hledger,
      (hminTokensRows i id t howner hledger).filter_eq⟩
  · intro i howner
    rw [hminP, hbias, hminTokens, hminPidle i howner, hbiasIdle i howner, hminTokensIdle i howner]
    exact ⟨rfl, rfl, rfl⟩

theorem ProcessorInv.refresh (hs : RowsRefreshed s (s.batch.refreshMetadata s.outputs).logitsprocs)
    (hdense : s.batch.Dense) :
    ProcessorInv { s with
      phase := .refreshed
      batch := s.batch.refreshMetadata s.outputs
      origin := fun id => .kept (s.batch.reqIdToIndex.getD id 0)
      base := s.batch.numReqs } := by
  have howner := OriginInv.owner_refreshMetadata s.outputs s.batch
  refine ⟨hs.counts, ?_, ?_, ?_, ?_⟩
  · exact Carries.refreshed hdense howner
      (fun i id t ho ht => (hs.rows i id t ho ht).1) fun i hi => (hs.idle i hi).1
  · exact Carries.refreshed hdense howner
      (fun i id t ho ht => (hs.rows i id t ho ht).2.1) fun i hi => (hs.idle i hi).2.1
  · refine Carries.refreshed hdense howner ?_ fun i hi => (hs.idle i hi).2.2
    intro i id t ho ht
    rw [(hs.rows i id t ho ht).2.2]
    exact suitsMinTokens_entry s.outputs t.request
  · obtain ⟨_, _, _, _, heq, -, hadded, -⟩ := s.batch.refreshMetadata_eq s.outputs
    intro a ha
    rw [heq] at ha
    dsimp only at ha
    rw [hadded] at ha
    exact absurd ha (by simp)

theorem RowsRefreshed.follow {s' : RunnerState} (hs : RowsRefreshed s s'.batch.logitsprocs)
    (hdense : s.batch.Dense) (hinv : RunInv s)
    (hstore : ∀ id t, s.ledger id = some t → Storable t.request.params.minP)
    (howner : s'.batch.owner = s.batch.owner) (hnum : s'.batch.numReqs = s.batch.numReqs)
    (hledger : s'.ledger = s.ledger) (houtputs : s'.outputs = s.outputs) :
    ProcessorsFollow s' := by
  refine ⟨?_, ?_, ?_⟩
  · intro i id hi
    rw [howner] at hi
    obtain ⟨t, ht, -⟩ := hinv.follows.shows i id hi
    rw [hledger, houtputs]
    exact ⟨t, ht, hs.rows i id t hi ht⟩
  · intro i hi
    rw [hnum] at hi
    exact hs.idle i (hdense.owner_none hi)
  · obtain ⟨F, hF, hcount⟩ := hs.counts
    rw [howner, hledger]
    have hrow : ∀ i, i ∈ F → ∃ id t, s.batch.owner i = some id ∧ s.ledger id = some t ∧
        t.request.params.minP ≠ 0 := by
      intro i hi
      rw [hF] at hi
      cases hown : s.batch.owner i with
      | none => exact absurd (hs.idle i hown).1 hi
      | some id =>
        obtain ⟨t, ht, -⟩ := hinv.follows.shows i id hown
        refine ⟨id, t, rfl, ht, fun hzero => hi ?_⟩
        rw [(hs.rows i id t hown ht).1, hzero, Float32.ofRat_zero]
    refine ⟨F.image fun i => (s.batch.owner i).getD 0, ?_, ?_⟩
    · intro id
      rw [Finset.mem_image]
      constructor
      · rintro ⟨i, hi, rfl⟩
        obtain ⟨id, t, hown, ht, hne⟩ := hrow i hi
        exact ⟨i, t, by rw [hown]; rfl, by rw [hown]; exact ht, hne⟩
      · rintro ⟨i, t, hown, ht, hne⟩
        refine ⟨i, ?_, by rw [hown]; rfl⟩
        rw [hF, (hs.rows i id t hown ht).1]
        exact fun hzero => hne ((hstore id t ht).ofRat_eq_zero_iff.mp hzero)
    · rw [Finset.card_image_of_injOn, hcount]
      intro i hi j hj hij
      obtain ⟨idi, -, howni, -⟩ := hrow i hi
      obtain ⟨idj, -, hownj, -⟩ := hrow j hj
      dsimp only at hij
      rw [howni, hownj, getD_some, getD_some] at hij
      subst hij
      exact hdense.owner_inj howni hownj

theorem ProcessorsFollow.init (c : BatchConfig) (outputs : Outputs) :
    ProcessorsFollow (RunnerState.init c outputs) := by
  have hnone : ∀ i id, (RunnerState.init c outputs).batch.owner i ≠ some id := by
    intro i id hi
    exact absurd hi (by simp [RunnerState.init, BatchConfig.newBatch, owner])
  refine ⟨fun i id hi => absurd hi (hnone i id), fun i _ => ⟨rfl, rfl, rfl⟩, ∅, ?_, rfl⟩
  intro id
  refine iff_of_false (by simp) ?_
  rintro ⟨i, t, hi, -⟩
  exact hnone i id hi

theorem Reachable.processorInv {c : BatchConfig} (h : Reachable c steadyStep s)
    (hp : c.isPoolingModel = false) :
    ProcessorInv s ∧ (s.phase = .refreshed → ProcessorsFollow s) := by
  refine h.rule (P := fun s => ProcessorInv s ∧ (s.phase = .refreshed → ProcessorsFollow s))
    (fun outputs => ⟨ProcessorInv.init c outputs, fun _ => ProcessorsFollow.init c outputs⟩) ?_
  intro s e s' hs hinv _ hok hP ht
  by_cases he : e = .refresh
  · subst he
    cases ht with
    | refresh hphase hdense =>
      have hrows := hP.1.rowsRefreshed (hs.originInv hp) (hs.isPoolingModel.trans hp)
      refine ⟨ProcessorInv.refresh hrows hdense, fun _ => ?_⟩
      have hstore := hs.requests (Q := fun r => Storable r.params.minP) fun _ _ hok _ => hok
      refine RowsRefreshed.follow hrows hdense hinv hstore
        (OriginInv.owner_refreshMetadata s.outputs s.batch) ?_ rfl rfl
      obtain ⟨_, _, _, _, heq, -⟩ := s.batch.refreshMetadata_eq s.outputs
      dsimp only
      rw [heq]
      rfl
  · exact ⟨hP.1.continues hok ht he, fun hphase => absurd hphase (ht.late he)⟩

/-- The processors of a pooling model are never touched. -/
theorem Reachable.logitsprocs_pooling {c : BatchConfig} {ok : RunnerState → Event → Prop}
    (h : Reachable c ok s) (hp : c.isPoolingModel = true) :
    s.batch.logitsprocs = {} := by
  refine h.rule (P := fun s => s.batch.logitsprocs = {}) (fun _ => rfl) ?_
  intro s e s' hs _ _ _ hsame ht
  by_cases he : e = .refresh
  · subst he
    cases ht with
    | refresh hphase hdense =>
      exact (refreshMetadata_pooling s.outputs (hs.isPoolingModel.trans hp)).1.trans hsame
  · exact (ht.continues he).setup.logitsprocs.trans hsame

/-- After each refresh of a run of steady steps the processors hold, at every row, the state of
the row's request, nothing at the rows behind, and the count is that of the requests with a
minimum probability. -/
theorem Reachable.processors_follow {c : BatchConfig} {s : RunnerState}
    (h : Reachable c steadyStep s) (hphase : s.phase = .refreshed) : ProcessorsFollow s := by
  cases hp : c.isPoolingModel with
  | false => exact (h.processorInv hp).2 hphase
  | true =>
    have hprocs := h.logitsprocs_pooling hp
    have hnone := h.requests (Q := fun r => r.samplingParams = none) fun _ r _ hkind => by
      rw [hp] at hkind
      exact not_isSome_iff_eq_none.mp (by simp [hkind])
    have hparams : ∀ id t, s.ledger id = some t → t.request.params = {} := by
      intro id t ht
      rw [params, hnone id t ht, getD_none]
    refine ⟨?_, ?_, ∅, ?_, ?_⟩
    · intro i id hi
      obtain ⟨t, ht, -⟩ := h.runInv.follows.shows i id hi
      refine ⟨t, ht, ?_⟩
      rw [hprocs, minTokensEntry, hparams id t ht]
      exact ⟨Float32.ofRat_zero.symm, rfl, by simp⟩
    · intro i _
      rw [hprocs]
      exact ⟨rfl, rfl, rfl⟩
    · intro id
      refine iff_of_false (by simp) ?_
      rintro ⟨i, t, -, ht, hne⟩
      rw [hparams id t ht] at hne
      exact hne rfl
    · rw [hprocs]
      rfl

/-- Steps that leave the output lists alone. -/
def quietStep (_ : RunnerState) : Event → Prop
  | .add r => Storable r.params.minP
  | .setOutput _ _ => False
  | _ => True

instance (s : RunnerState) (e : Event) : Decidable (quietStep s e) := by
  refine e.casesOn ?_ ?_ ?_ ?_ ?_ ?_ ?_ <;> intros <;> unfold quietStep <;> infer_instance

/-- Requests with a minimum probability, a bias and a minimum length; the last one slides into
the row of the first and is then exchanged with the other one. -/
def mixedRequests : List Event :=
  [.add (sampledRequest 1 [7, 7] { minP := 1 / 2, minTokens := 3, allStopTokenIds := [9] }),
    .add (sampledRequest 2 [5] { logitBias := some [(5, 1)] }),
    .add (sampledRequest 3 [4] { minP := 1 / 4, minTokens := 2, allStopTokenIds := [8] }),
    .condense, .refresh, .remove 1, .condense, .swap 0 1, .refresh]

theorem processors_follow_mixedRequests :
    ∃ s, Reachable smallBatch steadyStep s ∧ s.batch.reqIds = [some 2, some 3] ∧
      s.batch.logitsprocs.minP.minPCount = 1 ∧ ProcessorsFollow s := by
  obtain ⟨s, hrun, hfacts⟩ := Raises.exists_ok
    (show (((RunnerState.init smallBatch fun _ => []).run quietStep mixedRequests).toOption.map
      fun s => (decide (s.phase = .refreshed ∧ s.batch.reqIds = [some 2, some 3] ∧
        s.batch.logitsprocs.minP.minPCount = 1))) = some true by decide +kernel)
  obtain ⟨hphase, hids, hcount⟩ := of_decide_eq_true hfacts
  have hquiet : ∀ s e, quietStep s e → steadyStep s e := by
    intro s e hok
    cases e with
    | add r => exact hok
    | setOutput ref tokens => exact hok.elim
    | remove | condense | swap | refresh | write => trivial
  have hreach : Reachable smallBatch steadyStep s := ((Reachable.init _).run hrun).mono hquiet
  exact ⟨s, hreach, hids, hcount, hreach.processors_follow hphase⟩

/-- A request with a minimum probability below what single precision can hold takes the row of
one that had a larger one, and leaves again. -/
def tinyMinP : List Event :=
  [.add (sampledRequest 1 [7] { minP := 1 / 2 }), .condense, .refresh,
    .remove 1, .add (sampledRequest 2 [5] { minP := 1 / 10 ^ 46 }), .condense, .refresh,
    .remove 2, .condense, .refresh]

/-- The output of a request is cut again after it had attained its minimum length. -/
def cutOutput : List Event :=
  [.add (sampledRequest 1 [7] { minTokens := 3, allStopTokenIds := [9] }), .condense, .refresh,
    .setOutput 1 [5, 5, 5], .condense, .refresh, .setOutput 1 [5], .condense, .refresh]

/-- Without any request one is still counted; a request whose output is too short has no entry. -/
theorem exists_processors_not_follow :
    (∃ s, Reachable smallBatch anyStep s ∧ s.phase = .refreshed ∧ s.batch.reqIds = [] ∧
      s.batch.logitsprocs.minP.minPCount = 1 ∧ ¬ProcessorsFollow s) ∧
    ∃ s, Reachable smallBatch anyStep s ∧ s.phase = .refreshed ∧ s.batch.reqIds = [some 1] ∧
      s.outputs 1 = [5] ∧ s.batch.logitsprocs.minTokens.minToks.get? 0 = none ∧
      ¬ProcessorsFollow s := by
  constructor
  · obtain ⟨s, hrun, hfacts⟩ := Raises.exists_ok
      (show (((RunnerState.init smallBatch fun _ => []).run anyStep tinyMinP).toOption.map
        fun s => (decide (s.phase = .refreshed ∧ s.batch.reqIds = [] ∧
          s.batch.logitsprocs.minP.minPCount = 1))) = some true by decide +kernel)
    obtain ⟨hphase, hids, hcount⟩ := of_decide_eq_true hfacts
    refine ⟨s, (Reachable.init _).run hrun, hphase, hids, hcount, ?_⟩
    rintro ⟨-, -, F, hF, hcard⟩
    have hempty : F = ∅ := by
      refine Finset.eq_empty_of_forall_notMem fun id hid => ?_
      obtain ⟨i, t, hi, -⟩ := (hF id).mp hid
      rw [owner, hids] at hi
      exact absurd hi (by simp)
    rw [hcount, hempty] at hcard
    exact absurd hcard (by simp)
  · obtain ⟨s, hrun, hfacts⟩ := Raises.exists_ok
      (show (((RunnerState.init smallBatch fun _ => []).run anyStep cutOutput).toOption.map
        fun s => (decide (s.phase = .refreshed ∧ s.batch.reqIds = [some 1] ∧ s.outputs 1 = [5] ∧
          s.batch.logitsprocs.minTokens.minToks.get? 0 = none ∧
          (s.ledger 1).map (·.request) =
            some (sampledRequest 1 [7] { minTokens := 3, allStopTokenIds := [9] })))) =
          some true by decide +kernel)
    obtain ⟨hphase, hids, hout, hnone, hledger⟩ := of_decide_eq_true hfacts
    refine ⟨s, (Reachable.init _).run hrun, hphase, hids, hout, hnone, ?_⟩
    rintro ⟨hrows, -, -⟩
    obtain ⟨t, ht, -, -, hentry⟩ := hrows 0 1 (by rw [owner, hids]; rfl)
    rw [ht, map_some, Option.some.injEq] at hledger
    rw [hnone, hledger, minTokensEntry] at hentry
    have hshort : (s.outputs 1).length < 3 := by
      rw [hout]
      decide
    split at hentry
    · exact absurd hentry (by simp)
    · rename_i hlong
      exact hlong hshort

end Vllm.Worker
