import Vllm.Worker.RowWrites

/-! Runs of the model runner on its batch: each step removes, adds, condenses, may exchange rows,
and refreshes, with writes to the rows in between. A ledger keeps what was written for each request.
-/
namespace Vllm.Worker
open Function Raises

/-- How far a step has come; `refreshed` is the point between two steps. -/
inductive Phase where
  | refreshed | removing | adding | condensed
  deriving DecidableEq, Repr

inductive Event where
  | remove (reqId : RequestId)
  | add (request : CachedRequestState)
  | condense
  | swap (i1 i2 : ℕ)
  | refresh
  | write (reqId : RequestId) (w : RowWrite)
  | setOutput (ref : ListRef) (tokens : List TokenId)
  deriving DecidableEq

/-- The order in which the model runner makes its calls. -/
def nextPhase : Phase → Event → Option Phase
  | .refreshed, .remove _ | .removing, .remove _ => some .removing
  | .refreshed, .add _ | .removing, .add _ | .adding, .add _ => some .adding
  | .refreshed, .condense | .removing, .condense | .adding, .condense => some .condensed
  | .condensed, .swap _ _ => some .condensed
  | .condensed, .refresh => some .refreshed
  | .refreshed, .write _ _ | .refreshed, .setOutput _ _ => some .removing
  | phase, .write _ _ | phase, .setOutput _ _ => some phase
  | _, _ => none

/-- Before the first request of a step is added. -/
def Phase.Early (p : Phase) : Prop := p = .refreshed ∨ p = .removing

/-- The phase after a write. -/
def Phase.written : Phase → Phase
  | .refreshed => .removing
  | p => p

variable {p phase : Phase}

theorem Phase.Early.ne (h : p.Early) : p ≠ .condensed := by
  rintro rfl
  rcases h with h | h <;> exact absurd h (by simp)

theorem Phase.written_eq_condensed : p.written = .condensed ↔ p = .condensed := by
  cases p <;> simp [written]

theorem Phase.written_ne_refreshed (p : Phase) : p.written ≠ .refreshed := by
  cases p <;> simp [written]

theorem Phase.early_of_written (h : p.written.Early) : p.Early := by
  cases p with
  | refreshed => exact .inl rfl
  | removing => exact .inr rfl
  | adding | condensed => exact h

theorem nextPhase_spec {e : Event} (h : nextPhase p e = some phase) :
    match e with
    | .remove _ => p.Early ∧ phase = .removing
    | .add _ => p ≠ .condensed ∧ phase = .adding
    | .condense => p ≠ .condensed ∧ phase = .condensed
    | .swap _ _ => p = .condensed ∧ phase = .condensed
    | .refresh => p = .condensed ∧ phase = .refreshed
    | .write _ _ | .setOutput _ _ => phase = p.written := by
  revert h
  cases e <;> cases p <;> simp [nextPhase, Phase.Early, Phase.written, eq_comm]

theorem of_update_none {α β : Type} [DecidableEq α] {f : α → Option β} {a x : α} {y : β}
    (h : update f a none x = some y) : f x = some y := by
  by_cases hx : x = a
  · subst hx
    simp at h
  · rwa [update_of_ne hx] at h

/-- A request in the batch: as it was added, and what has been written for it. -/
structure Tracked where
  request : CachedRequestState
  row : RequestRow
  deriving DecidableEq

/-- Where the request of a row comes from, as of the last refresh: it was at some row already,
or it is one of those added since, in the order of their records. -/
inductive Origin where
  | kept (row : ℕ)
  | added (position : ℕ)
  deriving DecidableEq, Repr

structure RunnerState where
  phase : Phase
  batch : InputBatch
  outputs : Outputs
  ledger : RequestId → Option Tracked
  origin : RequestId → Origin
  base : ℕ

def RunnerState.init (c : BatchConfig) (outputs : Outputs) : RunnerState where
  phase := .refreshed
  batch := c.newBatch
  outputs := outputs
  ledger := fun _ => none
  origin := fun _ => .kept 0
  base := 0

namespace RunnerState

/-- What the callers of the batch see to: a request is added once, its parameters are those the
model is run with, and the token count does not fall below the prompt. -/
def WellFormed (s : RunnerState) : Event → Prop
  | .add r => s.batch.reqIdToIndex.get? r.reqId = none ∧
      r.samplingParams.isSome = !s.batch.isPoolingModel
  | .write id (.setNumTokens n _) => ∀ t, s.ledger id = some t → t.request.numPromptTokens ≤ n
  | .write _ (.setAccepted _) => s.batch.isPoolingModel = false
  | _ => True

instance (s : RunnerState) (e : Event) : Decidable (s.WellFormed e) := by
  unfold WellFormed
  split
  · infer_instance
  · rename_i id n _
    cases h : s.ledger id with
    | none => exact .isTrue (by simp)
    | some t => exact decidable_of_iff (t.request.numPromptTokens ≤ n) (by simp)
  · infer_instance
  · infer_instance

def step (s : RunnerState) : Event → Raises RunnerState
  | .remove id => do
    let (_, batch) ← s.batch.removeRequest id
    pure { s with batch, ledger := Function.update s.ledger id none }
  | .add r => do
    let (_, batch) ← s.batch.addRequest s.outputs r
    let row := RequestRow.ofRequest s.batch.vocabSize s.batch.blockTable s.outputs r
    pure { s with
      batch
      ledger := Function.update s.ledger r.reqId (some ⟨r, row⟩)
      origin := Function.update s.origin r.reqId
        (.added s.batch.batchUpdateBuilder.added.length) }
  | .condense => do
    let batch ← s.batch.condense
    pure { s with batch }
  | .swap i1 i2 => do
    let batch ← s.batch.swapStates i1 i2
    pure { s with batch }
  | .refresh =>
    pure { s with
      batch := s.batch.refreshMetadata s.outputs
      origin := fun id => .kept (s.batch.reqIdToIndex.getD id 0)
      base := s.batch.numReqs }
  | .write id w => do
    let batch ← s.batch.writeRow id w
    pure { s with
      batch
      ledger := Function.update s.ledger id ((s.ledger id).map fun t =>
        { t with row := t.row.write s.batch.blockTable w }) }
  | .setOutput ref tokens => pure { s with outputs := Function.update s.outputs ref tokens }

end RunnerState

/-- The states that runs reach, all of whose steps meet the condition `ok`. -/
inductive Reachable (c : BatchConfig) (ok : RunnerState → Event → Prop) : RunnerState → Prop
  | init (outputs : Outputs) : Reachable c ok (RunnerState.init c outputs)
  | step {s s' : RunnerState} {e : Event} {phase : Phase} (h : Reachable c ok s)
      (hphase : nextPhase s.phase e = some phase) (hwf : s.WellFormed e) (hok : ok s e)
      (hstep : s.step e = .ok s') : Reachable c ok { s' with phase }

/-- Every step of every run. -/
def anyStep : RunnerState → Event → Prop := fun _ _ => True

instance (s : RunnerState) (e : Event) : Decidable (anyStep s e) := inferInstanceAs (Decidable True)

/-- A run of given events, which fails where one of them is out of order. -/
def RunnerState.run (ok : RunnerState → Event → Prop) [∀ s e, Decidable (ok s e)]
    (s : RunnerState) : List Event → Raises RunnerState
  | [] => pure s
  | e :: es =>
    match nextPhase s.phase e with
    | none => throw .runtimeError
    | some phase =>
      if s.WellFormed e ∧ ok s e then do
        let s' ← s.step e
        { s' with phase }.run ok es
      else throw .runtimeError

variable {c : BatchConfig} {ok : RunnerState → Event → Prop} {s : RunnerState}

theorem Reachable.run [∀ s e, Decidable (ok s e)] {s' : RunnerState} {es : List Event}
    (hs : Reachable c ok s) (h : s.run ok es = .ok s') : Reachable c ok s' := by
  induction es generalizing s with
  | nil =>
    cases h
    exact hs
  | cons e es ih =>
    unfold RunnerState.run at h
    split at h
    · exact absurd h (by simp)
    · rename_i phase hphase
      split at h
      · rename_i hgood
        obtain ⟨s1, hstep, h⟩ := of_bind h
        exact ih (hs.step hphase hgood.1 hgood.2 hstep) h
      · exact absurd h (by simp)

theorem Reachable.mono {ok' : RunnerState → Event → Prop} (h : Reachable c ok s)
    (himp : ∀ s e, ok s e → ok' s e) : Reachable c ok' s := by
  induction h with
  | init outputs => exact .init outputs
  | step _ hphase hwf hok hstep ih => exact ih.step hphase hwf (himp _ _ hok) hstep

/-- Rows of requests in the batch show what was written for them, and no other row has a
generator or bad words. -/
structure Follows (b : InputBatch) (ledger : RequestId → Option Tracked) : Prop where
  shows : ∀ i id, b.owner i = some id → ∃ t, ledger id = some t ∧ b.Shows i t.row
  idle : ∀ i, b.owner i = none →
    b.generators.get? i = none ∧ b.badWordsTokenIds.get? i = none
  quiet : b.PoolingQuiet
  pooling : b.isPoolingModel = true → ∀ id t, ledger id = some t → t.row.scalars = none

namespace Follows
open InputBatch
variable {b b' : InputBatch} {ledger : RequestId → Option Tracked} {id : RequestId} {i : ℕ}

section
variable (h : Follows b ledger)
include h

theorem carry {j : ℕ} (hq : b'.PoolingQuiet) (hc : Carried b i b' j)
    (howner : b.owner i = some id) : ∃ t, ledger id = some t ∧ b'.Shows j t.row := by
  obtain ⟨t, ht, hshows⟩ := h.shows i id howner
  exact ⟨t, ht, hc.shows h.quiet hq (fun hp => h.pooling hp id t ht) hshows⟩

theorem remove (hb : b.Open) (hr : RemovedAt b b' id i) (howner : b.owner i = some id) :
    Follows b' (update ledger id none) := by
  have hown := hr.owner_eq (lt_length_of_owner howner)
  have hquiet : b'.PoolingQuiet := by
    intro hp
    rw [hr.setup.isPoolingModel] at hp
    rw [hr.generators, hr.badWords, hr.accepted, hp]
    exact h.quiet hp
  refine ⟨?_, ?_, hquiet, ?_⟩
  · intro k id' hk
    rw [hown] at hk
    have hki : k ≠ i := by
      rintro rfl
      simp at hk
    rw [update_of_ne hki] at hk
    have hid : id' ≠ id := by
      rintro rfl
      exact hki (hb.owner_inj hk howner)
    rw [update_of_ne hid]
    exact h.carry hquiet (hr.carried hki) hk
  · intro k hk
    rw [hown] at hk
    cases hp : b.isPoolingModel with
    | true =>
      obtain ⟨hgen, hbad, -⟩ := hquiet (hr.setup.isPoolingModel.trans hp)
      exact ⟨hgen k, hbad k⟩
    | false =>
      rw [hr.generators, hr.badWords, hp]
      by_cases hki : k = i
      · subst hki
        simp
      · rw [update_of_ne hki] at hk
        simpa [hki] using h.idle k hk
  · intro hp id' t ht
    rw [hr.setup.isPoolingModel] at hp
    exact h.pooling hp id' t (of_update_none ht)

theorem add {outputs : Outputs} {r : CachedRequestState} {n : ℕ} (hb : b.Open)
    (ha : AddedAt outputs b b' r i n) (hnew : b.reqIdToIndex.get? r.reqId = none)
    (hkind : r.samplingParams.isSome = !b.isPoolingModel) :
    Follows b' (update ledger r.reqId
      (some ⟨r, RequestRow.ofRequest b.vocabSize b.blockTable outputs r⟩)) := by
  obtain ⟨hgen, hbad⟩ := h.idle i (ha.free hb)
  have hown := ha.owner_eq
  obtain ⟨-, -, -, -, haccepted⟩ := ha.counts_eq
  have hnone : b.isPoolingModel = true → r.samplingParams = none := by
    intro hp
    rw [hp] at hkind
    exact Option.not_isSome_iff_eq_none.mp (by simp [hkind])
  have hquiet : b'.PoolingQuiet := by
    intro hp
    rw [ha.setup.isPoolingModel] at hp
    obtain ⟨hgens, hbads, hacc⟩ := h.quiet hp
    refine ⟨fun k => ?_, fun k => ?_, fun k => ?_⟩
    · rw [ha.generators_eq hgen, hnone hp]
      simpa using fun _ => hgens k
    · rw [ha.badWords_eq hbad, hnone hp]
      simpa using fun _ => hbads k
    · rw [haccepted, update_apply]
      split
      · rfl
      · exact hacc k
  refine ⟨?_, ?_, hquiet, ?_⟩
  · intro k id hk
    rw [hown] at hk
    by_cases hki : k = i
    · subst hki
      rw [update_self] at hk
      cases hk
      exact ⟨_, update_self _ _ _, ha.shows hb hgen hbad⟩
    · rw [update_of_ne hki] at hk
      have hid : id ≠ r.reqId := by
        rintro rfl
        rw [(hb.index _ _).mpr hk] at hnew
        exact absurd hnew (by simp)
      rw [update_of_ne hid]
      exact h.carry hquiet (ha.carried_of_ne hb hgen hbad hki) hk
  · intro k hk
    rw [hown] at hk
    have hki : k ≠ i := by
      rintro rfl
      simp at hk
    rw [update_of_ne hki] at hk
    rw [ha.generators_eq hgen, ha.badWords_eq hbad, if_neg hki, if_neg hki]
    exact h.idle k hk
  · intro hp id t ht
    rw [ha.setup.isPoolingModel] at hp
    by_cases hid : id = r.reqId
    · subst hid
      rw [update_self] at ht
      cases ht
      simp [RequestRow.ofRequest, hnone hp]
    · rw [update_of_ne hid] at ht
      exact h.pooling hp id t ht

theorem setBuilder (builder : BatchUpdateBuilder) :
    Follows { b with batchUpdateBuilder := builder } ledger :=
  ⟨fun i _ howner => h.carry h.quiet (carried_setBuilder b builder i) howner, h.idle, h.quiet,
    h.pooling⟩

theorem slide {last empty : ℕ} (hb : b.Indexed) (hs : SlidAt b b' id last empty)
    (hlt : empty < b.reqIds.length) (hne : empty ≠ last) (hfree : b.owner empty = none) :
    Follows b' ledger := by
  obtain ⟨hgen, hbad⟩ := h.idle empty hfree
  have hown := hs.owner_eq hlt
  have howned : b.owner last = some id := owner_eq_some.mpr hs.owned
  have hquiet : b'.PoolingQuiet := by
    intro hp
    rw [hs.setup.isPoolingModel] at hp
    rw [hs.generators, hs.badWords, hs.accepted, hp]
    exact h.quiet hp
  refine ⟨?_, ?_, hquiet, ?_⟩
  · intro k id' hk
    rw [hown] at hk
    have hkl : k ≠ last := by
      rintro rfl
      simp at hk
    rw [update_of_ne hkl] at hk
    by_cases hke : k = empty
    · subst hke
      rw [update_self] at hk
      cases hk
      exact h.carry hquiet (hs.carried hb hlt hne hgen hbad) howned
    · rw [update_of_ne hke] at hk
      exact h.carry hquiet (hs.carried_of_ne hb hlt hne hkl hke) hk
  · intro k hk
    rw [hown] at hk
    cases hp : b.isPoolingModel with
    | true =>
      obtain ⟨hgens, hbads, -⟩ := hquiet (hs.setup.isPoolingModel.trans hp)
      exact ⟨hgens k, hbads k⟩
    | false =>
      rw [hs.generators, hs.badWords, hp]
      simp only [Bool.false_eq_true, ↓reduceIte, get?_slideDictValue _ hne]
      by_cases hkl : k = last
      · simp [hkl]
      · rw [update_of_ne hkl] at hk
        have hke : k ≠ empty := by
          rintro rfl
          simp at hk
        rw [update_of_ne hke] at hk
        simpa [hkl, hke] using h.idle k hk
  · intro hp id' t ht
    rw [hs.setup.isPoolingModel] at hp
    exact h.pooling hp id' t ht

theorem trim (hb : Settled b) : Follows (b.trimLists b.numReqs) ledger := by
  have hown := hb.owner_trimLists
  refine ⟨?_, ?_, h.quiet, h.pooling⟩
  · intro k id' hk
    rw [hown] at hk
    have hlt : k < b.numReqs := by
      by_contra hge
      rw [hb.above k (not_lt.mp hge)] at hk
      exact absurd hk (by simp)
    exact h.carry h.quiet (hb.carried_trimLists hlt) hk
  · intro k hk
    rw [hown] at hk
    exact h.idle k hk

theorem swap {id1 id2 : RequestId} {i1 i2 : ℕ} (hb : b.Indexed)
    (hs : SwappedAt b b' id1 id2 i1 i2) : Follows b' ledger := by
  have hown := hs.owner_eq
  have hquiet : b'.PoolingQuiet := by
    intro hp
    rw [hs.setup.isPoolingModel] at hp
    rw [hs.generators, hs.badWords, hs.accepted, hp]
    exact h.quiet hp
  refine ⟨?_, ?_, hquiet, ?_⟩
  · intro k id' hk
    rw [hown, RowArray.swapRow_apply] at hk
    exact h.carry hquiet (hs.carried hb k) hk
  · intro k hk
    rw [hown, RowArray.swapRow_apply] at hk
    cases hp : b.isPoolingModel with
    | true =>
      obtain ⟨hgens, hbads, -⟩ := hquiet (hs.setup.isPoolingModel.trans hp)
      exact ⟨hgens k, hbads k⟩
    | false =>
      rw [hs.generators, hs.badWords, hp]
      simpa [get?_swapDictValues] using h.idle _ hk
  · intro hp id' t ht
    rw [hs.setup.isPoolingModel] at hp
    exact h.pooling hp id' t ht

theorem write {w : RowWrite} (hb : b.Indexed) (howner : b.owner i = some id)
    (hw : b.writeIndex i w = .ok b') (hkind : ∀ n, w = .setAccepted n → b.isPoolingModel = false) :
    Follows b' (update ledger id ((ledger id).map fun t =>
      { t with row := t.row.write b.blockTable w })) := by
  have hwrote := writeIndex_wroteAt hw
  have hown := hwrote.owner_eq
  obtain ⟨t, ht, hshows⟩ := h.shows i id howner
  have hshows' := writeIndex_shows (hb.lt_specTokenIds howner) hshows hw
  have hquiet : b'.PoolingQuiet := by
    intro hp
    rw [hwrote.setup.isPoolingModel] at hp
    obtain ⟨hgens, hbads, hacc⟩ := h.quiet hp
    rw [hwrote.generators, hwrote.badWords]
    refine ⟨hgens, hbads, fun k => ?_⟩
    by_cases hk : k = i
    · subst hk
      rw [hshows'.accepted]
      have hrow : t.row.numAcceptedTokens = 1 := by
        rw [← hshows.accepted]
        exact hacc k
      cases w with
      | setAccepted n => exact absurd (hkind n rfl) (by simp [hp])
      | specTokens _ | asyncSpecTokens _ | appendTokens _ | setNumTokens _ _ | setComputed _
      | appendBlocks _ => exact hrow
    · obtain ⟨_, _, _, _, _, accepted, _, rfl, hrows⟩ := writeIndex_eq_ok hw
      exact (hrows k hk).2.2.2.2.trans (hacc k)
  refine ⟨?_, ?_, hquiet, ?_⟩
  · intro k id' hk
    rw [hown] at hk
    by_cases hki : k = i
    · subst hki
      rw [howner] at hk
      cases hk
      exact ⟨_, by rw [update_self, ht]; rfl, hshows'⟩
    · have hid : id' ≠ id := by
        rintro rfl
        exact hki (hb.owner_inj hk howner)
      rw [update_of_ne hid]
      exact h.carry hquiet (hwrote.carried k hki) hk
  · intro k hk
    rw [hown] at hk
    rw [hwrote.generators, hwrote.badWords]
    exact h.idle k hk
  · intro hp id' t' ht'
    rw [hwrote.setup.isPoolingModel] at hp
    by_cases hid : id' = id
    · subst hid
      rw [update_self, ht] at ht'
      cases ht'
      simpa using h.pooling hp id' t ht
    · rw [update_of_ne hid] at ht'
      exact h.pooling hp id' t' ht'

theorem condense (hb : b.Open) (hc : b.condense = .ok b') :
    Follows b' ledger ∧ b'.Dense ∧ b'.numReqs = b.numReqs := by
  refine condense_rule (P := fun c _ => Follows c ledger) (Q := fun c => Follows c ledger) hb hc
    ?_ ?_ ?_ (fun _ _ _ _ hP => hP) (fun c _ hsettled hP => hP.trim hsettled)
  · exact fun _ _ => h.setBuilder _
  · exact fun _ => h.setBuilder _
  · intro c c' id builder last empty hsliding hlast hpop hlt hP hslid
    obtain ⟨hperm, -, hsorted, -⟩ := hsliding.sorted.pop hpop
    have hempty : empty ∈ c.batchUpdateBuilder.removed := by
      rw [hperm.mem_iff]
      exact List.mem_cons_self
    have hbound := hsliding.bound
    exact (hP.setBuilder builder).slide (hsliding.setBuilder hsorted) hslid
      (show empty < c.reqIds.length by omega) (by omega) (hsliding.free empty hempty)

end

end Follows

namespace InputBatch

theorem refreshMetadata_eq (outputs : Outputs) (b : InputBatch) :
    ∃ builder holder procs metadata, b.refreshMetadata outputs = { b with
      batchUpdateBuilder := builder, thinkingBudgetStateHolder := holder
      logitsprocs := procs, samplingMetadata := metadata } ∧
      builder.removed = [] ∧ builder.added = [] ∧ builder.moved = [] := by
  unfold refreshMetadata
  split
  · dsimp only [BatchUpdateBuilder.reset]
    split
    · exact ⟨_, _, _, _, rfl, rfl, rfl, rfl⟩
    · exact ⟨_, _, _, _, rfl, rfl, rfl, rfl⟩
  · have hreset := BatchUpdateBuilder.getAndReset_cases b.batchUpdateBuilder b.numReqs
    generalize hget : b.batchUpdateBuilder.getAndReset b.numReqs = got
    rw [hget] at hreset
    obtain ⟨batchUpdate, builder⟩ := got
    obtain ⟨hremoved, hadded, hmoved, -⟩ := hreset
    cases batchUpdate with
    | none | some u => exact ⟨_, _, _, _, rfl, hremoved, hadded, hmoved⟩

theorem Dense.refresh {b : InputBatch} (hb : b.Dense) (outputs : Outputs) :
    (b.refreshMetadata outputs).Dense ∧ (b.refreshMetadata outputs).Open := by
  obtain ⟨builder, holder, procs, metadata, heq, hremoved, -, -⟩ := b.refreshMetadata_eq outputs
  rw [heq]
  have hsorted : builder.Sorted := by
    refine ⟨?_, ?_⟩
    · rw [hremoved]
      exact List.nodup_nil
    · rw [hremoved]
      exact fun _ => List.Pairwise.nil
  have hindexed : Indexed { b with
      batchUpdateBuilder := builder, thinkingBudgetStateHolder := holder
      logitsprocs := procs, samplingMetadata := metadata } :=
    ⟨hb.lenOutputs, hb.lenSpec, hb.index, hb.specIdle, hsorted⟩
  refine ⟨⟨hindexed, hb.length, hb.filled, ?_⟩, ⟨hindexed, ?_, ?_⟩⟩
  · intro i hi
    rw [hremoved] at hi
    exact absurd hi (by simp)
  · intro i
    rw [hremoved]
    refine iff_of_false (by simp) fun hnone => ?_
    have hlt := (List.getElem?_eq_some_iff.mp hnone).1
    have hlen : i < b.numReqs := by
      rw [← hb.length]
      exact hlt
    obtain ⟨id, hid⟩ := hb.filled i hlen
    rw [owner_eq_some] at hid
    exact absurd (hnone.symm.trans hid) (by simp)
  · rw [hremoved]
    exact hb.length.symm

end InputBatch

/-- What holds in every state of a run. -/
structure RunInv (s : RunnerState) : Prop where
  follows : Follows s.batch s.ledger
  isOpen : s.phase ≠ .condensed → s.batch.Open
  isDense : s.phase = .condensed ∨ s.phase = .refreshed → s.batch.Dense

theorem RunInv.indexed (h : RunInv s) : s.batch.Indexed := by
  by_cases hphase : s.phase = .condensed
  · exact (h.isDense (.inl hphase)).toIndexed
  · exact (h.isOpen hphase).toIndexed

theorem RunInv.init (c : BatchConfig) (outputs : Outputs) : RunInv (RunnerState.init c outputs) := by
  have hopen := InputBatch.newBatch_open c
  refine ⟨⟨?_, ?_, ?_, ?_⟩, fun _ => hopen, fun _ => hopen.dense rfl⟩
  · intro i id howner
    exact absurd howner (by simp [RunnerState.init, BatchConfig.newBatch, InputBatch.owner])
  · intro i _
    exact ⟨rfl, rfl⟩
  · intro _
    exact ⟨fun _ => rfl, fun _ => rfl, fun _ => rfl⟩
  · intro _ id t ht
    exact absurd ht (by simp [RunnerState.init])

section
open InputBatch

theorem Follows.removeRequest {b b' : InputBatch} {ledger : RequestId → Option Tracked}
    {id : RequestId} {res : Option ℕ} (h : Follows b ledger) (hopen : b.Open)
    (hremove : b.removeRequest id = .ok (res, b')) :
    b'.Open ∧ Follows b' (update ledger id none) := by
  rcases removeRequest_cases hremove with ⟨hnone, rfl⟩ | ⟨i, hsome, hr⟩
  · refine ⟨hopen, ?_, h.idle, h.quiet, ?_⟩
    · intro k id' hk
      have hid : id' ≠ id := by
        rintro rfl
        rw [(hopen.index _ _).mpr hk] at hnone
        exact absurd hnone (by simp)
      rw [update_of_ne hid]
      exact h.shows k id' hk
    · exact fun hp id' t ht => h.pooling hp id' t (of_update_none ht)
  · have howner := (hopen.index id i).mp hsome
    exact ⟨hr.keepsOpen hopen howner, h.remove hopen hr howner⟩

theorem RunInv.step {s' : RunnerState} {e : Event} {phase : Phase} (h : RunInv s)
    (hphase : nextPhase s.phase e = some phase) (hwf : s.WellFormed e) (hstep : s.step e = .ok s') :
    RunInv { s' with phase } := by
  cases e with
  | remove id =>
    obtain ⟨⟨res, b'⟩, hremove, hstep⟩ := of_bind hstep
    cases hstep
    obtain ⟨hearly, rfl⟩ := nextPhase_spec hphase
    obtain ⟨hopen, hfollows⟩ := h.follows.removeRequest (h.isOpen hearly.ne) hremove
    exact ⟨hfollows, fun _ => hopen, by simp⟩
  | add r =>
    obtain ⟨⟨i, b'⟩, hadd, hstep⟩ := of_bind hstep
    cases hstep
    obtain ⟨hne, rfl⟩ := nextPhase_spec hphase
    have hopen := h.isOpen hne
    obtain ⟨n, ha⟩ := addRequest_eq_ok hadd
    exact ⟨h.follows.add hopen ha hwf.1 hwf.2, fun _ => ha.keepsOpen hopen hwf.1, by simp⟩
  | condense =>
    obtain ⟨b', hcond, hstep⟩ := of_bind hstep
    cases hstep
    obtain ⟨hne, rfl⟩ := nextPhase_spec hphase
    obtain ⟨hfollows, hdense, -⟩ := h.follows.condense (h.isOpen hne) hcond
    exact ⟨hfollows, by simp, fun _ => hdense⟩
  | swap i1 i2 =>
    obtain ⟨b', hswap, hstep⟩ := of_bind hstep
    cases hstep
    obtain ⟨hc, rfl⟩ := nextPhase_spec hphase
    have hdense := h.isDense (.inl hc)
    obtain ⟨id1, id2, hs⟩ := swapStates_eq_ok hswap
    exact ⟨h.follows.swap hdense.toIndexed hs, by simp, fun _ => hs.keepsDense hdense⟩
  | refresh =>
    cases hstep
    obtain ⟨hc, rfl⟩ := nextPhase_spec hphase
    obtain ⟨hdense, hopen⟩ := (h.isDense (.inl hc)).refresh s.outputs
    refine ⟨?_, fun _ => hopen, fun _ => hdense⟩
    obtain ⟨builder, holder, procs, metadata, heq, -⟩ := s.batch.refreshMetadata_eq s.outputs
    rw [heq]
    refine ⟨?_, h.follows.idle, h.follows.quiet, h.follows.pooling⟩
    intro k id hk
    refine h.follows.carry h.follows.quiet ?_ hk
    exact ⟨rfl, rfl, fun _ _ => rfl, fun _ => ⟨rfl, rfl, rfl, rfl⟩⟩
  | write id w =>
    obtain ⟨b', hwrite, hstep⟩ := of_bind hstep
    cases hstep
    have hph : phase = s.phase.written := nextPhase_spec hphase
    subst hph
    unfold writeRow at hwrite
    split at hwrite
    · exact absurd hwrite (by simp)
    · rename_i i hsome
      have howner := (h.indexed.index id i).mp hsome
      have hwrote := writeIndex_wroteAt hwrite
      have hkind : ∀ n, w = .setAccepted n → s.batch.isPoolingModel = false := by
        rintro n rfl
        exact hwf
      refine ⟨h.follows.write h.indexed howner hwrite hkind, fun hne => ?_, fun hdone => ?_⟩
      · exact hwrote.keepsOpen (h.isOpen (mt Phase.written_eq_condensed.mpr hne)) howner
      · have hc := Phase.written_eq_condensed.mp
          (hdone.resolve_right (Phase.written_ne_refreshed _))
        exact hwrote.keepsDense (h.isDense (.inl hc)) howner
  | setOutput ref tokens =>
    cases hstep
    have hph : phase = s.phase.written := nextPhase_spec hphase
    subst hph
    refine ⟨h.follows, fun hne => h.isOpen (mt Phase.written_eq_condensed.mpr hne),
      fun hdone => h.isDense (.inl ?_)⟩
    exact Phase.written_eq_condensed.mp (hdone.resolve_right (Phase.written_ne_refreshed _))

end

theorem Reachable.runInv (h : Reachable c ok s) : RunInv s := by
  induction h with
  | init outputs => exact RunInv.init c outputs
  | step _ hphase hwf _ hstep ih => exact ih.step hphase hwf hstep

/-- Whenever `condense` is done, ids and rows are dense and inverse to each other, the row of
each request holds what was written for it, and the sparse maps have entries of such requests
only. -/
theorem Reachable.rows_follow {c : BatchConfig} {s : RunnerState} (h : Reachable c anyStep s)
    (hphase : s.phase = .condensed ∨ s.phase = .refreshed) :
    (s.batch.reqIds.length = s.batch.numReqs ∧
      ∀ i < s.batch.numReqs, ∃ id, s.batch.reqIds[i]? = some (some id)) ∧
    (∀ id i, s.batch.reqIdToIndex.get? id = some i ↔ s.batch.reqIds[i]? = some (some id)) ∧
    (∀ id i, s.batch.reqIdToIndex.get? id = some i →
      ∃ t, s.ledger id = some t ∧ s.batch.Shows i t.row) ∧
    (∀ i generator, s.batch.generators.get? i = some generator →
      ∃ id t, s.batch.reqIds[i]? = some (some id) ∧ s.ledger id = some t ∧
        t.row.generator = some generator) ∧
    (∀ i badWords, s.batch.badWordsTokenIds.get? i = some badWords →
      ∃ id t, s.batch.reqIds[i]? = some (some id) ∧ s.ledger id = some t ∧
        t.row.badWords = some badWords) := by
  have hinv := h.runInv
  have hdense := hinv.isDense hphase
  refine ⟨⟨hdense.length, ?_⟩, ?_, ?_, ?_, ?_⟩
  · intro i hi
    obtain ⟨id, hid⟩ := hdense.filled i hi
    exact ⟨id, InputBatch.owner_eq_some.mp hid⟩
  · intro id i
    rw [hdense.index, InputBatch.owner_eq_some]
  · intro id i hget
    exact hinv.follows.shows i id ((hdense.index id i).mp hget)
  · intro i generator hget
    cases howner : s.batch.owner i with
    | none =>
      rw [(hinv.follows.idle i howner).1] at hget
      exact absurd hget (by simp)
    | some id =>
      obtain ⟨t, ht, hshows⟩ := hinv.follows.shows i id howner
      exact ⟨id, t, InputBatch.owner_eq_some.mp howner, ht, hshows.generator.symm.trans hget⟩
  · intro i badWords hget
    cases howner : s.batch.owner i with
    | none =>
      rw [(hinv.follows.idle i howner).2] at hget
      exact absurd hget (by simp)
    | some id =>
      obtain ⟨t, ht, hshows⟩ := hinv.follows.shows i id howner
      exact ⟨id, t, InputBatch.owner_eq_some.mp howner, ht, hshows.badWords.symm.trans hget⟩

/-- A batch of three rows, one KV cache group and a small vocabulary. -/
def smallBatch : BatchConfig :=
  { maxNumReqs := 3, maxModelLen := 8, vocabSize := 10
    blockTable := [{ maxNumBlocksPerReq := 4 }] }

def sampledRequest (id : RequestId) (prompt : List TokenId) (params : SamplingParams) :
    CachedRequestState :=
  { reqId := id, promptTokenIds := some prompt, samplingParams := some params
    generator := some (100 + id), blockIds := [[id]], outputTokenIds := id }

/-- The request of the last row slides down into the first one, and is then exchanged with the
other one. -/
def slideAndSwap : List Event :=
  [.add (sampledRequest 1 [7, 7] {}), .add (sampledRequest 2 [5] {}),
    .add (sampledRequest 3 [4, 4, 4] {}), .condense, .refresh,
    .write 3 (.appendTokens [6]), .remove 1, .condense, .swap 0 1, .refresh]

theorem rows_follow_slideAndSwap :
    ∃ s, Reachable smallBatch anyStep s ∧ s.batch.reqIds = [some 2, some 3] ∧
      ∃ t, s.ledger 3 = some t ∧ t.row.tokens = [some 4, some 4, some 4, some 6] ∧
        s.batch.Shows 1 t.row := by
  obtain ⟨s, hrun, hfacts⟩ := exists_ok
    (show (((RunnerState.init smallBatch fun _ => []).run anyStep slideAndSwap).toOption.map
      fun s => (decide (s.phase = .refreshed ∧ s.batch.reqIds = [some 2, some 3] ∧
        s.batch.reqIdToIndex.get? 3 = some 1 ∧
        (s.ledger 3).map (fun t => t.row.tokens) = some [some 4, some 4, some 4, some 6]))) =
        some true by decide +kernel)
  obtain ⟨hphase, hids, hindex, htokens⟩ := of_decide_eq_true hfacts
  have hreach : Reachable smallBatch anyStep s := (Reachable.init _).run hrun
  obtain ⟨t, ht, hshows⟩ := (hreach.rows_follow (.inr hphase)).2.2.1 3 1 hindex
  rw [ht, Option.map_some, Option.some.injEq] at htokens
  exact ⟨s, hreach, hids, t, ht, htokens, hshows⟩

end Vllm.Worker
