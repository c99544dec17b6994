import Vllm.Worker.BatchSlides
import Vllm.Worker.BudgetSync
import Vllm.Worker.ProcessorRuns

/-! The thinking budgets over whole runs follow their requests, unless a row is exchanged with one
without an entry, or a vacated row with an entry is filled from one without. -/
namespace Vllm.Worker
open InputBatch SlotUpdate ThinkingBudgetStateHolder RunnerState Option

/-- The thinking budget of the request at row `i`. -/
def RunnerState.budgetAt (s : RunnerState) (i : ℕ) : Option ℤ :=
  (s.batch.owner i).bind fun id => (s.ledger id).bind fun t => t.request.params.thinkingTokenBudget

def InputBatch.budgetEntry (b : InputBatch) (i : ℕ) : Option BudgetEntry :=
  b.thinkingBudgetStateHolder.bind fun h => h.state.get? i

/-- The steps that `sync_batch` follows: of two rows that are exchanged both or none have a
budget, and a row without one slides only into a row for which there is no entry. -/
def evenStep (s : RunnerState) : Event → Prop
  | .swap i1 i2 => (s.budgetAt i1).isSome = (s.budgetAt i2).isSome
  | .condense => ∀ p ∈ s.batch.slides,
      (s.budgetAt p.1).isSome ∨ s.batch.budgetEntry p.2 = none
  | _ => True

instance (s : RunnerState) (e : Event) : Decidable (evenStep s e) := by
  unfold evenStep
  split <;> infer_instance

/-- The entry made for each request: at the refresh after it was added, by `sync_batch`. -/
def madeEntries (s : RunnerState) (made : RequestId → Option BudgetEntry) :
    Event → RequestId → Option BudgetEntry
  | .refresh => fun id =>
    match s.origin id with
    | .added k => s.batch.thinkingBudgetStateHolder.bind fun h =>
        h.createdEntry s.batch.batchUpdateBuilder.added k
    | .kept _ => made id
  | _ => made

/-- Runs, with the entries made on the way. -/
inductive BudgetRun (c : BatchConfig) (ok : RunnerState → Event → Prop) :
    RunnerState → (RequestId → Option BudgetEntry) → Prop
  | init (outputs : Outputs) : BudgetRun c ok (RunnerState.init c outputs) fun _ => none
  | step {s s' : RunnerState} {made : RequestId → Option BudgetEntry} {e : Event} {phase : Phase}
      (h : BudgetRun c ok s made) (hphase : nextPhase s.phase e = some phase)
      (hwf : s.WellFormed e) (hok : ok s e) (hstep : s.step e = .ok s') :
      BudgetRun c ok { s' with phase } (madeEntries s made e)

variable {c : BatchConfig} {ok : RunnerState → Event → Prop}

theorem BudgetRun.reachable {s : RunnerState} {made : RequestId → Option BudgetEntry}
    (h : BudgetRun c ok s made) :
    Reachable c ok s := by
  induction h with
  | init outputs => exact .init outputs
  | step _ hphase hwf hok hstep ih => exact ih.step hphase hwf hok hstep

theorem Reachable.budgetRun {s : RunnerState} (h : Reachable c ok s) :
    ∃ made, BudgetRun c ok s made := by
  induction h with
  | init outputs => exact ⟨_, .init outputs⟩
  | step _ hphase hwf hok hstep ih =>
    obtain ⟨made, hrun⟩ := ih
    exact ⟨_, hrun.step hphase hwf hok hstep⟩

/-- The holder has, at every row, the entry that was made for the row's request, which it is if
and only if the request has a budget; no other rows have entries, and no two rows share one. -/
structure BudgetsFollow (s : RunnerState) (made : RequestId → Option BudgetEntry)
    (h : ThinkingBudgetStateHolder) : Prop where
  rows : ∀ i id, s.batch.owner i = some id → ∃ t, s.ledger id = some t ∧
    h.state.get? i = made id ∧
    (h.state.get? i).isSome = t.request.params.thinkingTokenBudget.isSome
  idle : ∀ i, s.batch.owner i = none → h.state.get? i = none
  distinct : ∀ i j e e', h.state.get? i = some e → h.state.get? j = some e' →
    e.serial = e'.serial → i = j

/-- What an entry has to be for the row of a request. -/
def SuitsBudget (made : RequestId → Option BudgetEntry) (id : RequestId)
    (r : CachedRequestState) (v : Option BudgetEntry) : Prop :=
  v = made id ∧ v.isSome = r.params.thinkingTokenBudget.isSome

/-- The holder between two refreshes. -/
structure BudgetInv (s : RunnerState) (made : RequestId → Option BudgetEntry)
    (h : ThinkingBudgetStateHolder) : Prop where
  holder : s.batch.thinkingBudgetStateHolder = some h
  early : s.phase.Early → s.batch.batchUpdateBuilder.added = []
  fresh : ∀ a ∈ s.batch.batchUpdateBuilder.added, a.index ∉ s.batch.batchUpdateBuilder.removed
  synced : syncedRows h.state.get? (h.createdEntries s.batch.batchUpdateBuilder.added)
      s.batch.batchUpdateBuilder.removed s.batch.batchUpdateBuilder.moved =
    applyRecords none h.state.get? (h.createdEntries s.batch.batchUpdateBuilder.added)
      s.batch.batchUpdateBuilder.removed s.batch.batchUpdateBuilder.moved
  carries : Carries s none h.state.get? (SuitsBudget made)
  older : ∀ j e, h.state.get? j = some e → e.serial < h.created
  distinct : ∀ i j e e', h.state.get? i = some e → h.state.get? j = some e' →
    e.serial = e'.serial → i = j

namespace BudgetInv
variable {s : RunnerState} {made : RequestId → Option BudgetEntry} {h : ThinkingBudgetStateHolder}

theorem init {c : BatchConfig} (outputs : Outputs)
    (hh : c.newBatch.thinkingBudgetStateHolder = some h) :
    BudgetInv (init c outputs) (fun _ => none) h := by
  have hstate : h.state = Dict.empty ∧ h.created = 0 := by
    obtain ⟨r, -, rfl⟩ := map_eq_some_iff.mp hh
    exact ⟨rfl, rfl⟩
  refine ⟨hh, fun _ => rfl, by simp [RunnerState.init, BatchConfig.newBatch], rfl, ⟨?_, ?_⟩,
    ?_, ?_⟩
  · rintro id t j ⟨i, hi⟩
    exact absurd hi (by simp [RunnerState.init, BatchConfig.newBatch, owner])
  · intro j _
    rw [hstate.1]
    rfl
  · intro j e he
    rw [hstate.1] at he
    exact absurd he (by simp)
  · intro i j e e' he
    rw [hstate.1] at he
    exact absurd he (by simp)

theorem carries_made (hI : BudgetInv s made h) :
    Carries s none h.state.get? (SuitsBudget (madeEntries s made .refresh)) := by
  refine ⟨?_, hI.carries.idle⟩
  intro id t j hlive hledger horigin
  obtain ⟨hmade, hsome⟩ := hI.carries.kept id t j hlive hledger horigin
  refine ⟨?_, hsome⟩
  rw [hmade]
  simp only [madeEntries, horigin]

variable {id : RequestId}

theorem suits_created (hI : BudgetInv s made h) (ho : OriginInv s) {t : Tracked} {k : ℕ}
    (hlive : s.batch.Live id) (hledger : s.ledger id = some t) (horigin : s.origin id = .added k) :
    SuitsBudget (madeEntries s made .refresh) id t.request
      (h.createdEntry s.batch.batchUpdateBuilder.added k) := by
  obtain ⟨a, ha, hrecord⟩ := ho.recorded id t k hlive hledger horigin
  refine ⟨?_, ?_⟩
  · simp only [madeEntries, horigin, hI.holder, bind_some]
  · rw [createdEntry, ha, bind_some, isSome_map, hrecord.params_eq]

theorem rows (hI : BudgetInv s made h) (ho : OriginInv s) :
    (∀ i id t, s.batch.owner i = some id → s.ledger id = some t →
      SuitsBudget (madeEntries s made .refresh) id t.request
        (applyRecords none h.state.get? (h.createdEntries s.batch.batchUpdateBuilder.added)
          s.batch.batchUpdateBuilder.removed s.batch.batchUpdateBuilder.moved i)) ∧
    ∀ i, s.batch.owner i = none →
      applyRecords none h.state.get? (h.createdEntries s.batch.batchUpdateBuilder.added)
        s.batch.batchUpdateBuilder.removed s.batch.batchUpdateBuilder.moved i = none :=
  hI.carries_made.applied ho _ fun _ _ _ hlive hledger horigin =>
    hI.suits_created ho hlive hledger horigin

theorem budgetAt_eq {i : ℕ} {t : Tracked} (howner : s.batch.owner i = some id)
    (hledger : s.ledger id = some t) :
    s.budgetAt i = t.request.params.thinkingTokenBudget := by
  rw [budgetAt, howner, bind_some, hledger, bind_some]

theorem createdEntries_ne (h : ThinkingBudgetStateHolder) {added : List AddedRequest} {i : ℕ}
    (hfresh : ∀ a ∈ added, a.index ≠ i) : ∀ e ∈ h.createdEntries added, e.1 ≠ i := by
  intro e he
  obtain ⟨k, hk, rfl⟩ := List.mem_mapIdx.mp he
  exact hfresh _ (List.getElem_mem hk)

theorem synced_still {b : InputBatch} (hmoved : b.batchUpdateBuilder.moved = [])
    (S : ℕ → Option BudgetEntry) (created : List (ℕ × Option BudgetEntry)) (removed : List ℕ) :
    syncedRows S created removed b.batchUpdateBuilder.moved =
      applyRecords none S created removed b.batchUpdateBuilder.moved := by
  rw [hmoved]
  rfl

/-- The loop of `condense`, with the slides that `sync_batch` follows. -/
structure SyncedLoop (s : RunnerState) (h : ThinkingBudgetStateHolder) (c : InputBatch) : Prop
    extends TracedLoop c s.base s.origin where
  added : c.batchUpdateBuilder.added = s.batch.batchUpdateBuilder.added
  removed : ∀ e ∈ c.batchUpdateBuilder.removed, e ∈ s.batch.batchUpdateBuilder.removed
  synced : syncedRows h.state.get? (h.createdEntries s.batch.batchUpdateBuilder.added)
      c.batchUpdateBuilder.removed c.batchUpdateBuilder.moved =
    applyRecords none h.state.get? (h.createdEntries s.batch.batchUpdateBuilder.added)
      c.batchUpdateBuilder.removed c.batchUpdateBuilder.moved

section
variable (hI : BudgetInv s made h) (ho : OriginInv s) (hinv : RunInv s)
include hI ho hinv

theorem syncedLoop_slide {c c' : InputBatch} {builder : BatchUpdateBuilder} {last empty : ℕ}
    (hok : evenStep s .condense) (hP : SyncedLoop s h c) (hb : Sliding c last)
    (hlast : last ∉ c.batchUpdateBuilder.removed)
    (hpop : c.batchUpdateBuilder.popRemoved = (some empty, builder)) (hlt : empty < last)
    (hslide : (last, empty) ∈ s.batch.slides) (howner : s.batch.owner last = some id)
    (hs : SlidAt { c with batchUpdateBuilder := builder } c' id last empty) :
    SyncedLoop s h c' := by
  have hmem := hb.sorted.mem_pop hpop
  obtain ⟨hperm, -, -, hadded, hmoved, -⟩ := hb.sorted.pop hpop
  have hempty : empty ∈ c.batchUpdateBuilder.removed := by
    rw [hperm.mem_iff]
    exact List.mem_cons_self
  have hbuilder := hs.builder
  dsimp only at hbuilder
  rw [hP.kind, if_neg Bool.false_ne_true, hmoved] at hbuilder
  have hremoved : c'.batchUpdateBuilder.removed = builder.removed := hs.removed_eq.1
  obtain ⟨t, ht, -⟩ := hinv.follows.shows last id howner
  have hnot : ∀ a ∈ s.batch.batchUpdateBuilder.added, a.index ≠ empty := by
    rintro a ha rfl
    exact hI.fresh a ha (hP.removed _ hempty)
  refine ⟨hP.toTracedLoop.slide hb hlast hpop hlt hs, ?_, ?_, ?_⟩
  · rw [hbuilder, ← hP.added, ← hadded]
  · intro e he
    rw [hremoved] at he
    exact hP.removed e ((hmem e).mp he).1
  · rw [hbuilder]
    refine syncedRows_slide hlt.ne' hmem (hP.untouched empty hempty)
      (createdEntries_ne h hnot) hP.synced ?_
    have hcontent : applyRecords none h.state.get?
        (h.createdEntries s.batch.batchUpdateBuilder.added) c.batchUpdateBuilder.removed
          c.batchUpdateBuilder.moved last =
        resolve none h.state.get? (h.createdEntry s.batch.batchUpdateBuilder.added)
          (some (s.origin id)) := by
      have howned : c.owner last = some id := owner_eq_some.mpr hs.owned
      rw [← hP.added, createdEntries, applyRecords_eq_resolve hI.carries.idle, hP.origins, howned,
        map_some]
    have hsuits := hI.carries_made.resolved (fun k horigin =>
      hI.suits_created ho ⟨last, howner⟩ ht horigin) ⟨last, howner⟩ ht
    rw [hcontent, hsuits.2, ← budgetAt_eq howner ht]
    rcases hok _ hslide with hbudget | hnone
    · exact .inl hbudget
    · refine .inr ?_
      rw [budgetEntry, hI.holder, bind_some] at hnone
      exact hnone

theorem condense {b' : InputBatch} (hp : s.batch.isPoolingModel = false)
    (hphase : s.phase ≠ .condensed) (hok : evenStep s .condense) (hopen : s.batch.Open)
    (hc : s.batch.condense = .ok b') :
    (∀ e ∈ b'.batchUpdateBuilder.removed, e ∈ s.batch.batchUpdateBuilder.removed) ∧
    syncedRows h.state.get? (h.createdEntries s.batch.batchUpdateBuilder.added)
        b'.batchUpdateBuilder.removed b'.batchUpdateBuilder.moved =
      applyRecords none h.state.get? (h.createdEntries s.batch.batchUpdateBuilder.added)
        b'.batchUpdateBuilder.removed b'.batchUpdateBuilder.moved := by
  have hstill := ho.still hphase
  have hmoved : s.batch.sortRemoved.batchUpdateBuilder.moved = [] := by
    rw [sortRemoved, BatchUpdateBuilder.ensureRemovedSorted_moved, hstill]
  have hperm := s.batch.batchUpdateBuilder.perm_ensureRemovedSorted
  have hstart : SyncedLoop s h s.batch.sortRemoved := by
    refine ⟨⟨ho.traced.sortRemoved, hp, ?_⟩,
      s.batch.batchUpdateBuilder.ensureRemovedSorted_added, ?_, synced_still hmoved _ _ _⟩
    · intro e _ m hm
      rw [hmoved] at hm
      exact absurd hm (by simp)
    · intro e he
      exact hperm.mem_iff.mp he
  refine condense_slides_rule (P := SyncedLoop s h) (Q := fun c =>
    (∀ e ∈ c.batchUpdateBuilder.removed, e ∈ s.batch.batchUpdateBuilder.removed) ∧
      syncedRows h.state.get? (h.createdEntries s.batch.batchUpdateBuilder.added)
          c.batchUpdateBuilder.removed c.batchUpdateBuilder.moved =
        applyRecords none h.state.get? (h.createdEntries s.batch.batchUpdateBuilder.added)
          c.batchUpdateBuilder.removed c.batchUpdateBuilder.moved) hopen hc
    (fun _ => ⟨hstart.removed, hstart.synced⟩) hstart ?_ ?_
  · intro c c' id builder last empty hsliding hlast hpop hlt hslide howner hP hs
    exact syncedLoop_slide hI ho hinv hok hP hsliding hlast hpop hlt hslide howner hs
  · intro c _ hP
    exact ⟨hP.removed, hP.synced⟩

end

/-- The records of the step so far are followed. -/
structure RecordsSynced (s : RunnerState) (h : ThinkingBudgetStateHolder) : Prop where
  early : s.phase.Early → s.batch.batchUpdateBuilder.added = []
  fresh : ∀ a ∈ s.batch.batchUpdateBuilder.added, a.index ∉ s.batch.batchUpdateBuilder.removed
  synced : syncedRows h.state.get? (h.createdEntries s.batch.batchUpdateBuilder.added)
      s.batch.batchUpdateBuilder.removed s.batch.batchUpdateBuilder.moved =
    applyRecords none h.state.get? (h.createdEntries s.batch.batchUpdateBuilder.added)
      s.batch.batchUpdateBuilder.removed s.batch.batchUpdateBuilder.moved

section
variable (hI : BudgetInv s made h) (ho : OriginInv s) (hinv : RunInv s)
  (hp : s.batch.isPoolingModel = false)
include hI ho hinv hp

theorem recordsSynced {s' : RunnerState} {e : Event} (hok : evenStep s e) (ht : Transition s e s')
    (he : e ≠ .refresh) : RecordsSynced s' h := by
  cases ht with
  | absent hphase habsent =>
    exact ⟨fun _ => hI.early hphase, hI.fresh, hI.synced⟩
  | remove hphase hopen howner hr =>
    rename_i id i b'
    have hnot : i ∉ s.batch.batchUpdateBuilder.removed := by
      rw [hopen.removed i, owner_eq_some.mp howner]
      simp
    obtain ⟨-, -, hadded, hmoved, -⟩ := hopen.sorted.append hnot hr.builder
    have hnil := hadded.trans (hI.early hphase)
    refine ⟨fun _ => hnil, ?_, synced_still (hmoved.trans (ho.still hphase.ne)) _ _ _⟩
    intro a ha
    dsimp only at ha
    rw [hnil] at ha
    exact absurd ha (by simp)
  | add hphase hopen ha hnew hkind =>
    rename_i r i n b'
    obtain ⟨-, hremoved, hmoved, hadded, -⟩ := ha.removed_iff hopen
    refine ⟨by simp [Phase.Early], ?_, synced_still (hmoved.trans (ho.still hphase)) _ _ _⟩
    intro a hmem
    dsimp only at hmem ⊢
    rw [hadded, List.mem_append] at hmem
    rw [hremoved]
    rcases hmem with hmem | hmem
    · exact fun hcontra => hI.fresh a hmem hcontra.1
    · unfold addedRecord at hmem
      split at hmem
      · obtain rfl := List.mem_singleton.mp hmem
        exact fun hcontra => hcontra.2 rfl
      · exact absurd hmem (by simp)
  | condense hphase hopen hc =>
    obtain ⟨hremoved, hsynced⟩ := hI.condense ho hinv hp hphase hok hopen hc
    have hadded := (hopen.rearranged hc).added
    refine ⟨by simp [Phase.Early], ?_, ?_⟩
    · dsimp only
      rw [hadded]
      exact fun a ha hcontra => hI.fresh a ha (hremoved _ hcontra)
    · dsimp only
      rw [hadded]
      exact hsynced
  | swap hphase hdense hs =>
    rename_i i1 i2 id1 id2 b'
    have hbuilder := hs.builder
    rw [hp, if_neg Bool.false_ne_true] at hbuilder
    refine ⟨by simp [Phase.Early], ?_, ?_⟩
    · dsimp only
      rw [hbuilder]
      exact hI.fresh
    · dsimp only
      rw [hbuilder]
      dsimp only
      rw [syncedRows, List.foldl_append, List.foldl_cons, List.foldl_nil, ← syncedRows, hI.synced,
        applyRecords_swap, moveRows_swap]
      · rfl
      · have hbudget : ∀ i id, s.batch.reqIds[i]? = some (some id) →
            (applyRecords none h.state.get? (h.createdEntries s.batch.batchUpdateBuilder.added)
              s.batch.batchUpdateBuilder.removed s.batch.batchUpdateBuilder.moved i).isSome =
              (s.budgetAt i).isSome := by
          intro i id hid
          have howner := owner_eq_some.mpr hid
          obtain ⟨t, ht, -⟩ := hinv.follows.shows i id howner
          rw [((hI.rows ho).1 i id t howner ht).2, budgetAt_eq howner ht]
        rw [hbudget i1 id1 hs.owned1, hbudget i2 id2 hs.owned2]
        exact hok
  | refresh => exact absurd rfl he
  | write howner hw =>
    refine ⟨fun hearly => ?_, ?_, ?_⟩
    · dsimp only
      rw [hw.builder]
      exact hI.early (Phase.early_of_written hearly)
    · dsimp only
      rw [hw.builder]
      exact hI.fresh
    · dsimp only
      rw [hw.builder]
      exact hI.synced
  | setOutput => exact ⟨fun hearly => hI.early (Phase.early_of_written hearly), hI.fresh, hI.synced⟩

theorem continues {s' : RunnerState} {e : Event} (hok : evenStep s e) (ht : Transition s e s')
    (he : e ≠ .refresh) : BudgetInv s' made h := by
  have hcont := ht.continues he
  have hrecords := hI.recordsSynced ho hinv hp hok ht he
  exact ⟨hcont.setup.holder.trans hI.holder, hrecords.early, hrecords.fresh, hrecords.synced,
    hI.carries.continues hcont, hI.older, hI.distinct⟩

end

/-- The holder after a refresh. -/
structure Synced (s : RunnerState) (h h' : ThinkingBudgetStateHolder) : Prop where
  state : h'.state.get? =
    applyRecords none h.state.get? (h.createdEntries s.batch.batchUpdateBuilder.added)
      s.batch.batchUpdateBuilder.removed s.batch.batchUpdateBuilder.moved
  created : h'.created = (s.batch.batchUpdateBuilder.added.foldl addState h).created

theorem synced_refresh (hI : BudgetInv s made h) (hp : s.batch.isPoolingModel = false) :
    ∃ h', (s.batch.refreshMetadata s.outputs).thinkingBudgetStateHolder = some h' ∧
      Synced s h h' := by
  obtain ⟨-, -, -, hcases⟩ := s.batch.batchUpdateBuilder.getAndReset_cases s.batch.numReqs
  unfold refreshMetadata
  rw [hp, if_neg Bool.false_ne_true]
  generalize hget : s.batch.batchUpdateBuilder.getAndReset s.batch.numReqs = got at hcases ⊢
  obtain ⟨batchUpdate, builder⟩ := got
  rcases hcases with ⟨rfl, hremoved, hadded, hmoved⟩ | hsome
  · refine ⟨h, hI.holder, ?_, ?_⟩
    · rw [hremoved, hadded, hmoved]
      funext k
      simp [applyRecords, applyMoves, clear, fill, createdEntries]
    · rw [hadded]
      rfl
  · dsimp only at hsome ⊢
    subst hsome
    refine ⟨h.syncBatch
      { batchSize := s.batch.numReqs, removed := s.batch.batchUpdateBuilder.removed
        added := s.batch.batchUpdateBuilder.added, moved := s.batch.batchUpdateBuilder.moved },
      by simp [hI.holder], ?_, h.syncBatch_created _⟩
    rw [syncBatch_get? h _ hI.fresh]
    exact hI.synced

section Refresh
variable {h' : ThinkingBudgetStateHolder}

variable {e : BudgetEntry}

section
variable (hI : BudgetInv s made h) (ho : OriginInv s)
include hI ho

theorem entry_eq (hs : Synced s h h') {i : ℕ} (he : h'.state.get? i = some e) :
    ∃ id, s.batch.owner i = some id ∧
      resolve none h.state.get? (h.createdEntry s.batch.batchUpdateBuilder.added)
        (some (s.origin id)) = some e := by
  rw [hs.state, createdEntries, applyRecords_eq_resolve hI.carries.idle, ho.traced.origins] at he
  cases howner : s.batch.owner i with
  | none =>
    rw [howner] at he
    exact absurd he (by simp [resolve])
  | some id =>
    rw [howner] at he
    exact ⟨id, rfl, he⟩

theorem older_refresh (hs : Synced s h h') {i : ℕ} (he : h'.state.get? i = some e) :
    e.serial < h'.created := by
  obtain ⟨id, -, he⟩ := hI.entry_eq ho hs he
  rw [hs.created]
  cases horigin : s.origin id with
  | kept j =>
    rw [horigin] at he
    exact (hI.older j e he).trans_le (created_le_foldl h _)
  | added k =>
    rw [horigin] at he
    exact (createdEntry_bounds he).2

theorem distinct_refresh (hb : s.batch.Indexed)
    (hinj : ∀ id id', s.batch.Live id → s.batch.Live id' → s.origin id = s.origin id' → id = id')
    (hs : Synced s h h') {i j : ℕ} {e' : BudgetEntry} (he : h'.state.get? i = some e)
    (he' : h'.state.get? j = some e') (hserial : e.serial = e'.serial) : i = j := by
  obtain ⟨id, hi, he⟩ := hI.entry_eq ho hs he
  obtain ⟨id', hj, he'⟩ := hI.entry_eq ho hs he'
  have horigin : s.origin id = s.origin id' := by
    cases hid : s.origin id with
    | kept k =>
      rw [hid] at he
      cases hid' : s.origin id' with
      | kept l =>
        rw [hid'] at he'
        rw [hI.distinct k l e e' he he' hserial]
      | added l =>
        rw [hid'] at he'
        have hold := hI.older k e he
        have hnew := (createdEntry_bounds he').1
        omega
    | added k =>
      rw [hid] at he
      cases hid' : s.origin id' with
      | kept l =>
        rw [hid'] at he'
        have hold := hI.older l e' he'
        have hnew := (createdEntry_bounds he).1
        omega
      | added l =>
        rw [hid'] at he'
        rw [createdEntry_inj he he' hserial]
  obtain rfl := hinj id id' ⟨i, hi⟩ ⟨j, hj⟩ horigin
  exact hb.owner_inj hi hj

theorem refresh (hinv : RunInv s)
    (hinj : ∀ id id', s.batch.Live id → s.batch.Live id' → s.origin id = s.origin id' → id = id')
    (hdense : s.batch.Dense) (hs : Synced s h h')
    (hholder : (s.batch.refreshMetadata s.outputs).thinkingBudgetStateHolder = some h') :
    BudgetInv { s with
      phase := .refreshed
      batch := s.batch.refreshMetadata s.outputs
      origin := fun id => .kept (s.batch.reqIdToIndex.getD id 0)
      base := s.batch.numReqs } (madeEntries s made .refresh) h' ∧
    BudgetsFollow { s with
      phase := .refreshed
      batch := s.batch.refreshMetadata s.outputs
      origin := fun id => .kept (s.batch.reqIdToIndex.getD id 0)
      base := s.batch.numReqs } (madeEntries s made .refresh) h' := by
  have howner := OriginInv.owner_refreshMetadata s.outputs s.batch
  obtain ⟨hrows, hidle⟩ := hI.rows ho
  rw [← hs.state] at hrows hidle
  obtain ⟨_, _, _, _, heq, hremoved, hadded, hmoved⟩ := s.batch.refreshMetadata_eq s.outputs
  have hrecords : (s.batch.refreshMetadata s.outputs).batchUpdateBuilder.added = [] ∧
      (s.batch.refreshMetadata s.outputs).batchUpdateBuilder.moved = [] := by
    rw [heq]
    exact ⟨hadded, hmoved⟩
  refine ⟨⟨hholder, fun _ => hrecords.1, ?_, synced_still hrecords.2 _ _ _,
    Carries.refreshed hdense howner hrows hidle, fun j e he => hI.older_refresh ho hs he,
    fun i j e e' => hI.distinct_refresh ho hdense.toIndexed hinj hs⟩, ⟨?_, ?_,
    fun i j e e' => hI.distinct_refresh ho hdense.toIndexed hinj hs⟩⟩
  · intro a ha
    rw [hrecords.1] at ha
    exact absurd ha (by simp)
  · intro i id hi
    dsimp only at hi
    rw [howner] at hi
    obtain ⟨t, ht, -⟩ := hinv.follows.shows i id hi
    exact ⟨t, ht, hrows i id t hi ht⟩
  · intro i hi
    dsimp only at hi
    rw [howner] at hi
    exact hidle i hi

end

end Refresh

end BudgetInv

theorem BudgetRun.budgetInv {s : RunnerState} {made : RequestId → Option BudgetEntry}
    (hrun : BudgetRun c evenStep s made) (hp : c.isPoolingModel = false) (hc : c.reasoning.isSome) :
    ∃ h, BudgetInv s made h ∧ (s.phase = .refreshed → BudgetsFollow s made h) := by
  induction hrun with
  | init outputs =>
    obtain ⟨r, hr⟩ := isSome_iff_exists.mp hc
    refine ⟨_, BudgetInv.init outputs (by rw [BatchConfig.newBatch, hr]; rfl), fun _ => ?_⟩
    refine ⟨?_, fun i _ => rfl, ?_⟩
    · intro i id hi
      exact absurd hi (by simp [RunnerState.init, BatchConfig.newBatch, owner])
    · intro i j e e' he
      exact absurd he (by simp)
  | step hrun hphase hwf hok hstep ih =>
    rename_i s s' made e phase
    obtain ⟨h, hI, -⟩ := ih
    have hreach := hrun.reachable
    have hinv := hreach.runInv
    have ho := hreach.originInv hp
    have hpool := hreach.isPoolingModel.trans hp
    have ht := hinv.transition hphase hwf hstep
    by_cases he : e = .refresh
    · subst he
      obtain ⟨h', hholder, hs⟩ := hI.synced_refresh hpool
      generalize hs' : ({ s' with phase } : RunnerState) = s1 at ht ⊢
      cases ht with
      | refresh hphase hdense =>
        obtain ⟨hI', hfollow⟩ := hI.refresh ho hinv (hreach.origin_inj hp) hdense hs hholder
        exact ⟨h', hI', fun _ => hfollow⟩
    · refine ⟨h, ?_, fun hphase => absurd hphase (ht.late he)⟩
      have hI' := hI.continues ho hinv hpool hok ht he
      have hmade : madeEntries s made e = made := by
        cases e with
        | refresh => exact absurd rfl he
        | remove | add | condense | swap | write | setOutput => rfl
      rw [hmade]
      exact hI'

/-- Requests of a pooling model have no budgets, and its holder is never touched. -/
theorem BudgetRun.pooling {s : RunnerState} {made : RequestId → Option BudgetEntry}
    (hrun : BudgetRun c ok s made) (hp : c.isPoolingModel = true) :
    s.batch.thinkingBudgetStateHolder = c.newBatch.thinkingBudgetStateHolder ∧
      s.batch.batchUpdateBuilder.added = [] ∧ ∀ id, made id = none := by
  induction hrun with
  | init outputs => exact ⟨rfl, rfl, fun _ => rfl⟩
  | step hrun hphase hwf hok hstep ih =>
    rename_i s s' made e phase
    obtain ⟨hholder, hadded, hmade⟩ := ih
    have hreach := hrun.reachable
    have hpool := hreach.isPoolingModel.trans hp
    have ht := hreach.runInv.transition hphase hwf hstep
    by_cases he : e = .refresh
    · subst he
      generalize hs' : ({ s' with phase } : RunnerState) = s1 at ht ⊢
      cases ht with
      | refresh hphase hdense =>
        refine ⟨?_, ?_, ?_⟩
        · exact (refreshMetadata_pooling s.outputs hpool).2.trans hholder
        · obtain ⟨_, _, _, _, heq, -, hnil, -⟩ := s.batch.refreshMetadata_eq s.outputs
          dsimp only
          rw [heq]
          exact hnil
        · intro id
          simp only [madeEntries]
          split
          · rw [hadded]
            cases s.batch.thinkingBudgetStateHolder <;> rfl
          · exact hmade id
    · refine ⟨(ht.continues he).setup.holder.trans hholder, ?_, ?_⟩
      · obtain ⟨extra, hextra, hrecords⟩ := ht.added_eq he
        cases extra with
        | nil => rw [hextra, hadded, List.append_nil]
        | cons a rest =>
          obtain ⟨r, rfl, hrecord⟩ := hrecords a List.mem_cons_self
          have hkind := hwf.2
          rw [hpool, hrecord.1] at hkind
          exact absurd hkind (by simp)
      · intro id
        cases e with
        | refresh => exact absurd rfl he
        | remove | add | condense | swap | write | setOutput => exact hmade id

/-- A batch has a holder if and only if it was configured with one. -/
theorem Reachable.holder_isSome {s : RunnerState} (h : Reachable c ok s) :
    s.batch.thinkingBudgetStateHolder.isSome = c.reasoning.isSome := by
  refine h.rule (P := fun s => s.batch.thinkingBudgetStateHolder.isSome = c.reasoning.isSome)
    (fun _ => isSome_map) ?_
  intro s e s' _ _ _ _ hsame ht
  by_cases he : e = .refresh
  · subst he
    cases ht with
    | refresh hphase hdense =>
      refine Eq.trans ?_ hsame
      cases hp : s.batch.isPoolingModel with
      | true => exact congrArg Option.isSome (refreshMetadata_pooling s.outputs hp).2
      | false =>
        unfold refreshMetadata
        rw [hp, if_neg Bool.false_ne_true]
        dsimp only
        split <;> split <;> simp
  · rw [(ht.continues he).setup.holder]
    exact hsame

/-- After each refresh of a run of even steps the holder has, at every row, the entry made for
the row's request, which is one if and only if the request has a budget; rows without requests
have none, and no two rows share an entry. -/
theorem BudgetRun.budgets_follow {c : BatchConfig} {s : RunnerState}
    {made : RequestId → Option BudgetEntry} {h : ThinkingBudgetStateHolder}
    (hrun : BudgetRun c evenStep s made) (hphase : s.phase = .refreshed)
    (hh : s.batch.thinkingBudgetStateHolder = some h) : BudgetsFollow s made h := by
  cases hp : c.isPoolingModel with
  | false =>
    have hc : c.reasoning.isSome := by
      rw [← hrun.reachable.holder_isSome, hh]
      rfl
    obtain ⟨h', hI, hfollow⟩ := hrun.budgetInv hp hc
    obtain rfl := Option.some.inj (hh.symm.trans hI.holder)
    exact hfollow hphase
  | true =>
    obtain ⟨hholder, -, hmade⟩ := hrun.pooling hp
    have hstate : ∀ i, h.state.get? i = none := by
      rw [hh] at hholder
      obtain ⟨r, -, rfl⟩ := map_eq_some_iff.mp hholder.symm
      exact fun _ => rfl
    have hnone := hrun.reachable.requests (Q := fun r => r.samplingParams = none)
      fun _ r _ hkind => by
        rw [hp] at hkind
        exact not_isSome_iff_eq_none.mp (by simp [hkind])
    refine ⟨?_, fun i _ => hstate i, fun i j e e' he => absurd he (by simp [hstate])⟩
    intro i id hi
    obtain ⟨t, ht, -⟩ := hrun.reachable.runInv.follows.shows i id hi
    refine ⟨t, ht, (hstate i).trans (hmade id).symm, ?_⟩
    rw [hstate, CachedRequestState.params, hnone id t ht]
    rfl

/-- A small batch with a reasoning parser. -/
def reasoningBatch : BatchConfig := { smallBatch with reasoning := some ([1], [2]) }

/-- The last of two requests with a budget slides into the row of one without, and is then
exchanged with the other one. -/
def budgetedRequests : List Event :=
  [.add (sampledRequest 1 [7, 7] {}),
    .add (sampledRequest 2 [5, 1] { thinkingTokenBudget := some 7 }),
    .add (sampledRequest 3 [4] { thinkingTokenBudget := some 5 }),
    .condense, .refresh, .remove 1, .condense, .swap 0 1, .refresh]

theorem budgets_follow_budgetedRequests :
    ∃ s made h, BudgetRun reasoningBatch evenStep s made ∧
      s.batch.reqIds = [some 2, some 3] ∧ s.batch.thinkingBudgetStateHolder = some h ∧
      BudgetsFollow s made h := by
  obtain ⟨s, hrun, hfacts⟩ := Raises.exists_ok
    (show (((init reasoningBatch fun _ => []).run evenStep
      budgetedRequests).toOption.map fun s => (decide (s.phase = .refreshed ∧
        s.batch.reqIds = [some 2, some 3] ∧
        s.batch.thinkingBudgetStateHolder.isSome = true))) = some true by decide +kernel)
  obtain ⟨hphase, hids, hholder⟩ := of_decide_eq_true hfacts
  have hreach : Reachable reasoningBatch evenStep s := (Reachable.init _).run hrun
  obtain ⟨made, hbudget⟩ := hreach.budgetRun
  obtain ⟨h, hh⟩ := isSome_iff_exists.mp hholder
  exact ⟨s, made, h, hbudget, hids, hh, hbudget.budgets_follow hphase hh⟩

/-- A request with a budget is exchanged with one without. -/
def unevenSwap : List Event :=
  [.add (sampledRequest 1 [7] { thinkingTokenBudget := some 5 }), .add (sampledRequest 2 [5] {}),
    .condense, .swap 0 1, .refresh]

/-- A request without a budget slides into the row of one that had a budget. -/
def unevenSlide : List Event :=
  [.add (sampledRequest 1 [7] { thinkingTokenBudget := some 5 }), .add (sampledRequest 2 [5] {}),
    .condense, .refresh, .remove 1, .condense, .refresh]

theorem exists_budgets_not_follow :
    (∃ s made h, BudgetRun reasoningBatch anyStep s made ∧ s.phase = .refreshed ∧
      s.batch.reqIds = [some 2, some 1] ∧ s.batch.thinkingBudgetStateHolder = some h ∧
      h.state.get? 0 = h.state.get? 1 ∧ (h.state.get? 0).isSome = true ∧
      ¬BudgetsFollow s made h) ∧
    ∃ s made h, BudgetRun reasoningBatch anyStep s made ∧ s.phase = .refreshed ∧
      s.batch.reqIds = [some 2] ∧ s.batch.thinkingBudgetStateHolder = some h ∧
      (h.state.get? 0).isSome = true ∧ ¬BudgetsFollow s made h := by
  constructor
  · obtain ⟨s, hrun, hfacts⟩ := Raises.exists_ok
      (show (((init reasoningBatch fun _ => []).run anyStep unevenSwap).toOption.map
        fun s => (decide (s.phase = .refreshed ∧ s.batch.reqIds = [some 2, some 1] ∧
          s.batch.budgetEntry 0 = s.batch.budgetEntry 1 ∧
          (s.batch.budgetEntry 0).isSome = true))) = some true by decide +kernel)
    obtain ⟨hphase, hids, hsame, hsome⟩ := of_decide_eq_true hfacts
    have hreach : Reachable reasoningBatch anyStep s := (Reachable.init _).run hrun
    obtain ⟨made, hbudget⟩ := hreach.budgetRun
    obtain ⟨h, hh⟩ := isSome_iff_exists.mp hreach.holder_isSome
    rw [budgetEntry, budgetEntry, hh] at hsame
    rw [budgetEntry, hh] at hsome
    refine ⟨s, made, h, hbudget, hphase, hids, hh, hsame, hsome, fun hfollow => ?_⟩
    obtain ⟨e, he⟩ := isSome_iff_exists.mp hsome
    exact absurd (hfollow.distinct 0 1 e e he (hsame.symm.trans he) rfl) (by decide)
  · obtain ⟨s, hrun, hfacts⟩ := Raises.exists_ok
      (show (((init reasoningBatch fun _ => []).run anyStep unevenSlide).toOption.map
        fun s => (decide (s.phase = .refreshed ∧ s.batch.reqIds = [some 2] ∧
          (s.batch.budgetEntry 0).isSome = true ∧
          (s.ledger 2).map (·.request) = some (sampledRequest 2 [5] {})))) =
          some true by decide +kernel)
    obtain ⟨hphase, hids, hsome, hledger⟩ := of_decide_eq_true hfacts
    have hreach : Reachable reasoningBatch anyStep s := (Reachable.init _).run hrun
    obtain ⟨made, hbudget⟩ := hreach.budgetRun
    obtain ⟨h, hh⟩ := isSome_iff_exists.mp hreach.holder_isSome
    rw [budgetEntry, hh] at hsome
    refine ⟨s, made, h, hbudget, hphase, hids, hh, hsome, fun hfollow => ?_⟩
    obtain ⟨t, ht, -, hbudgets⟩ := hfollow.rows 0 2 (by rw [owner, hids]; rfl)
    rw [ht, map_some, Option.some.injEq] at hledger
    rw [hledger] at hbudgets
    exact absurd (hsome.symm.trans hbudgets) (by decide)

end Vllm.Worker
