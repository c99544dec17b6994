import Vllm.Worker.BatchRuns
import Vllm.Worker.LogitsProcSpec

/-! Where the request of each row comes from: the records of a step lead from the rows of the last
refresh, and from the requests added since, to the rows of now. -/
namespace Vllm.Worker
open InputBatch SlotUpdate Function BatchUpdateBuilder List Option

/-- The steps of a run, each with what is known about the batch before it. -/
inductive Transition (s : RunnerState) : Event → RunnerState → Prop
  | absent {id : RequestId} (hphase : s.phase.Early)
      (habsent : s.batch.reqIdToIndex.get? id = none) :
      Transition s (.remove id)
        { s with phase := .removing, ledger := Function.update s.ledger id none }
  | remove {id : RequestId} {i : ℕ} {b' : InputBatch} (hphase : s.phase.Early)
      (hopen : s.batch.Open) (howner : s.batch.owner i = some id)
      (hr : RemovedAt s.batch b' id i) :
      Transition s (.remove id)
        { s with phase := .removing, batch := b', ledger := Function.update s.ledger id none }
  | add {r : CachedRequestState} {i n : ℕ} {b' : InputBatch} (hphase : s.phase ≠ .condensed)
      (hopen : s.batch.Open) (ha : AddedAt s.outputs s.batch b' r i n)
      (hnew : s.batch.reqIdToIndex.get? r.reqId = none)
      (hkind : r.samplingParams.isSome = !s.batch.isPoolingModel) :
      Transition s (.add r)
        { s with
          phase := .adding
          batch := b'
          ledger := Function.update s.ledger r.reqId (some ⟨r,
            RequestRow.ofRequest s.batch.vocabSize s.batch.blockTable s.outputs r⟩)
          origin := Function.update s.origin r.reqId
            (.added s.batch.batchUpdateBuilder.added.length) }
  | condense {b' : InputBatch} (hphase : s.phase ≠ .condensed) (hopen : s.batch.Open)
      (hc : s.batch.condense = .ok b') :
      Transition s .condense { s with phase := .condensed, batch := b' }
  | swap {i1 i2 : ℕ} {id1 id2 : RequestId} {b' : InputBatch} (hphase : s.phase = .condensed)
      (hdense : s.batch.Dense) (hs : SwappedAt s.batch b' id1 id2 i1 i2) :
      Transition s (.swap i1 i2) { s with phase := .condensed, batch := b' }
  | refresh (hphase : s.phase = .condensed) (hdense : s.batch.Dense) :
      Transition s .refresh
        { s with
          phase := .refreshed
          batch := s.batch.refreshMetadata s.outputs
          origin := fun id => .kept (s.batch.reqIdToIndex.getD id 0)
          base := s.batch.numReqs }
  | write {id : RequestId} {w : RowWrite} {i : ℕ} {b' : InputBatch}
      (howner : s.batch.owner i = some id) (hw : WroteAt s.batch b' i) :
      Transition s (.write id w)
        { s with
          phase := s.phase.written
          batch := b'
          ledger := Function.update s.ledger id ((s.ledger id).map fun t =>
            { t with row := t.row.write s.batch.blockTable w }) }
  | setOutput {ref : ListRef} {tokens : List TokenId} :
      Transition s (.setOutput ref tokens)
        { s with phase := s.phase.written, outputs := Function.update s.outputs ref tokens }

variable {e : Event} {c : BatchConfig} {ok : RunnerState → Event → Prop}

theorem RunInv.transition {s s' : RunnerState} {phase : Phase} (h : RunInv s)
    (hphase : nextPhase s.phase e = some phase) (hwf : s.WellFormed e) (hstep : s.step e = .ok s') :
    Transition s e { s' with phase } := by
  cases e with
  | remove id =>
    obtain ⟨⟨res, b'⟩, hremove, hstep⟩ := Raises.of_bind hstep
    cases hstep
    obtain ⟨hearly, rfl⟩ := nextPhase_spec hphase
    have hopen := h.isOpen hearly.ne
    rcases removeRequest_cases hremove with ⟨hnone, rfl⟩ | ⟨i, hsome, hr⟩
    · exact .absent hearly hnone
    · exact .remove hearly hopen ((hopen.index id i).mp hsome) hr
  | add r =>
    obtain ⟨⟨i, b'⟩, hadd, hstep⟩ := Raises.of_bind hstep
    cases hstep
    obtain ⟨hne, rfl⟩ := nextPhase_spec hphase
    obtain ⟨n, ha⟩ := addRequest_eq_ok hadd
    exact .add hne (h.isOpen hne) ha hwf.1 hwf.2
  | condense =>
    obtain ⟨b', hcond, hstep⟩ := Raises.of_bind hstep
    cases hstep
    obtain ⟨hne, rfl⟩ := nextPhase_spec hphase
    exact .condense hne (h.isOpen hne) hcond
  | swap i1 i2 =>
    obtain ⟨b', hswap, hstep⟩ := Raises.of_bind hstep
    cases hstep
    obtain ⟨hc, rfl⟩ := nextPhase_spec hphase
    obtain ⟨id1, id2, hs⟩ := swapStates_eq_ok hswap
    exact .swap hc (h.isDense (.inl hc)) hs
  | refresh =>
    cases hstep
    obtain ⟨hc, rfl⟩ := nextPhase_spec hphase
    exact .refresh hc (h.isDense (.inl hc))
  | write id w =>
    obtain ⟨b', hwrite, hstep⟩ := Raises.of_bind hstep
    cases hstep
    have hph : phase = s.phase.written := nextPhase_spec hphase
    subst hph
    unfold writeRow at hwrite
    split at hwrite
    · exact absurd hwrite (by simp)
    · rename_i i hsome
      exact .write ((h.indexed.index id i).mp hsome) (writeIndex_wroteAt hwrite)
  | setOutput ref tokens =>
    cases hstep
    have hph : phase = s.phase.written := nextPhase_spec hphase
    subst hph
    exact .setOutput

theorem Reachable.rule {P : RunnerState → Prop} {s : RunnerState} (h : Reachable c ok s)
    (hinit : ∀ outputs, P (RunnerState.init c outputs))
    (hstep : ∀ s e s', Reachable c ok s → RunInv s → RunInv s' → ok s e → P s →
      Transition s e s' → P s') : P s := by
  induction h with
  | init outputs => exact hinit outputs
  | step h hphase hwf hok hs ih =>
    exact hstep _ _ _ h h.runInv (h.runInv.step hphase hwf hs) hok ih
      (h.runInv.transition hphase hwf hs)

namespace InputBatch
variable {b b' : InputBatch} {base : ℕ} {origin : RequestId → Origin}

/-- The rows of the last refresh, of which there were `base`. -/
def keptRows (base j : ℕ) : Option Origin := if j < base then some (.kept j) else none

def addedOrigins (added : List AddedRequest) : List (ℕ × Option Origin) :=
  added.mapIdx fun k a => (a.index, some (.added k))

/-- What the records of the step make of the rows of the last refresh. -/
def pendingOrigins (b : InputBatch) (base : ℕ) : ℕ → Option Origin :=
  applyRecords none (keptRows base) (addedOrigins b.batchUpdateBuilder.added)
    b.batchUpdateBuilder.removed b.batchUpdateBuilder.moved

/-- The records lead to the rows that the requests have. -/
structure Traced (b : InputBatch) (base : ℕ) (origin : RequestId → Origin) : Prop where
  origins : ∀ i, b.pendingOrigins base i = (b.owner i).map origin
  proper : ∀ m ∈ b.batchUpdateBuilder.moved, Proper m

theorem addedOrigins_append (added : List AddedRequest) (a : AddedRequest) :
    addedOrigins (added ++ [a]) =
      addedOrigins added ++ [(a.index, some (.added added.length))] := by
  simp [addedOrigins, mapIdx_append]

variable {i : ℕ} {id : RequestId}

section
variable (h : Traced b base origin) (hb : b.Open) (hstill : b.batchUpdateBuilder.moved = [])
include h hb hstill

theorem Traced.remove (howner : b.owner i = some id) (hr : RemovedAt b b' id i) :
    Traced b' base origin := by
  have hnot : i ∉ b.batchUpdateBuilder.removed := by
    rw [hb.removed i, owner_eq_some.mp howner]
    simp
  obtain ⟨-, hremoved, hadded, hmoved, -⟩ := hb.sorted.append hnot hr.builder
  refine ⟨?_, ?_⟩
  · intro k
    have hk := h.origins k
    rw [pendingOrigins, hstill, applyRecords_no_moves, clear] at hk
    rw [pendingOrigins, hmoved, hstill, hadded, hremoved, applyRecords_no_moves, clear,
      hr.owner_eq (lt_length_of_owner howner)]
    by_cases hki : k = i
    · simp [hki]
    · rw [update_of_ne hki, ← hk]
      simp [hki]
  · rw [hmoved]
    exact h.proper

theorem Traced.add {outputs : Outputs} {r : CachedRequestState} {params : SamplingParams} {n : ℕ}
    (ha : AddedAt outputs b b' r i n) (hnew : b.reqIdToIndex.get? r.reqId = none)
    (hparams : r.samplingParams = some params) :
    Traced b' base (update origin r.reqId (.added b.batchUpdateBuilder.added.length)) := by
  obtain ⟨-, hremoved, hmoved, hadded, -⟩ := ha.removed_iff hb
  rw [addedRecord, hparams] at hadded
  refine ⟨?_, by rw [hmoved]; exact h.proper⟩
  intro k
  have hk := h.origins k
  rw [pendingOrigins, hstill] at hk
  rw [pendingOrigins, hmoved, hstill, hadded, addedOrigins_append, ha.owner_eq,
    applyRecords_fill none _ _ _ hremoved]
  by_cases hki : k = i
  · subst hki
    simp
  · rw [update_of_ne hki, update_of_ne hki, hk]
    cases howner : b.owner k with
    | none => rfl
    | some id =>
      have hid : id ≠ r.reqId := by
        rintro rfl
        rw [(hb.index _ _).mpr howner] at hnew
        exact absurd hnew (by simp)
      rw [map_some, map_some, update_of_ne hid]

end

theorem Traced.swap {id1 id2 : RequestId} {i1 i2 : ℕ} (h : Traced b base origin)
    (hp : b.isPoolingModel = false) (hs : SwappedAt b b' id1 id2 i1 i2) :
    Traced b' base origin := by
  have hbuilder := hs.builder
  rw [hp, if_neg Bool.false_ne_true] at hbuilder
  refine ⟨?_, ?_⟩
  · intro k
    rw [pendingOrigins, hbuilder, applyRecords_swap, RowArray.swapRow_apply, hs.owner_eq,
      RowArray.swapRow_apply]
    exact h.origins _
  · intro m hm
    rw [hbuilder, mem_append, mem_singleton] at hm
    rcases hm with hm | rfl
    · exact h.proper m hm
    · intro hcontra
      exact absurd hcontra (by simp)

/-- The rows still to be filled play no part in the moves made so far. -/
structure TracedLoop (b : InputBatch) (base : ℕ) (origin : RequestId → Origin) : Prop
    extends Traced b base origin where
  kind : b.isPoolingModel = false
  untouched : ∀ e ∈ b.batchUpdateBuilder.removed, Untouched b.batchUpdateBuilder.moved e

variable {builder : BatchUpdateBuilder}

theorem TracedLoop.slide {last empty : ℕ} (h : TracedLoop b base origin) (hb : Sliding b last)
    (hlast : last ∉ b.batchUpdateBuilder.removed)
    (hpop : b.batchUpdateBuilder.popRemoved = (some empty, builder)) (hlt : empty < last)
    (hs : SlidAt { b with batchUpdateBuilder := builder } b' id last empty) :
    TracedLoop b' base origin := by
  have hmem := hb.sorted.mem_pop hpop
  obtain ⟨hperm, -, -, hadded, hmoved, -⟩ := hb.sorted.pop hpop
  have hempty : empty ∈ b.batchUpdateBuilder.removed := by
    rw [hperm.mem_iff]
    exact mem_cons_self
  have hbuilder := hs.builder
  dsimp only at hbuilder
  rw [h.kind, if_neg Bool.false_ne_true, hmoved] at hbuilder
  have hbound := hb.bound
  have hown := hs.owner_eq (show empty < b.reqIds.length by omega)
  have howned : b.owner last = some id := owner_eq_some.mpr hs.owned
  refine ⟨⟨?_, ?_⟩, ?_, ?_⟩
  · intro k
    rw [pendingOrigins, hbuilder, hown]
    dsimp only
    rw [hadded, applyRecords_slide none _ _ hlt.ne' hmem (h.untouched empty hempty), move]
    by_cases hkl : k = last
    · subst hkl
      simp
    · rw [update_of_ne hkl, update_of_ne hkl]
      by_cases hke : k = empty
      · subst hke
        rw [update_self, update_self]
        refine (h.origins last).trans ?_
        rw [howned]
      · rw [update_of_ne hke, update_of_ne hke]
        exact h.origins k
  · intro m hm
    rw [hbuilder, mem_append, mem_singleton] at hm
    rcases hm with hm | rfl
    · exact h.proper m hm
    · exact fun _ => hlt.ne'
  · rw [hs.setup.isPoolingModel]
    exact h.kind
  · intro e he m hm
    rw [hbuilder] at he hm
    obtain ⟨he, hne⟩ := (hmem e).mp he
    rw [mem_append, mem_singleton] at hm
    rcases hm with hm | rfl
    · exact h.untouched e he m hm
    · refine ⟨?_, hne.symm⟩
      rintro rfl
      exact hlast he

theorem Traced.sortRemoved (h : Traced b base origin) : Traced b.sortRemoved base origin := by
  have hperm := b.batchUpdateBuilder.perm_ensureRemovedSorted
  refine ⟨?_, ?_⟩
  · intro i
    refine Eq.trans ?_ (h.origins i)
    rw [pendingOrigins, pendingOrigins, InputBatch.sortRemoved, applyRecords, applyRecords]
    simp only [ensureRemovedSorted_added, ensureRemovedSorted_moved]
    congr 1
    funext k
    simp only [clear, hperm.mem_iff]
  · intro m hm
    rw [InputBatch.sortRemoved, ensureRemovedSorted_moved] at hm
    exact h.proper m hm

theorem Traced.condense (h : Traced b base origin) (hb : b.Open)
    (hp : b.isPoolingModel = false) (hstill : b.batchUpdateBuilder.moved = [])
    (hc : b.condense = .ok b') : Traced b' base origin := by
  have hmoved : b.sortRemoved.batchUpdateBuilder.moved = [] := by
    rw [InputBatch.sortRemoved, ensureRemovedSorted_moved, hstill]
  refine (condense_rule (P := fun c _ => TracedLoop c base origin)
    (Q := fun c => Traced c base origin) hb hc (fun _ _ => h.sortRemoved) ?_ ?_
    (fun _ _ _ _ hP => hP) ?_).1
  · intro _
    refine ⟨h.sortRemoved, hp, ?_⟩
    intro e _ m hm
    rw [hmoved] at hm
    exact absurd hm (by simp)
  · intro c c' id builder last empty hsliding hlast hpop hlt hP hs
    exact hP.slide hsliding hlast hpop hlt hs
  · intro c last hsettled hP
    refine ⟨?_, hP.proper⟩
    intro i
    rw [hsettled.owner_trimLists]
    exact hP.origins i

theorem SameSetup.refl (b : InputBatch) : SameSetup b b := ⟨rfl, rfl, rfl, rfl, rfl, rfl⟩

/-- The request `id` has a row. -/
def Live (b : InputBatch) (id : RequestId) : Prop := ∃ i, b.owner i = some id

theorem RemovedAt.live {id' : RequestId} (hr : RemovedAt b b' id i) (howner : b.owner i = some id)
    (h : b'.Live id') : b.Live id' := by
  obtain ⟨k, hk⟩ := h
  rw [hr.owner_eq (lt_length_of_owner howner)] at hk
  by_cases hki : k = i
  · simp [hki] at hk
  · rw [update_of_ne hki] at hk
    exact ⟨k, hk⟩

theorem SwappedAt.live {id1 id2 : RequestId} {i1 i2 : ℕ} (hs : SwappedAt b b' id1 id2 i1 i2)
    (h : b'.Live id) : b.Live id := by
  obtain ⟨k, hk⟩ := h
  rw [hs.owner_eq, RowArray.swapRow_apply] at hk
  exact ⟨_, hk⟩

theorem WroteAt.live (hw : WroteAt b b' i) (h : b'.Live id) : b.Live id := by
  obtain ⟨k, hk⟩ := h
  rw [hw.owner_eq] at hk
  exact ⟨k, hk⟩

/-- `condense` only moves requests, and adds no record of an added one. -/
structure Rearranged (b b' : InputBatch) : Prop where
  setup : SameSetup b b'
  added : b'.batchUpdateBuilder.added = b.batchUpdateBuilder.added
  live : ∀ id, b'.Live id → b.Live id

theorem Rearranged.slide {c c' : InputBatch} {last empty : ℕ} (h : Rearranged b c)
    (hb : Sliding c last) (hpop : c.batchUpdateBuilder.popRemoved = (some empty, builder))
    (hlt : empty < last) (hs : SlidAt { c with batchUpdateBuilder := builder } c' id last empty) :
    Rearranged b c' := by
  obtain ⟨-, -, -, hadded, -⟩ := hb.sorted.pop hpop
  have hbound := hb.bound
  have hown := hs.owner_eq (show empty < c.reqIds.length by omega)
  refine ⟨⟨?_, ?_, ?_, ?_, ?_, ?_⟩, ?_, ?_⟩
  · exact hs.setup.isPoolingModel.trans h.setup.isPoolingModel
  · exact hs.setup.maxModelLen.trans h.setup.maxModelLen
  · exact hs.setup.vocabSize.trans h.setup.vocabSize
  · exact hs.setup.logitsprocs.trans h.setup.logitsprocs
  · exact hs.setup.holder.trans h.setup.holder
  · exact hs.setup.metadata.trans h.setup.metadata
  · rw [hs.builder, ← h.added, ← hadded]
    split <;> rfl
  · rintro id' ⟨k, hk⟩
    apply h.live
    rw [hown] at hk
    by_cases hkl : k = last
    · simp [hkl] at hk
    · rw [update_of_ne hkl] at hk
      by_cases hke : k = empty
      · rw [hke, update_self] at hk
        exact ⟨last, (owner_eq_some.mpr hs.owned).trans hk⟩
      · rw [update_of_ne hke] at hk
        exact ⟨k, hk⟩

theorem Open.rearranged (hb : b.Open) (hc : b.condense = .ok b') : Rearranged b b' := by
  have hsort : Rearranged b b.sortRemoved :=
    ⟨⟨rfl, rfl, rfl, rfl, rfl, rfl⟩, b.batchUpdateBuilder.ensureRemovedSorted_added,
      fun _ h => h⟩
  refine (condense_rule (P := fun c _ => Rearranged b c) (Q := fun c => Rearranged b c) hb hc
    (fun _ _ => hsort) (fun _ => hsort) ?_ (fun _ _ _ _ hP => hP) ?_).1
  · intro c c' id builder last empty hsliding _ hpop hlt hP hs
    exact hP.slide hsliding hpop hlt hs
  · intro c last hsettled hP
    refine ⟨⟨hP.setup.isPoolingModel, hP.setup.maxModelLen, hP.setup.vocabSize,
      hP.setup.logitsprocs, hP.setup.holder, hP.setup.metadata⟩, hP.added, ?_⟩
    rintro id ⟨i, hi⟩
    rw [hsettled.owner_trimLists] at hi
    exact hP.live id ⟨i, hi⟩

end InputBatch

/-- The record that a request leaves when it is added. -/
def RecordOf (a : AddedRequest) (r : CachedRequestState) : Prop :=
  r.samplingParams = some a.params ∧ a.promptTokIds = r.promptTokenIds ∧
    a.outputTokIds = r.outputTokenIds

structure OriginInv (s : RunnerState) : Prop where
  traced : s.batch.Traced s.base s.origin
  still : s.phase ≠ .condensed → s.batch.batchUpdateBuilder.moved = []
  recorded : ∀ id t k, s.batch.Live id → s.ledger id = some t → s.origin id = .added k →
    ∃ a, s.batch.batchUpdateBuilder.added[k]? = some a ∧ RecordOf a t.request

/-- What a step that is not a refresh keeps of the requests that were there at the last one. -/
structure Continues (s s' : RunnerState) : Prop where
  setup : InputBatch.SameSetup s.batch s'.batch
  base : s'.base = s.base
  kept : ∀ id t' j, s'.batch.Live id → s'.ledger id = some t' → s'.origin id = .kept j →
    s.batch.Live id ∧ s.origin id = .kept j ∧
      ∃ t, s.ledger id = some t ∧ t.request = t'.request

theorem Transition.continues {s s' : RunnerState} (h : Transition s e s') (he : e ≠ .refresh) :
    Continues s s' := by
  cases h with
  | absent hphase habsent =>
    rename_i id
    refine ⟨InputBatch.SameSetup.refl _, rfl, ?_⟩
    intro id' t' j hlive hledger horigin
    exact ⟨hlive, horigin, t', of_update_none hledger, rfl⟩
  | remove hphase hopen howner hr =>
    rename_i id i b'
    refine ⟨hr.setup, rfl, ?_⟩
    rintro id' t' j ⟨k, hk⟩ hledger horigin
    dsimp only at hk
    rw [hr.owner_eq (lt_length_of_owner howner)] at hk
    exact ⟨⟨k, of_update_none hk⟩, horigin, t', of_update_none hledger, rfl⟩
  | add hphase hopen ha hnew hkind =>
    rename_i r i n b'
    refine ⟨ha.setup, rfl, ?_⟩
    rintro id' t' j ⟨k, hk⟩ hledger horigin
    by_cases hid : id' = r.reqId
    · subst hid
      simp at horigin
    · dsimp only at hledger hk horigin
      rw [update_of_ne hid] at hledger horigin
      rw [ha.owner_eq] at hk
      by_cases hki : k = i
      · rw [hki, update_self] at hk
        exact absurd (Option.some.inj hk).symm hid
      · rw [update_of_ne hki] at hk
        exact ⟨⟨k, hk⟩, horigin, t', hledger, rfl⟩
  | condense hphase hopen hc =>
    have hre := hopen.rearranged hc
    refine ⟨hre.setup, rfl, ?_⟩
    intro id' t' j hlive hledger horigin
    exact ⟨hre.live id' hlive, horigin, t', hledger, rfl⟩
  | swap hphase hdense hs =>
    refine ⟨hs.setup, rfl, ?_⟩
    rintro id' t' j ⟨k, hk⟩ hledger horigin
    dsimp only at hk
    rw [hs.owner_eq, RowArray.swapRow_apply] at hk
    exact ⟨⟨_, hk⟩, horigin, t', hledger, rfl⟩
  | refresh => exact absurd rfl he
  | write howner hw =>
    rename_i id w i b'
    refine ⟨hw.setup, rfl, ?_⟩
    rintro id' t' j ⟨k, hk⟩ hledger horigin
    dsimp only at hledger hk
    rw [hw.owner_eq] at hk
    refine ⟨⟨k, hk⟩, horigin, ?_⟩
    by_cases hid : id' = id
    · subst hid
      rw [update_self, map_eq_some_iff] at hledger
      obtain ⟨t, ht, rfl⟩ := hledger
      exact ⟨t, ht, rfl⟩
    · rw [update_of_ne hid] at hledger
      exact ⟨t', hledger, rfl⟩
  | setOutput =>
    refine ⟨InputBatch.SameSetup.refl _, rfl, ?_⟩
    intro id' t' j hlive hledger horigin
    exact ⟨hlive, horigin, t', hledger, rfl⟩

theorem Transition.added_eq {s s' : RunnerState} (h : Transition s e s') (he : e ≠ .refresh) :
    ∃ extra, s'.batch.batchUpdateBuilder.added = s.batch.batchUpdateBuilder.added ++ extra ∧
      ∀ a ∈ extra, ∃ r, e = .add r ∧ RecordOf a r := by
  cases h with
  | absent | setOutput => exact ⟨[], by simp, by simp⟩
  | remove hphase hopen howner hr =>
    rename_i id i b'
    have hnot : i ∉ s.batch.batchUpdateBuilder.removed := by
      rw [hopen.removed i, owner_eq_some.mp howner]
      simp
    obtain ⟨-, -, hadded, -⟩ := hopen.sorted.append hnot hr.builder
    exact ⟨[], by simpa using hadded, by simp⟩
  | add hphase hopen ha hnew hkind =>
    rename_i r i n b'
    obtain ⟨-, -, -, hadded, -⟩ := ha.removed_iff hopen
    refine ⟨addedRecord i r, hadded, ?_⟩
    intro a hmem
    refine ⟨r, rfl, ?_⟩
    unfold addedRecord at hmem
    split at hmem
    · rename_i params hparams
      obtain rfl := mem_singleton.mp hmem
      exact ⟨hparams, rfl, rfl⟩
    · exact absurd hmem (by simp)
  | condense hphase hopen hc =>
    exact ⟨[], by simpa using (hopen.rearranged hc).added, by simp⟩
  | swap hphase hdense hs =>
    refine ⟨[], ?_, by simp⟩
    dsimp only
    rw [hs.builder, append_nil]
    split <;> rfl
  | refresh => exact absurd rfl he
  | write howner hw =>
    refine ⟨[], ?_, by simp⟩
    dsimp only
    rw [hw.builder, append_nil]

theorem Transition.late {s s' : RunnerState} (h : Transition s e s') (he : e ≠ .refresh) :
    s'.phase ≠ .refreshed := by
  cases h with
  | absent | remove | add | condense | swap => simp
  | refresh => exact absurd rfl he
  | write | setOutput => exact Phase.written_ne_refreshed _

theorem Transition.isPoolingModel {s s' : RunnerState} (h : Transition s e s') :
    s'.batch.isPoolingModel = s.batch.isPoolingModel := by
  by_cases he : e = .refresh
  · subst he
    cases h with
    | refresh hphase hdense =>
      obtain ⟨_, _, _, _, heq, -⟩ := s.batch.refreshMetadata_eq s.outputs
      rw [heq]
  · exact (h.continues he).setup.isPoolingModel

theorem Reachable.isPoolingModel {s : RunnerState} (h : Reachable c ok s) :
    s.batch.isPoolingModel = c.isPoolingModel :=
  h.rule (fun _ => rfl) fun _ _ _ _ _ _ _ hs ht => ht.isPoolingModel.trans hs

theorem Reachable.requests {Q : CachedRequestState → Prop} {s : RunnerState} (h : Reachable c ok s)
    (hadd : ∀ s r, ok s (.add r) → r.samplingParams.isSome = !c.isPoolingModel → Q r) :
    ∀ id t, s.ledger id = some t → Q t.request := by
  refine h.rule (P := fun s => ∀ id t, s.ledger id = some t → Q t.request)
    (fun _ _ _ ht => absurd ht (by simp [RunnerState.init])) ?_
  intro s e s' hs hinv hinv' hok hQ ht id t hledger
  have hdrop : ∀ id0, update s.ledger id0 none id = some t → Q t.request := by
    intro id0 hget
    by_cases hid : id = id0
    · simp [hid] at hget
    · rw [update_of_ne hid] at hget
      exact hQ id t hget
  cases ht with
  | absent | remove => exact hdrop _ hledger
  | add hphase hopen ha hnew hkind =>
    rename_i r i n b'
    dsimp only at hledger
    by_cases hid : id = r.reqId
    · subst hid
      rw [update_self] at hledger
      cases hledger
      rw [hs.isPoolingModel] at hkind
      exact hadd s r hok hkind
    · rw [update_of_ne hid] at hledger
      exact hQ id t hledger
  | condense | swap | refresh => exact hQ id t hledger
  | write howner hw =>
    rename_i id0 w i b'
    dsimp only at hledger
    by_cases hid : id = id0
    · subst hid
      rw [update_self, map_eq_some_iff] at hledger
      obtain ⟨t0, ht0, rfl⟩ := hledger
      exact hQ id t0 ht0
    · rw [update_of_ne hid] at hledger
      exact hQ id t hledger
  | setOutput => exact hQ id t hledger

namespace OriginInv

theorem init (c : BatchConfig) (outputs : Outputs) : OriginInv (RunnerState.init c outputs) := by
  refine ⟨⟨fun i => ?_, fun m hm => ?_⟩, fun _ => rfl, ?_⟩
  · simp [RunnerState.init, BatchConfig.newBatch, pendingOrigins, owner, addedOrigins,
      applyRecords, applyMoves, clear, fill, keptRows]
  · exact absurd hm (by simp [RunnerState.init, BatchConfig.newBatch])
  · rintro id t k ⟨i, hi⟩
    exact absurd hi (by simp [RunnerState.init, BatchConfig.newBatch, owner])

theorem owner_refreshMetadata (outputs : Outputs) (b : InputBatch) :
    (b.refreshMetadata outputs).owner = b.owner := by
  obtain ⟨_, _, _, _, heq, -⟩ := b.refreshMetadata_eq outputs
  rw [heq]
  rfl

theorem refresh {b : InputBatch} (hb : b.Dense) (outputs : Outputs) :
    (b.refreshMetadata outputs).batchUpdateBuilder.moved = [] ∧
      (b.refreshMetadata outputs).Traced b.numReqs
        fun id => .kept (b.reqIdToIndex.getD id 0) := by
  have hrecords : (b.refreshMetadata outputs).batchUpdateBuilder.removed = [] ∧
      (b.refreshMetadata outputs).batchUpdateBuilder.added = [] ∧
      (b.refreshMetadata outputs).batchUpdateBuilder.moved = [] := by
    obtain ⟨_, _, _, _, heq, hrecords⟩ := b.refreshMetadata_eq outputs
    rw [heq]
    exact hrecords
  obtain ⟨hremoved, hadded, hmoved⟩ := hrecords
  refine ⟨hmoved, ⟨fun i => ?_, fun m hm => ?_⟩⟩
  · rw [pendingOrigins, hremoved, hadded, hmoved, owner_refreshMetadata]
    simp only [addedOrigins, mapIdx_nil, applyRecords, applyMoves, foldl_nil, clear,
      fill, not_mem_nil, ↓reduceIte, keptRows]
    split
    · rename_i hi
      obtain ⟨id, hid⟩ := hb.filled i hi
      rw [hid, map_some, Dict.getD, (hb.index id i).mpr hid]
      rfl
    · rename_i hi
      rw [hb.owner_none (not_lt.mp hi)]
      rfl
  · rw [hmoved] at hm
    exact absurd hm (by simp)

theorem step {s s' : RunnerState} {e : Event} (h : OriginInv s)
    (hp : s.batch.isPoolingModel = false) (ht : Transition s e s') : OriginInv s' := by
  cases ht with
  | absent hphase habsent =>
    rename_i id
    refine ⟨h.traced, fun _ => h.still hphase.ne, ?_⟩
    intro id' t k hlive hledger horigin
    exact h.recorded id' t k hlive (of_update_none hledger) horigin
  | remove hphase hopen howner hr =>
    rename_i id i b'
    have hstill := h.still hphase.ne
    have hnot : i ∉ s.batch.batchUpdateBuilder.removed := by
      rw [hopen.removed i, owner_eq_some.mp howner]
      simp
    obtain ⟨-, -, hadded, hmoved, -⟩ := hopen.sorted.append hnot hr.builder
    refine ⟨h.traced.remove hopen hstill howner hr, fun _ => hmoved.trans hstill, ?_⟩
    rintro id' t k ⟨l, hl⟩ hledger horigin
    dsimp only at hl ⊢
    rw [hr.owner_eq (lt_length_of_owner howner)] at hl
    rw [hadded]
    exact h.recorded id' t k ⟨l, of_update_none hl⟩ (of_update_none hledger) horigin
  | add hphase hopen ha hnew hkind =>
    rename_i r i n b'
    have hstill := h.still hphase
    obtain ⟨-, -, hmoved, hadded, -⟩ := ha.removed_iff hopen
    rw [hp, Bool.not_false, isSome_iff_exists] at hkind
    obtain ⟨params, hparams⟩ := hkind
    refine ⟨h.traced.add hopen hstill ha hnew hparams, fun _ => hmoved.trans hstill, ?_⟩
    rw [addedRecord, hparams] at hadded
    rintro id' t k ⟨l, hl⟩ hledger horigin
    dsimp only at hledger hl horigin ⊢
    rw [hadded]
    by_cases hid : id' = r.reqId
    · subst hid
      rw [update_self] at hledger horigin
      cases hledger
      obtain rfl := Origin.added.inj horigin
      exact ⟨⟨i, params, r.promptTokenIds, r.outputTokenIds⟩, by simp, hparams, rfl, rfl⟩
    · rw [update_of_ne hid] at hledger horigin
      rw [ha.owner_eq] at hl
      have hli : l ≠ i := by
        rintro rfl
        rw [update_self] at hl
        exact hid (Option.some.inj hl).symm
      rw [update_of_ne hli] at hl
      obtain ⟨a, ha', hrecord⟩ := h.recorded id' t k ⟨l, hl⟩ hledger horigin
      refine ⟨a, ?_, hrecord⟩
      rw [List.getElem?_append_left (List.getElem?_eq_some_iff.mp ha').1]
      exact ha'
  | condense hphase hopen hc =>
    have hre := hopen.rearranged hc
    refine ⟨h.traced.condense hopen hp (h.still hphase) hc, by simp, ?_⟩
    intro id' t k hlive hledger horigin
    dsimp only
    rw [hre.added]
    exact h.recorded id' t k (hre.live id' hlive) hledger horigin
  | swap hphase hdense hs =>
    refine ⟨h.traced.swap hp hs, by simp, ?_⟩
    rintro id' t k ⟨l, hl⟩ hledger horigin
    dsimp only at hl ⊢
    rw [hs.owner_eq, RowArray.swapRow_apply] at hl
    rw [hs.builder, hp]
    exact h.recorded id' t k ⟨_, hl⟩ hledger horigin
  | refresh hphase hdense =>
    obtain ⟨hmoved, htraced⟩ := refresh hdense s.outputs
    exact ⟨htraced, fun _ => hmoved, fun id t k _ _ horigin => absurd horigin (by simp)⟩
  | write howner hw =>
    rename_i id w i b'
    refine ⟨⟨?_, ?_⟩, ?_, ?_⟩
    · intro k
      dsimp only
      rw [pendingOrigins, hw.builder, hw.owner_eq]
      exact h.traced.origins k
    · dsimp only
      rw [hw.builder]
      exact h.traced.proper
    · intro hne
      dsimp only
      rw [hw.builder]
      exact h.still fun hc => hne (Phase.written_eq_condensed.mpr hc)
    · rintro id' t k ⟨l, hl⟩ hledger horigin
      dsimp only at hl hledger ⊢
      rw [hw.owner_eq] at hl
      rw [hw.builder]
      by_cases hid : id' = id
      · subst hid
        rw [update_self, map_eq_some_iff] at hledger
        obtain ⟨t0, ht0, rfl⟩ := hledger
        exact h.recorded id' t0 k ⟨l, hl⟩ ht0 horigin
      · rw [update_of_ne hid] at hledger
        exact h.recorded id' t k ⟨l, hl⟩ hledger horigin
  | setOutput =>
    exact ⟨h.traced, fun hne => h.still fun hc => hne (Phase.written_eq_condensed.mpr hc),
      h.recorded⟩

end OriginInv

theorem Reachable.originInv {s : RunnerState} (h : Reachable c ok s)
    (hp : c.isPoolingModel = false) : OriginInv s :=
  h.rule (fun outputs => OriginInv.init c outputs) fun _ _ _ hs _ _ _ horigin ht =>
    horigin.step (hs.isPoolingModel.trans hp) ht

/-- What is kept for a request, by where it comes from. -/
def resolve {α : Type} (d : α) (S new : ℕ → α) : Option Origin → α
  | none => d
  | some (.kept j) => S j
  | some (.added k) => new k

theorem applyRecords_eq_resolve {α : Type} {base : ℕ} {d : α} {S : ℕ → α}
    (hS : ∀ j, base ≤ j → S j = d) (b : InputBatch) (new : ℕ → α) (i : ℕ) :
    applyRecords d S (b.batchUpdateBuilder.added.mapIdx fun k a => (a.index, new k))
        b.batchUpdateBuilder.removed b.batchUpdateBuilder.moved i =
      resolve d S new (b.pendingOrigins base i) := by
  rw [pendingOrigins, applyRecords_comp (resolve d S new)]
  have hbase : S = fun k => resolve d S new (keptRows base k) := by
    funext k
    rw [keptRows]
    split
    · rfl
    · rename_i hk
      exact hS k (not_lt.mp hk)
  have hadded : (b.batchUpdateBuilder.added.mapIdx fun k a => (a.index, new k)) =
      (addedOrigins b.batchUpdateBuilder.added).map fun e => (e.1, resolve d S new e.2) := by
    refine ext_getElem? fun k => ?_
    simp [addedOrigins, resolve, comp_def]
  rw [← hbase, ← hadded]
  rfl

/-- What is kept per row for the requests of the last refresh: each of them that is still there
has content that suits it at the row it had then, and rows behind the last are empty. -/
structure Carries {α : Type} (s : RunnerState) (d : α) (S : ℕ → α)
    (R : RequestId → CachedRequestState → α → Prop) : Prop where
  kept : ∀ id t j, s.batch.Live id → s.ledger id = some t → s.origin id = .kept j →
    R id t.request (S j)
  idle : ∀ j, s.base ≤ j → S j = d

namespace Carries
variable {α : Type} {s s' : RunnerState} {d : α} {S : ℕ → α}
  {R : RequestId → CachedRequestState → α → Prop}

section
variable (h : Carries s d S R)
include h

theorem continues (hs : Continues s s') : Carries s' d S R := by
  refine ⟨?_, fun j hj => h.idle j (by rwa [hs.base] at hj)⟩
  intro id t' j hlive hledger horigin
  obtain ⟨hlive, horigin, t, hledger, hreq⟩ := hs.kept id t' j hlive hledger horigin
  rw [← hreq]
  exact h.kept id t j hlive hledger horigin

theorem resolved {new : ℕ → α} {id : RequestId} {t : Tracked}
    (hnew : ∀ k, s.origin id = .added k → R id t.request (new k)) (hlive : s.batch.Live id)
    (hledger : s.ledger id = some t) : R id t.request (resolve d S new (some (s.origin id))) := by
  cases horigin : s.origin id with
  | kept j => exact h.kept id t j hlive hledger horigin
  | added k => exact hnew k horigin

theorem applied (ho : OriginInv s) (new : ℕ → α)
    (hnew : ∀ id t k, s.batch.Live id → s.ledger id = some t → s.origin id = .added k →
      R id t.request (new k)) :
    (∀ i id t, s.batch.owner i = some id → s.ledger id = some t →
      R id t.request (applyRecords d S
        (s.batch.batchUpdateBuilder.added.mapIdx fun k a => (a.index, new k))
        s.batch.batchUpdateBuilder.removed s.batch.batchUpdateBuilder.moved i)) ∧
    ∀ i, s.batch.owner i = none → applyRecords d S
      (s.batch.batchUpdateBuilder.added.mapIdx fun k a => (a.index, new k))
      s.batch.batchUpdateBuilder.removed s.batch.batchUpdateBuilder.moved i = d := by
  refine ⟨?_, ?_⟩
  · intro i id t howner hledger
    rw [applyRecords_eq_resolve h.idle, ho.traced.origins, howner, map_some]
    exact h.resolved (fun k => hnew id t k ⟨i, howner⟩ hledger) ⟨i, howner⟩ hledger
  · intro i howner
    rw [applyRecords_eq_resolve h.idle, ho.traced.origins, howner]
    rfl

theorem applied_records (ho : OriginInv s) (new : AddedRequest → α)
    (hnew : ∀ id a r, RecordOf a r → R id r (new a)) :
    (∀ i id t, s.batch.owner i = some id → s.ledger id = some t →
      R id t.request (s.batch.batchUpdateBuilder.applied d S new i)) ∧
    ∀ i, s.batch.owner i = none → s.batch.batchUpdateBuilder.applied d S new i = d := by
  have hfilled : filledBy new s.batch.batchUpdateBuilder.added =
      s.batch.batchUpdateBuilder.added.mapIdx fun k a =>
        (a.index, (s.batch.batchUpdateBuilder.added[k]?.map new).getD d) := by
    refine ext_getElem? fun k => ?_
    rw [filledBy, List.getElem?_map, List.getElem?_mapIdx]
    cases hget : s.batch.batchUpdateBuilder.added[k]? with
    | none => rfl
    | some a => simp
  rw [BatchUpdateBuilder.applied, hfilled]
  refine h.applied ho _ ?_
  intro id t k hlive hledger horigin
  obtain ⟨a, ha, hrecord⟩ := ho.recorded id t k hlive hledger horigin
  rw [ha]
  exact hnew id a t.request hrecord

end

theorem refreshed {phase : Phase} {b' : InputBatch} (hb : s.batch.Dense)
    (howner : b'.owner = s.batch.owner)
    (hrows : ∀ i id t, s.batch.owner i = some id → s.ledger id = some t → R id t.request (S i))
    (hidle : ∀ i, s.batch.owner i = none → S i = d) :
    Carries { s with
      phase
      batch := b'
      origin := fun id => .kept (s.batch.reqIdToIndex.getD id 0)
      base := s.batch.numReqs } d S R := by
  refine ⟨?_, fun j hj => hidle j (hb.owner_none hj)⟩
  rintro id t j ⟨i, hi⟩ hledger horigin
  dsimp only at hi hledger
  rw [howner] at hi
  have hj : s.batch.reqIdToIndex.getD id 0 = j := Origin.kept.inj horigin
  rw [Dict.getD, (hb.index id i).mpr hi, getD_some] at hj
  subst hj
  exact hrows i id t hi hledger

end Carries

theorem Reachable.origin_inj {s : RunnerState} (h : Reachable c ok s)
    (hp : c.isPoolingModel = false) :
    ∀ id id', s.batch.Live id → s.batch.Live id' → s.origin id = s.origin id' → id = id' := by
  refine h.rule (P := fun s => ∀ id id', s.batch.Live id → s.batch.Live id' →
    s.origin id = s.origin id' → id = id') ?_ ?_
  · rintro outputs id id' ⟨i, hi⟩
    exact absurd hi (by simp [RunnerState.init, BatchConfig.newBatch, owner])
  · intro s e s' hs hinv hinv' hok hP ht
    have horigins := hs.originInv hp
    cases ht with
    | absent | setOutput => exact hP
    | remove hphase hopen howner hr =>
      have hlive : ∀ id, InputBatch.Live _ id → s.batch.Live id := fun id => hr.live howner
      exact fun id id' h h' => hP id id' (hlive id h) (hlive id' h')
    | add hphase hopen ha hnew hkind =>
      rename_i r i n b'
      have hother : ∀ id, b'.Live id → id ≠ r.reqId → s.batch.Live id ∧
          s.origin id ≠ .added s.batch.batchUpdateBuilder.added.length := by
        rintro id ⟨k, hk⟩ hne
        rw [ha.owner_eq] at hk
        have hki : k ≠ i := by
          rintro rfl
          rw [update_self] at hk
          exact hne (Option.some.inj hk).symm
        rw [update_of_ne hki] at hk
        refine ⟨⟨k, hk⟩, fun horigin => ?_⟩
        obtain ⟨t, ht, -⟩ := hinv.follows.shows k id hk
        obtain ⟨a, hget, -⟩ := horigins.recorded id t _ ⟨k, hk⟩ ht horigin
        exact absurd (List.getElem?_eq_some_iff.mp hget).1 (lt_irrefl _)
      intro id id' h h' horigin
      dsimp only at h h' horigin
      by_cases hid : id = r.reqId
      · by_cases hid' : id' = r.reqId
        · exact hid.trans hid'.symm
        · rw [hid, update_self, update_of_ne hid'] at horigin
          exact absurd horigin.symm (hother id' h' hid').2
      · by_cases hid' : id' = r.reqId
        · rw [hid', update_self, update_of_ne hid] at horigin
          exact absurd horigin (hother id h hid).2
        · rw [update_of_ne hid, update_of_ne hid'] at horigin
          exact hP id id' (hother id h hid).1 (hother id' h' hid').1 horigin
    | condense hphase hopen hc =>
      have hre := hopen.rearranged hc
      exact fun id id' h h' => hP id id' (hre.live id h) (hre.live id' h')
    | swap hphase hdense hs =>
      have hlive : ∀ id, InputBatch.Live _ id → s.batch.Live id := fun id => hs.live
      exact fun id id' h h' => hP id id' (hlive id h) (hlive id' h')
    | refresh hphase hdense =>
      rintro id id' ⟨k, hk⟩ ⟨k', hk'⟩ horigin
      dsimp only at hk hk'
      rw [OriginInv.owner_refreshMetadata] at hk hk'
      have hrow := Origin.kept.inj horigin
      rw [Dict.getD, Dict.getD, (hdense.index id k).mpr hk, (hdense.index id' k').mpr hk',
        getD_some, getD_some] at hrow
      subst hrow
      exact Option.some.inj (hk.symm.trans hk')
    | write howner hw =>
      have hlive : ∀ id, InputBatch.Live _ id → s.batch.Live id := fun id => hw.live
      exact fun id id' h h' => hP id id' (hlive id h) (hlive id' h')

end Vllm.Worker
