import Vllm.Offload.Connector

/-! The job tables of the connector: how each entry point changes them, and that no lookup or
assertion fails where the request's jobs allow the call. -/
namespace Vllm
open Outcome OffloadError Function RequestOffloadState

/-- What the tables say of a job. -/
structure JobEntry where
  reqId : RequestId
  pendingCount : ℤ
  isStore : Bool

def TransferJobStatus.entry (job : TransferJobStatus) : JobEntry :=
  ⟨job.reqId, job.pendingCount, job.isStore⟩

namespace Offloading
variable {E : OffloadError → Prop} {α : Type}

theorem meets_check {e : OffloadError} {p : Prop} [Decidable p] (h : ¬ p → E e) :
    Meets E (fun _ => p) (check e p) := by
  unfold check
  split_ifs with hp
  · exact hp
  · exact h hp

theorem meets_require (p : Prop) [Decidable p] : Meets Other (fun _ => p) (require p) :=
  meets_check fun _ => ⟨_, rfl⟩

theorem meets_find {e : OffloadError} {x : Option α} (h : x = none → E e) :
    Meets E (fun a => x = some a) (find e x) := by
  cases x with
  | none => exact h rfl
  | some a => exact rfl

end Offloading

namespace OffloadingConnectorScheduler
variable {M S : Type} {ops : OffloadingManager M S} {requests : RequestId → Request}
  {c c' : OffloadingConnectorScheduler M S} {reqId : RequestId}

/-- The jobs of a tracked request. -/
def heldJobs (c : OffloadingConnectorScheduler M S) (reqId : RequestId) : Option (List JobId) :=
  (c.reqStatus.get? reqId).map RequestOffloadState.transferJobs

def entry (c : OffloadingConnectorScheduler M S) (jobId : JobId) : Option JobEntry :=
  (c.jobs.get? jobId).map TransferJobStatus.entry

/-- The same job tables. -/
structure SameJobs (c c' : OffloadingConnectorScheduler M S) : Prop where
  held : c'.heldJobs = c.heldJobs
  entry : c'.entry = c.entry
  counter : c'.jobCounter = c.jobCounter
  stale : c'.staleJobThreshold = c.staleJobThreshold
  config : c'.config = c.config
  loads : c'.currentBatchLoadJobs = c.currentBatchLoadJobs

theorem SameJobs.rfl : SameJobs c c :=
  ⟨Eq.refl _, Eq.refl _, Eq.refl _, Eq.refl _, Eq.refl _, Eq.refl _⟩

theorem SameJobs.trans {c'' : OffloadingConnectorScheduler M S} (h : SameJobs c c')
    (h' : SameJobs c' c'') : SameJobs c c'' where
  held := h'.held.trans h.held
  entry := h'.entry.trans h.entry
  counter := h'.counter.trans h.counter
  stale := h'.stale.trans h.stale
  config := h'.config.trans h.config
  loads := h'.loads.trans h.loads

theorem heldJobs_set (d : Dict RequestId RequestOffloadState) (st : RequestOffloadState)
    (r : RequestId) : ((d.set reqId st).get? r).map transferJobs =
      update (fun r => (d.get? r).map transferJobs) reqId
        (some st.transferJobs) r := by
  rw [Dict.get?_set, update_apply]
  split_ifs <;> rfl

theorem heldJobs_setStatus (c : OffloadingConnectorScheduler M S) (st : RequestOffloadState) :
    (c.setStatus reqId st).heldJobs =
      update c.heldJobs reqId (some st.transferJobs) :=
  funext fun r => heldJobs_set c.reqStatus st r

variable {st : RequestOffloadState} {jobs : List JobId} {jobId : JobId}

theorem heldJobs_of_get (h : c.reqStatus.get? reqId = some st) :
    c.heldJobs reqId = some st.transferJobs := by
  rw [heldJobs, h, Option.map_some]

theorem SameJobs.of_status {st' : RequestOffloadState} (h : c.reqStatus.get? reqId = some st)
    (hstatus : c'.reqStatus = c.reqStatus.set reqId st') (hst : st'.transferJobs = st.transferJobs)
    (hjobs : c'.jobs = c.jobs) (hcounter : c'.jobCounter = c.jobCounter)
    (hstale : c'.staleJobThreshold = c.staleJobThreshold) (hconfig : c'.config = c.config)
    (hloads : c'.currentBatchLoadJobs = c.currentBatchLoadJobs) : SameJobs c c' := by
  refine ⟨?_, ?_, hcounter, hstale, hconfig, hloads⟩
  · have hset : c'.heldJobs = (c.setStatus reqId st').heldJobs := by
      unfold heldJobs
      rw [hstatus]
      rfl
    rw [hset, heldJobs_setStatus, hst, ← heldJobs_of_get h, update_eq_self]
  · funext j
    simp only [OffloadingConnectorScheduler.entry, hjobs]

theorem tracked_of_held (h : c.heldJobs reqId = some jobs) :
    ∃ st, c.reqStatus.get? reqId = some st ∧ st.transferJobs = jobs := by
  rcases Option.map_eq_some_iff.mp h with ⟨st, hst, hjobs⟩
  exact ⟨st, hst, hjobs⟩

theorem entry_of_get {job : TransferJobStatus} (h : c.jobs.get? jobId = some job) :
    c.entry jobId = some job.entry := by
  rw [entry, h, Option.map_some]

theorem meets_findStatus (h : c.heldJobs reqId = some jobs) :
    Meets Other (fun st => c.reqStatus.get? reqId = some st ∧ st.transferJobs = jobs)
      (Offloading.find .unknownRequest (c.reqStatus.get? reqId)) := by
  rcases tracked_of_held h with ⟨st, hst, hjobs⟩
  rw [hst]
  exact ⟨rfl, hjobs⟩

/-- The tables with one new job of a request. -/
structure AddsJob (c c' : OffloadingConnectorScheduler M S) (reqId : RequestId)
    (jobs : List JobId) (isStore : Bool) : Prop where
  held : c'.heldJobs = Function.update c.heldJobs reqId (some jobs)
  entry : c'.entry = Function.update c.entry c.jobCounter
    (some ⟨reqId, c.config.numWorkers, isStore⟩)
  counter : c'.jobCounter = c.jobCounter + 1
  stale : c'.staleJobThreshold = c.staleJobThreshold
  config : c'.config = c.config

theorem entry_set (d : Dict JobId TransferJobStatus) (jobId : JobId) (job : TransferJobStatus)
    (j : JobId) : ((d.set jobId job).get? j).map TransferJobStatus.entry =
      update (fun j => (d.get? j).map TransferJobStatus.entry) jobId
        (some job.entry) j := by
  rw [Dict.get?_set, update_apply]
  split_ifs <;> rfl

theorem onNewRequest_held (c : OffloadingConnectorScheduler M S) (reqId : RequestId)
    (cap : Option ℤ) : (c.onNewRequest ops reqId cap).heldJobs =
      update c.heldJobs reqId (some []) :=
  heldJobs_setStatus c _

theorem getNumNewMatchedTokens_meets (h : c.heldJobs reqId = some jobs) (numComputedTokens : ℕ) :
    Meets Other (fun r => SameJobs c r.2)
      (c.getNumNewMatchedTokens ops requests reqId numComputedTokens) := by
  unfold getNumNewMatchedTokens
  apply (meets_findStatus h).bind
  rintro st ⟨hst, -⟩
  apply meets_pure
  exact .of_status hst rfl rfl rfl rfl rfl rfl rfl

theorem groupLoad_meets (pool : BlockPool) (config : SchedulerOffloadConfig)
    (st : RequestOffloadState) (n : ℕ) (g : GroupOffloadConfig) (gs : RequestGroupState)
    (blocks : List BlockId) :
    Meets Other (fun _ => True) (groupLoad pool config st n g gs blocks) := by
  unfold groupLoad
  apply (Offloading.meets_require _).bind
  intro _ _
  apply (Offloading.meets_require _).bind
  intro _ _
  apply (Offloading.meets_require _).bind
  intro _ _
  apply (Offloading.meets_require _).bind
  intro _ _
  exact meets_pure trivial

theorem updateStateAfterAlloc_meets (h : c.heldJobs reqId = some jobs) (pool : BlockPool)
    (blocks : List (List BlockId)) {numExternalTokens : ℕ}
    (hnone : numExternalTokens ≠ 0 → jobs = []) :
    Meets Other (fun c' => if numExternalTokens = 0 then c' = c
      else AddsJob c c' reqId [c.jobCounter] false ∧
        ∃ job, c'.currentBatchLoadJobs = c.currentBatchLoadJobs.set c.jobCounter job)
      (c.updateStateAfterAlloc ops pool reqId blocks numExternalTokens) := by
  unfold updateStateAfterAlloc
  split_ifs with hzero
  · exact meets_pure rfl
  · apply (meets_findStatus h).bind
    rintro st ⟨hst, rfl⟩
    refine (meets_mapM_of_forall fun _ _ => groupLoad_meets ..).bind ?_
    intro groups _
    apply (Offloading.meets_check fun hne => absurd (hnone hzero) hne).bind
    intro _ _
    apply meets_pure
    refine ⟨⟨?_, ?_, rfl, rfl, rfl⟩, _, rfl⟩
    · exact heldJobs_setStatus c _
    · exact funext fun j => entry_set c.jobs c.jobCounter _ j

theorem SameJobs.of_mapValues {f : RequestId → RequestOffloadState → RequestOffloadState}
    (hstatus : c'.reqStatus = c.reqStatus.mapValues f)
    (hf : ∀ r st, (f r st).transferJobs = st.transferJobs) (hjobs : c'.jobs = c.jobs)
    (hcounter : c'.jobCounter = c.jobCounter)
    (hstale : c'.staleJobThreshold = c.staleJobThreshold) (hconfig : c'.config = c.config)
    (hloads : c'.currentBatchLoadJobs = c.currentBatchLoadJobs) : SameJobs c c' := by
  refine ⟨?_, ?_, hcounter, hstale, hconfig, hloads⟩
  · funext r
    simp only [heldJobs, hstatus, Dict.get?_mapValues]
    cases c.reqStatus.get? r with
    | none => rfl
    | some st => exact congrArg some (hf r st)
  · funext j
    simp only [OffloadingConnectorScheduler.entry, hjobs]

theorem updateBlockIdGroups_meets (st : RequestOffloadState) (groups : List (List BlockId)) :
    Meets Other (fun st' => st'.transferJobs = st.transferJobs)
      (st.updateBlockIdGroups groups) := by
  unfold updateBlockIdGroups
  apply (Offloading.meets_require _).bind
  intro _ _
  exact meets_pure rfl

theorem updateReqState_meets {d : ReqData} {ends : Dict RequestId (List ℕ)}
    (h : c.heldJobs d.reqId = some jobs) :
    Meets Other (fun s => SameJobs c s.1)
      (updateReqState requests d (c, ends)) := by
  unfold updateReqState
  apply (meets_findStatus h).bind
  rintro st ⟨hst, -⟩
  have hkeys : ∀ hashes, (if d.preempted = true then
      (st.updateOffloadKeys c.config hashes).clearBlockIds
        else st.updateOffloadKeys c.config hashes).transferJobs = st.transferJobs := by
    intro hashes
    split_ifs <;> rfl
  dsimp only
  split
  · exact meets_pure (.of_status hst rfl (hkeys _) rfl rfl rfl rfl rfl)
  · exact meets_pure (.of_status hst rfl (hkeys _) rfl rfl rfl rfl rfl)
  · apply (updateBlockIdGroups_meets _ _).bind
    intro st' hst'
    exact meets_pure (.of_status hst rfl (hst'.trans (hkeys _)) rfl rfl rfl rfl rfl)

theorem updateReqStates_meets {batch : ScheduledBatch}
    (h : ∀ d ∈ batch.reqData, ∃ jobs, c.heldJobs d.reqId = some jobs) :
    Meets Other (SameJobs c) (c.updateReqStates requests batch) := by
  unfold updateReqStates
  have hloop : Meets Other (fun s => SameJobs c s.1)
      (batch.reqData.foldlM (fun s d => updateReqState requests d s) (c, Dict.empty)) := by
    apply meets_foldlM
    · exact .rfl
    · rintro d hd ⟨c₁, ends⟩ hsame
      rcases h d hd with ⟨jobs, hjobs⟩
      rw [← hsame.held] at hjobs
      exact (updateReqState_meets hjobs).imp fun _ => hsame.trans
  apply hloop.bind
  rintro ⟨c₁, ends⟩ hsame
  apply meets_pure
  have hzero : ∀ r st, (zeroStaleGroups c₁.config c₁.currentBatchAllocatedBlockIds (ends.get? r)
    st).transferJobs = st.transferJobs := fun _ _ => rfl
  exact hsame.trans (.of_mapValues rfl hzero rfl rfl rfl rfl rfl)

/-- All jobs of a request are known stores. -/
def HoldsStores (c : OffloadingConnectorScheduler M S) (jobs : List JobId) : Prop :=
  ∀ j ∈ jobs, ∃ e, c.entry j = some e ∧ e.isStore = true

theorem requireStores_meets (h : c.HoldsStores st.transferJobs) :
    Meets Other (fun _ => True) (c.requireStores st) := by
  unfold requireStores
  split
  · exact meets_pure trivial
  · next j rest hjobs =>
    rcases h j (by rw [hjobs]; exact List.mem_cons_self) with ⟨e, he, hstore⟩
    rcases Option.map_eq_some_iff.mp he with ⟨job, hjob, rfl⟩
    rw [hjob]
    exact (Offloading.meets_check fun hne => absurd hstore hne).imp fun _ _ => trivial

theorem preemptedJobs_meets {ids : List RequestId}
    (h : ∀ r ∈ ids, ∀ jobs, c.heldJobs r = some jobs → c.HoldsStores jobs) :
    Meets Other (fun _ => True) (c.preemptedJobs ids) := by
  unfold preemptedJobs
  refine (meets_mapM_of_forall fun r hr => ?_).bind fun _ _ => meets_pure trivial
  split
  · exact meets_pure trivial
  · next st hst =>
    have hstores := h r hr _ (heldJobs_of_get hst)
    exact (requireStores_meets hstores).bind fun _ _ => meets_pure trivial

theorem newGroupKeys_meets (config : SchedulerOffloadConfig) (n : ℕ) (g : GroupOffloadConfig)
    (gs : RequestGroupState) :
    Meets Other (fun _ => True) (newGroupKeys config n g gs) := by
  unfold newGroupKeys
  dsimp only
  split_ifs
  · exact meets_pure trivial
  · exact (Offloading.meets_require _).bind fun _ _ => meets_pure trivial

theorem storedBlocks_meets (config : SchedulerOffloadConfig) (n : ℕ) (keys : List OffloadKey)
    (g : GroupOffloadConfig) (gs : RequestGroupState) :
    Meets Other (fun _ => True) (storedBlocks config n keys g gs) := by
  unfold storedBlocks
  have hblock : ∀ j : ℕ, Meets Other (fun _ => True) (do
      let block ← Offloading.find (.other .indexError) gs.blockIds[j]?
      pure (j, block)) := fun j =>
    (Offloading.meets_find fun _ => ⟨_, rfl⟩).bind fun _ _ => meets_pure trivial
  exact (meets_mapM_of_forall fun j _ => hblock j).bind fun _ _ => meets_pure trivial

theorem buildStoreJob_meets (h : ∀ jobs, c.heldJobs reqId = some jobs → c.HoldsStores jobs)
    (n : ℕ) : Meets Other (fun r => (r.1 = none ∧ SameJobs c r.2) ∨
      ∃ jobs job, c.heldJobs reqId = some jobs ∧ r.1 = some (c.jobCounter, job) ∧
        AddsJob c r.2 reqId (jobs.insert c.jobCounter) true)
      (c.buildStoreJob ops requests reqId n) := by
  unfold buildStoreJob
  split
  · exact meets_pure (.inl ⟨rfl, .rfl⟩)
  · next st hst =>
    refine (meets_mapM_of_forall fun _ _ => newGroupKeys_meets ..).bind ?_
    intro newOffloadKeys _
    have hadvance : ∀ m, SameJobs c (c.setStatus reqId (st.advanceStoredIdx c.config m)) :=
      fun m => .of_status hst rfl rfl rfl rfl rfl rfl rfl
    apply meets_ite
    · intro _
      exact meets_pure (.inl ⟨rfl, hadvance _⟩)
    · intro _
      dsimp only
      split
      · exact meets_pure (.inl ⟨rfl, ⟨rfl, rfl, rfl, rfl, rfl, rfl⟩⟩)
      · next storeOutput hout =>
        apply meets_ite
        · intro _
          exact meets_pure (.inl ⟨rfl, .of_status hst rfl rfl rfl rfl rfl rfl rfl⟩)
        · intro _
          refine (meets_mapM_of_forall fun _ _ => storedBlocks_meets ..).bind ?_
          intro blocks _
          apply (requireStores_meets (h _ (heldJobs_of_get hst))).bind
          intro _ _
          apply meets_pure
          refine .inr ⟨st.transferJobs, _, heldJobs_of_get hst, rfl, ?_, ?_, rfl, rfl, rfl⟩
          · exact heldJobs_setStatus c _
          · exact funext fun j => entry_set c.jobs c.jobCounter _ j

theorem removePendingJob_meets (jobId : JobId) (blockIds : List BlockId)
    (pending : Dict BlockId (List JobId)) :
    Meets Other (fun _ => True) (removePendingJob jobId blockIds pending) := by
  unfold removePendingJob
  apply meets_foldlM trivial
  intro block _ pending _
  apply (Offloading.meets_find fun _ => ⟨_, rfl⟩).bind
  intro jobs _
  apply (Offloading.meets_check fun _ => ⟨_, rfl⟩).bind
  intro _ _
  exact meets_pure trivial

theorem pendingAfter_meets (c : OffloadingConnectorScheduler M S) (jobId : JobId)
    (job : TransferJobStatus) :
    Meets Other (fun _ => True) (c.pendingAfter requests jobId job) := by
  unfold pendingAfter
  apply meets_ite
  · intro _
    exact meets_pure trivial
  · intro _
    apply (removePendingJob_meets ..).bind
    intro pending _
    exact meets_ite (fun _ => removePendingJob_meets ..) fun _ => meets_pure trivial

/-- A report that leaves workers at work lowers a count. -/
structure LowersCount (c c' : OffloadingConnectorScheduler M S) (jobId : JobId) (e : JobEntry)
    (count : ℕ) : Prop where
  held : c'.heldJobs = c.heldJobs
  entry : c'.entry = Function.update c.entry jobId
    (some { e with pendingCount := e.pendingCount - count })
  counter : c'.jobCounter = c.jobCounter
  stale : c'.staleJobThreshold = c.staleJobThreshold
  config : c'.config = c.config
  loads : c'.currentBatchLoadJobs = c.currentBatchLoadJobs

/-- The last report of a job takes it out of the tables, and a finished request with it. -/
structure EndsJob (c c' : OffloadingConnectorScheduler M S) (jobId : JobId) (reqId : RequestId)
    (jobs : List JobId) (finished : Bool) : Prop where
  held : c'.heldJobs = Function.update c.heldJobs reqId
    (if jobs.erase jobId = [] ∧ finished then none else some (jobs.erase jobId))
  entry : c'.entry = Function.update c.entry jobId none
  counter : c'.jobCounter = c.jobCounter
  stale : c'.staleJobThreshold = c.staleJobThreshold
  config : c'.config = c.config
  loads : c'.currentBatchLoadJobs = c.currentBatchLoadJobs

theorem heldJobs_erase (d : Dict RequestId RequestOffloadState) (r : RequestId) :
    ((d.erase reqId).get? r).map transferJobs =
      update (fun r => (d.get? r).map transferJobs) reqId none r := by
  rw [Dict.get?_erase, update_apply]
  split_ifs <;> rfl

theorem entry_set_erase (d : Dict JobId TransferJobStatus) (jobId : JobId)
    (job : TransferJobStatus) (j : JobId) :
    (((d.set jobId job).erase jobId).get? j).map TransferJobStatus.entry =
      update (fun j => (d.get? j).map TransferJobStatus.entry) jobId none j := by
  rw [Dict.get?_erase, Dict.get?_set, update_apply]
  split_ifs <;> rfl

/-- Where the last report of a job leads, whatever the manager does. -/
theorem endJob_meets {job : TransferJobStatus} {c₁ : OffloadingConnectorScheduler M S}
    {pending : Dict BlockId (List JobId)} (hstatus : c₁.reqStatus = c.reqStatus)
    (hjobs : c₁.jobs = c.jobs.set jobId job) (hcounter : c₁.jobCounter = c.jobCounter)
    (hstale : c₁.staleJobThreshold = c.staleJobThreshold) (hconfig : c₁.config = c.config)
    (hloads : c₁.currentBatchLoadJobs = c.currentBatchLoadJobs) (hmem : jobId ∈ st.transferJobs)
    {finished : Bool} {reqId : RequestId} :
    Meets Other (fun c' => EndsJob c c' jobId reqId st.transferJobs finished) (do
      let c₂ := { c₁ with blockIdToPendingJobs := pending, jobs := c₁.jobs.erase jobId }
      Offloading.check .jobNotHeld (jobId ∈ st.transferJobs)
      let st := { st with transferJobs := st.transferJobs.erase jobId }
      if st.transferJobs = [] ∧ finished then
        pure { c₂ with reqStatus := c₂.reqStatus.erase reqId }
      else pure (c₂.setStatus reqId st)) := by
  apply (Offloading.meets_check fun hne => absurd hmem hne).bind
  intro _ _
  have hentry : ∀ j, ((c₁.jobs.erase jobId).get? j).map TransferJobStatus.entry =
      update c.entry jobId none j := by
    intro j
    rw [hjobs]
    exact entry_set_erase c.jobs jobId job j
  apply meets_ite
  · intro hlast
    apply meets_pure
    constructor
    · funext r
      rw [if_pos hlast, heldJobs, hstatus]
      exact heldJobs_erase c.reqStatus r
    · exact funext hentry
    · exact hcounter
    · exact hstale
    · exact hconfig
    · exact hloads
  · intro hlast
    apply meets_pure
    constructor
    · funext r
      rw [if_neg hlast, heldJobs, setStatus, hstatus]
      exact heldJobs_set c.reqStatus _ r
    · exact funext hentry
    · exact hcounter
    · exact hstale
    · exact hconfig
    · exact hloads

theorem completeJob_meets {e : JobEntry} {count : ℕ}
    (hentry : c.entry jobId = some e) (hheld : c.heldJobs e.reqId = some jobs)
    (hmem : jobId ∈ jobs) (hlive : c.staleJobThreshold ≤ jobId) (hcount : 0 < count)
    (hle : (count : ℤ) ≤ e.pendingCount) :
    Meets Other (fun c' =>
      if (count : ℤ) = e.pendingCount
      then EndsJob c c' jobId e.reqId jobs (requests e.reqId).status.isFinished
      else LowersCount c c' jobId e count) (c.completeJob ops requests jobId count) := by
  rcases Option.map_eq_some_iff.mp hentry with ⟨job, hjob, rfl⟩
  rcases tracked_of_held hheld with ⟨st, hst, rfl⟩
  unfold completeJob
  apply (Offloading.meets_check fun hne => absurd hcount hne).bind
  intro _ _
  rw [if_neg (not_lt.mpr hlive), hjob]
  show Meets _ _ (if job.pendingCount - count > 0 then _ else _)
  have hpending : job.entry.pendingCount = job.pendingCount := rfl
  rw [hpending] at hle ⊢
  by_cases hmore : job.pendingCount - count > 0
  · rw [if_pos hmore]
    apply meets_pure
    rw [if_neg (by omega)]
    refine ⟨rfl, ?_, rfl, rfl, rfl, rfl⟩
    exact funext fun j => entry_set c.jobs jobId _ j
  · rw [if_neg hmore]
    have hzero : job.pendingCount - count = 0 := by omega
    apply (Offloading.meets_check fun hne => absurd hzero hne).bind
    intro _ _
    have hfind : Meets Other (fun st' => st' = st)
        (Offloading.find .unknownRequest (c.reqStatus.get? job.reqId)) := by
      rw [show c.reqStatus.get? job.reqId = some st from hst]
      exact rfl
    apply hfind.bind
    rintro _ rfl
    have hlast : (count : ℤ) = job.pendingCount := by omega
    simp only [if_pos hlast]
    split
    · apply (pendingAfter_meets ..).bind
      intro pending _
      apply endJob_meets <;> first | rfl | exact hmem
    · apply (pendingAfter_meets ..).bind
      intro pending _
      apply endJob_meets <;> first | rfl | exact hmem

/-- A finished request is dropped if it has no jobs, and keeps all of them otherwise. -/
structure FinishesRequest (c c' : OffloadingConnectorScheduler M S) (reqId : RequestId)
    (jobs : List JobId) : Prop where
  held : c'.heldJobs = Function.update c.heldJobs reqId (if jobs = [] then none else some jobs)
  entry : c'.entry = c.entry
  counter : c'.jobCounter = c.jobCounter
  stale : c'.staleJobThreshold = c.staleJobThreshold
  config : c'.config = c.config
  loads : c'.currentBatchLoadJobs = c.currentBatchLoadJobs

theorem requestFinished_meets (h : c.heldJobs reqId = some jobs)
    (hknown : ∀ j ∈ jobs, ∃ e, c.entry j = some e) :
    Meets Other (fun c' => FinishesRequest c c' reqId jobs)
      (c.requestFinished ops reqId) := by
  rcases tracked_of_held h with ⟨st, hst, rfl⟩
  unfold requestFinished
  simp only [hst]
  apply meets_ite
  · intro hnone
    apply meets_pure
    refine ⟨?_, rfl, rfl, rfl, rfl, rfl⟩
    rw [if_pos hnone]
    exact funext fun r => heldJobs_erase c.reqStatus r
  · intro hsome
    have hloop : Meets Other (fun _ => True)
        (st.transferJobs.foldlM (fun pending jobId => do
          let job ← Offloading.find .unknownJob (c.jobs.get? jobId)
          pure (addPendingJob jobId (job.nonSlidingWindowBlockIds.getD []) pending))
          c.blockIdToPendingJobs) := by
      apply meets_foldlM trivial
      intro j hj pending _
      rcases hknown j hj with ⟨e, he⟩
      rcases Option.map_eq_some_iff.mp he with ⟨job, hjob, -⟩
      rw [hjob]
      exact trivial
    apply hloop.bind
    intro pending _
    apply meets_pure
    refine ⟨?_, rfl, rfl, rfl, rfl, rfl⟩
    rw [if_neg hsome, ← h, update_eq_self]
    rfl

theorem resetCache_meets (hidle : c.jobs.isEmpty = true) :
    Meets Other (fun c' => c'.heldJobs = c.heldJobs ∧ c'.entry = c.entry ∧
      c'.config = c.config ∧ c'.currentBatchLoadJobs = c.currentBatchLoadJobs ∧
      c'.staleJobThreshold ≤ c'.jobCounter) (c.resetCache ops) := by
  unfold resetCache
  apply (Offloading.meets_require _).bind
  intro _ _
  apply (Offloading.meets_require _).bind
  intro _ _
  apply (Offloading.meets_require _).bind
  intro _ _
  apply meets_pure
  refine ⟨?_, ?_, rfl, rfl, Nat.le_refl _⟩
  · funext r
    simp only [heldJobs, Dict.get?_mapValues]
    cases c.reqStatus.get? r with
    | none => rfl
    | some st => exact rfl
  · funext j
    simp only [entry, TransferJobs.reset, (Dict.isEmpty_iff _).mp hidle j, Dict.get?_empty]

end OffloadingConnectorScheduler

end Vllm
