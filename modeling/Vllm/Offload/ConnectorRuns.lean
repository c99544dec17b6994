import Vllm.Offload.CachePolicy
import Vllm.Offload.JobsInvariant
import Vllm.Offload.Lookup

/-! The connector driven by the scheduler and the reports of the workers, in the orders in which
the scheduler makes its calls. -/
namespace Vllm
open Outcome OffloadingConnectorScheduler OffloadError Function List

/-- The connector, where each request is, and how many reports each handed over job still owes.
`preempted` are the requests withdrawn in the current `schedule()`. -/
structure OffloadWorld (M S : Type) where
  connector : OffloadingConnectorScheduler M S
  phase : RequestId → RequestPhase := fun _ => .unknown
  remaining : JobId → ℕ := fun _ => 0
  inSchedule : Bool := false
  preempted : List RequestId := []

/-- `preempt` is in the running loop of `schedule()`. `pushBack` is outside of it: it is
`reset_running_requests`, or a session that waits for input. -/
inductive OffloadEvent where
  | addRequest (reqId : RequestId) (maxOffloadTokens : Option ℤ)
  | lookup (requests : RequestId → Request) (reqId : RequestId) (numComputedTokens : ℕ)
  | alloc (pool : BlockPool) (reqId : RequestId) (blocks : List (List BlockId))
      (numExternalTokens : ℕ)
  | preempt (reqId : RequestId)
  | pushBack (reqId : RequestId)
  | build (requests : RequestId → Request) (batch : ScheduledBatch)
  | report (requests : RequestId → Request) (completedJobs : Dict JobId ℕ)
  | finish (reqId : RequestId)
  | reset

namespace OffloadWorld
variable {M S : Type} (ops : OffloadingManager M S) (w : OffloadWorld M S)

/-- The request objects show which requests are finished. -/
def ShowsFinished (requests : RequestId → Request) : Prop :=
  ∀ r, (requests r).status.isFinished = true ↔ w.phase r = .finished

/-- The orders of the scheduler: ids are fresh, waiting requests are visited after the running
ones and only if none was preempted, and nothing else happens within `schedule()`. A report
counts workers that have the job and are not done with it. -/
def Enabled : OffloadEvent → Prop
  | .addRequest reqId _ => w.inSchedule = false ∧ w.phase reqId = .unknown
  | .lookup _ reqId _ => w.phase reqId = .waiting ∧ w.preempted = []
  | .alloc _ reqId _ _ => w.phase reqId = .waiting ∧ w.preempted = []
  | .preempt reqId => w.phase reqId = .running
  | .pushBack reqId => w.inSchedule = false ∧ w.phase reqId = .running
  | .build requests batch => w.ShowsFinished requests ∧
      (∀ d ∈ batch.reqData, w.phase d.reqId = .running) ∧
      (∀ r ∈ batch.numScheduledTokens.keys, w.phase r = .running) ∧
      ∀ r, r ∈ batch.preemptedReqIds ↔ r ∈ w.preempted
  | .report requests completedJobs => w.inSchedule = false ∧ w.ShowsFinished requests ∧
      ∀ j n, completedJobs.get? j = some n → 0 < n ∧ n ≤ w.remaining j
  | .finish reqId => w.inSchedule = false ∧ w.phase reqId ≠ .unknown ∧ w.phase reqId ≠ .finished
  | .reset => w.inSchedule = false

/-- A load with no more reports to come lets its request wait again. -/
def account (w : OffloadWorld M S) (report : JobId × ℕ) : OffloadWorld M S :=
  let remaining := Function.update w.remaining report.1 (w.remaining report.1 - report.2)
  let phase (r : RequestId) : RequestPhase :=
    if w.phase r = .remote report.1 ∧ remaining report.1 = 0 then .waiting else w.phase r
  { w with remaining, phase }

def exec : OffloadEvent → Offloading (OffloadWorld M S)
  | .addRequest reqId maxOffloadTokens => pure { w with
      connector := w.connector.onNewRequest ops reqId maxOffloadTokens
      phase := Function.update w.phase reqId .waiting }
  | .lookup requests reqId numComputedTokens => do
    let (_, connector) ←
      w.connector.getNumNewMatchedTokens ops requests reqId numComputedTokens
    pure { w with connector, inSchedule := true }
  | .alloc pool reqId blocks numExternalTokens => do
    let connector ←
      w.connector.updateStateAfterAlloc ops pool reqId blocks numExternalTokens
    let p := if numExternalTokens = 0 then .running else .remote w.connector.jobCounter
    pure { w with connector, phase := Function.update w.phase reqId p, inSchedule := true }
  | .preempt reqId => pure { w with
      phase := Function.update w.phase reqId .waiting
      inSchedule := true
      preempted := reqId :: w.preempted }
  | .pushBack reqId => pure { w with phase := Function.update w.phase reqId .waiting }
  | .build requests batch => do
    let (metadata, connector) ← w.connector.buildConnectorMeta ops requests batch
    let remaining (j : JobId) : ℕ :=
      if metadata.loadJobs.contains j ∨ metadata.storeJobs.contains j
      then connector.config.numWorkers else w.remaining j
    pure { w with connector, remaining, inSchedule := false, preempted := [] }
  | .report requests completedJobs => do
    let connector ← w.connector.updateConnectorOutput ops requests completedJobs
    pure { completedJobs.entries.foldl account w with connector }
  | .finish reqId => do
    let connector ← w.connector.requestFinished ops reqId
    pure { w with connector, phase := Function.update w.phase reqId .finished }
  | .reset => do
    let connector ← w.connector.resetCache ops
    pure { w with connector }

/-- A load is asked for only for a request without jobs, and a reset only with no job in flight. -/
def Orderly : OffloadEvent → Prop
  | .alloc _ reqId _ numExternalTokens =>
      numExternalTokens = 0 ∨ ∀ jobs, w.connector.heldJobs reqId = some jobs → jobs = []
  | .reset => w.connector.jobs.isEmpty = true
  | _ => True

/-- The runs from a new connector whose events all meet a condition. -/
inductive Reachable (cond : OffloadWorld M S → OffloadEvent → Prop) : OffloadWorld M S → Prop
  | init {config : SchedulerOffloadConfig} {manager : M} (hworkers : 0 < config.numWorkers) :
      Reachable cond { connector := { config, manager } }
  | step {w w' : OffloadWorld M S} {event : OffloadEvent} (h : Reachable cond w)
      (henabled : w.Enabled event) (hcond : cond w event) (hexec : w.exec ops event = .ok w') :
      Reachable cond w'

/-- The reports of a job that are still to come, if it is handed over now. -/
def owed (j : JobId) : ℕ :=
  if w.connector.currentBatchLoadJobs.contains j then w.connector.config.numWorkers
  else w.remaining j

/-- The job tables agree with the phases. Loads are pending and requests are preempted only
within `schedule()`. -/
structure Inv (w : OffloadWorld M S) : Prop where
  jobs : JobsInv w.connector w.phase w.owed
  loads : w.inSchedule = false → w.connector.currentBatchLoadJobs.isEmpty = true
  preempted : ∀ r ∈ w.preempted, w.phase r = .waiting
  outside : w.inSchedule = false → w.preempted = []

variable {ops : OffloadingManager M S} {w w' : OffloadWorld M S}
  {c c' : OffloadingConnectorScheduler M S} {requests : RequestId → Request} {reqId : RequestId}

theorem owed_of_loads
    (hloads : w'.connector.currentBatchLoadJobs = w.connector.currentBatchLoadJobs)
    (hconfig : w'.connector.config = w.connector.config) (hremaining : w'.remaining = w.remaining) :
    w'.owed = w.owed := by
  funext j
  rw [owed, owed, hloads, hconfig, hremaining]

theorem owed_of_idle (hloads : w.connector.currentBatchLoadJobs.isEmpty = true) :
    w.owed = w.remaining := by
  funext j
  rw [owed, Dict.contains, (Dict.isEmpty_iff _).mp hloads j]
  rfl

section
variable (h : Inv w)
include h

theorem Inv.of_jobs (hjobs : JobsInv c w'.phase w.owed) (hconnector : w'.connector = c)
    (hloads : c.currentBatchLoadJobs = w.connector.currentBatchLoadJobs)
    (hconfig : c.config = w.connector.config) (hremaining : w'.remaining = w.remaining)
    (hschedule : w'.inSchedule = false → w.inSchedule = false)
    (hpreempted : ∀ r ∈ w'.preempted, w'.phase r = .waiting)
    (houtside : w'.inSchedule = false → w'.preempted = []) : Inv w' := by
  have howed : w'.owed = w.owed := owed_of_loads (by rw [hconnector, hloads])
    (by rw [hconnector, hconfig]) hremaining
  constructor
  · rw [howed, hconnector]
    exact hjobs
  · intro hout
    rw [hconnector, hloads]
    exact h.loads (hschedule hout)
  · exact hpreempted
  · exact houtside

theorem Inv.preempted_update {p : RequestPhase} (hp : w.phase reqId ≠ .waiting) :
    ∀ r ∈ w.preempted, update w.phase reqId p r = .waiting := by
  intro r hr
  have hwait := h.preempted r hr
  rw [update_of_ne]
  · exact hwait
  · rintro rfl
    exact hp hwait

theorem lookup_meets (hwaiting : w.phase reqId = .waiting) (n : ℕ) :
    Meets Other Inv (w.exec ops (.lookup requests reqId n)) := by
  rcases (h.jobs.requests reqId).live (.inl hwaiting) with ⟨jobs, hjobs, -⟩
  apply (getNumNewMatchedTokens_meets hjobs n).bind
  rintro ⟨_, c⟩ hsame
  apply meets_pure
  refine h.of_jobs (h.jobs.same hsame) rfl hsame.loads hsame.config rfl ?_ ?_ ?_
  · intro hout
    cases hout
  · exact h.preempted
  · intro hout
    cases hout

theorem addRequest_meets (hnew : w.phase reqId = .unknown) (hout : w.inSchedule = false)
    (cap : Option ℤ) :
    Meets Other Inv (w.exec ops (.addRequest reqId cap)) := by
  apply meets_pure
  refine h.of_jobs (h.jobs.addRequest hnew cap) rfl rfl rfl rfl ?_ ?_ ?_
  · intro _
    exact hout
  · apply h.preempted_update
    rw [hnew]
    exact RequestPhase.noConfusion
  · exact h.outside

theorem alloc_meets (hwaiting : w.phase reqId = .waiting) (hnone : w.preempted = [])
    (pool : BlockPool) (blocks : List (List BlockId)) {n : ℕ}
    (hload : n = 0 ∨ ∀ jobs, w.connector.heldJobs reqId = some jobs → jobs = []) :
    Meets Other Inv (w.exec ops (.alloc pool reqId blocks n)) := by
  have hlive : (w.phase reqId).Live := .inl hwaiting
  rcases (h.jobs.requests reqId).live hlive with ⟨jobs, hjobs, -⟩
  have hidle : n ≠ 0 → jobs = [] := fun hn => (hload.resolve_left hn) jobs hjobs
  apply (updateStateAfterAlloc_meets hjobs pool blocks hidle).bind
  intro c hc
  apply meets_pure
  have hpreempted : ∀ r ∈ w.preempted, ∀ p, update w.phase reqId p r = .waiting := by
    rw [hnone]
    exact fun r hr => absurd hr not_mem_nil
  by_cases hn : n = 0
  · rw [if_pos hn] at hc ⊢
    rw [hc]
    refine h.of_jobs (h.jobs.move hlive (.inr rfl)) rfl rfl rfl rfl ?_ ?_ ?_
    · intro hout
      cases hout
    · exact fun r hr => hpreempted r hr _
    · intro hout
      cases hout
  · rw [if_neg hn] at hc ⊢
    rcases hc with ⟨hadd, job, hloads⟩
    have hnil := hidle hn
    rw [hnil] at hjobs
    have hjobsInv := h.jobs.addJob hlive hjobs hadd fun _ => rfl
    constructor
    · have howed : owed { w with
          connector := c
          phase := update w.phase reqId (.remote w.connector.jobCounter)
          inSchedule := true } =
          update w.owed w.connector.jobCounter w.connector.config.numWorkers := by
        funext j
        by_cases hj : j = w.connector.jobCounter
        · rw [hj, update_self, owed, Dict.contains, hloads, Dict.get?_set, if_pos rfl,
            if_pos Option.isSome_some, hadd.config]
        · rw [update_of_ne hj, owed, owed, Dict.contains, hloads, Dict.get?_set,
            if_neg hj, hadd.config, Dict.contains]
      rw [howed]
      exact hjobsInv
    · intro hout
      cases hout
    · exact fun r hr => hpreempted r hr _
    · intro hout
      cases hout

theorem preempt_meets (hrunning : w.phase reqId = .running) :
    Meets Other Inv (w.exec ops (.preempt reqId)) := by
  apply meets_pure
  refine h.of_jobs (h.jobs.move (.inr hrunning) (.inl rfl)) rfl rfl rfl rfl ?_ ?_ ?_
  · intro hout
    cases hout
  · intro r hr
    rcases mem_cons.mp hr with rfl | hr
    · exact update_self ..
    · apply h.preempted_update _ r hr
      rw [hrunning]
      exact RequestPhase.noConfusion
  · intro hout
    cases hout

theorem pushBack_meets (hrunning : w.phase reqId = .running) (hout : w.inSchedule = false) :
    Meets Other Inv (w.exec ops (.pushBack reqId)) := by
  apply meets_pure
  refine h.of_jobs (h.jobs.move (.inr hrunning) (.inl rfl)) rfl rfl rfl rfl ?_ ?_ ?_
  · intro _
    exact hout
  · apply h.preempted_update
    rw [hrunning]
    exact RequestPhase.noConfusion
  · exact h.outside

theorem finish_meets (hknown : w.phase reqId ≠ .unknown) (hlive : w.phase reqId ≠ .finished)
    (hout : w.inSchedule = false) :
    Meets Other Inv (w.exec ops (.finish reqId)) := by
  have hreq := h.jobs.requests reqId
  have hheld : ∃ jobs, w.connector.heldJobs reqId = some jobs := by
    cases hp : w.phase reqId with
    | unknown => exact absurd hp hknown
    | waiting => exact (hreq.live (.inl hp)).imp fun _ => And.left
    | running => exact (hreq.live (.inr hp)).imp fun _ => And.left
    | remote j => exact ⟨[j], hreq.loading j hp⟩
    | finished => exact absurd hp hlive
  rcases hheld with ⟨jobs, hjobs⟩
  have hentries : ∀ j ∈ jobs, ∃ e, w.connector.entry j = some e := fun j hj =>
    (hreq.held jobs j hjobs hj).imp fun _ => And.left
  apply (requestFinished_meets hjobs hentries).bind
  intro c hfinish
  apply meets_pure
  refine h.of_jobs (h.jobs.finish hjobs hfinish) rfl hfinish.loads hfinish.config rfl ?_ ?_ ?_
  · intro _
    exact hout
  · rw [h.outside hout]
    exact fun r hr => absurd hr not_mem_nil
  · exact h.outside

theorem reset_meets (hidle : w.connector.jobs.isEmpty = true) (hout : w.inSchedule = false) :
    Meets Other Inv (w.exec ops .reset) := by
  have hnone : ∀ j e, w.connector.entry j ≠ some e := by
    intro j e he
    rw [entry, (Dict.isEmpty_iff _).mp hidle j] at he
    cases he
  apply (resetCache_meets hidle).bind
  rintro c ⟨hheld, hentry, hconfig, hloads, hstale⟩
  apply meets_pure
  have hjobs : JobsInv c w.phase w.owed := h.jobs.congr hheld hentry hconfig hstale
    fun j e he => absurd he (hnone j e)
  refine h.of_jobs hjobs rfl hloads hconfig rfl ?_ ?_ ?_
  · intro _
    exact hout
  · exact h.preempted
  · exact h.outside

end

theorem completeJob_jobs (ops : OffloadingManager M S) (hjobs : JobsInv c w.phase w.remaining)
    (hshows : w.ShowsFinished requests) {j : JobId} {n : ℕ} (hpos : 0 < n)
    (hle : n ≤ w.remaining j) : Meets Other
      (fun c' => JobsInv c' (w.account (j, n)).phase (w.account (j, n)).remaining ∧
        c'.currentBatchLoadJobs = c.currentBatchLoadJobs ∧ c'.config = c.config)
      (c.completeJob ops requests j n) := by
  rcases hjobs.owes j (Nat.lt_of_lt_of_le hpos hle) with ⟨e, he⟩
  rcases (hjobs.requests e.reqId).owned j e he rfl with ⟨jobs, hheld, hmem⟩
  have hcount := (hjobs.counts j e he).2
  have hdated := (hjobs.dated j e he).1
  apply (completeJob_meets he hheld hmem hdated hpos (by omega)).imp
  intro c' hc'
  by_cases hlast : (n : ℤ) = e.pendingCount
  · rw [if_pos hlast] at hc'
    have hzero : w.remaining j - n = 0 := by omega
    have hjobs' := hjobs.ends he hheld hmem hc' (hshows e.reqId)
    refine ⟨?_, hc'.loads, hc'.config⟩
    simp only [account, update_self, hzero, and_true]
    exact hjobs'
  · rw [if_neg hlast] at hc'
    have hmore : w.remaining j - n ≠ 0 := by omega
    have hjobs' := hjobs.lowers he hc' (by omega)
    refine ⟨?_, hc'.loads, hc'.config⟩
    simp only [account, update_self, hmore, and_false, if_false]
    exact hjobs'

theorem ShowsFinished.account (h : w.ShowsFinished requests) (report : JobId × ℕ) :
    (w.account report).ShowsFinished requests := by
  intro r
  rw [h r]
  unfold OffloadWorld.account
  dsimp only
  split_ifs with hload
  · rw [hload.1]
    exact iff_of_false RequestPhase.noConfusion id
  · exact Iff.rfl

theorem updateConnectorOutput_jobs (ops : OffloadingManager M S) {l : List (JobId × ℕ)}
    (hjobs : JobsInv c w.phase w.remaining)
    (hshows : w.ShowsFinished requests) (hnodup : (l.map Prod.fst).Nodup)
    (hcounts : ∀ report ∈ l, 0 < report.2 ∧ report.2 ≤ w.remaining report.1) :
    Meets Other (fun c' => JobsInv c' (l.foldl account w).phase
      (l.foldl account w).remaining ∧ c'.currentBatchLoadJobs = c.currentBatchLoadJobs ∧
        c'.config = c.config)
      (l.foldlM (fun c (jobId, count) => completeJob ops requests c jobId count) c) := by
  induction l generalizing c w with
  | nil => exact ⟨hjobs, rfl, rfl⟩
  | cons report l ih =>
    rcases report with ⟨j, n⟩
    have hfirst := hcounts (j, n) mem_cons_self
    rw [map_cons, nodup_cons] at hnodup
    rw [foldlM_cons, foldl_cons]
    have hjob := completeJob_jobs ops hjobs hshows hfirst.1 hfirst.2
    apply hjob.bind
    rintro c' ⟨hjobs', hloads, hconfig⟩
    have hrest : ∀ report ∈ l, 0 < report.2 ∧
        report.2 ≤ (w.account (j, n)).remaining report.1 := by
      intro report hmem
      have hne : report.1 ≠ j := by
        rintro rfl
        exact hnodup.1 (mem_map.mpr ⟨report, hmem, rfl⟩)
      have hold := hcounts report (mem_cons_of_mem _ hmem)
      refine ⟨hold.1, ?_⟩
      show report.2 ≤ update w.remaining j (w.remaining j - n) report.1
      rw [update_of_ne hne]
      exact hold.2
    apply (ih hjobs' (hshows.account (j, n)) hnodup.2 hrest).imp
    rintro c'' ⟨hjobs'', hloads', hconfig'⟩
    exact ⟨hjobs'', hloads'.trans hloads, hconfig'.trans hconfig⟩

theorem foldl_account_frame (l : List (JobId × ℕ)) (w : OffloadWorld M S) :
    (l.foldl account w).inSchedule = w.inSchedule ∧
      (l.foldl account w).preempted = w.preempted := by
  induction l generalizing w with
  | nil => exact ⟨rfl, rfl⟩
  | cons report l ih => exact ih (w.account report)

theorem report_meets (h : Inv w) (hout : w.inSchedule = false)
    (hshows : w.ShowsFinished requests) {completed : Dict JobId ℕ}
    (hcounts : ∀ j n, completed.get? j = some n → 0 < n ∧ n ≤ w.remaining j) :
    Meets Other Inv (w.exec ops (.report requests completed)) := by
  have hidle := h.loads hout
  have hjobs : JobsInv w.connector w.phase w.remaining := by
    rw [← owed_of_idle hidle]
    exact h.jobs
  have hentries : ∀ report ∈ completed.entries, 0 < report.2 ∧
      report.2 ≤ w.remaining report.1 := fun report hmem =>
    hcounts report.1 report.2 ((Dict.mem_entries_iff completed).mp hmem)
  have hreport := updateConnectorOutput_jobs ops hjobs hshows completed.nodupKeys hentries
  apply hreport.bind
  rintro c ⟨hjobs', hloads, hconfig⟩
  apply meets_pure
  have hframe := foldl_account_frame completed.entries w
  have hnone := h.outside hout
  constructor
  · rw [owed_of_idle]
    · exact hjobs'
    · show c.currentBatchLoadJobs.isEmpty = true
      rw [hloads]
      exact hidle
  · intro _
    show c.currentBatchLoadJobs.isEmpty = true
    rw [hloads]
    exact hidle
  · show ∀ r ∈ (completed.entries.foldl account w).preempted, _
    rw [hframe.2, hnone]
    exact fun r hr => absurd hr not_mem_nil
  · intro _
    exact hframe.2.trans hnone

theorem buildStoreJobs_jobs {phase : RequestId → RequestPhase} {owed : JobId → ℕ}
    (hjobs : JobsInv c phase owed) {batch : ScheduledBatch}
    (hrunning : ∀ r ∈ batch.numScheduledTokens.keys, phase r = .running) :
    Meets Other (fun s => s.2.config = c.config ∧ JobsInv s.2 phase fun j =>
      if s.1.contains j then c.config.numWorkers else owed j)
      (c.buildStoreJobs ops requests batch) := by
  unfold buildStoreJobs
  apply meets_foldlM
  · exact ⟨rfl, hjobs⟩
  · rintro ⟨r, n⟩ hr ⟨storeJobs, c₁⟩ ⟨hconfig, hinv⟩
    have hlive : (phase r).Live := .inr (hrunning r (mem_map_of_mem hr))
    rcases hinv.stores hlive with ⟨jobs, hheld, hstores, -, hown, -⟩
    have hcond : ∀ jobs', c₁.heldJobs r = some jobs' → c₁.HoldsStores jobs' := by
      intro jobs' hjobs'
      rw [hheld] at hjobs'
      cases hjobs'
      exact hstores
    apply (buildStoreJob_meets hcond n).bind
    rintro ⟨job, c₂⟩ (⟨rfl, hsame⟩ | ⟨jobs', job', hjobs', rfl, hadd⟩)
    · exact ⟨hsame.config.trans hconfig, hinv.same hsame⟩
    · rw [hheld] at hjobs'
      cases hjobs'
      have hnew : c₁.jobCounter ∉ jobs := by
        intro hmem
        rcases hown _ hmem with ⟨e, he, -⟩
        exact Nat.lt_irrefl _ (hinv.dated _ e he).2
      rw [insert_of_not_mem hnew] at hadd
      have hinv' := hinv.addJob hlive hheld hadd Bool.noConfusion
      refine ⟨hadd.config.trans hconfig, ?_⟩
      have howed : (fun j => if (storeJobs.set c₁.jobCounter job').contains j = true
          then c.config.numWorkers else owed j) =
          update (fun j => if storeJobs.contains j = true
            then c.config.numWorkers else owed j) c₁.jobCounter c₁.config.numWorkers := by
        funext j
        rw [update_apply, Dict.contains, Dict.get?_set, hconfig]
        by_cases hj : j = c₁.jobCounter
        · rw [if_pos hj, if_pos hj, if_pos Option.isSome_some]
        · rw [if_neg hj, if_neg hj, Dict.contains]
      show JobsInv c₂ phase _
      rw [howed]
      exact hinv'

theorem build_meets (h : Inv w) {batch : ScheduledBatch}
    (hdata : ∀ d ∈ batch.reqData, w.phase d.reqId = .running)
    (hkeys : ∀ r ∈ batch.numScheduledTokens.keys, w.phase r = .running)
    (hpreempted : ∀ r, r ∈ batch.preemptedReqIds ↔ r ∈ w.preempted) :
    Meets Other Inv (w.exec ops (.build requests batch)) := by
  have htracked : ∀ d ∈ batch.reqData, ∃ jobs, w.connector.heldJobs d.reqId = some jobs :=
    fun d hd => ((h.jobs.requests d.reqId).live (.inr (hdata d hd))).imp fun _ => And.left
  have hmeta : Meets Other
      (fun r => r.1.loadJobs = w.connector.currentBatchLoadJobs ∧
        r.2.config = w.connector.config ∧ r.2.currentBatchLoadJobs.isEmpty = true ∧
        JobsInv r.2 w.phase fun j =>
          if r.1.storeJobs.contains j then w.connector.config.numWorkers else w.owed j)
      (w.connector.buildConnectorMeta ops requests batch) := by
    unfold buildConnectorMeta
    apply (updateReqStates_meets htracked).bind
    intro c₁ hsame
    have hsame₁ : SameJobs w.connector { c₁ with manager := ops.onScheduleEnd c₁.manager } :=
      hsame.trans ⟨rfl, rfl, rfl, rfl, rfl, rfl⟩
    have hjobs := h.jobs.same hsame₁
    have hstores : ∀ r ∈ batch.preemptedReqIds, ∀ jobs,
        heldJobs { c₁ with manager := ops.onScheduleEnd c₁.manager } r = some jobs →
        HoldsStores { c₁ with manager := ops.onScheduleEnd c₁.manager } jobs := by
      intro r hr jobs hheld
      have hwaiting := h.preempted r ((hpreempted r).mp hr)
      rcases (hjobs.requests r).live (.inl hwaiting) with ⟨jobs', hheld', hs⟩
      rw [hheld] at hheld'
      cases hheld'
      exact hs
    apply (preemptedJobs_meets hstores).bind
    intro flushed _
    apply (buildStoreJobs_jobs hjobs hkeys).bind
    rintro ⟨storeJobs, c₂⟩ ⟨hconfig, hjobs₂⟩
    apply meets_pure
    refine ⟨hsame.loads, hconfig.trans hsame.config, rfl, ?_⟩
    have hnum : c₁.config.numWorkers = w.connector.config.numWorkers := by rw [hsame.config]
    rw [← hnum]
    exact hjobs₂.congr rfl rfl rfl hjobs₂.stale hjobs₂.dated
  apply hmeta.bind
  rintro ⟨metadata, c⟩ ⟨hloadJobs, hconfig, hidle, hjobs⟩
  apply meets_pure
  constructor
  · rw [owed_of_idle hidle]
    have howed : (fun j => if metadata.storeJobs.contains j = true
        then w.connector.config.numWorkers else w.owed j) = fun j =>
          if metadata.loadJobs.contains j = true ∨ metadata.storeJobs.contains j = true
          then c.config.numWorkers else w.remaining j := by
      funext j
      rw [owed, hloadJobs, hconfig]
      by_cases hstore : metadata.storeJobs.contains j = true
      · rw [if_pos hstore, if_pos (.inr hstore)]
      · rw [if_neg hstore]
        by_cases hload : w.connector.currentBatchLoadJobs.contains j = true
        · rw [if_pos hload, if_pos (.inl hload)]
        · rw [if_neg hload, if_neg (not_or.mpr ⟨hload, hstore⟩)]
    rw [howed] at hjobs
    exact hjobs
  · intro _
    exact hidle
  · exact fun r hr => absurd hr not_mem_nil
  · intro _
    rfl

theorem Inv.exec (h : Inv w) {event : OffloadEvent} (henabled : w.Enabled event)
    (hcond : w.Orderly event) : Meets Other Inv (w.exec ops event) := by
  cases event with
  | addRequest reqId cap => exact addRequest_meets h henabled.2 henabled.1 cap
  | lookup requests reqId n => exact lookup_meets h henabled.1 n
  | alloc pool reqId blocks n => exact alloc_meets h henabled.1 henabled.2 pool blocks hcond
  | preempt reqId => exact preempt_meets h henabled
  | pushBack reqId => exact pushBack_meets h henabled.2 henabled.1
  | build requests batch => exact build_meets h henabled.2.1 henabled.2.2.1 henabled.2.2.2
  | report requests completed => exact report_meets h henabled.1 henabled.2.1 henabled.2.2
  | finish reqId => exact finish_meets h henabled.2.1 henabled.2.2 henabled.1
  | reset => exact reset_meets h hcond henabled

theorem Reachable.inv (h : Reachable ops Orderly w) : Inv w := by
  induction h with
  | init hworkers =>
    constructor
    · rw [owed_of_idle rfl]
      exact .init _ _ hworkers
    · intro _
      rfl
    · exact fun r hr => absurd hr not_mem_nil
    · intro _
      rfl
  | step _ henabled hcond hexec ih => exact (ih.exec henabled hcond).of_ok hexec

end OffloadWorld

/-- The job tables refer to each other: held jobs are known as jobs of their request, known jobs
are held, and a request holds one load or only stores. -/
structure OffloadingConnectorScheduler.JobsConsistent {M S : Type}
    (c : OffloadingConnectorScheduler M S) : Prop where
  held : ∀ r st j, c.reqStatus.get? r = some st → j ∈ st.transferJobs →
    ∃ job, c.jobs.get? j = some job ∧ job.reqId = r
  owned : ∀ j job, c.jobs.get? j = some job →
    ∃ st, c.reqStatus.get? job.reqId = some st ∧ j ∈ st.transferJobs
  exclusive : ∀ r st, c.reqStatus.get? r = some st →
    (∃ j job, st.transferJobs = [j] ∧ c.jobs.get? j = some job ∧ job.isStore = false) ∨
      ∀ j ∈ st.transferJobs, ∃ job, c.jobs.get? j = some job ∧ job.isStore = true

namespace OffloadWorld
variable {M S : Type} {ops : OffloadingManager M S} {w : OffloadWorld M S}

theorem Inv.consistent (h : Inv w) : w.connector.JobsConsistent := by
  have hjob : ∀ {j e}, w.connector.entry j = some e →
      ∃ job, w.connector.jobs.get? j = some job ∧ job.entry = e := fun he =>
    Option.map_eq_some_iff.mp he
  constructor
  · intro r st j hst hj
    rcases (h.jobs.requests r).held _ j (heldJobs_of_get hst) hj with ⟨e, he, hr⟩
    rcases hjob he with ⟨job, hget, rfl⟩
    exact ⟨job, hget, hr⟩
  · intro j job hget
    rcases (h.jobs.requests job.reqId).owned j _ (entry_of_get hget) rfl with ⟨jobs, hheld, hj⟩
    rcases tracked_of_held hheld with ⟨st, hst, rfl⟩
    exact ⟨st, hst, hj⟩
  · intro r st hst
    rcases (h.jobs.requests r).exclusive _ (heldJobs_of_get hst) with hs | ⟨j, e, hj, he, hload⟩
    · refine .inr fun j hj => ?_
      rcases hs j hj with ⟨e, he, hstore⟩
      rcases hjob he with ⟨job, hget, rfl⟩
      exact ⟨job, hget, hstore⟩
    · rcases hjob he with ⟨job, hget, rfl⟩
      exact .inl ⟨j, job, hj, hget, hload⟩

theorem Inv.finished (h : Inv w) {r : RequestId} {st : RequestOffloadState}
    (hfinished : w.phase r = .finished) (hst : w.connector.reqStatus.get? r = some st) :
    st.transferJobs ≠ [] ∧ ∀ j ∈ st.transferJobs, 0 < w.owed j := by
  have hreq := h.jobs.requests r
  have hheld := heldJobs_of_get hst
  refine ⟨hreq.ended _ hfinished hheld, fun j hj => ?_⟩
  rcases hreq.held _ j hheld hj with ⟨e, he, -⟩
  exact (h.jobs.counts j e he).1

end OffloadWorld

/-- In every run in which loads are asked for only for requests without jobs and resets come only
with no job in flight. -/
theorem offloadJobs_consistent {M S : Type} {ops : OffloadingManager M S} {w : OffloadWorld M S}
    (h : OffloadWorld.Reachable ops OffloadWorld.Orderly w) :
    w.connector.JobsConsistent ∧
      (∀ event, w.Enabled event → w.Orderly event →
        Meets Other (fun _ => True) (w.exec ops event)) ∧
      ∀ r st, w.phase r = .finished → w.connector.reqStatus.get? r = some st →
        st.transferJobs ≠ [] ∧ ∀ j ∈ st.transferJobs, 0 < w.owed j := by
  have hinv := h.inv
  refine ⟨hinv.consistent, fun event henabled hcond => ?_, fun r st => hinv.finished⟩
  exact (hinv.exec henabled hcond).imp fun _ _ => trivial

/-- The CPU pool under LRU as the manager of a connector; a call that raises leaves it alone. -/
def cpuManager : OffloadingManager (CPUOffloadingManager LRUCachePolicy) (List ℕ) where
  lookup m config st request :=
    (lookupTokens (fun m key => (m.lookup LRUCachePolicy.policy key).toOption.getD (none, m))
      config none none st request.numTokens m).toOption.getD (none, m)
  prepareLoad m keys _ := (m.prepareLoad LRUCachePolicy.policy keys).toOption.getD ([], m)
  touch m keys _ := m.touch LRUCachePolicy.policy keys
  completeLoad m keys _ := (m.completeLoad LRUCachePolicy.policy keys).toOption.getD m
  prepareStore m keys _ :=
    let r := (m.prepareStore LRUCachePolicy.policy keys).toOption.getD (none, m)
    (r.1.map CPUPrepareStoreOutput.toPrepareStoreOutput, r.2)
  completeStore m keys _ := (m.completeStore LRUCachePolicy.policy keys true).toOption.getD m
  onNewRequest m _ := (.blockLevel, m)
  onRequestFinished m _ := m
  onScheduleEnd m := m
  resetCache m := m.resetCache LRUCachePolicy.policy

def oneGroupConfig : SchedulerOffloadConfig where
  kvGroupConfigs := [⟨0, 1, 1, 1, none, none⟩]
  blockSizeFactor := 1
  numWorkers := 1

/-- Three tokens, a block each, of which some are computed. -/
def threeTokens (numComputedTokens : ℕ) (reqId : RequestId) : Request where
  requestId := reqId
  status := .running
  promptTokenIds := some [7, 8, 9]
  numPromptTokens := 3
  allTokenIds := [7, 8, 9]
  blockHashes := [[1], [2], [3]]
  numComputedTokens

def freshPool : BlockPool where
  numGpuBlocks := 4
  enableCaching := true
  hashBlockSize := 1
  refCnt _ := 0
  blockHash _ := none
  freeBlockQueue := .init [0, 1, 2, 3]
  cachedBlockHashToBlock := .empty
  nullBlock := 0
  enableKvCacheEvents := false
  kvEventQueue := []
  useIntBlockHashes := false
  sha256 := id

/-- Request 0 with one token and one new block. -/
def oneTokenBatch (block : BlockId) : ScheduledBatch where
  reqData := [⟨0, some [[block]], false⟩]
  numScheduledTokens := Dict.empty.set 0 1

abbrev CpuWorld := OffloadWorld (CPUOffloadingManager LRUCachePolicy) (List ℕ)

/-- Two blocks in the CPU pool, and no request yet. -/
def idleWorld : CpuWorld where
  connector := { config := oneGroupConfig, manager := .init {} 2 false 1 64000 }

/-- Request 0 is scheduled for the first time, and its first block is being stored. -/
def storingWorld : CpuWorld :=
  let events := [.addRequest 0 none, .lookup (threeTokens 0) 0 0, .alloc freshPool 0 [[1]] 0,
    .build (threeTokens 0) (oneTokenBatch 1)]
  match events.foldlM (fun w event => w.exec cpuManager event) idleWorld with
  | .ok w => w
  | .error _ => idleWorld

namespace OffloadWorld
variable {cond : CpuWorld → OffloadEvent → Prop} {w w' : CpuWorld}

theorem Reachable.next (h : Reachable cpuManager cond w) (event : OffloadEvent)
    (henabled : w.Enabled event) (hcond : cond w event)
    (hexec : w.exec cpuManager event = .ok w') : Reachable cpuManager cond w' :=
  .step h henabled hcond hexec

theorem showsFinished_threeTokens {n : ℕ} (h : ∀ r, w.phase r ≠ .finished) :
    w.ShowsFinished (threeTokens n) := by
  intro r
  exact iff_of_false Bool.noConfusion (h r)

theorem one_scheduled {p : RequestId → Prop} (h : p 0) (block : BlockId) :
    (∀ d ∈ (oneTokenBatch block).reqData, p d.reqId) ∧
      ∀ r ∈ (oneTokenBatch block).numScheduledTokens.keys, p r := by
  constructor
  · intro d hd
    rw [mem_singleton.mp hd]
    exact h
  · intro r hr
    rw [mem_singleton.mp hr]
    exact h

theorem not_finished_update {phase : RequestId → RequestPhase} (h : ∀ r, phase r ≠ .finished)
    {p : RequestPhase} (hp : p ≠ .finished) :
    ∀ r, update phase 0 p r ≠ .finished := by
  intro r
  rw [update_apply]
  split_ifs
  · exact hp
  · exact h r

theorem enabled_build {n : ℕ} (hlive : ∀ r, w.phase r ≠ .finished) (hrunning : w.phase 0 = .running)
    (hnone : w.preempted = []) (block : BlockId) :
    w.Enabled (.build (threeTokens n) (oneTokenBatch block)) := by
  have hbatch := one_scheduled (p := fun r => w.phase r = .running) hrunning block
  refine ⟨showsFinished_threeTokens hlive, hbatch.1, hbatch.2, fun r => ?_⟩
  rw [hnone]
  exact Iff.rfl

theorem storingWorld_phase : ∀ r, storingWorld.phase r ≠ .finished :=
  not_finished_update (not_finished_update (fun _ => RequestPhase.noConfusion)
    RequestPhase.noConfusion) RequestPhase.noConfusion

theorem account_not_finished {report : JobId × ℕ} (h : ∀ r, w.phase r ≠ .finished) :
    ∀ r, (w.account report).phase r ≠ .finished := by
  intro r
  unfold account
  dsimp only
  split_ifs
  · exact RequestPhase.noConfusion
  · exact h r

theorem one_reported {j : JobId} (h : 0 < w.remaining j) : ∀ j' n,
    ((Dict.empty : Dict JobId ℕ).set j 1).get? j' = some n → 0 < n ∧ n ≤ w.remaining j' := by
  intro j' n hn
  rw [Dict.get?_set] at hn
  split_ifs at hn with hj
  · cases hn
    exact ⟨Nat.one_pos, hj ▸ h⟩
  · cases hn

theorem storingWorld_reachable (hcond : ∀ w event, w.Orderly event → cond w event) :
    Reachable cpuManager cond storingWorld := by
  have h₀ : Reachable cpuManager cond idleWorld := .init (by decide)
  have h₁ := h₀.next (.addRequest 0 none) ⟨rfl, rfl⟩ (hcond _ _ trivial) rfl
  have h₂ := h₁.next (.lookup (threeTokens 0) 0 0) ⟨rfl, rfl⟩ (hcond _ _ trivial) rfl
  have h₃ := h₂.next (.alloc freshPool 0 [[1]] 0) ⟨rfl, rfl⟩ (hcond _ _ (.inl rfl)) rfl
  exact h₃.next (.build (threeTokens 0) (oneTokenBatch 1))
    (enabled_build storingWorld_phase rfl rfl 1) (hcond _ _ trivial) rfl

end OffloadWorld

open OffloadWorld

theorem offloadJobs_consistent_storing : storingWorld.connector.heldJobs 0 = some [0] ∧
    storingWorld.connector.JobsConsistent :=
  ⟨rfl, (offloadJobs_consistent (storingWorld_reachable fun _ _ h => h)).1⟩

/-- After a reset with a store in flight the request still holds the job, and its end fails. A
request that is put back while its third block replaces the second one is told to load the first. -/
theorem offloadJobs_inconsistent :
    (∃ w, Reachable cpuManager (fun _ _ => True) w ∧ ¬ w.connector.JobsConsistent ∧
      w.Enabled (.finish 0) ∧ w.exec cpuManager (.finish 0) = .error .unknownJob) ∧
    ∃ w w', Reachable cpuManager (fun _ _ => True) w ∧
      Reachable cpuManager (fun _ _ => True) w' ∧
      w.connector.getNumNewMatchedTokens cpuManager (threeTokens 0) 0 0 =
        .ok ((some 1, true), w'.connector) ∧
      w'.Enabled (.alloc freshPool 0 [[1]] 1) ∧
      w'.exec cpuManager (.alloc freshPool 0 [[1]] 1) = .error .jobsPending := by
  have h : Reachable cpuManager (fun _ _ => True) storingWorld :=
    storingWorld_reachable fun _ _ _ => trivial
  constructor
  · have hreset := h.next .reset rfl trivial rfl
    refine ⟨_, hreset, ?_, ⟨rfl, ?_, ?_⟩, rfl⟩
    · intro hconsistent
      rcases hconsistent.held 0 _ 0 rfl mem_cons_self with ⟨job, hjob, -⟩
      cases hjob
    · exact RequestPhase.noConfusion
    · exact RequestPhase.noConfusion
  · have h₁ := h.next (.report (threeTokens 1) (Dict.empty.set 0 1))
      ⟨rfl, showsFinished_threeTokens storingWorld_phase, one_reported Nat.one_pos⟩ trivial rfl
    have hlive : ∀ r, (storingWorld.account (0, 1)).phase r ≠ .finished :=
      account_not_finished storingWorld_phase
    have h₂ := h₁.next (.build (threeTokens 1) (oneTokenBatch 2))
      (enabled_build hlive rfl rfl 2) trivial rfl
    have h₃ := h₂.next (.report (threeTokens 2) (Dict.empty.set 1 1))
      ⟨rfl, showsFinished_threeTokens hlive, one_reported Nat.one_pos⟩ trivial rfl
    have h₄ := h₃.next (.build (threeTokens 2) (oneTokenBatch 3))
      (enabled_build (account_not_finished hlive) rfl rfl 3) trivial rfl
    have h₅ := h₄.next (.pushBack 0) ⟨rfl, rfl⟩ trivial rfl
    have h₆ := h₅.next (.lookup (threeTokens 0) 0 0) ⟨rfl, rfl⟩ trivial rfl
    exact ⟨_, _, h₅, h₆, rfl, ⟨rfl, rfl⟩, rfl⟩

end Vllm
