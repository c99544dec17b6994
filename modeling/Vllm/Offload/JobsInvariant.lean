import Vllm.Offload.JobTables

/-! The invariant of the job tables: what a request holds in each of its phases, and how the
counts of the jobs agree with what the workers still have to report. -/
namespace Vllm
open Outcome Function List

/-- Where the scheduler has a request; `remote` is `WAITING_FOR_REMOTE_KVS` with its load. -/
inductive RequestPhase where
  | unknown | waiting | remote (jobId : JobId) | running | finished
  deriving DecidableEq

/-- A request that the scheduler may schedule. -/
def RequestPhase.Live (p : RequestPhase) : Prop := p = .waiting ∨ p = .running

namespace OffloadingConnectorScheduler
variable {M S : Type} {ops : OffloadingManager M S} {requests : RequestId → Request}
  {c c' : OffloadingConnectorScheduler M S} {reqId : RequestId} {jobs : List JobId} {jobId : JobId}
  {p : RequestPhase} {phase phase' : RequestId → RequestPhase} {owed owed' : JobId → ℕ}

/-- One request and its jobs. -/
structure RequestInv (c : OffloadingConnectorScheduler M S) (p : RequestPhase)
    (reqId : RequestId) : Prop where
  unknown : p = .unknown → c.heldJobs reqId = none
  live : p.Live → ∃ jobs, c.heldJobs reqId = some jobs ∧ c.HoldsStores jobs
  loading : ∀ j, p = .remote j → c.heldJobs reqId = some [j]
  ended : ∀ jobs, p = .finished → c.heldJobs reqId = some jobs → jobs ≠ []
  exclusive : ∀ jobs, c.heldJobs reqId = some jobs → c.HoldsStores jobs ∨
    ∃ j e, jobs = [j] ∧ c.entry j = some e ∧ e.isStore = false
  nodup : ∀ jobs, c.heldJobs reqId = some jobs → jobs.Nodup
  held : ∀ jobs j, c.heldJobs reqId = some jobs → j ∈ jobs →
    ∃ e, c.entry j = some e ∧ e.reqId = reqId
  owned : ∀ j e, c.entry j = some e → e.reqId = reqId → ∃ jobs, c.heldJobs reqId = some jobs ∧
    j ∈ jobs

/-- `owed` is how many reports of a job are still to come. -/
structure JobsInv (c : OffloadingConnectorScheduler M S) (phase : RequestId → RequestPhase)
    (owed : JobId → ℕ) : Prop where
  workers : 0 < c.config.numWorkers
  requests : ∀ r, c.RequestInv (phase r) r
  stale : c.staleJobThreshold ≤ c.jobCounter
  dated : ∀ j e, c.entry j = some e → c.staleJobThreshold ≤ j ∧ j < c.jobCounter
  counts : ∀ j e, c.entry j = some e → 0 < owed j ∧ e.pendingCount = owed j
  owes : ∀ j, 0 < owed j → ∃ e, c.entry j = some e

theorem HoldsStores.nil : c.HoldsStores [] := by
  intro j hj
  exact absurd hj not_mem_nil

/-- A known job of a request, of one of the two kinds. -/
def IsJob (c : OffloadingConnectorScheduler M S) (jobId : JobId) (reqId : RequestId)
    (isStore : Bool) : Prop :=
  ∃ n, c.entry jobId = some ⟨reqId, n, isStore⟩

theorem isJob_of_entry {e : JobEntry} (he : c.entry jobId = some e) (hreq : e.reqId = reqId) :
    c.IsJob jobId reqId e.isStore :=
  ⟨e.pendingCount, by rw [he, ← hreq]⟩

/-- A request whose jobs do not change, whatever their counts. -/
theorem RequestInv.frame (h : c.RequestInv p reqId) (hheld : c'.heldJobs reqId = c.heldJobs reqId)
    (hjob : ∀ j k, c'.IsJob j reqId k ↔ c.IsJob j reqId k) : c'.RequestInv p reqId := by
  have hstores : ∀ jobs, c.heldJobs reqId = some jobs → c.HoldsStores jobs →
      c'.HoldsStores jobs := by
    intro jobs hjobs hs j hj
    rcases h.held jobs j hjobs hj with ⟨e, he, hreq⟩
    rcases hs j hj with ⟨e', he', hstore⟩
    rw [he] at he'
    cases he'
    rcases (hjob j _).mpr (isJob_of_entry he hreq) with ⟨n, hn⟩
    exact ⟨_, hn, hstore⟩
  constructor
  · rw [hheld]
    exact h.unknown
  · intro hlive
    rcases h.live hlive with ⟨jobs, hjobs, hs⟩
    exact ⟨jobs, by rw [hheld, hjobs], hstores jobs hjobs hs⟩
  · rw [hheld]
    exact h.loading
  · rw [hheld]
    exact h.ended
  · intro jobs hjobs
    rw [hheld] at hjobs
    rcases h.exclusive jobs hjobs with hs | ⟨j, e, rfl, he, hload⟩
    · exact .inl (hstores jobs hjobs hs)
    · rcases h.held _ j hjobs mem_cons_self with ⟨e', he', hreq⟩
      rw [he] at he'
      cases he'
      rcases (hjob j _).mpr (isJob_of_entry he hreq) with ⟨n, hn⟩
      exact .inr ⟨j, _, rfl, hn, hload⟩
  · rw [hheld]
    exact h.nodup
  · intro jobs j hjobs hj
    rw [hheld] at hjobs
    rcases h.held jobs j hjobs hj with ⟨e, he, hreq⟩
    rcases (hjob j _).mpr (isJob_of_entry he hreq) with ⟨n, hn⟩
    exact ⟨_, hn, rfl⟩
  · intro j e he hreq
    rw [hheld]
    rcases (hjob j _).mp (isJob_of_entry he hreq) with ⟨n, hn⟩
    exact h.owned j _ hn rfl

theorem isJob_iff_of_entry (h : c'.entry jobId = c.entry jobId) {k : Bool} :
    c'.IsJob jobId reqId k ↔ c.IsJob jobId reqId k := by
  unfold IsJob
  rw [h]

theorem RequestInv.of_none (h : c.heldJobs reqId = none) (hp : p = .unknown ∨ p = .finished)
    (hentry : ∀ j e, c.entry j = some e → e.reqId ≠ reqId) : c.RequestInv p reqId where
  unknown _ := h
  live hlive := by rcases hp with rfl | rfl <;> rcases hlive with hp | hp <;> cases hp
  loading j hj := by rcases hp with rfl | rfl <;> cases hj
  ended jobs _ hjobs := by rw [h] at hjobs; cases hjobs
  exclusive jobs hjobs := by rw [h] at hjobs; cases hjobs
  nodup jobs hjobs := by rw [h] at hjobs; cases hjobs
  held jobs j hjobs := by rw [h] at hjobs; cases hjobs
  owned j e he hreq := absurd hreq (hentry j e he)

theorem RequestInv.of_stores (h : c.heldJobs reqId = some jobs) (hstores : c.HoldsStores jobs)
    (hp : p.Live ∨ (p = .finished ∧ jobs ≠ [])) (hnodup : jobs.Nodup)
    (hheld : ∀ j ∈ jobs, ∃ e, c.entry j = some e ∧ e.reqId = reqId)
    (howned : ∀ j e, c.entry j = some e → e.reqId = reqId → j ∈ jobs) :
    c.RequestInv p reqId := by
  have hjobs : ∀ jobs', c.heldJobs reqId = some jobs' → jobs' = jobs := by
    intro jobs' hjobs'
    rw [h] at hjobs'
    exact (Option.some.inj hjobs').symm
  constructor
  · rintro rfl
    rcases hp with (hp | hp) | ⟨hp, -⟩ <;> cases hp
  · intro _
    exact ⟨jobs, h, hstores⟩
  · rintro j rfl
    rcases hp with (hp | hp) | ⟨hp, -⟩ <;> cases hp
  · rintro jobs' rfl hjobs'
    rw [hjobs jobs' hjobs']
    rcases hp with (hp | hp) | ⟨-, hne⟩
    · cases hp
    · cases hp
    · exact hne
  · intro jobs' hjobs'
    rw [hjobs jobs' hjobs']
    exact .inl hstores
  · intro jobs' hjobs'
    rw [hjobs jobs' hjobs']
    exact hnodup
  · intro jobs' j hjobs' hj
    rw [hjobs jobs' hjobs'] at hj
    exact hheld j hj
  · intro j e he hreq
    exact ⟨jobs, h, howned j e he hreq⟩

/-- A request that holds one load. -/
theorem RequestInv.of_load {e : JobEntry} (h : c.heldJobs reqId = some [jobId])
    (he : c.entry jobId = some e) (hreq : e.reqId = reqId) (hload : e.isStore = false)
    (hp : p = .remote jobId ∨ p = .finished)
    (howned : ∀ j e, c.entry j = some e → e.reqId = reqId → j = jobId) :
    c.RequestInv p reqId := by
  have hjobs : ∀ jobs, c.heldJobs reqId = some jobs → jobs = [jobId] := by
    intro jobs hjobs
    rw [h] at hjobs
    exact (Option.some.inj hjobs).symm
  constructor
  · rintro rfl
    rcases hp with hp | hp <;> cases hp
  · rintro (rfl | rfl) <;> rcases hp with hp | hp <;> cases hp
  · rintro j rfl
    rcases hp with hp | hp
    · cases hp
      exact h
    · cases hp
  · intro jobs _ hjobs'
    rw [hjobs jobs hjobs']
    exact cons_ne_nil _ _
  · intro jobs hjobs'
    exact .inr ⟨jobId, e, hjobs jobs hjobs', he, hload⟩
  · intro jobs hjobs'
    rw [hjobs jobs hjobs']
    exact nodup_singleton jobId
  · intro jobs j hjobs' hj
    rw [hjobs jobs hjobs', mem_singleton] at hj
    rw [hj]
    exact ⟨e, he, hreq⟩
  · intro j e' he' hreq'
    rw [howned j e' he' hreq']
    exact ⟨[jobId], h, mem_cons_self⟩

namespace JobsInv

theorem init (config : SchedulerOffloadConfig) (manager : M) (hworkers : 0 < config.numWorkers) :
    JobsInv ({ config, manager } : OffloadingConnectorScheduler M S) (fun _ => .unknown)
      fun _ => 0 where
  workers := hworkers
  requests _ := .of_none rfl (.inl rfl) fun j e he => by cases he
  stale := Nat.le_refl 0
  dated j e he := by cases he
  counts j e he := by cases he
  owes j h := absurd h (Nat.lt_irrefl 0)

section
variable (h : JobsInv c phase owed)
include h

/-- The invariant reads the tables only. -/
theorem congr (hheld : c'.heldJobs = c.heldJobs) (hentry : c'.entry = c.entry)
    (hconfig : c'.config = c.config) (hstale : c'.staleJobThreshold ≤ c'.jobCounter)
    (hdated : ∀ j e, c.entry j = some e → c'.staleJobThreshold ≤ j ∧ j < c'.jobCounter) :
    JobsInv c' phase owed := by
  constructor
  · rw [hconfig]
    exact h.workers
  · intro r
    exact (h.requests r).frame (by rw [hheld]) fun j _ => isJob_iff_of_entry (by rw [hentry])
  · exact hstale
  · rw [hentry]
    exact hdated
  · rw [hentry]
    exact h.counts
  · rw [hentry]
    exact h.owes

theorem same (hsame : SameJobs c c') : JobsInv c' phase owed :=
  h.congr hsame.held hsame.entry hsame.config (by rw [hsame.stale, hsame.counter]; exact h.stale)
    fun j e he => by
      rw [hsame.stale, hsame.counter]
      exact h.dated j e he

theorem stores (hlive : (phase reqId).Live) :
    ∃ jobs, c.heldJobs reqId = some jobs ∧ c.HoldsStores jobs ∧ jobs.Nodup ∧
      (∀ j ∈ jobs, ∃ e, c.entry j = some e ∧ e.reqId = reqId) ∧
      ∀ j e, c.entry j = some e → e.reqId = reqId → j ∈ jobs := by
  have hreq := h.requests reqId
  rcases hreq.live hlive with ⟨jobs, hjobs, hstores⟩
  refine ⟨jobs, hjobs, hstores, hreq.nodup jobs hjobs, fun j => hreq.held jobs j hjobs, ?_⟩
  intro j e he hr
  rcases hreq.owned j e he hr with ⟨jobs', hjobs', hj⟩
  rw [hjobs] at hjobs'
  rw [Option.some.inj hjobs']
  exact hj

theorem move (hlive : (phase reqId).Live) (hp : p.Live) :
    JobsInv c (update phase reqId p) owed := by
  refine { h with requests := ?_ }
  intro r
  rw [update_apply]
  split_ifs with hr
  · rw [hr]
    rcases h.stores hlive with ⟨jobs, hjobs, hstores, hnodup, hheld, howned⟩
    exact .of_stores hjobs hstores (.inl hp) hnodup hheld howned
  · exact h.requests r

theorem no_entries (hnone : c.heldJobs reqId = none) {j : JobId} {e : JobEntry}
    (he : c.entry j = some e) : e.reqId ≠ reqId := by
  intro hr
  rcases (h.requests reqId).owned j e he hr with ⟨jobs, hjobs, -⟩
  rw [hnone] at hjobs
  cases hjobs

theorem addRequest (hnew : phase reqId = .unknown) (cap : Option ℤ) :
    JobsInv (c.onNewRequest ops reqId cap) (update phase reqId .waiting) owed := by
  have hnone := (h.requests reqId).unknown hnew
  have hheld : (c.onNewRequest ops reqId cap).heldJobs = _ := onNewRequest_held c reqId cap
  refine { h with requests := ?_ }
  intro r
  rw [update_apply]
  split_ifs with hr
  · rw [hr]
    have hnil : (c.onNewRequest ops reqId cap).heldJobs reqId = some [] := by
      rw [hheld, update_self]
    apply RequestInv.of_stores hnil
    · exact .nil
    · exact .inl (.inl rfl)
    · exact nodup_nil
    · exact fun j hj => absurd hj not_mem_nil
    · exact fun j e he hr => absurd hr (h.no_entries hnone he)
  · apply (h.requests r).frame
    · rw [hheld, update_of_ne hr]
    · exact fun j _ => Iff.rfl

theorem addJob (hlive : (phase reqId).Live) (hjobs : c.heldJobs reqId = some jobs) {isStore : Bool}
    (hadd : AddsJob c c' reqId (c.jobCounter :: jobs) isStore)
    (hnone : isStore = false → jobs = []) :
    JobsInv c' (if isStore then phase else update phase reqId (.remote c.jobCounter))
      (update owed c.jobCounter c.config.numWorkers) := by
  have hnew : ∀ j e, c.entry j = some e → j ≠ c.jobCounter := fun j e he =>
    Nat.ne_of_lt (h.dated j e he).2
  have hold : ∀ j e, c.entry j = some e → c'.entry j = some e := by
    intro j e he
    rw [hadd.entry, update_of_ne (hnew j e he), he]
  have hself : c'.entry c.jobCounter = some ⟨reqId, c.config.numWorkers, isStore⟩ := by
    rw [hadd.entry, update_self]
  have hback : ∀ j e, c'.entry j = some e → (j = c.jobCounter ∧
      e = ⟨reqId, c.config.numWorkers, isStore⟩) ∨ (j ≠ c.jobCounter ∧ c.entry j = some e) := by
    intro j e he
    by_cases hj : j = c.jobCounter
    · rw [hj, hself] at he
      exact .inl ⟨hj, (Option.some.inj he).symm⟩
    · rw [hadd.entry, update_of_ne hj] at he
      exact .inr ⟨hj, he⟩
  constructor
  · rw [hadd.config]
    exact h.workers
  · intro r
    by_cases hr : r = reqId
    · rw [hr]
      rcases h.stores hlive with ⟨jobs', hjobs', hstores, hnodup, hheld, howned⟩
      rw [hjobs] at hjobs'
      cases hjobs'
      have hheld' : c'.heldJobs reqId = some (c.jobCounter :: jobs) := by
        rw [hadd.held, update_self]
      have howned' : ∀ j e, c'.entry j = some e → e.reqId = reqId → j ∈ c.jobCounter :: jobs := by
        intro j e he hreq
        rcases hback j e he with ⟨rfl, -⟩ | ⟨-, he⟩
        · exact mem_cons_self
        · exact mem_cons_of_mem _ (howned j e he hreq)
      cases isStore with
      | false =>
        rw [hnone rfl] at hheld' howned'
        refine .of_load hheld' hself rfl rfl (.inl ?_) fun j e he hreq =>
          mem_singleton.mp (howned' j e he hreq)
        rw [if_neg (by decide), update_self]
      | true =>
        refine .of_stores hheld' ?_ (.inl (by rwa [if_pos rfl])) ?_ ?_ howned'
        · intro j hj
          rcases mem_cons.mp hj with rfl | hj
          · exact ⟨_, hself, rfl⟩
          · rcases hstores j hj with ⟨e, he, hstore⟩
            exact ⟨e, hold j e he, hstore⟩
        · refine nodup_cons.mpr ⟨fun hmem => ?_, hnodup⟩
          rcases hheld _ hmem with ⟨e, he, -⟩
          exact hnew _ e he rfl
        · intro j hj
          rcases mem_cons.mp hj with rfl | hj
          · exact ⟨_, hself, rfl⟩
          · rcases hheld j hj with ⟨e, he, hreq⟩
            exact ⟨e, hold j e he, hreq⟩
    · have hphase : (if isStore then phase
          else update phase reqId (.remote c.jobCounter)) r = phase r := by
        split_ifs
        · rfl
        · exact update_of_ne hr _ _
      rw [hphase]
      apply (h.requests r).frame
      · rw [hadd.held, update_of_ne hr]
      · intro j k
        refine ⟨fun ⟨n, he⟩ => ?_, fun ⟨n, he⟩ => ⟨n, hold j _ he⟩⟩
        rcases hback j _ he with ⟨-, heq⟩ | ⟨-, he⟩
        · cases heq
          exact absurd rfl hr
        · exact ⟨n, he⟩
  · rw [hadd.stale, hadd.counter]
    exact Nat.le_succ_of_le h.stale
  · intro j e he
    rw [hadd.stale, hadd.counter]
    rcases hback j e he with ⟨rfl, -⟩ | ⟨-, he⟩
    · exact ⟨h.stale, Nat.lt_succ_self _⟩
    · exact (h.dated j e he).imp_right Nat.lt_succ_of_lt
  · intro j e he
    rcases hback j e he with ⟨rfl, rfl⟩ | ⟨hj, he⟩
    · rw [update_self]
      exact ⟨h.workers, rfl⟩
    · rw [update_of_ne hj]
      exact h.counts j e he
  · intro j hj
    by_cases hnew : j = c.jobCounter
    · rw [hnew]
      exact ⟨_, hself⟩
    · rw [update_of_ne hnew] at hj
      rcases h.owes j hj with ⟨e, he⟩
      exact ⟨e, hold j e he⟩

theorem lowers {e : JobEntry} {count : ℕ} (he : c.entry jobId = some e)
    (hlow : LowersCount c c' jobId e count) (hless : (count : ℤ) < e.pendingCount) :
    JobsInv c' phase (update owed jobId (owed jobId - count)) := by
  have hself : c'.entry jobId = some { e with pendingCount := e.pendingCount - count } := by
    rw [hlow.entry, update_self]
  have hother : ∀ j, j ≠ jobId → c'.entry j = c.entry j := by
    intro j hj
    rw [hlow.entry, update_of_ne hj]
  have hcounts := h.counts jobId e he
  constructor
  · rw [hlow.config]
    exact h.workers
  · intro r
    apply (h.requests r).frame
    · rw [hlow.held]
    · intro j k
      by_cases hj : j = jobId
      · rw [hj, IsJob, IsJob, hself, he]
        constructor
        · rintro ⟨n, hn⟩
          cases hn
          exact ⟨_, rfl⟩
        · rintro ⟨n, hn⟩
          cases hn
          exact ⟨_, rfl⟩
      · exact isJob_iff_of_entry (hother j hj)
  · rw [hlow.stale, hlow.counter]
    exact h.stale
  · intro j e' he'
    rw [hlow.stale, hlow.counter]
    by_cases hj : j = jobId
    · rw [hj]
      exact h.dated jobId e he
    · rw [hother j hj] at he'
      exact h.dated j e' he'
  · intro j e' he'
    by_cases hj : j = jobId
    · rw [hj, hself] at he'
      cases he'
      rw [hj, update_self]
      dsimp only
      omega
    · rw [hother j hj] at he'
      rw [update_of_ne hj]
      exact h.counts j e' he'
  · intro j hj
    by_cases hjob : j = jobId
    · rw [hjob]
      exact ⟨_, hself⟩
    · rw [update_of_ne hjob] at hj
      rw [hother j hjob]
      exact h.owes j hj

theorem finish (hjobs : c.heldJobs reqId = some jobs) (hfinish : FinishesRequest c c' reqId jobs) :
    JobsInv c' (update phase reqId .finished) owed := by
  have hreq := h.requests reqId
  have howned : ∀ j e, c'.entry j = some e → e.reqId = reqId → j ∈ jobs := by
    intro j e he hr
    rw [hfinish.entry] at he
    rcases hreq.owned j e he hr with ⟨jobs', hjobs', hj⟩
    rw [hjobs] at hjobs'
    cases hjobs'
    exact hj
  constructor
  · rw [hfinish.config]
    exact h.workers
  · intro r
    rw [update_apply]
    split_ifs with hr
    · rw [hr]
      have hheld : c'.heldJobs reqId = if jobs = [] then none else some jobs := by
        rw [hfinish.held, update_self]
      by_cases hnone : jobs = []
      · rw [if_pos hnone] at hheld
        apply RequestInv.of_none hheld (.inr rfl)
        intro j e he hr
        rw [hnone] at howned
        exact not_mem_nil (howned j e he hr)
      · rw [if_neg hnone] at hheld
        rcases hreq.exclusive jobs hjobs with hstores | ⟨j, e, rfl, he, hload⟩
        · apply RequestInv.of_stores hheld
          · intro j hj
            rw [hfinish.entry]
            exact hstores j hj
          · exact .inr ⟨rfl, hnone⟩
          · exact hreq.nodup jobs hjobs
          · intro j hj
            rw [hfinish.entry]
            exact hreq.held jobs j hjobs hj
          · exact howned
        · rcases hreq.held _ j hjobs mem_cons_self with ⟨e', he', hr'⟩
          rw [he] at he'
          cases he'
          refine .of_load hheld (by rw [hfinish.entry, he]) hr' hload (.inr rfl) ?_
          exact fun j' e' he' hr' => mem_singleton.mp (howned j' e' he' hr')
    · apply (h.requests r).frame
      · rw [hfinish.held, update_of_ne hr]
      · exact fun j _ => isJob_iff_of_entry (by rw [hfinish.entry])
  · rw [hfinish.stale, hfinish.counter]
    exact h.stale
  · rw [hfinish.entry, hfinish.stale, hfinish.counter]
    exact h.dated
  · rw [hfinish.entry]
    exact h.counts
  · rw [hfinish.entry]
    exact h.owes

end

end JobsInv

theorem RequestInv.ends (hreq : c.RequestInv p reqId) (hjobs : c.heldJobs reqId = some jobs)
    (hmem : jobId ∈ jobs) {finished : Bool} (hend : EndsJob c c' jobId reqId jobs finished)
    (hfinished : finished = true ↔ p = .finished) :
    c'.RequestInv (if p = .remote jobId then .waiting else p) reqId := by
  have hnodup := hreq.nodup jobs hjobs
  have hrest : ∀ j, j ∈ jobs.erase jobId ↔ j ≠ jobId ∧ j ∈ jobs := fun j => hnodup.mem_erase_iff
  have hentry : ∀ j, j ≠ jobId → c'.entry j = c.entry j := by
    intro j hj
    rw [hend.entry, update_of_ne hj]
  have howned : ∀ j e, c'.entry j = some e → e.reqId = reqId → j ∈ jobs.erase jobId := by
    intro j e he hr
    by_cases hj : j = jobId
    · rw [hend.entry, hj, update_self] at he
      cases he
    · rw [hentry j hj] at he
      rcases hreq.owned j e he hr with ⟨jobs', hjobs', hmem'⟩
      rw [hjobs] at hjobs'
      cases hjobs'
      exact (hrest j).mpr ⟨hj, hmem'⟩
  have hheld : c'.heldJobs reqId =
      if jobs.erase jobId = [] ∧ finished then none else some (jobs.erase jobId) := by
    rw [hend.held, update_self]
  have hstores : c.HoldsStores jobs → c'.HoldsStores (jobs.erase jobId) := by
    intro hs j hj
    rw [hrest] at hj
    rw [hentry j hj.1]
    exact hs j hj.2
  have hknown : ∀ j ∈ jobs.erase jobId, ∃ e, c'.entry j = some e ∧ e.reqId = reqId := by
    intro j hj
    rw [hrest] at hj
    rw [hentry j hj.1]
    exact hreq.held jobs j hjobs hj.2
  have hload : ∀ j, jobs = [j] → jobs.erase jobId = [] := by
    rintro j rfl
    rw [mem_singleton] at hmem
    rw [hmem, erase_cons_head]
  by_cases hdone : jobs.erase jobId = [] ∧ finished = true
  · rw [if_pos hdone] at hheld
    have hp : p = .finished := hfinished.mp hdone.2
    rw [hp, if_neg RequestPhase.noConfusion]
    apply RequestInv.of_none hheld (.inr rfl)
    intro j e he hr
    have hj := howned j e he hr
    rw [hdone.1] at hj
    exact not_mem_nil hj
  · rw [if_neg hdone] at hheld
    have hs : c'.HoldsStores (jobs.erase jobId) := by
      rcases hreq.exclusive jobs hjobs with hs | ⟨j, e, hj, -⟩
      · exact hstores hs
      · rw [hload j hj]
        exact .nil
    refine .of_stores hheld hs ?_ (hnodup.erase jobId) hknown howned
    cases p with
    | unknown =>
      have hnone := hreq.unknown rfl
      rw [hjobs] at hnone
      cases hnone
    | waiting => exact .inl (.inl (if_neg RequestPhase.noConfusion))
    | running => exact .inl (.inr (if_neg RequestPhase.noConfusion))
    | remote j =>
      have hj := hreq.loading j rfl
      rw [hjobs] at hj
      cases hj
      rw [mem_singleton] at hmem
      exact .inl (.inl (if_pos (by rw [hmem])))
    | finished =>
      refine .inr ⟨if_neg RequestPhase.noConfusion, fun hnil => hdone ⟨hnil, ?_⟩⟩
      exact hfinished.mpr rfl

theorem JobsInv.ends (h : JobsInv c phase owed) {e : JobEntry} {finished : Bool}
    (he : c.entry jobId = some e) (hjobs : c.heldJobs e.reqId = some jobs) (hmem : jobId ∈ jobs)
    (hend : EndsJob c c' jobId e.reqId jobs finished)
    (hfinished : finished = true ↔ phase e.reqId = .finished) :
    JobsInv c' (fun r => if phase r = .remote jobId then .waiting else phase r)
      (update owed jobId 0) := by
  have hback : ∀ j e', c'.entry j = some e' → j ≠ jobId ∧ c.entry j = some e' := by
    intro j e' he'
    rw [hend.entry, update_apply] at he'
    split_ifs at he' with hj
    exact ⟨hj, he'⟩
  constructor
  · rw [hend.config]
    exact h.workers
  · intro r
    by_cases hr : r = e.reqId
    · rw [hr]
      exact (h.requests e.reqId).ends hjobs hmem hend hfinished
    · have hother : phase r ≠ .remote jobId := by
        intro hremote
        have hload := (h.requests r).loading jobId hremote
        rcases (h.requests r).held _ jobId hload mem_cons_self with ⟨e', he', hr'⟩
        rw [he] at he'
        cases he'
        exact hr hr'.symm
      rw [if_neg hother]
      apply (h.requests r).frame
      · rw [hend.held, update_of_ne hr]
      · intro j k
        refine ⟨fun ⟨n, hn⟩ => ⟨n, (hback j _ hn).2⟩, fun ⟨n, hn⟩ => ⟨n, ?_⟩⟩
        rw [hend.entry, update_apply]
        split_ifs with hj
        · rw [hj, he] at hn
          cases hn
          exact absurd rfl hr
        · exact hn
  · rw [hend.stale, hend.counter]
    exact h.stale
  · intro j e' he'
    rw [hend.stale, hend.counter]
    exact h.dated j e' (hback j e' he').2
  · intro j e' he'
    rw [update_of_ne (hback j e' he').1]
    exact h.counts j e' (hback j e' he').2
  · intro j hj
    rw [update_apply] at hj
    split_ifs at hj with hjob
    · exact absurd hj (Nat.lt_irrefl 0)
    · rw [hend.entry, update_of_ne hjob]
      exact h.owes j hj

end OffloadingConnectorScheduler

end Vllm
