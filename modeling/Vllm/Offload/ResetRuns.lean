import Vllm.Offload.ReadableKeys

/-! The offloading connector, as far as its manager and its jobs are concerned, through cache
resets: what a lookup finds after a reset. -/
namespace Vllm
open LRUCachePolicy TieringOffloadingManager CPUOffloadingManager Raises

/-- What the secondary tiers report and answer during a call. -/
structure TierInputs where
  finished : List JobResult := []
  answers : ℕ → Option Bool := fun _ => some false

/-- The calls of the connector to its manager. A prepared store is returned as its keys, of which
there are none if nothing is stored. -/
structure ManagerCalls (M : Type) where
  lookup : M → TierInputs → OffloadKey → RequestId → Raises (Option Bool × M)
  prepareLoad : M → TierInputs → List OffloadKey → Raises M
  completeLoad : M → List OffloadKey → Raises M
  touch : M → List OffloadKey → M
  prepareStore : M → TierInputs → List OffloadKey → RequestId → Raises (List OffloadKey × M)
  completeStore : M → List OffloadKey → RequestId → Raises M
  onNewRequest : M → (ℕ → OffloadPolicy) → RequestId → M
  onRequestFinished : M → RequestId → M
  onScheduleEnd : M → TierInputs → Raises M
  resetCache : M → M

section Managers
variable {P : Type} (c : CachePolicy P)

/-- The keys that are handed to the workers. -/
def keysOfStore (out : Option CPUPrepareStoreOutput) : List OffloadKey :=
  (out.map fun o => o.keysToStore).getD []

def cpuCalls : ManagerCalls (CPUOffloadingManager P) where
  lookup m _ key _ := m.lookup c key
  prepareLoad m _ keys := Except.map Prod.snd (m.prepareLoad c keys)
  completeLoad m keys := m.completeLoad c keys
  touch m keys := m.touch c keys
  prepareStore m _ keys _ := Except.map (Prod.map keysOfStore id) (m.prepareStore c keys)
  completeStore m keys _ := m.completeStore c keys true
  onNewRequest m _ _ := m
  onRequestFinished m _ := m
  onScheduleEnd m _ := pure m
  resetCache m := m.resetCache c

def tieringCalls : ManagerCalls (TieringOffloadingManager P) where
  lookup m inputs key reqId := m.lookup c inputs.finished inputs.answers key reqId
  prepareLoad m inputs keys := Except.map Prod.snd (m.prepareLoad c inputs.finished keys)
  completeLoad m keys := m.completeLoad c keys
  touch m keys := m.touch c keys
  prepareStore m inputs keys reqId :=
    Except.map (Prod.map keysOfStore id) (m.prepareStore c inputs.finished keys reqId)
  completeStore m keys reqId := m.completeStore c keys reqId true
  onNewRequest m policies reqId := (m.onNewRequest policies reqId).2
  onRequestFinished m reqId := m.onRequestFinished reqId
  onScheduleEnd m inputs := m.onScheduleEnd c inputs.finished
  resetCache m := m.resetCache

end Managers

/-- The manager, the jobs of the connector, and the keys of the stores that have been prepared and
completed since the last reset. -/
structure ResetRun (M : Type) extends TransferJobs where
  manager : M
  numWorkers : ℕ := 1
  wasReset : Bool := false
  stored : List OffloadKey := []

inductive ResetEvent where
  | lookup (inputs : TierInputs) (key : OffloadKey) (reqId : RequestId)
  | load (inputs : TierInputs) (keys : List OffloadKey) (reqId : RequestId)
  | store (inputs : TierInputs) (keys : List OffloadKey) (reqId : RequestId)
  | report (jobId : JobId) (count : ℕ)
  | touch (keys : List OffloadKey)
  | newRequest (policies : ℕ → OffloadPolicy) (reqId : RequestId)
  | requestFinished (reqId : RequestId)
  | scheduleEnd (inputs : TierInputs)
  | resetCache

namespace ResetRun
variable {M : Type} (calls : ManagerCalls M) (s : ResetRun M)

def addJob (reqId : RequestId) (keys : List OffloadKey) (isStore : Bool) : ResetRun M :=
  { s with toTransferJobs := s.start { reqId, pendingCount := s.numWorkers, keys, isStore } }

/-- The last worker has reported a job. -/
def complete (jobId : JobId) (job : TransferJobStatus) : Raises (ResetRun M) := do
  Raises.require (job.pendingCount = 0)
  if job.isStore then
    let manager ← calls.completeStore s.manager job.keys job.reqId
    pure { s with manager, jobs := s.jobs.erase jobId, stored := job.keys ++ s.stored }
  else
    let manager ← calls.completeLoad s.manager job.keys
    pure { s with manager, jobs := s.jobs.erase jobId }

/-- An entry of `completed_jobs`; jobs from before the last reset are skipped. -/
def report (jobId : JobId) (count : ℕ) : Raises (ResetRun M) := do
  Raises.require (0 < count)
  if jobId < s.staleJobThreshold then pure s
  else match s.jobs.get? jobId with
    | none => throw .keyError
    | some job =>
      let job := { job with pendingCount := job.pendingCount - count }
      let s := { s with jobs := s.jobs.set jobId job }
      if 0 < job.pendingCount then pure s else s.complete calls jobId job

def resetCache : ResetRun M :=
  { s with
    manager := calls.resetCache s.manager
    toTransferJobs := s.reset
    wasReset := true
    stored := [] }

def perform : ResetEvent → Raises (ResetRun M)
  | .lookup inputs key reqId => do
    let r ← calls.lookup s.manager inputs key reqId
    pure { s with manager := r.2 }
  | .load inputs keys reqId => do
    let manager ← calls.prepareLoad s.manager inputs keys
    pure ({ s with manager }.addJob reqId keys false)
  | .store inputs keys reqId => do
    let r ← calls.prepareStore s.manager inputs keys reqId
    let s := { s with manager := r.2 }
    pure (if r.1 = [] then s else s.addJob reqId r.1 true)
  | .report jobId count => s.report calls jobId count
  | .touch keys => pure { s with manager := calls.touch s.manager keys }
  | .newRequest policies reqId =>
    pure { s with manager := calls.onNewRequest s.manager policies reqId }
  | .requestFinished reqId => pure { s with manager := calls.onRequestFinished s.manager reqId }
  | .scheduleEnd inputs => do
    let manager ← calls.onScheduleEnd s.manager inputs
    pure { s with manager }
  | .resetCache => pure (s.resetCache calls)

/-- What a lookup may find. -/
def MayFind (k : OffloadKey) : Prop := s.wasReset = true → k ∈ s.stored

end ResetRun

/-- Conditions on what the tiers report during a call and on the manager at a reset. -/
structure ResetCondition (M : Type) where
  reports : M → TierInputs → (OffloadKey → Prop) → Prop
  atReset : M → Prop

/-- No condition. -/
def ResetCondition.always (M : Type) : ResetCondition M where
  reports _ _ _ := True
  atReset _ := True

/-- The tiers bring in only keys that may be found, and at a reset no key is found. -/
def ResetCondition.tiering {P : Type} (c : CachePolicy P) :
    ResetCondition (TieringOffloadingManager P) where
  reports m inputs R := m.PromotesOnly inputs.finished R
  atReset m := ∀ k, m.primaryTier.answer c k ≠ some true

namespace ResetRun
variable {M : Type}

/-- The keys of a store are distinct; the rest is the condition. -/
def Meets (cond : ResetCondition M) (s : ResetRun M) : ResetEvent → Prop
  | .lookup inputs _ _ | .load inputs _ _ | .scheduleEnd inputs =>
    cond.reports s.manager inputs s.MayFind
  | .store inputs keys _ => cond.reports s.manager inputs s.MayFind ∧ keys.Nodup
  | .report _ _ | .touch _ | .newRequest _ _ | .requestFinished _ => True
  | .resetCache => cond.atReset s.manager

inductive Reachable (calls : ManagerCalls M) (cond : ResetCondition M) (start : ResetRun M) :
    ResetRun M → Prop
  | start : Reachable calls cond start start
  | step {s s'} (event : ResetEvent) : Reachable calls cond start s → s.Meets cond event →
      s.perform calls event = .ok s' → Reachable calls cond start s'

/-- After a reset, a lookup finds only what has been stored since. -/
def ForgetsOld (calls : ManagerCalls M) (cond : ResetCondition M) (s : ResetRun M) : Prop :=
  s.wasReset = true → ∀ inputs key reqId m', s.Meets cond (.lookup inputs key reqId) →
    calls.lookup s.manager inputs key reqId = .ok (some true, m') → key ∈ s.stored

end ResetRun

/-- Under the condition, a manager knows which keys it can answer for: `I m R` says that they are
all in `R`. -/
structure ManagerCalls.Knows {M : Type} (calls : ManagerCalls M) (cond : ResetCondition M)
    (I : M → (OffloadKey → Prop) → Prop) : Prop where
  mono : ∀ {m R R'}, I m R → (∀ k, R k → R' k) → I m R'
  lookup : ∀ {m R inputs k r answer m'}, I m R → cond.reports m inputs R →
    calls.lookup m inputs k r = .ok (answer, m') → I m' R ∧ (answer = some true → R k)
  prepareLoad : ∀ {m R inputs keys m'}, I m R → cond.reports m inputs R →
    calls.prepareLoad m inputs keys = .ok m' → I m' R
  completeLoad : ∀ {m R keys m'}, I m R → calls.completeLoad m keys = .ok m' → I m' R
  touch : ∀ {m R keys}, I m R → I (calls.touch m keys) R
  prepareStore : ∀ {m R inputs keys r stored m'}, I m R → cond.reports m inputs R → keys.Nodup →
    calls.prepareStore m inputs keys r = .ok (stored, m') → I m' R
  completeStore : ∀ {m R keys r m'}, I m R → (∀ k ∈ keys, R k) →
    calls.completeStore m keys r = .ok m' → I m' R
  onNewRequest : ∀ {m R policies r}, I m R → I (calls.onNewRequest m policies r) R
  onRequestFinished : ∀ {m R r}, I m R → I (calls.onRequestFinished m r) R
  onScheduleEnd : ∀ {m R inputs m'}, I m R → cond.reports m inputs R →
    calls.onScheduleEnd m inputs = .ok m' → I m' R
  resetCache : ∀ {m R R'}, I m R → cond.atReset m → I (calls.resetCache m) R'

namespace ResetRun
variable {M : Type} {calls : ManagerCalls M} {cond : ResetCondition M} {s s' start : ResetRun M}
  {I : M → (OffloadKey → Prop) → Prop}

section
variable (hcalls : calls.Knows cond I)
include hcalls

theorem knows_report (h : I s.manager s.MayFind) {jobId : JobId} {count : ℕ}
    (hrun : s.report calls jobId count = .ok s') : I s'.manager s'.MayFind := by
  rcases of_bind hrun with ⟨-, -, hrun⟩
  split_ifs at hrun
  · cases hrun
    exact h
  · cases hjob : s.jobs.get? jobId with
    | none =>
      rw [hjob] at hrun
      cases hrun
    | some job =>
      rw [hjob] at hrun
      dsimp only at hrun
      split_ifs at hrun
      · cases hrun
        exact h
      · rcases of_bind hrun with ⟨-, -, hrun⟩
        split_ifs at hrun
        · rcases of_bind hrun with ⟨m, hstore, hpure⟩
          cases hpure
          apply hcalls.completeStore (hcalls.mono h _) _ hstore
          · exact fun k hk hreset => List.mem_append_right _ (hk hreset)
          · exact fun k hk _ => List.mem_append_left _ hk
        · rcases of_bind hrun with ⟨m, hload, hpure⟩
          cases hpure
          exact hcalls.completeLoad h hload

theorem knows_perform (h : I s.manager s.MayFind) {event : ResetEvent} (hmeets : s.Meets cond event)
    (hrun : s.perform calls event = .ok s') :
    I s'.manager s'.MayFind := by
  cases event with
  | lookup inputs key reqId =>
    rcases of_bind hrun with ⟨⟨answer, m⟩, hlookup, hpure⟩
    cases hpure
    exact (hcalls.lookup h hmeets hlookup).1
  | load inputs keys reqId =>
    rcases of_bind hrun with ⟨m, hload, hpure⟩
    cases hpure
    exact hcalls.prepareLoad h hmeets hload
  | store inputs keys reqId =>
    rcases of_bind hrun with ⟨⟨stored, m⟩, hstore, hpure⟩
    have hm := hcalls.prepareStore h hmeets.1 hmeets.2 hstore
    cases hpure
    split_ifs
    · exact hm
    · exact hm
  | report jobId count => exact knows_report hcalls h hrun
  | touch keys =>
    cases hrun
    exact hcalls.touch h
  | newRequest policies reqId =>
    cases hrun
    exact hcalls.onNewRequest h
  | requestFinished reqId =>
    cases hrun
    exact hcalls.onRequestFinished h
  | scheduleEnd inputs =>
    rcases of_bind hrun with ⟨m, hend, hpure⟩
    cases hpure
    exact hcalls.onScheduleEnd h hmeets hend
  | resetCache =>
    cases hrun
    exact hcalls.resetCache h hmeets

theorem forgetsOld_of_reachable (hstart : I start.manager start.MayFind)
    (h : Reachable calls cond start s) :
    s.ForgetsOld calls cond := by
  have hinv : I s.manager s.MayFind := by
    induction h with
    | start => exact hstart
    | step event _ hmeets hrun ih => exact knows_perform hcalls ih hmeets hrun
  intro hreset inputs key reqId m' hmeets hlookup
  exact (hcalls.lookup hinv hmeets hlookup).2 rfl hreset

end

end ResetRun

section Managers
variable {P : Type} {c : CachePolicy P} {held : P → Multiset CacheEntry}

theorem map_eq_ok {α β : Type} {f : α → β} {x : Raises α} {b : β}
    (h : Except.map f x = .ok b) : ∃ a, x = .ok a ∧ f a = b := by
  cases x with
  | error e => cases h
  | ok a =>
    cases h
    exact ⟨a, rfl, rfl⟩

theorem cpuCalls_knows (hc : c.Lawful held) :
    (cpuCalls c).Knows (.always _) fun m R => Within c held R m.policy where
  mono h hR := h.mono hR
  lookup := by
    intro m R inputs k r answer m' h _ hrun
    rcases policy_lookup hrun with ⟨hpolicy, hanswer⟩
    rw [← hpolicy] at h
    refine ⟨h, fun htrue => ?_⟩
    rw [htrue] at hanswer
    rcases answer_eq_true_iff.mp hanswer.symm with ⟨b, hb, hready⟩
    exact h.readable k b hb hready
  prepareLoad := by
    intro m R inputs keys m' h _ hrun
    rcases map_eq_ok hrun with ⟨⟨ids, m1⟩, hload, rfl⟩
    exact within_prepareLoad h hc hload
  completeLoad h hrun := within_completeLoad h hc hrun
  touch h := h.touch hc _
  prepareStore := by
    intro m R inputs keys r stored m' h _ hnodup hrun
    rcases map_eq_ok hrun with ⟨⟨out, m1⟩, hstore, heq⟩
    cases heq
    exact within_prepareStore h hc hnodup hstore
  completeStore := by
    intro m R keys r m' h hkeys hrun
    have hstore : m.completeStore c keys true = .ok m' := hrun
    exact within_completeStore h hc (fun _ => hkeys) hstore
  onNewRequest h := h
  onRequestFinished h := h
  onScheduleEnd h _ hrun := by
    cases hrun
    exact h
  resetCache _ _ := Within.clear hc

/-- The inherited reset leaves everything where it is, so there must be nothing. -/
theorem tieringCalls_knows (hc : c.Lawful held) :
    (tieringCalls c).Knows (.tiering c) fun m R => Within c held R m.primaryTier.policy where
  mono h hR := h.mono hR
  lookup h honly hrun := within_lookup h hc honly hrun
  prepareLoad := by
    intro m R inputs keys m' h honly hrun
    rcases map_eq_ok hrun with ⟨⟨ids, m1⟩, hload, rfl⟩
    exact within_prepareLoad h hc honly hload
  completeLoad h hrun := within_completeLoad h hc hrun
  touch h := h.touch hc _
  prepareStore := by
    intro m R inputs keys r stored m' h honly hnodup hrun
    rcases map_eq_ok hrun with ⟨⟨out, m1⟩, hstore, heq⟩
    cases heq
    exact within_prepareStore h hc hnodup honly hstore
  completeStore h hkeys hrun := within_completeStore h hc hkeys hrun
  onNewRequest := by
    intro m R policies r h
    show Within c held R (m.onNewRequest policies r).2.primaryTier.policy
    unfold onNewRequest
    dsimp only
    split_ifs
    · exact h
    · exact h
  onRequestFinished h := h
  onScheduleEnd h honly hrun := within_onScheduleEnd h hc honly hrun
  resetCache h hempty := by
    refine ⟨h.distinct, fun k b hb hready => ?_⟩
    exact absurd (answer_eq_true_iff.mpr ⟨b, hb, hready⟩) (hempty k)

theorem Within.of_empty (held : P → Multiset CacheEntry) {p : P} {R : OffloadKey → Prop}
    (hc : c.Lawful held) (hempty : held p = 0) : Within c held R p := by
  have hdistinct : DistinctKeys (held p) := by
    rw [hempty]
    exact Multiset.nodup_zero
  refine ⟨hdistinct, fun k b hb => ?_⟩
  have hmem := (hc.get hdistinct).mp hb
  rw [hempty] at hmem
  exact absurd hmem (Multiset.notMem_zero _)

end Managers

section Policies
variable (numWorkers numBlocks numTiers storeThreshold maxTrackerSize : ℕ) (enableEvents : Bool)

/-- A connector with a new manager. -/
def cpuConnector {P : Type} (policy : P) : ResetRun (CPUOffloadingManager P) where
  manager := .init policy numBlocks enableEvents storeThreshold maxTrackerSize
  numWorkers := numWorkers

def tieringConnector {P : Type} (policy : P) : ResetRun (TieringOffloadingManager P) where
  manager := .init policy numBlocks numTiers enableEvents
  numWorkers := numWorkers

/-- The CPU manager forgets at every reset, under either policy. The tiering manager does in the
runs whose resets find nothing readable and in which no tier brings an old key back. -/
theorem resetCache_forgets (round : ℚ → ℚ) :
    (∀ s, ResetRun.Reachable (cpuCalls policy) (.always _)
        (cpuConnector numWorkers numBlocks storeThreshold maxTrackerSize enableEvents {}) s →
      s.ForgetsOld (cpuCalls policy) (.always _)) ∧
    (∀ s, ResetRun.Reachable (cpuCalls (ARCCachePolicy.policy round)) (.always _)
        (cpuConnector numWorkers numBlocks storeThreshold maxTrackerSize enableEvents
          { cacheCapacity := numBlocks }) s →
      s.ForgetsOld (cpuCalls (ARCCachePolicy.policy round)) (.always _)) ∧
    (∀ s, ResetRun.Reachable (tieringCalls policy) (.tiering policy)
        (tieringConnector numWorkers numBlocks numTiers enableEvents {}) s →
      s.ForgetsOld (tieringCalls policy) (.tiering policy)) ∧
    (∀ s, ResetRun.Reachable (tieringCalls (ARCCachePolicy.policy round))
        (.tiering (ARCCachePolicy.policy round))
        (tieringConnector numWorkers numBlocks numTiers enableEvents
          { cacheCapacity := numBlocks }) s →
      s.ForgetsOld (tieringCalls (ARCCachePolicy.policy round))
        (.tiering (ARCCachePolicy.policy round))) := by
  have hlru := lawful
  have harc := ARCCachePolicy.lawful round
  refine ⟨fun s => ?_, fun s => ?_, fun s => ?_, fun s => ?_⟩
  · exact ResetRun.forgetsOld_of_reachable (cpuCalls_knows hlru) (Within.of_empty _ hlru rfl)
  · exact ResetRun.forgetsOld_of_reachable (cpuCalls_knows harc) (Within.of_empty _ harc rfl)
  · exact ResetRun.forgetsOld_of_reachable (tieringCalls_knows hlru) (Within.of_empty _ hlru rfl)
  · exact ResetRun.forgetsOld_of_reachable (tieringCalls_knows harc) (Within.of_empty _ harc rfl)

end Policies

/-- After a reset, a key has been stored in the primary tier, and is on its way to a second one. -/
def storedAfterReset : ResetRun (TieringOffloadingManager LRUCachePolicy) where
  manager :=
    { primaryTier :=
        { numBlocks := 1
          policy := { blocks := Dict.empty.set (soloKey 1) ⟨0, 1⟩ }
          numAllocatedBlocks := 1 }
      secondaryTiers := [0]
      jobIdCounter := 1
      transferJobs := Dict.empty.set 0 ⟨[soloKey 1], [0], false, 7⟩
      processedJobsThisStep := true }
  jobCounter := 1
  wasReset := true
  stored := [soloKey 1]

theorem storedAfterReset_reachable :
    ResetRun.Reachable (tieringCalls policy) (.tiering policy)
      (tieringConnector 1 1 1 false {}) storedAfterReset := by
  have h0 : ResetRun.Reachable (tieringCalls policy)
      (.tiering policy) (tieringConnector 1 1 1 false {})
      (tieringConnector 1 1 1 false {}) := .start
  have h1 := h0.step .resetCache (fun k hk => nomatch hk) rfl
  have h2 := h1.step (.store {} [soloKey 1] 7)
    ⟨fun _ r hr => absurd hr List.not_mem_nil, List.nodup_singleton _⟩ rfl
  exact h2.step (.report 0 1) trivial rfl

theorem resetCache_forgets_storedAfterReset :
    storedAfterReset.ForgetsOld (tieringCalls policy)
      (.tiering policy) :=
  (resetCache_forgets 1 1 1 1 0 false id).2.2.1 storedAfterReset storedAfterReset_reachable

/-- A key that was stored before a reset of the tiering manager is found after it. -/
theorem tieringReset_findsOld :
    ¬∀ s, ResetRun.Reachable (tieringCalls policy) (.always _)
        (tieringConnector 1 1 1 false {}) s →
      s.ForgetsOld (tieringCalls policy) (.always _) := by
  intro hall
  have h0 : ResetRun.Reachable (tieringCalls policy) (.always _)
      (tieringConnector 1 1 1 false {}) (tieringConnector 1 1 1 false {}) := .start
  have h1 := h0.step (.store {} [soloKey 1] 7) ⟨trivial, List.nodup_singleton _⟩ rfl
  have h2 := h1.step (.report 0 1) trivial rfl
  have h3 := h2.step .resetCache trivial rfl
  have hfound := hall _ h3 rfl {} (soloKey 1) 8 _ trivial rfl
  exact absurd hfound List.not_mem_nil

end Vllm
