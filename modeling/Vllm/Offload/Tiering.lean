import Vllm.Offload.CachePolicy

/-! `kv_offload/tiering/manager.py`: a CPU pool in front of secondary tiers, named by their index.
What they answer and which of their jobs have finished is an input. -/
namespace Vllm

/-- A transfer between the primary tier and a secondary one: a promotion writes into the primary
blocks, any other reads them. -/
structure JobMetadata where
  keys : List OffloadKey
  blockIds : List ℕ
  isPromotion : Bool
  reqId : RequestId
  deriving DecidableEq, Repr

structure JobResult where
  jobId : JobId
  success : Bool
  deriving DecidableEq, Repr

/-- Blocks that wait for the end of the step to be promoted together. -/
structure PendingPromotion where
  reqId : RequestId
  keys : List OffloadKey := []
  blockIds : List ℕ := []
  deriving DecidableEq, Repr

structure TieringOffloadingManager (P : Type) where
  primaryTier : CPUOffloadingManager P
  secondaryTiers : List ℕ
  jobIdCounter : JobId := 0
  transferJobs : Dict JobId JobMetadata := .empty
  pendingLoadSubmissions : Dict ℕ (Dict RequestId PendingPromotion) := .empty
  processedJobsThisStep : Bool := false
  requestLevelTiers : Dict RequestId (List ℕ) := .empty

namespace TieringOffloadingManager
variable {P : Type} (c : CachePolicy P) (m : TieringOffloadingManager P)

/-- `CPUPrimaryTierOffloadingManager` keeps no lookup counts. -/
def init (policy : P) (numBlocks numTiers : ℕ) (enableEvents : Bool) :
    TieringOffloadingManager P where
  primaryTier := .init policy numBlocks enableEvents 1 64000
  secondaryTiers := List.range numTiers

/-- One job that a tier has reported. -/
def processJob (m : TieringOffloadingManager P) (result : JobResult) :
    Raises (TieringOffloadingManager P) :=
  match m.transferJobs.get? result.jobId with
  | none => throw .assertionError
  | some job => do
    let primaryTier ←
      if job.isPromotion then m.primaryTier.completeStore c job.keys result.success
      else m.primaryTier.completeLoad c job.keys
    pure { m with primaryTier, transferJobs := m.transferJobs.erase result.jobId }

/-- `_maybe_process_finished_jobs`: the tiers are asked once in a step. -/
def maybeProcessFinishedJobs (finished : List JobResult) : Raises (TieringOffloadingManager P) :=
  if m.processedJobsThisStep then pure m
  else finished.foldlM (processJob c) { m with processedJobsThisStep := true }

def addJob (job : JobMetadata) : TieringOffloadingManager P :=
  { m with
    jobIdCounter := m.jobIdCounter + 1
    transferJobs := m.transferJobs.set m.jobIdCounter job }

/-- The promotions of one tier, one request's with more blocks. -/
def extendPending (tierPending : Dict RequestId PendingPromotion) (reqId : RequestId)
    (keys : List OffloadKey) (blockIds : List ℕ) : Dict RequestId PendingPromotion :=
  let entry := tierPending.getD reqId { reqId }
  tierPending.set reqId
    { entry with keys := entry.keys ++ keys, blockIds := entry.blockIds ++ blockIds }

/-- Whether there was room for the promotion comes with it. -/
def initiatePromotion (tier : ℕ) (key : OffloadKey) (reqId : RequestId) :
    Raises (Bool × TieringOffloadingManager P) := do
  let r ← m.primaryTier.prepareStore c [key]
  match r.1 with
  | none => pure (false, { m with primaryTier := r.2 })
  | some out =>
    let tierPending := m.pendingLoadSubmissions.getD tier .empty
    pure (true,
      { m with
        primaryTier := r.2
        pendingLoadSubmissions := m.pendingLoadSubmissions.set tier
          (extendPending tierPending reqId out.keysToStore out.storeSpec) })

/-- The tiers are asked in turn, up to the first that has the key. -/
def lookupTiers (answers : ℕ → Option Bool) (key : OffloadKey) (reqId : RequestId)
    (anyNone : Bool) : List ℕ → Raises (Option Bool × TieringOffloadingManager P)
  | [] => pure (if anyNone then none else some false, m)
  | tier :: tiers =>
    match answers tier with
    | some true => do
      let r ← m.initiatePromotion c tier key reqId
      pure (if r.1 then none else some false, r.2)
    | none => lookupTiers answers key reqId true tiers
    | some false => lookupTiers answers key reqId anyNone tiers

def lookup (finished : List JobResult) (answers : ℕ → Option Bool) (key : OffloadKey)
    (reqId : RequestId) : Raises (Option Bool × TieringOffloadingManager P) := do
  let m ← m.maybeProcessFinishedJobs c finished
  let r ← m.primaryTier.lookup c key
  let m := { m with primaryTier := r.2 }
  match r.1 with
  | some true => pure (some true, m)
  | none => pure (none, m)
  | some false => m.lookupTiers c answers key reqId false m.secondaryTiers

def submitPending (m : TieringOffloadingManager P) (entry : PendingPromotion) :
    TieringOffloadingManager P :=
  m.addJob
    { keys := entry.keys, blockIds := entry.blockIds, isPromotion := true, reqId := entry.reqId }

/-- `_flush_pending_promotions`: one job for each tier and request. -/
def flushPendingPromotions : TieringOffloadingManager P :=
  { (m.pendingLoadSubmissions.values.flatMap fun d => d.values).foldl submitPending m with
    pendingLoadSubmissions := .empty }

def prepareLoad (finished : List JobResult) (keys : List OffloadKey) :
    Raises (List ℕ × TieringOffloadingManager P) := do
  let m ← m.maybeProcessFinishedJobs c finished
  let r ← m.primaryTier.prepareLoad c keys
  pure (r.1, { m with primaryTier := r.2 })

def touch (keys : List OffloadKey) : TieringOffloadingManager P :=
  { m with primaryTier := m.primaryTier.touch c keys }

def completeLoad (keys : List OffloadKey) : Raises (TieringOffloadingManager P) := do
  let primaryTier ← m.primaryTier.completeLoad c keys
  pure { m with primaryTier }

/-- A job that copies primary blocks to one secondary tier. -/
def cascade (keys : List OffloadKey) (reqId : RequestId) (m : TieringOffloadingManager P)
    (_tier : ℕ) : Raises (TieringOffloadingManager P) := do
  let r ← m.primaryTier.prepareLoad c keys
  pure ({ m with primaryTier := r.2 }.addJob { keys, blockIds := r.1, isPromotion := false, reqId })

/-- The keys that the primary tier finds ready. -/
def readyKeys (r : List OffloadKey × CPUOffloadingManager P) (key : OffloadKey) :
    Raises (List OffloadKey × CPUOffloadingManager P) := do
  let a ← r.2.lookup c key
  pure (if a.1 = some true then r.1 ++ [key] else r.1, a.2)

/-- `_cascade_existing_blocks_to_request_level_tiers`. -/
def cascadeExisting (keys : List OffloadKey) (reqId : RequestId) (tiers : List ℕ) :
    Raises (TieringOffloadingManager P) := do
  let r ← keys.foldlM (readyKeys c) ([], m.primaryTier)
  let m := { m with primaryTier := r.2 }
  if r.1 = [] then pure m else tiers.foldlM (cascade c r.1 reqId) m

/-- The last part of `prepare_store`: tiers that want whole requests get what is there already. -/
def cascadeStored (keys : List OffloadKey) (reqId : RequestId) (keysToStore : List OffloadKey) :
    Raises (TieringOffloadingManager P) :=
  match m.requestLevelTiers.get? reqId with
  | none => pure m
  | some tiers =>
    let keysAlreadyInPrimary := keys.filter fun k => k ∉ keysToStore
    if keysAlreadyInPrimary = [] then pure m
    else m.cascadeExisting c keysAlreadyInPrimary reqId tiers

def prepareStore (finished : List JobResult) (keys : List OffloadKey) (reqId : RequestId) :
    Raises (Option CPUPrepareStoreOutput × TieringOffloadingManager P) := do
  let m ← m.maybeProcessFinishedJobs c finished
  let r ← m.primaryTier.prepareStore c keys
  let m := { m with primaryTier := r.2 }
  match r.1 with
  | none => pure (none, m)
  | some out => do
    let m ← m.cascadeStored c keys reqId out.keysToStore
    pure (some out, m)

def completeStore (keys : List OffloadKey) (reqId : RequestId) (success : Bool) :
    Raises (TieringOffloadingManager P) := do
  let primaryTier ← m.primaryTier.completeStore c keys success
  let m := { m with primaryTier }
  if success then m.secondaryTiers.foldlM (cascade c keys reqId) m else pure m

/-- `policies` are the answers of the tiers. -/
def onNewRequest (policies : ℕ → OffloadPolicy) (reqId : RequestId) :
    OffloadPolicy × TieringOffloadingManager P :=
  let wanting := m.secondaryTiers.filter fun t => policies t = .requestLevel
  let m := if wanting = [] then m else
    { m with
      requestLevelTiers := m.requestLevelTiers.set reqId
        (wanting.foldl (fun tiers t => if t ∈ tiers then tiers else tiers ++ [t])
          (m.requestLevelTiers.getD reqId [])) }
  (if m.requestLevelTiers.contains reqId then .requestLevel else .blockLevel, m)

def onRequestFinished (reqId : RequestId) : TieringOffloadingManager P :=
  { m with requestLevelTiers := m.requestLevelTiers.erase reqId }

def onScheduleEnd (finished : List JobResult) : Raises (TieringOffloadingManager P) := do
  let m ← m.maybeProcessFinishedJobs c finished
  pure { m with processedJobsThisStep := false }.flushPendingPromotions

/-- Inherited: nothing is done. -/
def resetCache : TieringOffloadingManager P := m

end TieringOffloadingManager

end Vllm
