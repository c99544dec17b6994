import Vllm.Offload.ConnectorState

/-! The entry points of `OffloadingConnectorScheduler`, in the order in which the scheduler calls
them for a request. `requests` gives the request objects, which the connector shares with the
scheduler. -/
namespace Vllm

namespace OffloadingConnectorScheduler
variable {M S : Type} (ops : OffloadingManager M S) (requests : RequestId → Request)
  (c : OffloadingConnectorScheduler M S)

def setStatus (reqId : RequestId) (st : RequestOffloadState) : OffloadingConnectorScheduler M S :=
  { c with reqStatus := c.reqStatus.set reqId st }

/-- `_touch`: the keys of full attention, and of a sliding window those from its first block on
that can still serve a hit. -/
def touchKeys (manager : M) (config : SchedulerOffloadConfig) (st : RequestOffloadState)
    (reqId : RequestId) : M :=
  (config.kvGroupConfigs.zip st.groupStates).foldl (fun manager (g, gs) =>
    match g.slidingWindowSizeInBlocks with
    | none => ops.touch manager gs.offloadKeys reqId
    | some size => ops.touch manager (gs.offloadKeys.drop (gs.numHitBlocks - size)) reqId) manager

def onNewRequest (reqId : RequestId) (maxOffloadTokens : Option ℤ) :
    OffloadingConnectorScheduler M S :=
  let (policy, manager) := ops.onNewRequest c.manager reqId
  { c.setStatus reqId (.init c.config policy maxOffloadTokens) with manager }

/-- The tokens to load beyond those computed, or none to be asked again; a load is asynchronous. -/
def getNumNewMatchedTokens (reqId : RequestId) (numComputedTokens : ℕ) :
    Offloading ((Option ℕ × Bool) × OffloadingConnectorScheduler M S) := do
  let request := requests reqId
  let st ← Offloading.find .unknownRequest (c.reqStatus.get? reqId)
  let st := { st.clearBlockIds.updateOffloadKeys c.config request.blockHashes with
    numLocallyComputedTokens := numComputedTokens }
  let (numHitTokens, manager) := if request.skipReadingPrefixCache then (some 0, c.manager)
    else ops.lookup c.manager c.config st request
  let st := st.updateNumHitBlocks c.config (numComputedTokens + numHitTokens.getD 0)
  let manager := touchKeys ops manager c.config st reqId
  pure ((numHitTokens, numHitTokens.getD 0 ≠ 0), { c.setStatus reqId st with manager })

/-- What a load copies in one group. -/
structure GroupLoad where
  keys : List OffloadKey
  dstBlockIds : List BlockId
  groupSize : ℕ
  blockIndex : ℕ
  groupState : RequestGroupState

/-- The blocks of a group behind those that are computed: the first block without a hash that is
no placeholder, and all after it. -/
def groupLoad (pool : BlockPool) (config : SchedulerOffloadConfig) (st : RequestOffloadState)
    (numCachedTokens : ℕ) (g : GroupOffloadConfig) (gs : RequestGroupState)
    (groupBlocks : List BlockId) : Offloading GroupLoad := do
  let numGpuBlocks := cdiv numCachedTokens g.gpuBlockSize
  Offloading.require (numGpuBlocks ≤ groupBlocks.length)
  let numLocal := (groupBlocks.take numGpuBlocks).findIdx fun block =>
    block ≠ pool.nullBlock ∧ pool.blockHash block = none
  Offloading.require (st.numLocallyComputedTokens ≤ numLocal * g.gpuBlockSize)
  let numPending := numGpuBlocks - numLocal
  Offloading.require (∀ size ∈ g.slidingWindowSizeInBlocks,
    numPending ≤ size * config.blockSizeFactor)
  let numBlocks := cdiv numCachedTokens g.offloadedBlockSize
  Offloading.require (numBlocks ≤ gs.offloadKeys.length)
  pure {
    keys := if numPending = 0 then []
      else slice gs.offloadKeys (numLocal / config.blockSizeFactor) numBlocks
    dstBlockIds := slice groupBlocks numLocal numGpuBlocks
    groupSize := numPending
    blockIndex := numLocal
    groupState := if st.policy = .blockLevel then { gs with nextStoredBlockIdx := numBlocks }
      else gs }

def updateStateAfterAlloc (pool : BlockPool) (reqId : RequestId) (blocks : List (List BlockId))
    (numExternalTokens : ℕ) : Offloading (OffloadingConnectorScheduler M S) :=
  if numExternalTokens = 0 then pure c
  else do
    let st ← Offloading.find .unknownRequest (c.reqStatus.get? reqId)
    let numCachedTokens := st.numLocallyComputedTokens + numExternalTokens
    let groups ← ((c.config.kvGroupConfigs.zip st.groupStates).zip blocks).mapM
      fun ((g, gs), groupBlocks) =>
        groupLoad pool c.config st numCachedTokens g gs groupBlocks
    let keysToLoad := groups.flatMap GroupLoad.keys
    let (srcSpec, manager) := ops.prepareLoad c.manager keysToLoad reqId
    let dstSpec : GPULoadStoreSpec := {
      blockIds := groups.flatMap GroupLoad.dstBlockIds
      groupSizes := groups.map GroupLoad.groupSize
      blockIndices := groups.map GroupLoad.blockIndex }
    let loadJobId := c.jobCounter
    Offloading.check .jobsPending (st.transferJobs = [])
    let st := { st with
      groupStates := groups.map GroupLoad.groupState ++ st.groupStates.drop groups.length
      transferJobs := [loadJobId] }
    pure { c.setStatus reqId st with
      manager
      currentBatchAllocatedBlockIds := c.currentBatchAllocatedBlockIds ++
        blocks.flatten.filter (· ≠ 0)
      currentBatchLoadJobs := c.currentBatchLoadJobs.set loadJobId ⟨reqId, srcSpec, dstSpec⟩
      toTransferJobs := c.start {
        reqId
        pendingCount := c.config.numWorkers
        keys := keysToLoad
        isStore := false }
      blocksBeingLoaded := c.blocksBeingLoaded.map (· ++ keysToLoad) }

/-- The scheduled requests get new keys and blocks. Beside the connector: how many blocks a
request had before in each sliding window group. -/
def updateReqState (d : ReqData)
    (s : OffloadingConnectorScheduler M S × Dict RequestId (List ℕ)) :
    Offloading (OffloadingConnectorScheduler M S × Dict RequestId (List ℕ)) := do
  let (c, newBlockIdsEnd) := s
  let st ← Offloading.find .unknownRequest (c.reqStatus.get? d.reqId)
  let st := st.updateOffloadKeys c.config (requests d.reqId).blockHashes
  let st := if d.preempted then st.clearBlockIds else st
  match d.newBlockIdGroups with
  | none => pure (c.setStatus d.reqId st, newBlockIdsEnd)
  | some [] => pure (c.setStatus d.reqId st, newBlockIdsEnd)
  | some newBlockIdGroups => do
    let ends := c.config.slidingWindowGroups.map fun i =>
      (st.groupStates[i]?.map fun gs => gs.blockIds.length).getD 0
    let st ← st.updateBlockIdGroups newBlockIdGroups
    pure ({ c.setStatus d.reqId st with
      currentBatchAllocatedBlockIds := c.currentBatchAllocatedBlockIds ++
        newBlockIdGroups.flatten.filter (· ≠ 0) }, newBlockIdsEnd.set d.reqId ends)

/-- Entries that have been allocated again in this step are zeroed. -/
def zeroStale (allocated : List BlockId) (start stop : ℕ) (blockIds : List BlockId) :
    List BlockId :=
  blockIds.mapIdx fun j block => if start ≤ j ∧ j < stop ∧ block ∈ allocated then 0 else block

/-- The sliding window groups of a request, from the next block to store on and up to the blocks
of this step. -/
def zeroStaleGroups (config : SchedulerOffloadConfig) (allocated : List BlockId)
    (ends : Option (List ℕ)) (st : RequestOffloadState) : RequestOffloadState :=
  let zeroGroup (i : ℕ) (gs : RequestGroupState) : RequestGroupState :=
    if i ∈ config.slidingWindowGroups then
      let start := gs.nextStoredBlockIdx * config.blockSizeFactor
      let stop := match ends with
        | none => gs.blockIds.length
        | some ends => ends.getD (config.slidingWindowGroups.idxOf i) 0
      { gs with blockIds := zeroStale allocated start stop gs.blockIds }
    else gs
  { st with groupStates := st.groupStates.mapIdx zeroGroup }

/-- `_update_req_states`. -/
def updateReqStates (batch : ScheduledBatch) : Offloading (OffloadingConnectorScheduler M S) := do
  let (c, newBlockIdsEnd) ← batch.reqData.foldlM (fun s d => updateReqState requests d s)
    (c, Dict.empty)
  let reqStatus := c.reqStatus.mapValues fun reqId st =>
    zeroStaleGroups c.config c.currentBatchAllocatedBlockIds (newBlockIdsEnd.get? reqId) st
  pure { c with reqStatus }

/-- The keys of a group that a step makes storable. The last block of each offloaded block tells
whether it can be stored; blocks before the tail of an alignment segment are left out. -/
def newGroupKeys (config : SchedulerOffloadConfig) (numOffloadableTokens : ℕ)
    (g : GroupOffloadConfig) (gs : RequestGroupState) : Offloading (List OffloadKey) :=
  let numBlocks := numOffloadableTokens / g.offloadedBlockSize
  let startBlockIdx := gs.nextStoredBlockIdx
  if numBlocks ≤ startBlockIdx then pure []
  else do
    let offloadKeys := slice gs.offloadKeys startBlockIdx numBlocks
    let offloadBlockIds := (List.range' startBlockIdx (numBlocks - startBlockIdx)).filterMap
      fun i => gs.blockIds[i * config.blockSizeFactor + config.blockSizeFactor - 1]?
    Offloading.require (offloadKeys.length = offloadBlockIds.length)
    pure (((offloadKeys.zip offloadBlockIds).zipIdx startBlockIdx).filterMap
      fun ((offloadKey, block), i) =>
        let unreachable := g.alignmentBlockCount.any fun count =>
          i % count < count - g.slidingWindowSizeInBlocks.getD 0
        if block = 0 ∨ unreachable then none else some offloadKey)

/-- The GPU blocks of a group that a store copies, with their indices. -/
def storedBlocks (config : SchedulerOffloadConfig) (numOffloadableTokens : ℕ)
    (keysToStore : List OffloadKey) (g : GroupOffloadConfig) (gs : RequestGroupState) :
    Offloading (List (ℕ × BlockId)) := do
  let numBlocks := numOffloadableTokens / g.offloadedBlockSize
  let startBlockIdx := gs.nextStoredBlockIdx
  let stored := ((slice gs.offloadKeys startBlockIdx numBlocks).zipIdx startBlockIdx).filter
    fun (offloadKey, _) => offloadKey ∈ keysToStore
  let blocks ← (stored.flatMap fun (_, i) =>
    List.range' (i * config.blockSizeFactor) config.blockSizeFactor).mapM fun j => do
      let block ← Offloading.find (.other .indexError) gs.blockIds[j]?
      pure (j, block)
  pure (blocks.filter fun (_, block) => block ≠ 0)

/-- The assertion before a store and for preempted requests: no job of the request is a load. -/
def requireStores (st : RequestOffloadState) : Offloading Unit :=
  match st.transferJobs with
  | [] => pure ()
  | jobId :: _ => do
    let job ← Offloading.find .unknownJob (c.jobs.get? jobId)
    Offloading.check .loadPending (job.isStore = true)

/-- `setdefault(block, set()).add(job_id)` for each of the blocks. -/
def addPendingJob (jobId : JobId) (blockIds : List BlockId)
    (pending : Dict BlockId (List JobId)) : Dict BlockId (List JobId) :=
  blockIds.foldl (fun pending block =>
    pending.set block ((pending.getD block []).insert jobId)) pending

/-- One request in `_build_store_jobs`. -/
def buildStoreJob (reqId : RequestId) (numScheduledTokens : ℕ) :
    Offloading (Option (JobId × TransferJob (GPULoadStoreSpec × S)) ×
      OffloadingConnectorScheduler M S) :=
  match c.reqStatus.get? reqId with
  | none => pure (none, c)
  | some st => do
    let n := st.numOffloadableTokens c.config (requests reqId) numScheduledTokens
    let groups := c.config.kvGroupConfigs.zip st.groupStates
    let newOffloadKeys ← groups.mapM fun (g, gs) => newGroupKeys c.config n g gs
    if newOffloadKeys.flatten = [] then
      pure (none, c.setStatus reqId (st.advanceStoredIdx c.config n))
    else
      let (storeOutput, manager) := ops.prepareStore c.manager newOffloadKeys.flatten reqId
      let c := { c with manager }
      match storeOutput with
      | none => pure (none, c)
      | some storeOutput =>
        if storeOutput.keysToStore = [] then
          pure (none, c.setStatus reqId (st.advanceStoredIdx c.config n))
        else do
          let manager := touchKeys ops c.manager c.config st reqId
          let blocks ← groups.mapM fun (g, gs) =>
            storedBlocks c.config n storeOutput.keysToStore g gs
          let srcSpec : GPULoadStoreSpec := {
            blockIds := (blocks.flatten).map Prod.snd
            groupSizes := blocks.map List.length
            blockIndices := blocks.map fun group => (group.head?.map Prod.fst).getD 0 }
          let windowed := (c.config.kvGroupConfigs.zip blocks).filter fun (g, _) =>
            g.slidingWindowSizeInBlocks.isSome
          let others := (c.config.kvGroupConfigs.zip blocks).filter fun (g, _) =>
            g.slidingWindowSizeInBlocks.isNone
          let slidingWindowBlockIds := windowed.flatMap fun (_, group) => group.map Prod.snd
          let jobId := c.jobCounter
          c.requireStores st
          let st := { st.advanceStoredIdx c.config n with
            transferJobs := st.transferJobs.insert jobId }
          pure (some (jobId, ⟨reqId, srcSpec, storeOutput.storeSpec⟩), { c.setStatus reqId st with
            manager
            blockIdToPendingJobs :=
              addPendingJob jobId slidingWindowBlockIds c.blockIdToPendingJobs
            toTransferJobs := c.start {
              reqId
              pendingCount := c.config.numWorkers
              keys := storeOutput.keysToStore
              isStore := true
              nonSlidingWindowBlockIds := some (others.flatMap fun (_, group) =>
                group.map Prod.snd)
              slidingWindowBlockIds := if slidingWindowBlockIds = [] then none
                else some slidingWindowBlockIds } })

/-- `_build_store_jobs`. -/
def buildStoreJobs (batch : ScheduledBatch) :
    Offloading (Dict JobId (TransferJob (GPULoadStoreSpec × S)) ×
      OffloadingConnectorScheduler M S) :=
  batch.numScheduledTokens.entries.foldlM (fun (storeJobs, c) (reqId, numScheduledTokens) => do
    let (job, c) ← buildStoreJob ops requests c reqId numScheduledTokens
    match job with
    | none => pure (storeJobs, c)
    | some (jobId, job) => pure (storeJobs.set jobId job, c)) (Dict.empty, c)

/-- The jobs of preempted requests, which are stores. -/
def preemptedJobs (preemptedReqIds : List RequestId) : Offloading (List JobId) := do
  let jobs ← preemptedReqIds.mapM fun reqId =>
    match c.reqStatus.get? reqId with
    | none => pure []
    | some st => do
      c.requireStores st
      pure st.transferJobs
  pure jobs.flatten

/-- The jobs that wait for a block which has been allocated again. -/
def reallocatedJobs : List JobId :=
  c.currentBatchAllocatedBlockIds.flatMap fun block => c.blockIdToPendingJobs.getD block []

def buildConnectorMeta (batch : ScheduledBatch) :
    Offloading (OffloadingConnectorMetadata S × OffloadingConnectorScheduler M S) := do
  let c ← updateReqStates requests c batch
  let c := { c with manager := ops.onScheduleEnd c.manager }
  let preempted ← c.preemptedJobs batch.preemptedReqIds
  let allFinished := c.reqStatus.isEmpty = false ∧
    ∀ reqId ∈ c.reqStatus.keys, (requests reqId).status.isFinished = true
  let jobsToFlush := c.currentBatchJobsToFlush ∪ preempted ∪ c.reallocatedJobs ∪
    if allFinished then c.jobs.keys else []
  let loadJobs := c.currentBatchLoadJobs
  let (storeJobs, c) ← buildStoreJobs ops requests c batch
  pure ({ loadJobs, storeJobs, jobsToFlush }, { c with
    currentBatchLoadJobs := .empty
    currentBatchJobsToFlush := []
    currentBatchAllocatedBlockIds := [] })

/-- `_remove_pending_job`. -/
def removePendingJob (jobId : JobId) (blockIds : List BlockId)
    (pending : Dict BlockId (List JobId)) : Offloading (Dict BlockId (List JobId)) :=
  blockIds.foldlM (fun pending block => do
    let jobs ← Offloading.find (.other .keyError) (pending.get? block)
    Offloading.check (.other .keyError) (jobId ∈ jobs)
    let jobs := jobs.erase jobId
    pure (if jobs = [] then pending.erase block else pending.set block jobs)) pending

/-- The entries of a job in the table of its blocks; those of a store outside sliding windows are
made when its request finishes. -/
def pendingAfter (jobId : JobId) (job : TransferJobStatus) :
    Offloading (Dict BlockId (List JobId)) :=
  if c.blockIdToPendingJobs.isEmpty then pure c.blockIdToPendingJobs
  else do
    let pending ← removePendingJob jobId (job.slidingWindowBlockIds.getD [])
      c.blockIdToPendingJobs
    if (requests job.reqId).status.isFinished then
      removePendingJob jobId (job.nonSlidingWindowBlockIds.getD []) pending
    else pure pending

/-- One entry of `completed_jobs` in `update_connector_output`. -/
def completeJob (jobId : JobId) (count : ℕ) : Offloading (OffloadingConnectorScheduler M S) := do
  Offloading.check .pendingCount (0 < count)
  if jobId < c.staleJobThreshold then pure c
  else do
    let job ← Offloading.find .unknownJob (c.jobs.get? jobId)
    let job := { job with pendingCount := job.pendingCount - count }
    let c := { c with jobs := c.jobs.set jobId job }
    if job.pendingCount > 0 then pure c
    else do
      Offloading.check .pendingCount (job.pendingCount = 0)
      let st ← Offloading.find .unknownRequest (c.reqStatus.get? job.reqId)
      let c := if job.isStore
        then { c with manager := ops.completeStore c.manager job.keys job.reqId }
        else { c with
          manager := ops.completeLoad c.manager job.keys job.reqId
          blocksBeingLoaded := c.blocksBeingLoaded.map fun keys =>
            keys.filter fun key => key ∉ job.keys }
      let blockIdToPendingJobs ← c.pendingAfter requests jobId job
      let c := { c with
        blockIdToPendingJobs
        jobs := c.jobs.erase jobId }
      Offloading.check .jobNotHeld (jobId ∈ st.transferJobs)
      let st := { st with transferJobs := st.transferJobs.erase jobId }
      if st.transferJobs = [] ∧ (requests job.reqId).status.isFinished then
        pure { c with reqStatus := c.reqStatus.erase job.reqId }
      else pure (c.setStatus job.reqId st)

def updateConnectorOutput (completedJobs : Dict JobId ℕ) :
    Offloading (OffloadingConnectorScheduler M S) :=
  completedJobs.entries.foldlM (fun c (jobId, count) => completeJob ops requests c jobId count) c

/-- The stores of a finished request outlive its blocks. -/
def requestFinished (reqId : RequestId) : Offloading (OffloadingConnectorScheduler M S) :=
  let c := { c with manager := ops.onRequestFinished c.manager reqId }
  match c.reqStatus.get? reqId with
  | none => pure c
  | some st =>
    if st.transferJobs = [] then pure { c with reqStatus := c.reqStatus.erase reqId }
    else do
      let blockIdToPendingJobs ← st.transferJobs.foldlM (fun pending jobId => do
        let job ← Offloading.find .unknownJob (c.jobs.get? jobId)
        pure (addPendingJob jobId (job.nonSlidingWindowBlockIds.getD []) pending))
        c.blockIdToPendingJobs
      pure { c with blockIdToPendingJobs }

/-- It starts storing from the first block on again, and later reports of known jobs are stale. -/
def resetCache : Offloading (OffloadingConnectorScheduler M S) := do
  Offloading.require (c.currentBatchLoadJobs.isEmpty = true)
  Offloading.require (c.currentBatchJobsToFlush = [])
  Offloading.require (c.currentBatchAllocatedBlockIds = [])
  pure { c with
    currentBatchJobsToFlush := c.jobs.keys
    manager := ops.resetCache c.manager
    reqStatus := c.reqStatus.mapValues fun _ st => st.restartStores
    toTransferJobs := c.reset
    blockIdToPendingJobs := .empty
    blocksBeingLoaded := c.blocksBeingLoaded.map fun _ => [] }

end OffloadingConnectorScheduler

end Vllm
