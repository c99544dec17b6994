import Vllm.KvCache.SingleTypeManager
import Vllm.Sched.SchedRequest

/-! `offloading/scheduler.py`: the offloading connector and the tables of its transfer jobs. The
manager is a parameter, and the answer of the connector's own lookup is any answer. -/
namespace Vllm

/-- `make_offload_key`: the packed bytes as their two parts. -/
structure OffloadKey where
  blockHash : BlockHash
  groupIdx : ℕ
  deriving DecidableEq, Repr

abbrev JobId := ℕ

/-- No `slidingWindowSizeInBlocks` means full attention. -/
structure GroupOffloadConfig where
  groupIdx : ℕ
  gpuBlockSize : ℕ
  offloadedBlockSize : ℕ
  hashBlockSizeFactor : ℕ
  slidingWindowSizeInBlocks : Option ℕ
  alignmentBlockCount : Option ℕ := none

structure SchedulerOffloadConfig where
  kvGroupConfigs : List GroupOffloadConfig
  blockSizeFactor : ℕ
  numWorkers : ℕ
  offloadPromptOnly : Bool := false

inductive OffloadPolicy where
  | blockLevel | requestLevel
  deriving DecidableEq, Repr

/-- The failures of the connector: those of the job tables by the lookup or assertion that fails,
and all others. -/
inductive OffloadError where
  | unknownRequest | unknownJob | jobNotHeld | jobsPending | loadPending | pendingCount
  | other (e : PyError)
  deriving DecidableEq, Repr

/-- A failure that is none of the job tables. -/
def OffloadError.Other (e : OffloadError) : Prop := ∃ e', e = .other e'

abbrev Offloading (α : Type) := Except OffloadError α

namespace Offloading

def check (e : OffloadError) (p : Prop) [Decidable p] : Offloading Unit :=
  if p then pure () else throw e

/-- An assertion that is not about the job tables. -/
def require (p : Prop) [Decidable p] : Offloading Unit := check (.other .assertionError) p

def find {α : Type} (e : OffloadError) (x : Option α) : Offloading α :=
  match x with
  | none => throw e
  | some a => pure a

end Offloading

structure RequestGroupState where
  offloadKeys : List OffloadKey := []
  blockIds : List BlockId := []
  nextStoredBlockIdx : ℕ := 0
  numHitBlocks : ℕ := 0

structure RequestOffloadState where
  policy : OffloadPolicy
  groupStates : List RequestGroupState
  maxOffloadTokens : Option ℕ := none
  numLocallyComputedTokens : ℕ := 0
  transferJobs : List JobId := []

namespace SchedulerOffloadConfig

/-- The sliding window groups, larger windows first. -/
def slidingWindowGroups (config : SchedulerOffloadConfig) : List ℕ :=
  ((config.kvGroupConfigs.filter fun g => g.slidingWindowSizeInBlocks.isSome).insertionSort
    fun g g' => g'.slidingWindowSizeInBlocks.getD 0 ≤ g.slidingWindowSizeInBlocks.getD 0).map
      GroupOffloadConfig.groupIdx

end SchedulerOffloadConfig

/-- The keys that a request has got since the last call: one for every offloaded block. -/
def GroupOffloadConfig.newOffloadKeys (g : GroupOffloadConfig) (numKeys : ℕ)
    (blockHashes : List BlockHash) : List OffloadKey :=
  (List.range' numKeys (blockHashes.length / g.hashBlockSizeFactor - numKeys)).filterMap fun i =>
    blockHashes[g.hashBlockSizeFactor * i + g.hashBlockSizeFactor - 1]?.map fun blockHash =>
      ⟨blockHash, g.groupIdx⟩

namespace RequestOffloadState

/-- `__post_init__`: a cap that is not a non-negative number is ignored. -/
def init (config : SchedulerOffloadConfig) (policy : OffloadPolicy)
    (maxOffloadTokens : Option ℤ) : RequestOffloadState where
  policy
  groupStates := config.kvGroupConfigs.map fun _ => {}
  maxOffloadTokens := (maxOffloadTokens.filter fun raw => 0 ≤ raw).map Int.toNat

/-- A change of the group states, each beside its configuration. -/
def mapGroups (st : RequestOffloadState) (config : SchedulerOffloadConfig)
    (f : GroupOffloadConfig → RequestGroupState → RequestGroupState) : RequestOffloadState :=
  { st with groupStates := List.zipWith f config.kvGroupConfigs st.groupStates }

def updateOffloadKeys (st : RequestOffloadState) (config : SchedulerOffloadConfig)
    (blockHashes : List BlockHash) : RequestOffloadState :=
  st.mapGroups config fun g gs =>
    { gs with offloadKeys := gs.offloadKeys ++ g.newOffloadKeys gs.offloadKeys.length blockHashes }

def clearBlockIds (st : RequestOffloadState) : RequestOffloadState :=
  { st with groupStates := st.groupStates.map fun gs => { gs with blockIds := [] } }

def restartStores (st : RequestOffloadState) : RequestOffloadState :=
  { st with groupStates := st.groupStates.map fun gs => { gs with nextStoredBlockIdx := 0 } }

def updateBlockIdGroups (st : RequestOffloadState) (newBlockIdGroups : List (List BlockId)) :
    Offloading RequestOffloadState := do
  Offloading.require (newBlockIdGroups.length = st.groupStates.length)
  let extend (gs : RequestGroupState) (newBlocks : List BlockId) : RequestGroupState :=
    { gs with blockIds := gs.blockIds ++ newBlocks }
  pure { st with groupStates := List.zipWith extend st.groupStates newBlockIdGroups }

def advanceStoredIdx (st : RequestOffloadState) (config : SchedulerOffloadConfig)
    (numOffloadableTokens : ℕ) : RequestOffloadState :=
  st.mapGroups config fun g gs =>
    { gs with nextStoredBlockIdx := numOffloadableTokens / g.offloadedBlockSize }

def updateNumHitBlocks (st : RequestOffloadState) (config : SchedulerOffloadConfig)
    (numCachedTokens : ℕ) : RequestOffloadState :=
  st.mapGroups config fun g gs =>
    { gs with numHitBlocks := numCachedTokens / g.offloadedBlockSize }

/-- How many tokens of a request may be stored after a step: known tokens up to its cap, and only
those of the prompt if the configuration says so. -/
def numOffloadableTokens (st : RequestOffloadState) (config : SchedulerOffloadConfig)
    (request : Request) (numScheduledTokens : ℕ) : ℕ :=
  let n := min (request.numComputedTokens + numScheduledTokens) request.numTokens
  let n := match st.maxOffloadTokens with
    | none => n
    | some cap => min n cap
  if config.offloadPromptOnly then min n request.numPromptTokens else n

end RequestOffloadState

/-- The blocks of a transfer on the GPU, ordered by group. -/
structure GPULoadStoreSpec where
  blockIds : List BlockId
  groupSizes : List ℕ
  blockIndices : List ℕ
  deriving DecidableEq, Repr

structure TransferJob (Spec : Type) where
  reqId : RequestId
  transferSpec : Spec

/-- What the scheduler knows of a job: the workers still at work, its keys, and for a store the
blocks it copies. -/
structure TransferJobStatus where
  reqId : RequestId
  pendingCount : ℤ
  keys : List OffloadKey
  isStore : Bool
  nonSlidingWindowBlockIds : Option (List BlockId) := none
  slidingWindowBlockIds : Option (List BlockId) := none

/-- The jobs in flight, with the counter of job ids and the first id that no reset has made
stale. -/
structure TransferJobs where
  jobCounter : JobId := 0
  staleJobThreshold : JobId := 0
  jobs : Dict JobId TransferJobStatus := .empty

namespace TransferJobs

/-- `_generate_job_id`, with the entry of the new job. -/
def start (t : TransferJobs) (job : TransferJobStatus) : TransferJobs :=
  { t with
    jobCounter := t.jobCounter + 1
    jobs := t.jobs.set t.jobCounter job }

/-- After a reset all job ids so far are stale. -/
def reset (t : TransferJobs) : TransferJobs :=
  { t with
    staleJobThreshold := t.jobCounter
    jobs := .empty }

end TransferJobs

structure PrepareStoreOutput (S : Type) where
  keysToStore : List OffloadKey
  storeSpec : S

/-- The offloading manager with states `M` and transfer specs `S`. The answer of the connector's
`_lookup` stands here too: it reads the manager and the state of the request. -/
structure OffloadingManager (M S : Type) where
  lookup : M → SchedulerOffloadConfig → RequestOffloadState → Request → Option ℕ × M
  prepareLoad : M → List OffloadKey → RequestId → S × M
  touch : M → List OffloadKey → RequestId → M
  completeLoad : M → List OffloadKey → RequestId → M
  prepareStore : M → List OffloadKey → RequestId → Option (PrepareStoreOutput S) × M
  completeStore : M → List OffloadKey → RequestId → M
  onNewRequest : M → RequestId → OffloadPolicy × M
  onRequestFinished : M → RequestId → M
  onScheduleEnd : M → M
  resetCache : M → M

structure OffloadingConnectorScheduler (M S : Type) extends TransferJobs where
  config : SchedulerOffloadConfig
  manager : M
  reqStatus : Dict RequestId RequestOffloadState := .empty
  currentBatchLoadJobs : Dict JobId (TransferJob (S × GPULoadStoreSpec)) := .empty
  currentBatchJobsToFlush : List JobId := []
  currentBatchAllocatedBlockIds : List BlockId := []
  blocksBeingLoaded : Option (List OffloadKey) := none
  blockIdToPendingJobs : Dict BlockId (List JobId) := .empty

/-- What the connector reads of a scheduled request. -/
structure ReqData where
  reqId : RequestId
  newBlockIdGroups : Option (List (List BlockId))
  preempted : Bool := false

/-- What the connector reads of a scheduler output. -/
structure ScheduledBatch where
  reqData : List ReqData
  numScheduledTokens : Dict RequestId ℕ
  preemptedReqIds : List RequestId := []

structure OffloadingConnectorMetadata (S : Type) where
  loadJobs : Dict JobId (TransferJob (S × GPULoadStoreSpec))
  storeJobs : Dict JobId (TransferJob (GPULoadStoreSpec × S))
  jobsToFlush : List JobId

end Vllm
