import Mathlib.Algebra.BigOperators.Group.Finset.Basic
import Vllm.Lib.GridLoop
import Vllm.Lib.Tickets

/-! `moe_align_block_size`: the wrapper and its kernels. What every buffer holds before the launch
and every order of the threads' writes and atomic increments is a part of the run. -/
namespace Vllm.Moe
open GridLoop

/-- A map from expert ids, which are 32-bit integers, to local expert ids on the device.
`read` is the memory around its pointer: the tensor has the cells below `size`, and the
others belong to others. -/
structure ExpertMap where
  size : ℕ
  read : ℤ → ℤ
  size_lt : size < 2 ^ 31

/-- Entries are -1 or an expert, and there is one for each of the experts. -/
structure ExpertMap.WellFormed (m : ExpertMap) (numExperts : ℕ) : Prop where
  covers : numExperts ≤ m.size
  entries : ∀ i : ℕ, i < m.size → m.read i = -1 ∨ 0 ≤ m.read i ∧ m.read i < numExperts

def paddedNumExperts (numExperts warpSize : ℕ) : ℕ := ceilDiv numExperts warpSize * warpSize

/-- Arguments that the host function accepts. -/
structure AlignConfig where
  numExperts : ℕ
  blockSize : ℕ
  warpSize : ℕ
  blockSize_pos : 0 < blockSize
  warpSize_pos : 0 < warpSize
  admitted : paddedNumExperts numExperts warpSize < 1024

structure AlignOutput where
  sortedTokenIds : ℕ → ℤ
  expertIds : ℕ → ℤ
  numTokensPostPad : ℕ

/-- The expert that the kernels count a route under. The id is read as a 32-bit integer
and compared as an unsigned one, so a negative id is out of range. -/
def kernelExpert (numExperts : ℕ) (expertMap : Option ExpertMap) (id : ℤ) : Option ℕ :=
  let expertId := Int.bmod id (2 ^ 32)
  if (numExperts : ℤ) ≤ expertId % 2 ^ 32 then none
  else
    match expertMap with
    | none => some expertId.toNat
    | some m => if m.read expertId = -1 then none else some (m.read expertId).toNat

/-- The expert of the route at a position of the flattened ids. -/
def kernelRoute (numExperts : ℕ) (expertMap : Option ExpertMap) (ids : List ℤ) (i : ℕ) :
    Option ℕ :=
  ids[i]?.bind (kernelExpert numExperts expertMap)

/-- A count of a route under its cell; a skipped route has none. -/
def increment (counts : ℕ → ℕ) : Option ℕ → ℕ → ℕ
  | none => counts
  | some cell => Function.update counts cell (counts cell + 1)

section Kernel
variable (cfg : AlignConfig) (expertMap : Option ExpertMap) (ids : List ℤ)

def AlignConfig.threads : ℕ := ceilDiv 1024 cfg.warpSize * cfg.warpSize

def AlignConfig.expertsPerWarp : ℕ := cfg.warpSize

/-- The cell of an expert in `shared_counts`. -/
def AlignConfig.sharedCell (expertId : ℕ) : ℕ :=
  expertId / cfg.expertsPerWarp * cfg.expertsPerWarp + expertId % cfg.expertsPerWarp

/-- The cells that the threads set to zero before counting. -/
def AlignConfig.zeroCells : List ℕ :=
  (List.range cfg.threads).flatMap fun tid =>
    ((List.range cfg.expertsPerWarp).map (tid / cfg.warpSize * cfg.expertsPerWarp + ·)).filter
      (· < paddedNumExperts cfg.numExperts cfg.warpSize)

/-- The atomic increment of one index of the counting loop. -/
def countStep (counts : ℕ → ℕ) (i : ℕ) : ℕ → ℕ :=
  increment counts ((kernelRoute cfg.numExperts expertMap ids i).map cfg.sharedCell)

/-- The padded count that a thread adds to the prefix sum. -/
def AlignConfig.expertCount (counts : ℕ → ℕ) (expertId : ℕ) : ℕ :=
  if expertId < cfg.numExperts then
    ceilDiv (counts (cfg.sharedCell expertId)) cfg.blockSize * cfg.blockSize
  else 0

/-- `BlockScan::ExclusiveSum`. -/
def exclusiveSum (values : ℕ → ℕ) (tid : ℕ) : ℕ := ∑ i ∈ Finset.range tid, values i

/-- The writes of the threads that own an entry of `cumsum`. -/
def AlignConfig.cumsumWrites (counts : ℕ → ℕ) : List (ℕ × ℕ) :=
  ((List.range cfg.threads).filter (· ≤ cfg.numExperts)).map fun tid =>
    (tid, exclusiveSum (cfg.expertCount counts) tid)

/-- The blocks that the thread of an expert writes its id to. -/
def AlignConfig.expertIdWrites (cumsum : ℕ → ℕ) (tid : ℕ) : List (ℕ × ℤ) :=
  (stridedLoop (cumsum tid) cfg.blockSize (cumsum (tid + 1))).map fun i =>
    (i / cfg.blockSize, (tid : ℤ))

/-- The blocks behind the last one that a thread fills with the inactive id. -/
def AlignConfig.inactiveWrites (threads : ℕ) (cumsum : ℕ → ℕ) (maxNumMBlocks tid : ℕ) :
    List (ℕ × ℤ) :=
  (stridedLoop (cumsum cfg.numExperts / cfg.blockSize + tid) threads maxNumMBlocks).map (·, -1)

/-- All the writes to `expert_ids` by a block of threads. -/
def AlignConfig.idWrites (threads : ℕ) (cumsum : ℕ → ℕ) (maxNumMBlocks : ℕ) : List (ℕ × ℤ) :=
  (List.range threads).flatMap fun tid =>
    (if tid < cfg.numExperts then cfg.expertIdWrites cumsum tid else []) ++
      cfg.inactiveWrites threads cumsum maxNumMBlocks tid

/-- The grid of `count_and_sort_expert_tokens_kernel`. -/
def AlignConfig.sortThreads (numel : ℕ) : ℕ :=
  min 256 cfg.threads * min (ceilDiv numel (min 256 cfg.threads)) 65535

/-- The expert of an index that a thread of the sorting grid visits. -/
def sortKey (i : ℕ) : Option ℕ :=
  if i ∈ gridLoop (cfg.sortThreads ids.length) ids.length then
    kernelRoute cfg.numExperts expertMap ids i
  else none

/-- One execution of `moe_align_block_size_kernel` and `count_and_sort_expert_tokens_kernel`:
the contents of the uninitialised buffers and the orders in which the threads get through. -/
structure LargeBatchRun (maxNumTokensPadded : ℕ) where
  shared : ℕ → ℕ
  cumsumBuffer : ℕ → ℕ
  sortedMemory : ℕ → ℤ
  expertIdsMemory : ℕ → ℤ
  zeroOrder : List ℕ
  zeroOrder_perm : zeroOrder.Perm cfg.zeroCells
  countOrder : List ℕ
  countOrder_perm : countOrder.Perm (gridLoop cfg.threads ids.length)
  cumsumOrder : List (ℕ × ℕ)
  cumsumOrder_perm : cumsumOrder.Perm (cfg.cumsumWrites
    (countOrder.foldl (countStep cfg expertMap ids) (writeAll shared (zeroOrder.map (·, 0)))))
  idOrder : List (ℕ × ℤ)
  idOrder_perm : idOrder.Perm (cfg.idWrites cfg.threads
    (writeAll cumsumBuffer cumsumOrder) (ceilDiv maxNumTokensPadded cfg.blockSize))
  fillOrder : List ℕ
  fillOrder_perm : fillOrder.Perm (gridLoop cfg.threads maxNumTokensPadded)
  events : List (Tickets.Event ℕ)
  final : Tickets.State ℕ ℕ ℤ
  ran : Tickets.run (sortKey cfg expertMap ids) (fun i => (i : ℤ))
    (.init (writeAll cumsumBuffer cumsumOrder)
      (writeAll sortedMemory (fillOrder.map (·, (ids.length : ℤ))))) events = some final
  complete : Tickets.Complete (sortKey cfg expertMap ids) final

namespace LargeBatchRun
variable {cfg expertMap ids} {maxNumTokensPadded : ℕ}
  (run : LargeBatchRun cfg expertMap ids maxNumTokensPadded)

/-- `shared_counts` after the counting loop. -/
def counts : ℕ → ℕ :=
  run.countOrder.foldl (countStep cfg expertMap ids)
    (writeAll run.shared (run.zeroOrder.map (·, 0)))

def cumsum : ℕ → ℕ := writeAll run.cumsumBuffer run.cumsumOrder

def output : AlignOutput where
  sortedTokenIds := run.final.mem
  expertIds := writeAll run.expertIdsMemory run.idOrder
  numTokensPostPad := exclusiveSum (cfg.expertCount run.counts) cfg.numExperts

end LargeBatchRun

/-- The counting threads of the small-batch kernel. -/
def AlignConfig.smallThreads : ℕ := max cfg.numExperts cfg.warpSize

/-- The row of `tokens_cnts` that a thread counts in, after its loop. -/
def threadCounts (tid : ℕ) : ℕ → ℕ :=
  (stridedLoop tid cfg.smallThreads ids.length).foldl
    (fun row i => increment row (kernelRoute cfg.numExperts expertMap ids i)) fun _ => 0

/-- `tokens_cnts` after the rows have been added up: row `i` has the routes of the threads
before `i`. -/
def tokensCnts : ℕ → ℕ → ℕ
  | 0, _ => 0
  | i + 1, expertId => threadCounts cfg expertMap ids i expertId + tokensCnts i expertId

/-- The prefix sum that thread 0 computes. -/
def smallCumsum : ℕ → ℕ
  | 0 => 0
  | i + 1 => smallCumsum i +
      ceilDiv (tokensCnts cfg expertMap ids cfg.smallThreads i) cfg.blockSize * cfg.blockSize

/-- The thread that visits an index, and the expert of its route. -/
def smallSortKey (i : ℕ) : Option (ℕ × ℕ) :=
  if i ∈ gridLoop cfg.smallThreads ids.length then
    (kernelRoute cfg.numExperts expertMap ids i).map fun expertId =>
      (i % cfg.smallThreads, expertId)
  else none

/-- One execution of `moe_align_block_size_small_batch_expert_kernel`. A thread takes the
ranks of an expert from its own row of `tokens_cnts`. -/
structure SmallBatchRun (maxNumTokensPadded : ℕ) where
  sortedMemory : ℕ → ℤ
  expertIdsMemory : ℕ → ℤ
  idOrder : List (ℕ × ℤ)
  idOrder_perm : idOrder.Perm (cfg.idWrites cfg.smallThreads (smallCumsum cfg expertMap ids)
    (ceilDiv maxNumTokensPadded cfg.blockSize))
  fillOrder : List ℕ
  fillOrder_perm : fillOrder.Perm (gridLoop 256 maxNumTokensPadded)
  events : List (Tickets.Event ℕ)
  final : Tickets.State ℕ (ℕ × ℕ) ℤ
  ran : Tickets.run (smallSortKey cfg expertMap ids) (fun i => (i : ℤ))
    (.init (fun k => tokensCnts cfg expertMap ids k.1 k.2 + smallCumsum cfg expertMap ids k.2)
      (writeAll sortedMemory (fillOrder.map (·, (ids.length : ℤ))))) events = some final
  complete : Tickets.Complete (smallSortKey cfg expertMap ids) final

def SmallBatchRun.output {cfg : AlignConfig} {expertMap : Option ExpertMap} {ids : List ℤ}
    {maxNumTokensPadded : ℕ} (run : SmallBatchRun cfg expertMap ids maxNumTokensPadded) :
    AlignOutput where
  sortedTokenIds := run.final.mem
  expertIds := writeAll run.expertIdsMemory run.idOrder
  numTokensPostPad := smallCumsum cfg expertMap ids cfg.numExperts

/-- The kernels that the host function launches. -/
inductive KernelRun (maxNumTokensPadded : ℕ) where
  | small (h : ids.length < 1024 ∧ cfg.numExperts ≤ 64)
      (run : SmallBatchRun cfg expertMap ids maxNumTokensPadded)
  | large (h : ¬(ids.length < 1024 ∧ cfg.numExperts ≤ 64))
      (run : LargeBatchRun cfg expertMap ids maxNumTokensPadded)

def KernelRun.output {cfg : AlignConfig} {expertMap : Option ExpertMap} {ids : List ℤ}
    {maxNumTokensPadded : ℕ} : KernelRun cfg expertMap ids maxNumTokensPadded → AlignOutput
  | .small _ run => run.output
  | .large _ run => run.output

end Kernel

def roundUp (x y : ℕ) : ℕ := ceilDiv x y * y

/-- The length of `sorted_ids` that the wrapper allocates. -/
def maxNumTokensPadded (numel blockSize numExperts : ℕ) (padSortedIds : Bool) : ℕ :=
  let bound := numel + numExperts * (blockSize - 1)
  let bound := if padSortedIds then roundUp bound blockSize else bound
  if numel < numExperts then min (numel * blockSize) bound else bound

/-- The map that the wrapper hands to the kernels. -/
def kernelMap (expertMap : Option ExpertMap) (ignoreInvalidExperts : Bool) : Option ExpertMap :=
  if ignoreInvalidExperts then expertMap else none

/-- `expert_map[expert_ids]`, where a negative index counts from the end. -/
def ExpertMap.index (m : ExpertMap) (i : ℤ) : ℤ :=
  m.read (if i < 0 then i + m.size else i)

/-- What the wrapper returns for the outputs of the kernels. -/
def moeAlignBlockSize (expertMap : Option ExpertMap) (ignoreInvalidExperts : Bool)
    (out : AlignOutput) : AlignOutput :=
  match expertMap with
  | some m =>
    if ignoreInvalidExperts then out else
    { out with expertIds := fun b => m.index (out.expertIds b) }
  | none => out

/-- The expert id that a block of the kernels' expert carries in the end. -/
def finalExpert (expertMap : Option ExpertMap) (ignoreInvalidExperts : Bool) (e : ℕ) : ℤ :=
  match expertMap with
  | some m => if ignoreInvalidExperts then (e : ℤ) else m.read e
  | none => e

end Vllm.Moe
