import Vllm.Moe.Align

/-! `batched_moe_align_block_size`: one thread for each batch finds the start of its blocks by a
prefix sum and writes its tokens there, over the sentinels that all threads have written before. -/
namespace Vllm.Moe
open GridLoop List Nat

/-- Arguments that the host function accepts, with counts that the batches have room for. -/
structure BatchedConfig where
  maxTokensPerBatch : ℕ
  blockSize : ℕ
  batchNumTokens : List ℕ
  blockSize_pos : 0 < blockSize
  admitted : batchNumTokens.length ≤ 1024
  counts_le : ∀ c ∈ batchNumTokens, c ≤ maxTokensPerBatch

namespace BatchedConfig
variable (cfg : BatchedConfig)

/-- The lengths of `sorted_ids` and, divided by the block size, of `block_ids`. -/
def sortedIdsSize : ℕ :=
  ceilDiv cfg.maxTokensPerBatch cfg.blockSize * cfg.batchNumTokens.length * cfg.blockSize

def sentinel : ℕ := cfg.batchNumTokens.length * cfg.maxTokensPerBatch

/-- `b_num_tokens`, which is 0 for the threads without a batch. -/
def bNumTokens (batchId : ℕ) : ℕ := cfg.batchNumTokens.getD batchId 0

def ceilBNumTokens (batchId : ℕ) : ℕ := roundUp (cfg.bNumTokens batchId) cfg.blockSize

/-- `cumsum_val` -/
def batchStart (batchId : ℕ) : ℕ := exclusiveSum cfg.ceilBNumTokens batchId

/-- The writes of the threads that have a batch. -/
def batchWrites {V : Type} (writes : ℕ → List (ℕ × V)) : List (ℕ × V) :=
  (range 1024).flatMap fun batchId =>
    if batchId < cfg.batchNumTokens.length then writes batchId else []

def idWrites : List (ℕ × ℤ) :=
  cfg.batchWrites fun batchId => (range (cfg.bNumTokens batchId)).map fun i =>
    (cfg.batchStart batchId + i, (batchId * cfg.maxTokensPerBatch + i : ℕ))

def blockWrites : List (ℕ × ℤ) :=
  cfg.batchWrites fun batchId => (range (cfg.ceilBNumTokens batchId / cfg.blockSize)).map fun i =>
    (cfg.batchStart batchId / cfg.blockSize + i, (batchId : ℤ))

/-- The thread of the last batch writes the total. -/
def totalWrites : List (ℕ × ℕ) :=
  cfg.batchWrites fun batchId =>
    if batchId + 1 = cfg.batchNumTokens.length
    then [(0, cfg.batchStart batchId + cfg.ceilBNumTokens batchId)] else []

end BatchedConfig

/-- One execution of the kernel: what the buffers hold before, and the orders of the writes on
either side of the barrier. -/
structure BatchedRun (cfg : BatchedConfig) where
  sortedMemory : ℕ → ℤ
  blockMemory : ℕ → ℤ
  totalMemory : ℕ
  fillOrder : List ℕ
  fillOrder_perm : fillOrder.Perm (gridLoop 1024 cfg.sortedIdsSize)
  blockFillOrder : List ℕ
  blockFillOrder_perm : blockFillOrder.Perm (gridLoop 1024 (cfg.sortedIdsSize / cfg.blockSize))
  idOrder : List (ℕ × ℤ)
  idOrder_perm : idOrder.Perm cfg.idWrites
  blockOrder : List (ℕ × ℤ)
  blockOrder_perm : blockOrder.Perm cfg.blockWrites

def BatchedRun.output {cfg : BatchedConfig} (run : BatchedRun cfg) : AlignOutput where
  sortedTokenIds := writeAll (writeAll run.sortedMemory
    (run.fillOrder.map (·, (cfg.sentinel : ℤ)))) run.idOrder
  expertIds := writeAll (writeAll run.blockMemory (run.blockFillOrder.map (·, -1))) run.blockOrder
  numTokensPostPad := writeAll (fun _ => run.totalMemory) cfg.totalWrites 0

section Starts
variable (cfg : BatchedConfig)

variable {cfg}

end Starts

namespace BatchedRun
variable {cfg : BatchedConfig} (run : BatchedRun cfg)

/-- The writes in the order of the threads. -/
def inOrder (cfg : BatchedConfig) (totalMemory : ℕ) : BatchedRun cfg where
  sortedMemory _ := 0
  blockMemory _ := 0
  totalMemory
  fillOrder := _
  fillOrder_perm := .refl _
  blockFillOrder := _
  blockFillOrder_perm := .refl _
  idOrder := _
  idOrder_perm := .refl _
  blockOrder := _
  blockOrder_perm := .refl _

end BatchedRun

end Vllm.Moe
