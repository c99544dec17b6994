import Vllm.Worker.BlockTable
import Vllm.Lib.GridLoop
import Vllm.Lib.Interleaved

/-! The slot mapping of a batch under context parallelism: every rank computes for each scheduled
token the physical slot of its key and value, or `PAD_SLOT_ID` where another rank stores it. The
slots of all requests on all ranks of context parallelism: every covered position has one slot on
one rank, and the positions that a block covers fill its slots on every rank. -/
namespace Vllm.Worker
open GridLoop Interleaved List Nat

/-- A process group of context parallelism and this worker's rank in it. -/
structure CpGroup where
  worldSize : ℕ := 1
  rankInGroup : ℕ := 0

/-- A block table with the attributes that the slot mapping reads; `gpu` is the device copy. -/
structure CpBlockTable extends BlockTable where
  maxNumReqs : ℕ
  maxNumBatchedTokens : ℕ
  blockSize : ℕ
  pcp : CpGroup := {}
  dcp : CpGroup := {}
  cpKvCacheInterleaveSize : ℕ
  gpu : ℕ → ℕ → ℕ := fun _ _ => 0

def padSlotId : ℤ := -1

/-- `BLOCK_SIZE` of the kernel launch. -/
def lanes : ℕ := 1024

/-- The offsets that the chunks of a program's loop admit under their mask. -/
def chunkOffsets (start stop : ℕ) : List ℕ :=
  (stridedLoop start lanes stop).flatMap fun i =>
    ((List.range lanes).map (i + ·)).filter fun offset => offset < stop

namespace CpBlockTable

/-- `BlockTable.__init__` -/
def init (blockSize maxNumReqs maxNumBlocksPerReq maxNumBatchedTokens kernelBlockSize
    cpKvCacheInterleaveSize : ℕ) (pcp dcp : CpGroup) : Raises CpBlockTable :=
  if kernelBlockSize = blockSize then
    pure {
      maxNumBlocksPerReq := maxNumBlocksPerReq
      blockSize := blockSize
      maxNumReqs, maxNumBatchedTokens, pcp, dcp, cpKvCacheInterleaveSize }
  else if kernelBlockSize = 0 then throw .zeroDivisionError
  else if blockSize % kernelBlockSize ≠ 0 then throw .valueError
  else
    pure {
      maxNumBlocksPerReq := maxNumBlocksPerReq * (blockSize / kernelBlockSize)
      blocksPerKvBlock := blockSize / kernelBlockSize
      useHybridBlocks := true
      blockSize := kernelBlockSize
      maxNumReqs, maxNumBatchedTokens, pcp, dcp, cpKvCacheInterleaveSize }

/-- `append_row`, whose row index must be one of the table's rows. -/
def appendBlocks (t : CpBlockTable) (blockIds : List ℕ) (row : ℕ) : Raises CpBlockTable :=
  if blockIds.isEmpty then pure t
  else if t.maxNumReqs ≤ row then throw .indexError
  else do
    let table ← t.toBlockTable.appendRow blockIds row
    pure { t with toBlockTable := table }

def commitBlockTable (t : CpBlockTable) (numReqs : ℕ) : CpBlockTable :=
  { t with gpu := fun r => if r < numReqs then t.blockTable r else t.gpu r }

def totalCpWorldSize (t : CpBlockTable) : ℕ := t.pcp.worldSize * t.dcp.worldSize

def totalCpRank (t : CpBlockTable) : ℕ :=
  t.pcp.rankInGroup * t.dcp.worldSize + t.dcp.rankInGroup

/-- The device table as flat memory, `block_table_ptr[address]`. -/
def loadBlockTable (t : CpBlockTable) (address : ℕ) : ℕ :=
  t.gpu (address / t.maxNumBlocksPerReq) (address % t.maxNumBlocksPerReq)

/-- The slot that the kernel stores for one position of a request. -/
def slotId (t : CpBlockTable) (reqIdx pos : ℕ) : ℤ :=
  let virtualBlockSize := t.blockSize * t.totalCpWorldSize
  let rowOffset := reqIdx * t.maxNumBlocksPerReq
  let blockIndex := pos / virtualBlockSize
  let blockNumber := t.loadBlockTable (rowOffset + blockIndex)
  let virtualBlockOffset := pos - blockIndex * virtualBlockSize
  let isLocal := virtualBlockOffset / t.cpKvCacheInterleaveSize % t.totalCpWorldSize = t.totalCpRank
  let localBlockOffset :=
    virtualBlockOffset / (t.totalCpWorldSize * t.cpKvCacheInterleaveSize) *
      t.cpKvCacheInterleaveSize + virtualBlockOffset % t.cpKvCacheInterleaveSize
  if isLocal then (blockNumber * t.blockSize + localBlockOffset : ℕ) else padSlotId

/-- `_compute_slot_mapping_kernel`: what program `reqIdx` stores, the last one padding the rest. -/
def slotMappingKernel (t : CpBlockTable) (numReqs : ℕ) (queryStartLoc : ℕ → ℕ)
    (positions : List ℕ) (reqIdx : ℕ) : List (ℕ × ℤ) :=
  if reqIdx = numReqs then
    (chunkOffsets positions.length t.maxNumBatchedTokens).map fun offset => (offset, padSlotId)
  else
    (chunkOffsets (queryStartLoc reqIdx) (queryStartLoc (reqIdx + 1))).map fun offset =>
      (offset, t.slotId reqIdx (positions.getD offset 0))

/-- `compute_slot_mapping`: the stores of all programs of the launch. -/
def computeSlotMapping (t : CpBlockTable) (numReqs : ℕ) (queryStartLoc : ℕ → ℕ)
    (positions : List ℕ) : List (ℕ × ℤ) :=
  (List.range (numReqs + 1)).flatMap (t.slotMappingKernel numReqs queryStartLoc positions)

end CpBlockTable

/-- `query_start_loc`: the cumulated numbers of scheduled tokens. -/
def queryStartLoc (numScheduledTokens : List ℕ) (reqIdx : ℕ) : ℕ :=
  (numScheduledTokens.take reqIdx).sum

theorem mem_chunkOffsets {start stop offset : ℕ} :
    offset ∈ chunkOffsets start stop ↔ start ≤ offset ∧ offset < stop := by
  have hlanes : 0 < lanes := by decide
  simp only [chunkOffsets, mem_flatMap, mem_stridedLoop hlanes, mem_filter, mem_map,
    mem_range, decide_eq_true_eq]
  constructor
  · rintro ⟨i, ⟨k, rfl, -⟩, ⟨lane, -, rfl⟩, hlt⟩
    omega
  · rintro ⟨hstart, hstop⟩
    have hdiv := div_add_mod (offset - start) lanes
    rw [mul_comm] at hdiv
    refine ⟨_, ⟨(offset - start) / lanes, rfl, by omega⟩, ⟨(offset - start) % lanes, ?_, ?_⟩, hstop⟩
    · exact mod_lt _ hlanes
    · omega

theorem queryStartLoc_mono (numScheduledTokens : List ℕ) :
    Monotone (queryStartLoc numScheduledTokens) := by
  apply monotone_nat_of_le_succ
  intro i
  unfold queryStartLoc
  rw [take_add_one, List.sum_append_nat]
  exact le_add_right _ _

theorem getElem?_mapToKernelBlocks {q : ℕ} (hq : 0 < q) (ids : List ℕ) (x : ℕ) :
    (mapToKernelBlocks ids q)[x]? = ids[x / q]?.map fun b => b * q + x % q := by
  unfold mapToKernelBlocks
  split_ifs with hone
  · subst hone
    simp [mod_one]
  · induction ids generalizing x with
    | nil => simp
    | cons b ids ih =>
      rw [flatMap_cons]
      rcases lt_or_ge x q with hlt | hge
      · rw [List.getElem?_append_left (by simpa using hlt), div_eq_of_lt hlt, mod_eq_of_lt hlt]
        simp [hlt]
      · rcases Nat.exists_eq_add_of_le hge with ⟨y, rfl⟩
        rw [List.getElem?_append_right (by simp), add_comm q y, add_div_right y hq, add_mod_right]
        simpa using ih y

theorem mapToKernelBlocks_append (ids ids' : List ℕ) (q : ℕ) :
    mapToKernelBlocks (ids ++ ids') q = mapToKernelBlocks ids q ++ mapToKernelBlocks ids' q := by
  unfold mapToKernelBlocks
  split_ifs
  · rfl
  · exact flatMap_append

/-- The arguments of the block table that the workers of all ranks share. -/
structure CpConfig where
  blockSize : ℕ
  maxNumReqs : ℕ
  maxNumBlocksPerReq : ℕ
  maxNumBatchedTokens : ℕ
  kernelBlockSize : ℕ
  cpKvCacheInterleaveSize : ℕ
  pcpWorldSize : ℕ
  dcpWorldSize : ℕ
  blockSize_pos : 0 < blockSize
  worldSize_pos : 0 < pcpWorldSize * dcpWorldSize
  kernel_dvd : kernelBlockSize ∣ blockSize
  interleave_dvd : cpKvCacheInterleaveSize ∣ kernelBlockSize

namespace CpConfig

/-- A rank is its place in the two groups. -/
abbrev Rank (c : CpConfig) := Fin c.pcpWorldSize × Fin c.dcpWorldSize

def worldSize (c : CpConfig) : ℕ := c.pcpWorldSize * c.dcpWorldSize

/-- The table of a rank after some calls of `append_row`, each with block ids and a row. -/
def build (c : CpConfig) (k : c.Rank) (appends : List (List ℕ × ℕ)) : Raises CpBlockTable := do
  let t ← CpBlockTable.init c.blockSize c.maxNumReqs c.maxNumBlocksPerReq c.maxNumBatchedTokens
    c.kernelBlockSize c.cpKvCacheInterleaveSize ⟨c.pcpWorldSize, k.1⟩ ⟨c.dcpWorldSize, k.2⟩
  appends.foldlM (fun t a => t.appendBlocks a.1 a.2) t

theorem kernel_pos (c : CpConfig) : 0 < c.kernelBlockSize :=
  Nat.pos_of_dvd_of_pos c.kernel_dvd c.blockSize_pos

theorem interleave_pos (c : CpConfig) : 0 < c.cpKvCacheInterleaveSize :=
  Nat.pos_of_dvd_of_pos c.interleave_dvd c.kernel_pos

end CpConfig

/-- The block ids that were appended to row `r`. -/
def managerBlocks (appends : List (List ℕ × ℕ)) (r : ℕ) : List ℕ :=
  appends.flatMap fun a => if a.2 = r then a.1 else []

/-- A position of a request that one of its blocks covers. -/
def Covered (c : CpConfig) (numReqs : ℕ) (ids : ℕ → List ℕ) (r p : ℕ) : Prop :=
  r < numReqs ∧ p < c.worldSize * c.blockSize * (ids r).length

/-- Slots by rank, request and position that store every covered position once. -/
structure SlotPartition (c : CpConfig) (numReqs : ℕ) (ids : ℕ → List ℕ)
    (slot : c.Rank → ℕ → ℕ → ℤ) : Prop where
  stored : ∀ r p, Covered c numReqs ids r p → ∃! k, slot k r p ≠ padSlotId
  inBlock : ∀ k r p, Covered c numReqs ids r p → slot k r p ≠ padSlotId →
    ∃ b, (ids r)[p / (c.worldSize * c.blockSize)]? = some b ∧
      b * c.blockSize ≤ slot k r p ∧ slot k r p < (b + 1) * c.blockSize
  distinct : ∀ k r p r' p', Covered c numReqs ids r p → Covered c numReqs ids r' p' →
    slot k r p ≠ padSlotId → slot k r p = slot k r' p' → r = r' ∧ p = p'
  complete : ∀ k r x b, r < numReqs → (ids r)[x]? = some b → ∀ s : ℕ,
    b * c.blockSize ≤ s → s < (b + 1) * c.blockSize →
      ∃! p, p / (c.worldSize * c.blockSize) = x ∧ slot k r p = s

/-- What is kept while rows are built: the shared arguments, and the ids behind each row. -/
structure CpBlockTable.Holds (t : CpBlockTable) (c : CpConfig) (k : c.Rank)
    (ids : ℕ → List ℕ) : Prop where
  blockSize : t.blockSize = c.kernelBlockSize
  split : t.blocksPerKvBlock * c.kernelBlockSize = c.blockSize
  rowSize : t.maxNumBlocksPerReq = c.maxNumBlocksPerReq * t.blocksPerKvBlock
  interleave : t.cpKvCacheInterleaveSize = c.cpKvCacheInterleaveSize
  batched : t.maxNumBatchedTokens = c.maxNumBatchedTokens
  world : t.totalCpWorldSize = c.worldSize
  rank : t.totalCpRank = k.1 * c.dcpWorldSize + k.2
  kernelIds : ∀ l, t.kernelIds l = mapToKernelBlocks l t.blocksPerKvBlock
  rows : ∀ r, t.rowBlocks r = mapToKernelBlocks (ids r) t.blocksPerKvBlock
  width : ∀ r, t.numBlocksPerRow r ≤ t.maxNumBlocksPerReq

namespace CpBlockTable
variable {c : CpConfig} {k : c.Rank} {ids : ℕ → List ℕ} {t t' : CpBlockTable}

theorem init_holds (h : init c.blockSize c.maxNumReqs c.maxNumBlocksPerReq c.maxNumBatchedTokens
    c.kernelBlockSize c.cpKvCacheInterleaveSize ⟨c.pcpWorldSize, k.1⟩ ⟨c.dcpWorldSize, k.2⟩ =
      .ok t) : t.Holds c k fun _ => [] := by
  have hnil : ∀ q, mapToKernelBlocks [] q = [] := by
    intro q
    unfold mapToKernelBlocks
    split <;> rfl
  unfold init at h
  split_ifs at h with hsame hzero hdvd
  · cases h
    constructor
    · exact hsame.symm
    · rw [hsame, one_mul]
    · exact (mul_one _).symm
    · rfl
    · rfl
    · rfl
    · rfl
    · exact fun l => rfl
    · exact fun r => (hnil _).symm
    · exact fun r => Nat.zero_le _
  · cases h
    constructor
    · rfl
    · exact Nat.div_mul_cancel c.kernel_dvd
    · rfl
    · rfl
    · rfl
    · rfl
    · rfl
    · exact fun l => rfl
    · exact fun r => (hnil _).symm
    · exact fun r => Nat.zero_le _

variable {blockIds : List ℕ}

theorem length_mapToKernelBlocks (ids : List ℕ) (q : ℕ) :
    (mapToKernelBlocks ids q).length = ids.length * q := by
  unfold mapToKernelBlocks
  split_ifs with hone
  · rw [hone, mul_one]
  · simp [List.length_flatMap]

theorem Holds.appendBlocks (h : t.Holds c k ids) {row : ℕ}
    (hfits : (ids row ++ blockIds).length ≤ c.maxNumBlocksPerReq)
    (hrun : t.appendBlocks blockIds row = .ok t') :
    t'.Holds c k fun r => if r = row then ids r ++ blockIds else ids r := by
  unfold CpBlockTable.appendBlocks at hrun
  split_ifs at hrun with hempty hrow
  · cases hrun
    have hnil := List.isEmpty_iff.mp hempty
    have hids : (fun r => if r = row then ids r ++ blockIds else ids r) = ids := by
      funext r
      rw [hnil, List.append_nil, ite_self]
    rw [hids]
    exact h
  · rcases Raises.of_bind hrun with ⟨table, htable, hpure⟩
    cases hpure
    have hcount : t.numBlocksPerRow row = (ids row).length * t.blocksPerKvBlock := by
      have hlength := congrArg List.length (h.rows row)
      rwa [BlockTable.rowBlocks, RowArray.length_firstEntries, length_mapToKernelBlocks] at hlength
    have hroom : t.numBlocksPerRow row + (t.kernelIds blockIds).length ≤ t.maxNumBlocksPerReq := by
      rw [hcount, h.kernelIds, length_mapToKernelBlocks, ← add_mul, h.rowSize, ← length_append]
      exact Nat.mul_le_mul_right _ hfits
    rcases t.toBlockTable.appendRow_of_fits hroom with ⟨counts, blocks, hok, hrows, hwidth⟩
    obtain rfl := Except.ok.inj (hok.symm.trans htable)
    refine { h with rows := fun r => ?_, width := hwidth h.width }
    rw [hrows r]
    by_cases hr : r = row
    · rw [if_pos hr, if_pos hr, h.rows, h.kernelIds, mapToKernelBlocks_append, hr]
    · rw [if_neg hr, if_neg hr]
      exact h.rows r

theorem Holds.appendAll (h : t.Holds c k ids) {appends : List (List ℕ × ℕ)}
    (hfits : ∀ r, (ids r ++ managerBlocks appends r).length ≤ c.maxNumBlocksPerReq)
    (hrun : appends.foldlM (fun t a => t.appendBlocks a.1 a.2) t = .ok t') :
    t'.Holds c k fun r => ids r ++ managerBlocks appends r := by
  induction appends generalizing t ids with
  | nil =>
    cases hrun
    have hids : (fun r => ids r ++ managerBlocks [] r) = ids := funext fun r => List.append_nil _
    rw [hids]
    exact h
  | cons a appends ih =>
    rw [List.foldlM_cons] at hrun
    rcases Raises.of_bind hrun with ⟨t1, hfirst, hrest⟩
    have hids : (fun r => ids r ++ managerBlocks (a :: appends) r) = fun r =>
        (if r = a.2 then ids r ++ a.1 else ids r) ++ managerBlocks appends r := by
      funext r
      unfold managerBlocks
      rw [List.flatMap_cons]
      by_cases hr : r = a.2
      · rw [if_pos hr, if_pos hr.symm, List.append_assoc]
      · rw [if_neg hr, if_neg (Ne.symm hr), List.nil_append]
    have hrow : (ids a.2 ++ a.1).length ≤ c.maxNumBlocksPerReq := by
      have hle := hfits a.2
      rw [congrFun hids a.2, if_pos rfl, length_append] at hle
      omega
    rw [hids]
    exact ih (h.appendBlocks hrow hfirst) (fun r => congrFun hids r ▸ hfits r) hrest

end CpBlockTable

theorem CpConfig.build_holds {c : CpConfig} {k : c.Rank} {appends : List (List ℕ × ℕ)}
    (hfits : ∀ r, (managerBlocks appends r).length ≤ c.maxNumBlocksPerReq)
    {t : CpBlockTable} (h : c.build k appends = .ok t) : t.Holds c k (managerBlocks appends) := by
  rcases Raises.of_bind h with ⟨t0, hinit, hrun⟩
  exact (CpBlockTable.init_holds hinit).appendAll hfits hrun

namespace CpBlockTable
variable {c : CpConfig} {k : c.Rank} {ids : ℕ → List ℕ} {t : CpBlockTable} {numReqs r p : ℕ}

theorem loadBlockTable_row (hwidth : ∀ r, t.numBlocksPerRow r ≤ t.maxNumBlocksPerReq)
    (hr : r < numReqs) {x v : ℕ} (hx : (t.rowBlocks r)[x]? = some v) :
    (t.commitBlockTable numReqs).loadBlockTable (r * t.maxNumBlocksPerReq + x) = v := by
  have hlen : x < t.numBlocksPerRow r := by
    have := (List.getElem?_eq_some_iff.mp hx).1
    simpa [BlockTable.rowBlocks] using this
  have hstride : x < t.maxNumBlocksPerReq := hlen.trans_le (hwidth r)
  have hrow : (r * t.maxNumBlocksPerReq + x) / t.maxNumBlocksPerReq = r := by
    rw [mul_comm, Nat.mul_add_div (by omega), Nat.div_eq_of_lt hstride, add_zero]
  have hcol : (r * t.maxNumBlocksPerReq + x) % t.maxNumBlocksPerReq = x := by
    rw [mul_comm, Nat.mul_add_mod, Nat.mod_eq_of_lt hstride]
  unfold loadBlockTable commitBlockTable
  dsimp only
  rw [hrow, hcol, if_pos hr]
  simpa [BlockTable.rowBlocks, RowArray.firstEntries, hlen] using hx

theorem slotId_eq_owner (t : CpBlockTable) (r p : ℕ) : t.slotId r p =
    if owner t.totalCpWorldSize t.cpKvCacheInterleaveSize
        (p - p / (t.blockSize * t.totalCpWorldSize) * (t.blockSize * t.totalCpWorldSize)) =
          t.totalCpRank then
      ((t.loadBlockTable (r * t.maxNumBlocksPerReq + p / (t.blockSize * t.totalCpWorldSize)) *
        t.blockSize + localIndex t.totalCpWorldSize t.cpKvCacheInterleaveSize
          (p - p / (t.blockSize * t.totalCpWorldSize) * (t.blockSize * t.totalCpWorldSize)) : ℕ) : ℤ)
    else padSlotId := rfl

theorem Holds.slotId_eq (h : t.Holds c k ids) (hr : r < numReqs) {b : ℕ}
    (hb : (ids r)[p / (c.worldSize * c.blockSize)]? = some b) :
    (t.commitBlockTable numReqs).slotId r p =
      if owner c.worldSize c.cpKvCacheInterleaveSize p = k.1 * c.dcpWorldSize + k.2 then
        ((b * c.blockSize + localIndex c.worldSize c.cpKvCacheInterleaveSize p % c.blockSize : ℕ) : ℤ)
      else padSlotId := by
  have hworld : (t.commitBlockTable numReqs).totalCpWorldSize = c.worldSize := h.world
  have hrank : (t.commitBlockTable numReqs).totalCpRank = k.1 * c.dcpWorldSize + k.2 := h.rank
  have hsize : (t.commitBlockTable numReqs).blockSize = c.kernelBlockSize := h.blockSize
  have hgroup : (t.commitBlockTable numReqs).cpKvCacheInterleaveSize =
    c.cpKvCacheInterleaveSize := h.interleave
  have hq : 0 < t.blocksPerKvBlock := by
    have := h.split ▸ c.blockSize_pos
    exact Nat.pos_of_mul_pos_right this
  have hindex : localIndex c.worldSize c.cpKvCacheInterleaveSize p / c.kernelBlockSize =
      p / (c.kernelBlockSize * c.worldSize) := by
    rw [localIndex_div_block c.interleave_pos c.interleave_dvd, mul_comm]
  have hblock : p / (c.kernelBlockSize * c.worldSize) / t.blocksPerKvBlock =
      p / (c.worldSize * c.blockSize) := by
    rw [Nat.div_div_eq_div_mul, ← h.split]
    congr 1
    ring
  have hentry : (t.rowBlocks r)[p / (c.kernelBlockSize * c.worldSize)]? =
      some (b * t.blocksPerKvBlock + p / (c.kernelBlockSize * c.worldSize) % t.blocksPerKvBlock) :=
        by
    rw [h.rows, getElem?_mapToKernelBlocks hq, hblock, hb]
    rfl
  have hload := loadBlockTable_row h.width hr hentry
  have hoffset : p - p / (c.kernelBlockSize * c.worldSize) * (c.kernelBlockSize * c.worldSize) =
      p % (c.worldSize * c.kernelBlockSize) := by
    rw [mul_comm c.worldSize]
    have := Nat.div_add_mod p (c.kernelBlockSize * c.worldSize)
    rw [mul_comm] at this
    omega
  have howner : owner c.worldSize c.cpKvCacheInterleaveSize (p % (c.worldSize * c.kernelBlockSize)) =
    owner c.worldSize c.cpKvCacheInterleaveSize p := owner_mod_block c.interleave_dvd
  have hlocal : localIndex c.worldSize c.cpKvCacheInterleaveSize
      (p % (c.worldSize * c.kernelBlockSize)) =
    localIndex c.worldSize c.cpKvCacheInterleaveSize p % c.kernelBlockSize :=
    localIndex_mod_block c.interleave_pos c.interleave_dvd
  have hplace : localIndex c.worldSize c.cpKvCacheInterleaveSize p % c.blockSize =
      p / (c.kernelBlockSize * c.worldSize) % t.blocksPerKvBlock * c.kernelBlockSize +
        localIndex c.worldSize c.cpKvCacheInterleaveSize p % c.kernelBlockSize := by
    rw [← h.split, mul_comm t.blocksPerKvBlock, Nat.mod_mul, hindex]
    ring
  rw [slotId_eq_owner, hworld, hrank, hsize, hgroup, hoffset, howner, hlocal]
  dsimp only [commitBlockTable] at hload ⊢
  rw [hload, hplace, ← h.split]
  congr 2
  ring

end CpBlockTable

section Blocks
variable {appends : List (List ℕ × ℕ)} {r r' b : ℕ}

theorem managerBlocks_sublist (appends : List (List ℕ × ℕ)) (r : ℕ) :
    (managerBlocks appends r).Sublist (appends.flatMap Prod.fst) := by
  unfold managerBlocks
  induction appends with
  | nil => exact List.Sublist.refl _
  | cons a appends ih =>
    rw [List.flatMap_cons, List.flatMap_cons]
    apply List.Sublist.append _ ih
    split
    · exact List.Sublist.refl _
    · exact List.nil_sublist _

theorem row_of_block (hids : (appends.flatMap Prod.fst).Nodup) (hb : b ∈ managerBlocks appends r)
    (hb' : b ∈ managerBlocks appends r') : r = r' := by
  induction appends with
  | nil => cases hb
  | cons a appends ih =>
    rw [List.flatMap_cons, List.nodup_append] at hids
    rcases hids with ⟨-, hrest, hapart⟩
    have hcases : ∀ r, b ∈ managerBlocks (a :: appends) r →
        (a.2 = r ∧ b ∈ a.1) ∨ b ∈ managerBlocks appends r := by
      intro r hmem
      unfold managerBlocks at hmem
      rw [List.flatMap_cons, List.mem_append] at hmem
      rcases hmem with hfirst | hlater
      · by_cases hr : a.2 = r
        · rw [if_pos hr] at hfirst
          exact Or.inl ⟨hr, hfirst⟩
        · rw [if_neg hr] at hfirst
          cases hfirst
      · exact Or.inr hlater
    have hlater : ∀ r, b ∈ managerBlocks appends r → b ∉ a.1 := by
      intro r hmem hfirst
      exact hapart b hfirst b ((managerBlocks_sublist appends r).subset hmem) rfl
    rcases hcases r hb with ⟨hr, hfirst⟩ | hrest1
    · rcases hcases r' hb' with ⟨hr', -⟩ | hrest2
      · exact hr.symm.trans hr'
      · exact absurd hfirst (hlater r' hrest2)
    · rcases hcases r' hb' with ⟨-, hfirst⟩ | hrest2
      · exact absurd hfirst (hlater r hrest1)
      · exact ih hrest hrest1 hrest2

theorem place_of_block (hids : (appends.flatMap Prod.fst).Nodup) {x x' : ℕ}
    (hb : (managerBlocks appends r)[x]? = some b)
    (hb' : (managerBlocks appends r')[x']? = some b) : r = r' ∧ x = x' := by
  have hrow := row_of_block hids (List.mem_of_getElem? hb) (List.mem_of_getElem? hb')
  subst hrow
  have hnodup := (managerBlocks_sublist appends r).nodup hids
  rcases List.getElem?_eq_some_iff.mp hb with ⟨hx, heq⟩
  rcases List.getElem?_eq_some_iff.mp hb' with ⟨hx', heq'⟩
  exact ⟨rfl, hnodup.getElem_inj_iff.mp (heq.trans heq'.symm)⟩

end Blocks

theorem CpConfig.existsUnique_rank (c : CpConfig) {x : ℕ} (hx : x < c.worldSize) :
    ∃! k : c.Rank, k.1 * c.dcpWorldSize + k.2 = x := by
  have hval : ∀ k : c.Rank, (finProdFinEquiv k : ℕ) = k.1 * c.dcpWorldSize + k.2 := by
    intro k
    rw [finProdFinEquiv_apply_val, mul_comm, add_comm]
  unfold CpConfig.worldSize at hx
  use finProdFinEquiv.symm ⟨x, hx⟩
  constructor
  · dsimp only
    rw [← hval, Equiv.apply_symm_apply]
  · intro k hk
    rw [Equiv.eq_symm_apply, Fin.ext_iff, hval, hk]

section Partition
variable {c : CpConfig} {numReqs : ℕ} {ids : ℕ → List ℕ} {slot : c.Rank → ℕ → ℕ → ℤ}

theorem natCast_ne_pad (n : ℕ) : (n : ℤ) ≠ padSlotId := by
  unfold padSlotId
  omega

theorem slotPartition_of_owner (hplace : ∀ r (x : ℕ) r' (x' b : ℕ),
    (ids r)[x]? = some b → (ids r')[x']? = some b → r = r' ∧ x = x')
    (hslot : ∀ k r p b, r < numReqs → (ids r)[p / (c.worldSize * c.blockSize)]? = some b →
      slot k r p =
        if owner c.worldSize c.cpKvCacheInterleaveSize p = k.1 * c.dcpWorldSize + k.2 then
          ((b * c.blockSize +
            localIndex c.worldSize c.cpKvCacheInterleaveSize p % c.blockSize : ℕ) : ℤ)
        else padSlotId) :
    SlotPartition c numReqs ids slot := by
  have hworld : 0 < c.worldSize := c.worldSize_pos
  have hgroup := c.interleave_pos
  have hsize := c.blockSize_pos
  have hblock : ∀ p, localIndex c.worldSize c.cpKvCacheInterleaveSize p / c.blockSize =
      p / (c.worldSize * c.blockSize) := fun p =>
    localIndex_div_block hgroup (c.interleave_dvd.trans c.kernel_dvd)
  have hcovered : ∀ r p, Covered c numReqs ids r p →
      ∃ b, (ids r)[p / (c.worldSize * c.blockSize)]? = some b := fun r p h =>
    ⟨_, List.getElem?_eq_getElem (Nat.div_lt_of_lt_mul h.2)⟩
  have howner : ∀ k r p b, r < numReqs → (ids r)[p / (c.worldSize * c.blockSize)]? = some b →
      slot k r p ≠ padSlotId →
      owner c.worldSize c.cpKvCacheInterleaveSize p = k.1 * c.dcpWorldSize + k.2 := by
    intro k r p b hr hb hne
    by_contra hother
    rw [hslot k r p b hr hb, if_neg hother] at hne
    exact hne rfl
  constructor
  · intro r p h
    rcases hcovered r p h with ⟨b, hb⟩
    have hlt : owner c.worldSize c.cpKvCacheInterleaveSize p < c.worldSize := owner_lt hworld
    rcases c.existsUnique_rank hlt with ⟨k, hk, hunique⟩
    use k
    constructor
    · dsimp only
      rw [hslot k r p b h.1 hb, if_pos hk.symm]
      exact natCast_ne_pad _
    · exact fun k' hne => hunique k' (howner k' r p b h.1 hb hne).symm
  · intro k r p h hne
    rcases hcovered r p h with ⟨b, hb⟩
    use b, hb
    rw [hslot k r p b h.1 hb, if_pos (howner k r p b h.1 hb hne)]
    have hlt := Nat.mod_lt (localIndex c.worldSize c.cpKvCacheInterleaveSize p) hsize
    constructor
    · exact_mod_cast Nat.le_add_right _ _
    · have hadd : b * c.blockSize +
          localIndex c.worldSize c.cpKvCacheInterleaveSize p % c.blockSize <
            (b + 1) * c.blockSize := by
        rw [add_mul, one_mul]
        exact Nat.add_lt_add_left hlt _
      exact_mod_cast hadd
  · intro k r p r' p' h h' hne heq
    rcases hcovered r p h with ⟨b, hb⟩
    rcases hcovered r' p' h' with ⟨b', hb'⟩
    have hrank := howner k r p b h.1 hb hne
    have hrank' := howner k r' p' b' h'.1 hb' (heq ▸ hne)
    rw [hslot k r p b h.1 hb, hslot k r' p' b' h'.1 hb', if_pos hrank, if_pos hrank',
      Nat.cast_inj, mul_comm b, mul_comm b'] at heq
    have hid : b = b' := by
      have := congrArg (· / c.blockSize) heq
      simpa [Nat.mul_add_div hsize, Nat.div_eq_of_lt (Nat.mod_lt _ hsize)] using this
    have hmod : localIndex c.worldSize c.cpKvCacheInterleaveSize p % c.blockSize =
        localIndex c.worldSize c.cpKvCacheInterleaveSize p' % c.blockSize := by
      rw [hid] at heq
      exact add_left_cancel heq
    rcases hplace r _ r' _ b hb (hid ▸ hb') with ⟨hr, hindex⟩
    rw [← hblock, ← hblock] at hindex
    have hlocal : localIndex c.worldSize c.cpKvCacheInterleaveSize p =
        localIndex c.worldSize c.cpKvCacheInterleaveSize p' := by
      rw [← Nat.div_add_mod (localIndex _ _ p) c.blockSize, hindex, hmod]
      exact Nat.div_add_mod _ _
    exact ⟨hr, position_injective hgroup (hrank.trans hrank'.symm) hlocal⟩
  · intro k r x b hr hb s hlow hhigh
    rw [add_mul, one_mul] at hhigh
    rcases Nat.exists_eq_add_of_le hlow with ⟨d, rfl⟩
    have hd : d < c.blockSize := Nat.lt_of_add_lt_add_left hhigh
    have hindex : (x * c.blockSize + d) / c.blockSize = x := by
      rw [mul_comm, Nat.mul_add_div hsize, Nat.div_eq_of_lt hd, add_zero]
    have hoffset : (x * c.blockSize + d) % c.blockSize = d := by
      rw [mul_comm, Nat.mul_add_mod, Nat.mod_eq_of_lt hd]
    have hk : k.1 * c.dcpWorldSize + k.2 < c.worldSize := by
      have h1 := k.1.isLt
      have h2 := k.2.isLt
      have hle : (k.1 + 1) * c.dcpWorldSize ≤ c.worldSize := Nat.mul_le_mul_right _ h1
      rw [add_mul, one_mul] at hle
      omega
    have hlocal := localIndex_position (s := x * c.blockSize + d) hgroup hk
    use position c.worldSize c.cpKvCacheInterleaveSize (k.1 * c.dcpWorldSize + k.2)
      (x * c.blockSize + d)
    constructor
    · have hdiv := hblock (position c.worldSize c.cpKvCacheInterleaveSize
        (k.1 * c.dcpWorldSize + k.2) (x * c.blockSize + d))
      rw [hlocal, hindex] at hdiv
      constructor
      · exact hdiv.symm
      · rw [hslot k r _ b hr (hdiv ▸ hb), if_pos (owner_position hgroup hk), hlocal, hoffset]
    · rintro p ⟨hp, hs⟩
      subst hp
      have hrank := howner k r p b hr hb (hs ▸ natCast_ne_pad _)
      rw [hslot k r p b hr hb, if_pos hrank, Nat.cast_inj] at hs
      apply position_injective hgroup
      · rw [hrank, owner_position hgroup hk]
      · rw [hlocal, ← hblock, ← Nat.add_left_cancel hs, mul_comm]
        exact (Nat.div_add_mod _ _).symm

end Partition

section Stores
variable {t : CpBlockTable} {numScheduledTokens positions : List ℕ} {stores : List (ℕ × ℤ)}
variable {offset : ℕ}

theorem request_of_offset {r r' : ℕ} (hr : queryStartLoc numScheduledTokens r ≤ offset)
    (hr1 : offset < queryStartLoc numScheduledTokens (r + 1))
    (hr' : queryStartLoc numScheduledTokens r' ≤ offset)
    (hr1' : offset < queryStartLoc numScheduledTokens (r' + 1)) : r = r' := by
  have hmono := queryStartLoc_mono numScheduledTokens
  apply le_antisymm
  · by_contra hlt
    have hle : queryStartLoc numScheduledTokens (r' + 1) ≤ queryStartLoc numScheduledTokens r :=
      hmono (not_le.mp hlt)
    omega
  · by_contra hlt
    have hle : queryStartLoc numScheduledTokens (r + 1) ≤ queryStartLoc numScheduledTokens r' :=
      hmono (not_le.mp hlt)
    omega

theorem mem_computeSlotMapping {numReqs : ℕ} {queryStartLoc : ℕ → ℕ} {v : ℤ} :
    (offset, v) ∈ t.computeSlotMapping numReqs queryStartLoc positions ↔
      (positions.length ≤ offset ∧ offset < t.maxNumBatchedTokens ∧ v = padSlotId) ∨
      ∃ r < numReqs, queryStartLoc r ≤ offset ∧ offset < queryStartLoc (r + 1) ∧
        v = t.slotId r (positions.getD offset 0) := by
  have hprogram : ∀ r, (offset, v) ∈ t.slotMappingKernel numReqs queryStartLoc positions r ↔
      if r = numReqs then
        positions.length ≤ offset ∧ offset < t.maxNumBatchedTokens ∧ v = padSlotId
      else queryStartLoc r ≤ offset ∧ offset < queryStartLoc (r + 1) ∧
        v = t.slotId r (positions.getD offset 0) := by
    intro r
    unfold CpBlockTable.slotMappingKernel
    split
    · simp [mem_chunkOffsets, eq_comm, and_assoc]
    · simp [mem_chunkOffsets, eq_comm, and_assoc]
  unfold CpBlockTable.computeSlotMapping
  simp only [List.mem_flatMap, List.mem_range, hprogram]
  constructor
  · rintro ⟨r, hr, hstore⟩
    by_cases hlast : r = numReqs
    · rw [if_pos hlast] at hstore
      exact Or.inl hstore
    · rw [if_neg hlast] at hstore
      exact Or.inr ⟨r, by omega, hstore⟩
  · rintro (hstore | ⟨r, hr, hstore⟩)
    · exact ⟨numReqs, Nat.lt_succ_self _, by rwa [if_pos rfl]⟩
    · exact ⟨r, by omega, by rwa [if_neg hr.ne]⟩

theorem slotMapping_written (hlen : positions.length = numScheduledTokens.sum)
    (hstores : stores.Perm (t.computeSlotMapping numScheduledTokens.length
      (queryStartLoc numScheduledTokens) positions)) (slotMapping : ℕ → ℤ) :
    (∀ r < numScheduledTokens.length, ∀ offset, queryStartLoc numScheduledTokens r ≤ offset →
      offset < queryStartLoc numScheduledTokens (r + 1) →
        writeAll slotMapping stores offset = t.slotId r (positions.getD offset 0)) ∧
      ∀ offset, positions.length ≤ offset → offset < t.maxNumBatchedTokens →
        writeAll slotMapping stores offset = padSlotId := by
  have hend : ∀ r < numScheduledTokens.length,
      queryStartLoc numScheduledTokens (r + 1) ≤ positions.length := by
    intro r hr
    have hmono : queryStartLoc numScheduledTokens (r + 1) ≤
        queryStartLoc numScheduledTokens numScheduledTokens.length :=
      queryStartLoc_mono numScheduledTokens hr
    have htotal : queryStartLoc numScheduledTokens numScheduledTokens.length =
        positions.length := by
      unfold queryStartLoc
      rw [List.take_length, hlen]
    omega
  constructor
  · intro r hr offset hfrom hto
    apply writeAll_of_mem
    · exact hstores.mem_iff.mpr (mem_computeSlotMapping.mpr (Or.inr ⟨r, hr, hfrom, hto, rfl⟩))
    · intro v hv
      rcases mem_computeSlotMapping.mp (hstores.mem_iff.mp hv) with
        ⟨hpad, -⟩ | ⟨r', hr', hfrom', hto', hv⟩
      · have := hend r hr
        omega
      · rw [request_of_offset hfrom hto hfrom' hto', hv]
  · intro offset hfrom hto
    apply writeAll_of_mem
    · exact hstores.mem_iff.mpr (mem_computeSlotMapping.mpr (Or.inl ⟨hfrom, hto, rfl⟩))
    · intro v hv
      rcases mem_computeSlotMapping.mp (hstores.mem_iff.mp hv) with
        ⟨-, -, hv⟩ | ⟨r', hr', -, hto', -⟩
      · exact hv
      · have := hend r' hr'
        omega

end Stores

/-- Rows of distinct block ids, no more of them than a row holds, give every covered position a slot
on one rank, fill the slots of every block on every rank, and are what `compute_slot_mapping` writes
for every batch. -/
theorem computeSlotMapping_partition (c : CpConfig) (appends : List (List ℕ × ℕ))
    (hids : (appends.flatMap Prod.fst).Nodup)
    (hfits : ∀ r, (managerBlocks appends r).length ≤ c.maxNumBlocksPerReq)
    (numReqs : ℕ) (tables : c.Rank → CpBlockTable)
    (htables : ∀ k, c.build k appends = .ok (tables k)) :
    ∃ slot : c.Rank → ℕ → ℕ → ℤ, SlotPartition c numReqs (managerBlocks appends) slot ∧
      ∀ k (numScheduledTokens positions : List ℕ), numScheduledTokens.length = numReqs →
        positions.length = numScheduledTokens.sum → ∀ stores : List (ℕ × ℤ),
        stores.Perm (((tables k).commitBlockTable numReqs).computeSlotMapping numReqs
          (queryStartLoc numScheduledTokens) positions) → ∀ slotMapping : ℕ → ℤ,
        (∀ r < numReqs, ∀ offset, queryStartLoc numScheduledTokens r ≤ offset →
          offset < queryStartLoc numScheduledTokens (r + 1) →
            writeAll slotMapping stores offset = slot k r (positions.getD offset 0)) ∧
        ∀ offset, positions.length ≤ offset → offset < c.maxNumBatchedTokens →
          writeAll slotMapping stores offset = padSlotId := by
  use fun k r p => ((tables k).commitBlockTable numReqs).slotId r p
  constructor
  · apply slotPartition_of_owner
    · exact fun r x r' x' b hb hb' => place_of_block hids hb hb'
    · exact fun k r p b hr hb => (CpConfig.build_holds hfits (htables k)).slotId_eq hr hb
  · intro k numScheduledTokens positions hreqs hlen stores hstores slotMapping
    subst hreqs
    have hbatched : ((tables k).commitBlockTable numScheduledTokens.length).maxNumBatchedTokens =
        c.maxNumBatchedTokens := (CpConfig.build_holds hfits (htables k)).batched
    rw [← hbatched]
    exact slotMapping_written hlen hstores slotMapping

/-- Two ranks, blocks of four slots in kernel blocks of two, and single positions in turns. -/
def pairConfig : CpConfig where
  blockSize := 4
  maxNumReqs := 2
  maxNumBlocksPerReq := 2
  maxNumBatchedTokens := 8
  kernelBlockSize := 2
  cpKvCacheInterleaveSize := 1
  pcpWorldSize := 1
  dcpWorldSize := 2
  blockSize_pos := Nat.succ_pos (nat_lit 3)
  worldSize_pos := by decide
  kernel_dvd := by decide
  interleave_dvd := by decide

theorem computeSlotMapping_partition_pair : ∃ tables : pairConfig.Rank → CpBlockTable,
    (∀ k, pairConfig.build k [([3, 5], 0), ([4], 1)] = .ok (tables k)) ∧
      ∃ slot : pairConfig.Rank → ℕ → ℕ → ℤ,
        SlotPartition pairConfig 2 (managerBlocks [([3, 5], 0), ([4], 1)]) slot := by
  have htables : ∃ tables : pairConfig.Rank → CpBlockTable,
      ∀ k, pairConfig.build k [([3, 5], 0), ([4], 1)] = .ok (tables k) := ⟨_, fun k => rfl⟩
  rcases htables with ⟨tables, htables⟩
  have hfits : ∀ r, (managerBlocks [([3, 5], 0), ([4], 1)] r).length ≤ 2 := by
    intro r
    simp only [managerBlocks, flatMap_cons, flatMap_nil]
    split_ifs with h0 h1
    · omega
    · decide
    · decide
    · decide
  rcases computeSlotMapping_partition pairConfig [([3, 5], 0), ([4], 1)] (by decide) hfits 2 tables
    htables with ⟨slot, hslot, -⟩
  exact ⟨tables, htables, slot, hslot⟩

/-- Rows of one block, with blocks of one slot. -/
def narrowConfig : CpConfig where
  blockSize := 1
  maxNumReqs := 2
  maxNumBlocksPerReq := 1
  maxNumBatchedTokens := 8
  kernelBlockSize := 1
  cpKvCacheInterleaveSize := 1
  pcpWorldSize := 1
  dcpWorldSize := 1
  blockSize_pos := Nat.one_pos
  worldSize_pos := Nat.one_pos
  kernel_dvd := dvd_rfl
  interleave_dvd := dvd_rfl

/-- A second id is counted in a full row: its position gets the slot of the next request. -/
theorem overfullRow_shares_slot : ∃ tables : narrowConfig.Rank → CpBlockTable,
    (∀ k, narrowConfig.build k [([3], 0), ([4], 0), ([5], 1)] = .ok (tables k)) ∧
      ¬SlotPartition narrowConfig 2 (managerBlocks [([3], 0), ([4], 0), ([5], 1)])
        fun k r p => ((tables k).commitBlockTable 2).slotId r p := by
  let rank : narrowConfig.Rank := (⟨0, Nat.one_pos⟩, ⟨0, Nat.one_pos⟩)
  have htables : ∃ tables : narrowConfig.Rank → CpBlockTable,
      (∀ k, narrowConfig.build k [([3], 0), ([4], 0), ([5], 1)] = .ok (tables k)) ∧
        ((tables rank).commitBlockTable 2).slotId 0 1 = 5 ∧
        ((tables rank).commitBlockTable 2).slotId 1 0 = 5 :=
    ⟨_, fun k => rfl, by decide, by decide⟩
  rcases htables with ⟨tables, hbuild, hfirst, hsecond⟩
  refine ⟨tables, hbuild, fun hslot => ?_⟩
  have hsame := hslot.distinct rank 0 1 1 0 ⟨by decide, by decide⟩ ⟨by decide, by decide⟩
    (by rw [hfirst]; decide) (hfirst.trans hsecond.symm)
  exact absurd hsame.1 (by decide)

end Vllm.Worker
