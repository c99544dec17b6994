import Vllm.Moe.AlignCorrect

/-! `moe_lora_align_block_size_kernel`: for every LoRA slot one block of threads counts the routes of
its tokens and another one fills the sorted ids. Both reset the total of the slot before that. -/
namespace Vllm.Moe
open GridLoop List

/-- The arguments of a launch outside the small batch mode, where a slot has two blocks. -/
structure LoraLaunch extends AlignConfig where
  maxLoras : ℕ
  numTokens : ℕ
  topkNum : ℕ
  topkIds : List ℤ
  tokenLoraMapping : ℕ → ℤ
  adapterEnabled : ℕ → ℤ
  expertMap : Option ExpertMap
  maxNumTokensPadded : ℕ
  maxNumMBlocks : ℕ
  topkNum_pos : 0 < topkNum
  numel_eq : topkIds.length = numTokens * topkNum
  blockDim_eq : toAlignConfig.threads = 1024
  wellFormed : ∀ m ∈ expertMap, m.WellFormed numExperts
  large : ¬(topkIds.length < 1024 ∧ numExperts ≤ 64)

/-- The device memory that the blocks of a launch write to. -/
structure LoraMemory where
  totalTokensPostPad : ℕ → ℕ
  tokenMask : ℕ → ℤ
  cumsum : ℕ → ℕ
  expertIds : ℕ → ℤ
  sortedTokenIds : ℕ → ℤ

/-- How the threads of a block get through: the shared memory that they find, and the order of the
writes in each phase between two barriers. -/
structure BlockSchedule where
  shared : ℕ → ℕ
  order : ℕ → {A : Type} → List A → List A
  order_perm : ∀ phase {A : Type} (l : List A), (order phase l).Perm l

namespace LoraLaunch
variable (launch : LoraLaunch)

/-- The slot of a LoRA id, unless the kernel returns at once. -/
def slot (loraId : ℤ) : Option ℕ :=
  if loraId = -1 ∨ launch.maxLoras ≤ loraId ∨ launch.adapterEnabled loraId.toNat = 0 then none
  else some loraId.toNat

/-- What thread 0 of either block does first. -/
def prepare (loraId : ℕ) (mem : LoraMemory) : LoraMemory :=
  { mem with
    totalTokensPostPad := Function.update mem.totalTokensPostPad loraId 0
    tokenMask := writeAll mem.tokenMask ((range launch.numTokens).map fun i =>
      (loraId * launch.numTokens + i, if launch.tokenLoraMapping i = loraId then 1 else 0)) }

/-- The expert that an index is counted under, if the mask has its token. -/
def maskedRoute (tokenMask : ℕ → ℤ) (loraId i : ℕ) : Option ℕ :=
  if tokenMask (loraId * launch.numTokens + i / launch.topkNum) = 0 then none
  else kernelRoute launch.numExperts launch.expertMap launch.topkIds i

/-- `shared_counts` after the counting loop. -/
def counts (schedule : BlockSchedule) (tokenMask : ℕ → ℤ) (loraId : ℕ) : ℕ → ℕ :=
  (schedule.order 1 (gridLoop launch.threads launch.topkIds.length)).foldl
    (fun counts i =>
      increment counts ((launch.maskedRoute tokenMask loraId i).map launch.sharedCell))
    (writeAll schedule.shared ((schedule.order 0 launch.zeroCells).map (·, 0)))

/-- The block with an even index. -/
def countBlock (schedule : BlockSchedule) (loraId : ℕ) (mem : LoraMemory) : LoraMemory :=
  let mem := launch.prepare loraId mem
  let counts := launch.counts schedule mem.tokenMask loraId
  let cumsumOffset := (launch.numExperts + 1) * loraId
  let cumsum := writeAll mem.cumsum ((schedule.order 2 (launch.cumsumWrites counts)).map fun w =>
    (cumsumOffset + w.1, w.2))
  { mem with
    cumsum
    totalTokensPostPad := Function.update mem.totalTokensPostPad loraId
      (exclusiveSum (launch.expertCount counts) launch.numExperts)
    expertIds := writeAll mem.expertIds ((schedule.order 3 (launch.idWrites launch.threads
      (fun tid => cumsum (cumsumOffset + tid)) launch.maxNumMBlocks)).map fun w =>
        (launch.maxNumMBlocks * loraId + w.1, w.2)) }

/-- The block with an odd index. -/
def fillBlock (schedule : BlockSchedule) (loraId : ℕ) (mem : LoraMemory) : LoraMemory :=
  let mem := launch.prepare loraId mem
  { mem with
    sortedTokenIds := writeAll mem.sortedTokenIds
      ((schedule.order 0 (gridLoop launch.threads launch.maxNumTokensPadded)).map fun i =>
        (launch.maxNumTokensPadded * loraId + i, (launch.topkIds.length : ℤ))) }

/-- A block of the launch, which leaves the memory alone if its slot is skipped. -/
def execute (block : BlockSchedule → ℕ → LoraMemory → LoraMemory) (schedule : BlockSchedule)
    (loraId : ℤ) (mem : LoraMemory) : LoraMemory :=
  match launch.slot loraId with
  | none => mem
  | some lora => block schedule lora mem

variable {launch} {loraId : ℕ} {mem : LoraMemory} {schedule : BlockSchedule}

theorem prepare_tokenMask_add {j : ℕ} (hj : j < launch.numTokens) :
    (launch.prepare loraId mem).tokenMask (loraId * launch.numTokens + j) =
      if launch.tokenLoraMapping j = loraId then 1 else 0 := by
  refine writeAll_of_mem (mem_map.mpr ⟨j, mem_range.mpr hj, rfl⟩) fun v hv => ?_
  rcases mem_map.mp hv with ⟨k, -, hk⟩
  rcases Prod.mk.inj hk with ⟨hcell, rfl⟩
  have hjk : k = j := by omega
  rw [hjk]

theorem prepare_tokenMask_of_eq {mem' : LoraMemory}
    (h : mem'.tokenMask = (launch.prepare loraId mem).tokenMask) :
    (launch.prepare loraId mem').tokenMask = (launch.prepare loraId mem).tokenMask := by
  funext c
  by_cases hc : ∃ j < launch.numTokens, c = loraId * launch.numTokens + j
  · rcases hc with ⟨j, hj, rfl⟩
    rw [prepare_tokenMask_add hj, prepare_tokenMask_add hj]
  · rw [← h]
    apply writeAll_of_notMem
    intro v hv
    rcases mem_map.mp hv with ⟨j, hj, hk⟩
    exact hc ⟨j, mem_range.mp hj, (Prod.mk.inj hk).1.symm⟩

theorem prepare_tokenMask {i : ℕ} (hi : i < launch.topkIds.length) :
    (launch.prepare loraId mem).tokenMask (loraId * launch.numTokens + i / launch.topkNum) =
      if launch.tokenLoraMapping (i / launch.topkNum) = loraId then 1 else 0 :=
  prepare_tokenMask_add
    ((Nat.div_lt_iff_lt_mul launch.topkNum_pos).mpr (launch.numel_eq ▸ hi))

theorem counts_eq (tokenMask : ℕ → ℤ) {e : ℕ} (he : e < launch.numExperts) :
    launch.counts schedule tokenMask loraId e = (range launch.topkIds.length).countP fun i =>
      launch.maskedRoute tokenMask loraId i = some e := by
  have hthreads : 0 < launch.threads := by
    rw [launch.blockDim_eq]
    norm_num
  have hzero : writeAll schedule.shared ((schedule.order 0 launch.zeroCells).map (·, 0)) e = 0 :=
    writeAll_const ((schedule.order_perm 0 _).mem_iff.mpr (mem_zeroCells he))
  have hperm := (schedule.order_perm 1 _).trans (gridLoop_perm launch.topkIds.length hthreads)
  have hid : launch.sharedCell = id := funext launch.sharedCell_eq
  simp only [counts, hid, Option.map_id, id]
  rw [foldl_increment, hzero, hperm.countP_eq, Nat.zero_add]

/-- The total is 0 if and only if no token of the adapter has a route to one of the experts. -/
theorem total_eq_zero_iff :
    (launch.countBlock schedule loraId mem).totalTokensPostPad loraId = 0 ↔
      ∀ i < launch.topkIds.length, launch.tokenLoraMapping (i / launch.topkNum) = loraId →
        ∀ e < launch.numExperts,
          kernelRoute launch.numExperts launch.expertMap launch.topkIds i ≠ some e := by
  have hmask : ∀ i < launch.topkIds.length, ∀ e,
      launch.maskedRoute (launch.prepare loraId mem).tokenMask loraId i = some e ↔
        launch.tokenLoraMapping (i / launch.topkNum) = loraId ∧
          kernelRoute launch.numExperts launch.expertMap launch.topkIds i = some e := by
    intro i hi e
    rw [maskedRoute, prepare_tokenMask hi]
    by_cases h : launch.tokenLoraMapping (i / launch.topkNum) = loraId <;> simp [h]
  have htotal : (launch.countBlock schedule loraId mem).totalTokensPostPad loraId =
      exclusiveSum (launch.expertCount (launch.counts schedule
        (launch.prepare loraId mem).tokenMask loraId)) launch.numExperts :=
    Function.update_self _ _ _
  rw [htotal, exclusiveSum, Finset.sum_eq_zero_iff]
  have hcount : ∀ e < launch.numExperts, launch.expertCount (launch.counts schedule
      (launch.prepare loraId mem).tokenMask loraId) e = 0 ↔ ∀ i < launch.topkIds.length,
        launch.maskedRoute (launch.prepare loraId mem).tokenMask loraId i ≠ some e := by
    intro e he
    have hle := le_ceilDiv_mul (x := launch.counts schedule
      (launch.prepare loraId mem).tokenMask loraId e) launch.blockSize_pos
    rw [AlignConfig.expertCount, if_pos he, launch.sharedCell_eq]
    rw [counts_eq _ he] at hle ⊢
    constructor
    · intro h i hi hroute
      have hnone := countP_eq_zero.mp (Nat.le_zero.mp (by rwa [h] at hle)) i (mem_range.mpr hi)
      exact hnone (decide_eq_true hroute)
    · intro h
      rw [countP_eq_zero.mpr fun i hi => by simpa using h i (mem_range.mp hi), Nat.mul_eq_zero]
      exact .inl (Nat.div_eq_of_lt (by have := launch.blockSize_pos; omega))
  constructor
  · intro h i hi hlora e he hroute
    exact (hcount e he).mp (h e (Finset.mem_range.mpr he)) i hi ((hmask i hi e).mpr ⟨hlora, hroute⟩)
  · intro h e he
    rw [Finset.mem_range] at he
    refine (hcount e he).mpr fun i hi hroute => ?_
    exact h i hi ((hmask i hi e).mp hroute).1 e he ((hmask i hi e).mp hroute).2

variable {fillSchedule : BlockSchedule}

theorem expertIds_comm :
    (launch.countBlock schedule loraId (launch.fillBlock fillSchedule loraId mem)).expertIds =
      (launch.countBlock schedule loraId mem).expertIds := by
  have hmask : (launch.prepare loraId (launch.fillBlock fillSchedule loraId mem)).tokenMask =
      (launch.prepare loraId mem).tokenMask := prepare_tokenMask_of_eq rfl
  simp only [countBlock, hmask]
  rfl

/-- The slot's adapter is enabled and one of its tokens has a route to an expert. -/
def HasRoutes (launch : LoraLaunch) (loraId : ℕ) : Prop :=
  ∃ i < launch.topkIds.length, launch.tokenLoraMapping (i / launch.topkNum) = loraId ∧
    ∃ e < launch.numExperts, kernelRoute launch.numExperts launch.expertMap launch.topkIds i = some e

/-- The two blocks of a slot leave the same outputs in both orders if and only if the slot is
skipped or none of its tokens has a route: the block that fills resets the total after the count. -/
theorem blocks_commute_iff (launch : LoraLaunch) (countSchedule fillSchedule : BlockSchedule)
    (loraId : ℤ) (mem : LoraMemory) :
    (let countFirst := launch.execute launch.fillBlock fillSchedule loraId
        (launch.execute launch.countBlock countSchedule loraId mem)
     let fillFirst := launch.execute launch.countBlock countSchedule loraId
        (launch.execute launch.fillBlock fillSchedule loraId mem)
     countFirst.totalTokensPostPad = fillFirst.totalTokensPostPad ∧
       countFirst.expertIds = fillFirst.expertIds ∧
       countFirst.sortedTokenIds = fillFirst.sortedTokenIds) ↔
    ∀ lora ∈ launch.slot loraId, ¬launch.HasRoutes lora := by
  simp only [execute]
  rcases launch.slot loraId with _ | lora
  · simp
  · have hzero := @total_eq_zero_iff launch lora (launch.fillBlock fillSchedule lora mem)
      countSchedule
    have hcommute : Function.update (launch.countBlock countSchedule lora mem).totalTokensPostPad
        lora 0 = (launch.countBlock countSchedule lora
          (launch.fillBlock fillSchedule lora mem)).totalTokensPostPad ↔
        (launch.countBlock countSchedule lora
          (launch.fillBlock fillSchedule lora mem)).totalTokensPostPad lora = 0 := by
      constructor
      · intro h
        rw [← h, Function.update_self]
      · intro h
        funext id
        by_cases hid : id = lora
        · rw [hid, Function.update_self, h]
        · simp [hid, countBlock, fillBlock, prepare]
    simp only [Option.mem_def, Option.some.injEq, forall_eq']
    rw [HasRoutes]
    push Not
    rw [← hzero, ← hcommute]
    exact ⟨fun h => h.1, fun h => ⟨h, expertIds_comm.symm, rfl⟩⟩

end LoraLaunch

/-- One token of the adapter in slot 0, with a route to the first of 65 experts. -/
def oneRouteLaunch : LoraLaunch :=
  { toAlignConfig := ⟨65, 4, 32, twoExperts.blockSize_pos, twoExperts.warpSize_pos, by decide⟩
    maxLoras := 1
    numTokens := 1
    topkNum := 1
    topkIds := [0]
    tokenLoraMapping := fun _ => 0
    adapterEnabled := fun _ => 1
    expertMap := none
    maxNumTokensPadded := 4
    maxNumMBlocks := 1
    topkNum_pos := Nat.one_pos
    numel_eq := rfl
    blockDim_eq := by decide
    wellFormed := by simp
    large := by decide }

def inOrder : BlockSchedule := ⟨fun _ => 0, fun _ _ l => l, fun _ _ l => .refl l⟩

/-- The fill after the count leaves no tokens in the slot, the count after the fill some. -/
theorem blocks_differ_oneRoute :
    let mem : LoraMemory := ⟨fun _ => 0, fun _ => 0, fun _ => 0, fun _ => 0, fun _ => 0⟩
    (oneRouteLaunch.execute oneRouteLaunch.fillBlock inOrder 0
      (oneRouteLaunch.execute oneRouteLaunch.countBlock inOrder 0 mem)).totalTokensPostPad 0 = 0 ∧
    (oneRouteLaunch.execute oneRouteLaunch.countBlock inOrder 0
      (oneRouteLaunch.execute oneRouteLaunch.fillBlock inOrder 0 mem)).totalTokensPostPad 0 ≠ 0 := by
  have hslot : oneRouteLaunch.slot 0 = some 0 := rfl
  simp only [LoraLaunch.execute, hslot]
  constructor
  · simp only [LoraLaunch.fillBlock, LoraLaunch.prepare, Function.update_self]
  · intro h
    exact LoraLaunch.total_eq_zero_iff.mp h 0 (by decide) rfl 0 (by decide) rfl

end Vllm.Moe
