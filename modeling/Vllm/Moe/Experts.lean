import Mathlib.Algebra.Module.Basic
import Vllm.Moe.AlignSmallBatch

/-! `TritonExperts.apply` over exact arithmetic: two grouped GEMMs around an activation, and the
reduction of the top-k rows. A row is what a GEMM writes for one route. The rows that the two GEMMs
leave in the caches. The receiving side of DeepEP high throughput: the fixed-capacity path that
keeps the raw local ids, and the baseline path that moves them back to the global expert space. -/
namespace Vllm.Moe
open GridLoop

/-- What a layer computes for a row: the two weight tensors by local expert id, with the
activation between them. -/
structure ExpertLayer (X H A Y : Type) where
  w1 : ℤ → X → H
  activation : H → A
  w2 : ℤ → A → Y

/-- The routed tokens: `topkIds` and `topkWeights` in row-major order. -/
structure RoutedTokens (X S : Type) where
  numTokens : ℕ
  topK : ℕ
  topkIds : List ℤ
  length_topkIds : topkIds.length = numTokens * topK
  topkWeights : ℕ → S
  hiddenStates : ℕ → X

section FusedMoe
variable {β : Type} [Zero β]

/-- The writes of the program for block `pidM` of `fused_moe_kernel`. A block of an expert
of another rank gets zeros. -/
def fusedMoeBlock (out : AlignOutput) (blockSize numValidTokens : ℕ) (row : ℕ → ℤ → β)
    (pidM : ℕ) : List (ℕ × β) :=
  if out.numTokensPostPad ≤ pidM * blockSize then []
  else
    let offsToken := (List.range blockSize).map fun offs =>
      out.sortedTokenIds (pidM * blockSize + offs)
    let offExperts := out.expertIds pidM
    (offsToken.filter (· < (numValidTokens : ℤ))).map fun token =>
      (token.toNat, if offExperts = -1 then 0 else row token.toNat offExperts)

/-- The number of sorted entries that the grid covers. -/
def gridEntries (capacity rows topK blockSize : ℕ) : ℕ :=
  if rows < blockSize then min capacity (rows * topK * blockSize) else capacity

/-- All the writes of a launch on an input of `rows` rows. -/
def invokeFusedMoeTritonKernel (out : AlignOutput) (capacity rows topK blockSize : ℕ)
    (row : ℕ → ℤ → β) : List (ℕ × β) :=
  (List.range (ceilDiv (gridEntries capacity rows topK blockSize) blockSize)).flatMap
    (fusedMoeBlock out blockSize (rows * topK) row)

end FusedMoe

/-- The local expert that `moe_ep_masked_silu_and_mul_kernel` loads for a row. -/
def maskedLocalExpert (expertMap : ExpertMap) (topkIds : List ℤ) (topK pidM : ℕ) : ℤ :=
  let routeIdx := pidM % topK
  let tokenIdx := pidM / topK
  let expertId := topkIds.getD (tokenIdx * topK + routeIdx) (-1)
  if 0 ≤ expertId then expertMap.read expertId else -1

/-- The local expert that `moe_fused_mul_sum_kernel` loads for a route. -/
def mulSumLocalExpert (expertMap : ExpertMap) (topkIds : List ℤ) (topK m n : ℕ) : ℤ :=
  let id := topkIds.getD (m * topK + n) (-1)
  if 0 ≤ id ∧ id < expertMap.size then expertMap.read id else -1

section Reduce
variable {S Y : Type} [Semiring S] [AddCommMonoid Y] [Module S Y]

/-- One row of `moe_fused_mul_sum`: a route without a local expert counts as zero. -/
def moeFusedMulSum (inputs : ℕ → Y) (topkWeights : ℕ → S) (topK : ℕ) (topkIds : List ℤ)
    (expertMap : ExpertMap) (m : ℕ) : Y :=
  (List.range topK).foldl (fun acc n =>
    acc + topkWeights (m * topK + n) •
      (if 0 ≤ mulSumLocalExpert expertMap topkIds topK m n then inputs (m * topK + n) else 0)) 0

/-- One row of `moe_sum`. -/
def moeSum (inputs : ℕ → Y) (topK m : ℕ) : Y :=
  (List.range topK).foldl (fun acc n => acc + inputs (m * topK + n)) 0

end Reduce

/-- The content of the workspaces. `intermediate_cache3` lies over `intermediate_cache1`, so
what it holds depends on the rows written there. -/
structure Workspaces (H A Y : Type) where
  cache1 : ℕ → H
  cache2 : ℕ → A
  cache3 : (ℕ → H) → ℕ → Y

/-- How the experts are assigned: the alignments of the two GEMMs differ in their block
size only. -/
structure Assignment where
  w1Config : AlignConfig
  w2Config : AlignConfig
  numExperts_eq : w2Config.numExperts = w1Config.numExperts
  expertMap : ExpertMap
  ignoreInvalidExperts : Bool
  maskedActivation : Bool

section Apply
variable {X H A Y S : Type} [Zero H] [Semiring S] [AddCommMonoid Y] [Module S Y]
  (layer : ExpertLayer X H A Y) (tokens : RoutedTokens X S) (asg : Assignment)

def Assignment.kernelMap : Option ExpertMap :=
  Moe.kernelMap (some asg.expertMap) asg.ignoreInvalidExperts

def Assignment.capacity (cfg : AlignConfig) (numel : ℕ) : ℕ :=
  maxNumTokensPadded numel cfg.blockSize cfg.numExperts false

/-- The first GEMM computes a row from the hidden states of the route's token. -/
def w1Row (token : ℕ) (expert : ℤ) : H :=
  layer.w1 expert (tokens.hiddenStates (token / tokens.topK))

/-- The second one applies the router weight unless the reduction does. -/
def w2Row (cache2 : ℕ → A) (token : ℕ) (expert : ℤ) : Y :=
  if asg.ignoreInvalidExperts then layer.w2 expert (cache2 token)
  else tokens.topkWeights token • layer.w2 expert (cache2 token)

/-- `intermediate_cache2` after the activation, masked or not. -/
def activate (cache1 : ℕ → H) (cache2 : ℕ → A) (pidM : ℕ) : A :=
  if asg.maskedActivation then
    if pidM < tokens.numTokens * tokens.topK ∧
        0 ≤ maskedLocalExpert asg.expertMap tokens.topkIds tokens.topK pidM then
      layer.activation (cache1 pidM)
    else cache2 pidM
  else layer.activation (cache1 pidM)

/-- One execution of `apply`: the runs of the alignments, the content of the workspaces and
the orders of the GEMMs' writes. -/
structure ExpertsRun where
  w1Align : KernelRun asg.w1Config asg.kernelMap tokens.topkIds
    (Assignment.capacity asg.w1Config tokens.topkIds.length)
  w2Align : KernelRun asg.w2Config asg.kernelMap tokens.topkIds
    (Assignment.capacity asg.w2Config tokens.topkIds.length)
  workspaces : Workspaces H A Y
  w1Order : List (ℕ × H)
  w1Order_perm : w1Order.Perm (invokeFusedMoeTritonKernel
    (moeAlignBlockSize (some asg.expertMap) asg.ignoreInvalidExperts w1Align.output)
    (Assignment.capacity asg.w1Config tokens.topkIds.length) tokens.numTokens tokens.topK
    asg.w1Config.blockSize (w1Row layer tokens))
  w2Order : List (ℕ × Y)
  w2Order_perm : w2Order.Perm (invokeFusedMoeTritonKernel
    (moeAlignBlockSize (some asg.expertMap) asg.ignoreInvalidExperts w2Align.output)
    (Assignment.capacity asg.w2Config tokens.topkIds.length)
    (tokens.numTokens * tokens.topK) 1 asg.w2Config.blockSize
    (w2Row layer tokens asg (activate layer tokens asg
      (writeAll workspaces.cache1 w1Order) workspaces.cache2)))

namespace ExpertsRun
variable {layer tokens asg} (run : ExpertsRun layer tokens asg)

def cache1 : ℕ → H := writeAll run.workspaces.cache1 run.w1Order

def cache2 : ℕ → A := activate layer tokens asg run.cache1 run.workspaces.cache2

def cache3 : ℕ → Y := writeAll (run.workspaces.cache3 run.cache1) run.w2Order

/-- The row of a token in the output. -/
def output (m : ℕ) : Y :=
  if asg.ignoreInvalidExperts then
    moeFusedMulSum run.cache3 tokens.topkWeights tokens.topK tokens.topkIds asg.expertMap m
  else moeSum run.cache3 tokens.topK m

end ExpertsRun

end Apply

section FusedMoe
variable {β : Type} [Zero β] {route : ℕ → Option ℕ} {numel blockSize n capacity : ℕ}
  {expertOf : ℕ → ℤ} {out : AlignOutput} {rows topK : ℕ} {row : ℕ → ℤ → β}

section
variable (h : Aligned route numel blockSize n capacity expertOf out)
include h

theorem Aligned.blockSize_dvd : blockSize ∣ out.numTokensPostPad := by
  rw [h.numTokensPostPad]
  exact Finset.dvd_sum fun _ _ => Dvd.intro_left _ rfl

theorem Aligned.le_gridEntries (hb : 0 < blockSize) (hrows : rows * topK = numel) :
    out.numTokensPostPad ≤ gridEntries capacity rows topK blockSize := by
  rw [gridEntries]
  split
  · refine le_min h.fits ?_
    rw [hrows, h.numTokensPostPad]
    exact blockStart_le_mul route numel hb n
  · exact h.fits

theorem Aligned.of_mem_writes (hb : 0 < blockSize) (hrows : rows * topK = numel) {c : ℕ} {v : β}
    (hw : (c, v) ∈ invokeFusedMoeTritonKernel out capacity rows topK blockSize row) :
    ∃ r e, r < out.numTokensPostPad ∧ out.sortedTokenIds r = c ∧ c < numel ∧ route c = some e ∧
      v = if expertOf e = -1 then 0 else row c (expertOf e) := by
  obtain ⟨pidM, -, hw⟩ := List.mem_flatMap.mp hw
  rw [fusedMoeBlock] at hw
  split at hw
  · exact absurd hw (by simp)
  · rename_i hpid
    obtain ⟨token, htoken, hv⟩ := List.mem_map.mp hw
    cases hv
    obtain ⟨htoken, hvalid⟩ := List.mem_filter.mp htoken
    obtain ⟨offs, hoffs, rfl⟩ := List.mem_map.mp htoken
    have hoffs := List.mem_range.mp hoffs
    obtain ⟨q, hq⟩ := h.blockSize_dvd
    have hpq : pidM + 1 ≤ q := by
      by_contra hc
      have := Nat.mul_le_mul_right blockSize (show q ≤ pidM by omega)
      rw [hq, Nat.mul_comm] at hpid
      omega
    have hr : pidM * blockSize + offs < out.numTokensPostPad := by
      have := Nat.mul_le_mul_right blockSize hpq
      rw [hq, Nat.mul_comm blockSize q]
      rw [Nat.add_mul] at this
      omega
    have hdiv : (pidM * blockSize + offs) / blockSize = pidM := by
      rw [Nat.add_comm, Nat.add_mul_div_right _ _ hb, Nat.div_eq_of_lt hoffs, Nat.zero_add]
    rcases h.others _ hr with ⟨i, hi, hne, hm⟩ | hm
    · obtain ⟨e, he⟩ := Option.ne_none_iff_exists'.mp hne
      have hid := h.in_block i hi e _ he hr hm
      rw [hdiv] at hid
      refine ⟨pidM * blockSize + offs, e, hr, ?_, ?_, ?_, ?_⟩ <;> rw [hm]
      · simp
      · simpa using hi
      · simpa using he
      · simp [hid]
    · rw [hm, hrows] at hvalid
      simp at hvalid

theorem Aligned.scheduled_row (hb : 0 < blockSize) (hrows : rows * topK = numel)
    {order : List (ℕ × β)}
    (hperm : order.Perm (invokeFusedMoeTritonKernel out capacity rows topK blockSize row))
    (mem : ℕ → β) {i e : ℕ} (hi : i < numel) (he : route i = some e) :
    writeAll mem order i = if expertOf e = -1 then 0 else row i (expertOf e) := by
  obtain ⟨r, ⟨hr, hm⟩, -⟩ := h.scheduled_once i hi (by simp [he])
  have hid := h.in_block i hi e r he hr hm
  refine writeAll_of_mem (hperm.mem_iff.mpr ?_) fun v hv => ?_
  · refine List.mem_flatMap.mpr ⟨r / blockSize, List.mem_range.mpr ?_, ?_⟩
    · rw [lt_ceilDiv_iff hb]
      have := Nat.div_mul_le_self r blockSize
      have := h.le_gridEntries hb hrows
      omega
    · have hle : ¬out.numTokensPostPad ≤ r / blockSize * blockSize := by
        have := Nat.div_mul_le_self r blockSize
        omega
      rw [fusedMoeBlock, if_neg hle]
      refine List.mem_map.mpr ⟨(i : ℤ), List.mem_filter.mpr ⟨?_, ?_⟩, by simp [hid]⟩
      · refine List.mem_map.mpr ⟨r % blockSize, List.mem_range.mpr (Nat.mod_lt r hb), ?_⟩
        rw [Nat.div_add_mod', hm]
      · rw [hrows]
        simpa using hi
  · obtain ⟨r', e', -, -, -, he', rfl⟩ := h.of_mem_writes hb hrows (hperm.mem_iff.mp hv)
    rw [he] at he'
    cases he'
    rfl

theorem Aligned.skipped_row (hb : 0 < blockSize) (hrows : rows * topK = numel)
    {order : List (ℕ × β)}
    (hperm : order.Perm (invokeFusedMoeTritonKernel out capacity rows topK blockSize row))
    {mem : ℕ → β} {i : ℕ} (hi : route i = none) : writeAll mem order i = mem i := by
  refine writeAll_of_notMem _ fun v hv => ?_
  obtain ⟨r, e, -, -, -, he, -⟩ := h.of_mem_writes hb hrows (hperm.mem_iff.mp hv)
  rw [hi] at he
  exact absurd he (by simp)

end

end FusedMoe

section Apply
variable {X H A Y S : Type} [Zero H] [Semiring S] [AddCommMonoid Y] [Module S Y]
  {layer : ExpertLayer X H A Y} {tokens : RoutedTokens X S} {asg : Assignment}
  (run : ExpertsRun layer tokens asg)

/-- The expert of a route in the alignment of the experts' kernels. -/
def Assignment.route (asg : Assignment) (topkIds : List ℤ) : ℕ → Option ℕ :=
  kernelRoute asg.w1Config.numExperts asg.kernelMap topkIds

theorem KernelRun.wrapper_aligned {cfg : AlignConfig} {ids : List ℤ} {m : ExpertMap}
    {ignore : Bool} (hwf : m.WellFormed cfg.numExperts)
    (run : KernelRun cfg (kernelMap (some m) ignore) ids (Assignment.capacity cfg ids.length)) :
    Aligned (kernelRoute cfg.numExperts (kernelMap (some m) ignore) ids) ids.length
      cfg.blockSize cfg.numExperts (Assignment.capacity cfg ids.length)
      (finalExpert (some m) ignore) (moeAlignBlockSize (some m) ignore run.output) := by
  have hmap : ∀ m' ∈ some m, m'.WellFormed cfg.numExperts := by
    intro m' hm'
    cases hm'
    exact hwf
  exact Aligned.moeAlignBlockSize (run.aligned (kernelMap_wellFormed hmap _)
    (blockStart_le_maxNumTokensPadded _ _ cfg.blockSize_pos cfg.numExperts false)) _ _

namespace ExpertsRun

section
variable (hwf : asg.expertMap.WellFormed asg.w1Config.numExperts)
include hwf

theorem cache3_scheduled {i e : ℕ}
    (hi : i < tokens.topkIds.length) (he : asg.route tokens.topkIds i = some e)
    (hact : asg.maskedActivation = true →
      0 ≤ maskedLocalExpert asg.expertMap tokens.topkIds tokens.topK i)
    (hlocal : finalExpert (some asg.expertMap) asg.ignoreInvalidExperts e ≠ -1) :
    run.cache3 i = (if asg.ignoreInvalidExperts then id else (tokens.topkWeights i • ·))
      (layer.w2 (finalExpert (some asg.expertMap) asg.ignoreInvalidExperts e)
        (layer.activation (layer.w1 (finalExpert (some asg.expertMap) asg.ignoreInvalidExperts e)
          (tokens.hiddenStates (i / tokens.topK))))) := by
  have hlen := tokens.length_topkIds
  have h1 := run.w1Align.wrapper_aligned hwf
  have h2 := run.w2Align.wrapper_aligned (asg.numExperts_eq ▸ hwf)
  have he2 : kernelRoute asg.w2Config.numExperts asg.kernelMap tokens.topkIds i = some e := by
    rw [asg.numExperts_eq]
    exact he
  have hc1 := h1.scheduled_row asg.w1Config.blockSize_pos hlen.symm run.w1Order_perm
    run.workspaces.cache1 hi he
  have hc3 := h2.scheduled_row asg.w2Config.blockSize_pos
    ((Nat.mul_one _).trans hlen.symm) run.w2Order_perm
    (run.workspaces.cache3 run.cache1) hi he2
  rw [if_neg hlocal] at hc1 hc3
  have hc2 : run.cache2 i = layer.activation (run.cache1 i) := by
    simp only [ExpertsRun.cache2, activate]
    split
    · rename_i hmask
      rw [if_pos ⟨hlen ▸ hi, hact hmask⟩]
    · rfl
  rw [ExpertsRun.cache3, hc3, w2Row]
  change (if _ then layer.w2 _ (run.cache2 i) else _ • layer.w2 _ (run.cache2 i)) = _
  rw [hc2, ExpertsRun.cache1, hc1, w1Row]
  split <;> rfl

theorem cache3_zero {i e : ℕ} (hi : i < tokens.topkIds.length)
    (he : asg.route tokens.topkIds i = some e)
    (hlocal : finalExpert (some asg.expertMap) asg.ignoreInvalidExperts e = -1) :
    run.cache3 i = 0 := by
  have h2 := run.w2Align.wrapper_aligned (asg.numExperts_eq ▸ hwf)
  have he2 : kernelRoute asg.w2Config.numExperts asg.kernelMap tokens.topkIds i = some e := by
    rw [asg.numExperts_eq]
    exact he
  have hc3 := h2.scheduled_row asg.w2Config.blockSize_pos
    ((Nat.mul_one _).trans tokens.length_topkIds.symm) run.w2Order_perm
    (run.workspaces.cache3 run.cache1) hi he2
  rwa [if_pos hlocal] at hc3

theorem cache3_skipped {i : ℕ} (hi : asg.route tokens.topkIds i = none) :
    run.cache3 i = run.workspaces.cache3 run.cache1 i := by
  have h2 := run.w2Align.wrapper_aligned (asg.numExperts_eq ▸ hwf)
  have hi2 : kernelRoute asg.w2Config.numExperts asg.kernelMap tokens.topkIds i = none := by
    rw [asg.numExperts_eq]
    exact hi
  exact h2.skipped_row asg.w2Config.blockSize_pos
    ((Nat.mul_one _).trans tokens.length_topkIds.symm) run.w2Order_perm hi2

end

theorem exists_run (layer : ExpertLayer X H A Y) (tokens : RoutedTokens X S) (asg : Assignment)
    (workspaces : Workspaces H A Y) :
    ∃ run : ExpertsRun layer tokens asg, run.workspaces = workspaces := by
  obtain ⟨run1⟩ := KernelRun.nonempty asg.w1Config asg.kernelMap tokens.topkIds
    (Assignment.capacity asg.w1Config tokens.topkIds.length)
  obtain ⟨run2⟩ := KernelRun.nonempty asg.w2Config asg.kernelMap tokens.topkIds
    (Assignment.capacity asg.w2Config tokens.topkIds.length)
  exact ⟨{
    w1Align := run1
    w2Align := run2
    workspaces := workspaces
    w1Order := _
    w1Order_perm := List.Perm.refl _
    w2Order := _
    w2Order_perm := List.Perm.refl _ }, rfl⟩

end ExpertsRun

end Apply

/-- `remap_deepep_ht_topk_ids`. -/
def remapDeepepHtTopkIds (expertTopkIds : List ℤ) (invalidExpertId rankExpertOffset : ℤ) :
    List ℤ :=
  expertTopkIds.map fun v => if v = -1 then invalidExpertId else v + rankExpertOffset

/-- The ids that the receiver returns. -/
def receiverTopkIds (useFixedCapacityRawIds : Bool) (numExperts rankExpertOffset : ℤ)
    (expertTopkIds : List ℤ) : List ℤ :=
  if useFixedCapacityRawIds then expertTopkIds
  else
    let invalidExpertId := if rankExpertOffset = 0 then numExperts - 1 else 0
    remapDeepepHtTopkIds expertTopkIds invalidExpertId rankExpertOffset

/-- The map of `determine_expert_map` for linear placement, with the memory around it. -/
def determineExpertMap (epSize epRank globalNumExperts : ℕ) (memory : ℤ → ℤ)
    (h : globalNumExperts < 2 ^ 31) : ExpertMap where
  size := globalNumExperts
  read i :=
    let baseExperts := globalNumExperts / epSize
    let remainder := globalNumExperts % epSize
    let localNumExperts := if epRank < remainder then baseExperts + 1 else baseExperts
    let startIdx := epRank * baseExperts + min epRank remainder
    if 0 ≤ i ∧ i < globalNumExperts then
      if (startIdx : ℤ) ≤ i ∧ i < startIdx + localNumExperts then i - startIdx else -1
    else memory i
  size_lt := h

/-- `_get_local_expert_map`, with the memory around it. -/
def getLocalExpertMap (localNumExperts : ℕ) (memory : ℤ → ℤ)
    (h : localNumExperts + 1 < 2 ^ 31) : ExpertMap where
  size := localNumExperts + 1
  read i :=
    if 0 ≤ i ∧ i < localNumExperts then i
    else if i = localNumExperts then -1
    else memory i
  size_lt := h

/-- Experts spread evenly and in order over the ranks of an expert-parallel group. -/
structure Placement where
  localNumExperts : ℕ
  epSize : ℕ
  rank : ℕ
  local_pos : 0 < localNumExperts
  one_lt_epSize : 1 < epSize
  rank_lt : rank < epSize

namespace Placement
variable (p : Placement)

def globalNumExperts : ℕ := p.localNumExperts * p.epSize

def rankExpertOffset : ℕ := p.rank * p.localNumExperts

/-- What `expert_assignment_params` and the experts select for raw local ids. -/
def rawLocalAssignment (memory : ℤ → ℤ) (w1Config w2Config : AlignConfig)
    (h1 : w1Config.numExperts = p.localNumExperts) (h2 : w2Config.numExperts = p.localNumExperts)
    (maskedActivation : Bool) : Assignment where
  w1Config := w1Config
  w2Config := w2Config
  numExperts_eq := h2.trans h1.symm
  expertMap := getLocalExpertMap p.localNumExperts memory
    (by have := w1Config.numExperts_lt; omega)
  ignoreInvalidExperts := true
  maskedActivation := maskedActivation

/-- What they select on the baseline path. -/
def baselineAssignment (memory : ℤ → ℤ) (w1Config w2Config : AlignConfig)
    (h1 : w1Config.numExperts = p.globalNumExperts)
    (h2 : w2Config.numExperts = p.globalNumExperts) : Assignment where
  w1Config := w1Config
  w2Config := w2Config
  numExperts_eq := h2.trans h1.symm
  expertMap := determineExpertMap p.epSize p.rank p.globalNumExperts memory
    (by have := w1Config.numExperts_lt; omega)
  ignoreInvalidExperts := false
  maskedActivation := false

/-- The baseline path receives the first rows, without the padding up to the capacity. -/
def baselineTokens {X S : Type} (received : RoutedTokens X S) (rows : ℕ)
    (h : rows ≤ received.numTokens) : RoutedTokens X S where
  numTokens := rows
  topK := received.topK
  topkIds := receiverTopkIds false p.globalNumExperts p.rankExpertOffset
    (received.topkIds.take (rows * received.topK))
  length_topkIds := by
    have := Nat.mul_le_mul_right received.topK h
    simp [receiverTopkIds, remapDeepepHtTopkIds, received.length_topkIds, this]
  topkWeights := received.topkWeights
  hiddenStates := received.hiddenStates

end Placement

end Vllm.Moe
