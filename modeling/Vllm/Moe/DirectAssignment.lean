import Mathlib.Algebra.Order.Ring.Star
import Vllm.Lib.Raise
import Vllm.Moe.AlignAgreement
import Vllm.Moe.FastPath

/-! `deepep_ht_prepare_expert_assignment`: the schedule of the experts from the counts that the
dispatcher sends along, and its agreement with `moe_align_block_size` on the remapped ids. -/
namespace Vllm.Moe
open GridLoop List Nat

/-- What the two kernels read. -/
structure DirectSchedule where
  topkIds : List ℤ
  expertCounts : List ℕ
  numLocalExperts : ℕ
  includeInvalid : Bool
  blockSizeM : ℕ

namespace DirectSchedule
variable (s : DirectSchedule)

def expertCount (e : ℕ) : ℕ := s.expertCounts.getD e 0

def paddedCount (e : ℕ) : ℕ := ceilDiv (s.expertCount e) s.blockSizeM * s.blockSizeM

/-- `expert_offsets`, the sums of the padded counts before. -/
def expertOffset (e : ℕ) : ℕ := ∑ e' ∈ Finset.range e, s.paddedCount e'

def numTokensPostPadded : ℕ := ∑ e ∈ Finset.range s.expertCounts.length, s.paddedCount e

/-- The stores of a program of `_fill_expert_ids_kernel`. -/
def fillExpertIds (blocksPerProgram expertIdx blockChunk : ℕ) : List (ℕ × ℤ) :=
  let blockOffsets := (List.range blocksPerProgram).map (blockChunk * blocksPerProgram + ·)
  let numBlocks := ceilDiv (s.expertCount expertIdx) s.blockSizeM
  let start := s.expertOffset expertIdx / s.blockSizeM
  let expertId : ℤ := if expertIdx < s.numLocalExperts then expertIdx else -1
  (blockOffsets.filter fun b => expertIdx < s.expertCounts.length ∧ b < numBlocks).map fun b =>
    (start + b, expertId)

/-- All the stores to `expert_ids`. -/
def expertIdWrites : List (ℕ × ℤ) :=
  let blocksPerProgram := 64
  let maxBlocksPerExpert := ceilDiv s.topkIds.length s.blockSizeM
  if 0 < maxBlocksPerExpert then
    (List.range s.expertCounts.length).flatMap fun expertIdx =>
      (List.range (ceilDiv maxBlocksPerExpert blocksPerProgram)).flatMap fun blockChunk =>
        s.fillExpertIds blocksPerProgram expertIdx blockChunk
  else []

/-- The offsets that the programs of `_scatter_token_ids_kernel` visit. -/
def scatterOffsets : List ℕ :=
  let blockSize := 256
  ((List.range (ceilDiv s.topkIds.length blockSize)).flatMap fun pid =>
    (List.range blockSize).map (pid * blockSize + ·)).filter (· < s.topkIds.length)

/-- The expert under which a route is scheduled, if it is. -/
def scheduleExpert (id : ℤ) : Option ℕ :=
  if 0 ≤ id ∧ id < s.numLocalExperts then some id.toNat
  else if s.includeInvalid then some s.numLocalExperts
  else none

def scatterKey (i : ℕ) : Option ℕ :=
  if i ∈ s.scatterOffsets then s.topkIds[i]?.bind s.scheduleExpert else none

end DirectSchedule

/-- One execution of the two kernels. A ticket is the position that the atomic addition returns,
with the offset of the expert added. -/
structure DirectRun (s : DirectSchedule) where
  idOrder : List (ℕ × ℤ)
  idOrder_perm : idOrder.Perm s.expertIdWrites
  events : List (Tickets.Event ℕ)
  final : Tickets.State ℕ ℕ ℤ
  ran : Tickets.run s.scatterKey (fun i => (i : ℤ))
    (.init s.expertOffset fun _ => (s.topkIds.length : ℤ)) events = some final
  complete : Tickets.Complete s.scatterKey final

namespace DirectRun
variable {s : DirectSchedule} (run : DirectRun s)

def output : AlignOutput where
  sortedTokenIds := run.final.mem
  expertIds := writeAll (fun _ => -1) run.idOrder
  numTokensPostPad := s.numTokensPostPadded

end DirectRun

section Routes

theorem mem_blocks_iff {route : ℕ → Option ℕ} {numel blockSize e r : ℕ} (hb : 0 < blockSize) :
    (blockStart route numel blockSize e ≤ r ∧ r < blockStart route numel blockSize (e + 1)) ↔
      ∃ b < ceilDiv (routeCount route numel e) blockSize,
        r / blockSize = blockStart route numel blockSize e / blockSize + b := by
  obtain ⟨q, hq⟩ := blockSize_dvd_blockStart route numel blockSize e
  rw [blockStart_succ, hq, Nat.mul_div_cancel_left q hb, Nat.mul_comm, ← Nat.add_mul,
    ← Nat.le_div_iff_mul_le hb, ← Nat.div_lt_iff_lt_mul hb]
  constructor
  · rintro ⟨h1, h2⟩
    exact ⟨r / blockSize - q, by omega, by omega⟩
  · rintro ⟨b, hlt, heq⟩
    exact ⟨by omega, by omega⟩

end Routes

namespace DirectSchedule
variable (s : DirectSchedule)

theorem mem_scatterOffsets {i : ℕ} : i ∈ s.scatterOffsets ↔ i < s.topkIds.length := by
  unfold scatterOffsets
  simp only [mem_filter, mem_flatMap, mem_range, mem_map, decide_eq_true_eq, and_iff_right_iff_imp]
  intro hi
  have hdiv := div_add_mod' i 256
  have hmod := mod_lt i (show 0 < 256 by norm_num)
  exact ⟨i / 256, (lt_ceilDiv_iff (by norm_num)).mpr (by omega), i % 256, hmod, hdiv⟩

theorem scatterKey_eq (i : ℕ) : s.scatterKey i = s.topkIds[i]?.bind s.scheduleExpert := by
  unfold scatterKey
  split
  · rfl
  · next hi =>
    rw [mem_scatterOffsets, not_lt] at hi
    rw [List.getElem?_eq_none hi]
    rfl

/-- The counts are those of the routes that are scheduled. -/
def Counted : Prop :=
  ∀ e, s.expertCount e = routeCount s.scatterKey s.topkIds.length e

variable {s}

variable {e : ℕ}

theorem scatterKey_lt {i : ℕ} (h : s.scatterKey i = some e) :
    i < s.topkIds.length ∧ e < s.numLocalExperts + 1 := by
  rw [scatterKey_eq] at h
  obtain ⟨id, hid, he⟩ := Option.bind_eq_some_iff.mp h
  refine ⟨(List.getElem?_eq_some_iff.mp hid).1, ?_⟩
  unfold scheduleExpert at he
  split_ifs at he <;> obtain rfl := Option.some.inj he <;> omega

theorem Counted.expertOffset_eq (h : s.Counted) (e : ℕ) :
    s.expertOffset e = blockStart s.scatterKey s.topkIds.length s.blockSizeM e := by
  unfold DirectSchedule.expertOffset blockStart DirectSchedule.paddedCount
  simp only [h _]

end DirectSchedule

namespace DirectRun
variable {s : DirectSchedule} (run : DirectRun s)

section
variable (hb : 0 < s.blockSizeM) (hcount : s.Counted)
include hb hcount

theorem ticketsInv :
    Tickets.Inv s.scatterKey (fun i => (i : ℤ)) (Finset.range s.topkIds.length) s.expertOffset
      (fun _ => (s.topkIds.length : ℤ)) run.final := by
  refine Tickets.Inv.init.run ?_ (fun i hi => ?_) run.ran
  · intro e e' r h1 h2 h1' h2'
    rw [hcount.expertOffset_eq] at h1 h2 h1' h2'
    exact blockStart_unique h1 (h2.trans_le (routeCount_end_le _ _ hb e)) h1'
      (h2'.trans_le (routeCount_end_le _ _ hb e'))
  · obtain ⟨e, he⟩ := Option.ne_none_iff_exists'.mp hi
    exact Finset.mem_range.mpr (DirectSchedule.scatterKey_lt he).1

end

theorem nonempty (s : DirectSchedule) : Nonempty (DirectRun s) := by
  obtain ⟨events, final, hrun, hdone⟩ := Tickets.exists_run_complete s.scatterKey
    (fun i => (i : ℤ)) (Finset.range s.topkIds.length)
    (fun i hi => by
      obtain ⟨e, he⟩ := Option.ne_none_iff_exists'.mp hi
      exact Finset.mem_range.mpr (DirectSchedule.scatterKey_lt he).1)
    (.init s.expertOffset fun _ => (s.topkIds.length : ℤ))
  exact ⟨⟨s.expertIdWrites, List.Perm.refl _, events, final, hrun, hdone⟩⟩

end DirectRun

variable {cfg : AlignConfig} {expertMap : Option ExpertMap} {ids : List ℤ}

theorem BlockSorted.congr {route : ℕ → Option ℕ} {numel blockSize n : ℕ} {expertOf f : ℕ → ℤ}
    {out : AlignOutput} (hb : 0 < blockSize) (h : BlockSorted route numel blockSize n expertOf out)
    (hf : ∀ e < n, 0 < routeCount route numel e → expertOf e = f e) :
    BlockSorted route numel blockSize n f out := by
  refine { h with expertIds := fun e he r h1 h2 => ?_ }
  obtain ⟨b, hlt, -⟩ := (mem_blocks_iff hb).mp ⟨h1, h2⟩
  have hpos := (lt_ceilDiv_iff hb).mp hlt
  rw [h.expertIds e he r h1 h2, hf e he (by omega)]

section Generic
variable {L : ℕ} (hL : L + 1 < 1024) (memory : ℤ → ℤ) {topkIds : List ℤ}

end Generic

end Vllm.Moe
