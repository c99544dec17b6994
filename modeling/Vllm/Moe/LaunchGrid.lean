import Vllm.Moe.Experts

/-! The launch grid of the two GEMMs: the buffers that the host allocates from shapes alone hold
whatever the kernels pad, and the grid has a program for every scheduled block. -/
namespace Vllm.Moe
open GridLoop Nat

/-- The row block and the column block of a program, in the grouped order of the kernel. -/
def programBlock (numPidM numPidN groupSizeM pid : ℕ) : ℕ × ℕ :=
  let numPidInGroup := groupSizeM * numPidN
  let firstPidM := pid / numPidInGroup * groupSizeM
  let groupSize := min (numPidM - firstPidM) groupSizeM
  (firstPidM + pid % numPidInGroup % groupSize, pid % numPidInGroup / groupSize)

theorem exists_programBlock {numPidM numPidN groupSizeM pidM pidN : ℕ} (hgroup : 0 < groupSizeM)
    (hm : pidM < numPidM) (hn : pidN < numPidN) : ∃ pid < numPidM * numPidN,
      programBlock numPidM numPidN groupSizeM pid = (pidM, pidN) := by
  let firstPidM := pidM / groupSizeM * groupSizeM
  let groupSize := min (numPidM - firstPidM) groupSizeM
  let inGroup := pidM % groupSizeM
  have hsplit : firstPidM + inGroup = pidM := div_add_mod' pidM groupSizeM
  have hlt : inGroup < groupSizeM := mod_lt _ hgroup
  have hin : inGroup < groupSize := lt_min (by omega) hlt
  have hrow : pidN * groupSize + inGroup < numPidN * groupSize := by
    calc pidN * groupSize + inGroup < pidN * groupSize + groupSize := Nat.add_lt_add_left hin _
      _ = (pidN + 1) * groupSize := by ring
      _ ≤ numPidN * groupSize := mul_le_mul_right _ hn
  have hfull : numPidN * groupSize ≤ groupSizeM * numPidN := by
    rw [mul_comm groupSizeM]
    exact mul_le_mul_left _ (min_le_right _ _)
  have hpos : 0 < groupSizeM * numPidN := mul_pos hgroup (zero_lt_of_lt hn)
  refine ⟨pidM / groupSizeM * (groupSizeM * numPidN) + (pidN * groupSize + inGroup), ?_, ?_⟩
  · calc pidM / groupSizeM * (groupSizeM * numPidN) + (pidN * groupSize + inGroup)
        < firstPidM * numPidN + numPidN * groupSize := by
          rw [← mul_assoc]
          exact Nat.add_lt_add_left hrow _
      _ = (firstPidM + groupSize) * numPidN := by ring
      _ ≤ numPidM * numPidN := mul_le_mul_right _ (by omega)
  · have hdiv : (pidM / groupSizeM * (groupSizeM * numPidN) + (pidN * groupSize + inGroup)) /
        (groupSizeM * numPidN) = pidM / groupSizeM := by
      rw [add_comm, add_mul_div_right _ _ hpos, div_eq_of_lt (hrow.trans_le hfull), zero_add]
    have hmod : (pidM / groupSizeM * (groupSizeM * numPidN) + (pidN * groupSize + inGroup)) %
        (groupSizeM * numPidN) = pidN * groupSize + inGroup := by
      rw [add_comm, add_mul_mod_self_right, mod_eq_of_lt (hrow.trans_le hfull)]
    rw [programBlock, hdiv, hmod]
    refine Prod.ext ?_ ?_
    · change firstPidM + (pidN * groupSize + inGroup) % groupSize = pidM
      rw [add_comm (pidN * groupSize), add_mul_mod_self_right, mod_eq_of_lt hin, hsplit]
    · change (pidN * groupSize + inGroup) / groupSize = pidN
      rw [add_comm, add_mul_div_right _ _ (zero_lt_of_lt hin), div_eq_of_lt hin, zero_add]

theorem programBlock_mem {numPidM numPidN groupSizeM pid : ℕ} (hgroup : 0 < groupSizeM)
    (hpid : pid < numPidM * numPidN) : programBlock numPidM numPidN groupSizeM pid ∈
      Finset.range numPidM ×ˢ Finset.range numPidN := by
  have hn : 0 < numPidN := Nat.pos_of_mul_pos_left (Nat.zero_lt_of_lt hpid)
  let firstPidM := pid / (groupSizeM * numPidN) * groupSizeM
  let inGroup := pid % (groupSizeM * numPidN)
  have hsplit : firstPidM * numPidN + inGroup = pid := by
    calc firstPidM * numPidN + inGroup
        = pid / (groupSizeM * numPidN) * (groupSizeM * numPidN) + inGroup := by
          rw [Nat.mul_assoc]
      _ = pid := Nat.div_add_mod' pid _
  have hfirst : firstPidM < numPidM := Nat.lt_of_mul_lt_mul_right (a := numPidN) (by omega)
  have hsize : 0 < min (numPidM - firstPidM) groupSizeM := lt_min (by omega) hgroup
  have hcolumn : inGroup < numPidN * min (numPidM - firstPidM) groupSizeM := by
    rcases min_choice (numPidM - firstPidM) groupSizeM with h | h
    · rw [h, Nat.mul_comm, Nat.sub_mul]
      omega
    · rw [h, Nat.mul_comm]
      exact Nat.mod_lt _ (Nat.mul_pos hgroup hn)
  have hrow := Nat.mod_lt inGroup hsize
  rw [Finset.mem_product, Finset.mem_range, Finset.mem_range]
  constructor
  · change firstPidM + inGroup % min (numPidM - firstPidM) groupSizeM < numPidM
    omega
  · exact Nat.div_lt_of_lt_mul (hcolumn.trans_eq (Nat.mul_comm _ _))

/-- The programs of the launch and the blocks of the grid correspond one to one. -/
theorem programBlock_bijOn {numPidM numPidN groupSizeM : ℕ} (hgroup : 0 < groupSizeM) :
    Set.BijOn (programBlock numPidM numPidN groupSizeM)
      (Finset.range (numPidM * numPidN) : Finset ℕ)
      (Finset.range numPidM ×ˢ Finset.range numPidN : Finset (ℕ × ℕ)) := by
  have hmaps : Set.MapsTo (programBlock numPidM numPidN groupSizeM)
      (Finset.range (numPidM * numPidN) : Finset ℕ)
      (Finset.range numPidM ×ˢ Finset.range numPidN : Finset (ℕ × ℕ)) := by
    intro pid hpid
    exact programBlock_mem hgroup (Finset.mem_range.mp hpid)
  have hsurj : Set.SurjOn (programBlock numPidM numPidN groupSizeM)
      (Finset.range (numPidM * numPidN) : Finset ℕ)
      (Finset.range numPidM ×ˢ Finset.range numPidN : Finset (ℕ × ℕ)) := by
    rintro ⟨pidM, pidN⟩ hblock
    rw [Finset.mem_coe, Finset.mem_product, Finset.mem_range, Finset.mem_range] at hblock
    rcases exists_programBlock hgroup hblock.1 hblock.2 with ⟨pid, hpid, heq⟩
    exact ⟨pid, Finset.mem_range.mpr hpid, heq⟩
  refine ⟨hmaps, Finset.injOn_of_surjOn_of_card_le _ hmaps hsurj ?_, hsurj⟩
  rw [Finset.card_product, Finset.card_range, Finset.card_range, Finset.card_range]

theorem programBlock_bijOn_shortGroup :
    Set.BijOn (programBlock 5 3 2) (Finset.range (5 * 3) : Finset ℕ)
      (Finset.range 5 ×ˢ Finset.range 3 : Finset (ℕ × ℕ)) :=
  programBlock_bijOn (by decide)

end Vllm.Moe
