import Vllm.Lib.ShareCounts
import Vllm.Lib.Raise
import Mathlib.Data.List.MinMax

/-! Replication of logical experts: each redundant physical expert goes to the logical expert with
the largest load per replica. Loads are exact rationals and the rows of an array are functions. -/
namespace Vllm.Eplb
open ShareCounts Finset

/-- What `replicate_experts` returns: the logical id of each physical expert and the number of
replicas of each logical one, by row. -/
structure Replicas (n numLog numPhy : ℕ) where
  phy2log : Fin n → Fin numPhy → ℕ
  logcnt : Fin n → Fin numLog → ℕ

variable {n numLog numPhy : ℕ}

/-- `np.argmax(.., axis=-1)`, which raises for rows without entries. -/
def argmaxRows (m : Fin n → Fin numLog → ℚ) : Raises (Fin n → Fin numLog) :=
  if h : 0 < numLog then pure fun r => ((List.finRange numLog).argmax (m r)).getD ⟨0, h⟩
  else throw .valueError

/-- One round of the loop: the physical expert `i` becomes a replica. -/
def replicateStep (weight : Fin n → Fin numLog → ℚ) (maps : Replicas n numLog numPhy) (i : ℕ) :
    Raises (Replicas n numLog numPhy) := do
  let redundantIndices ← argmaxRows fun r e => weight r e / maps.logcnt r e
  pure {
    phy2log := fun r p => if p.val = i then redundantIndices r else maps.phy2log r p
    logcnt := fun r => Function.update (maps.logcnt r) (redundantIndices r)
      (maps.logcnt r (redundantIndices r) + 1) }

/-- `replicate_experts`. -/
def replicateExperts (weight : Fin n → Fin numLog → ℚ) (numPhy : ℕ) :
    Raises (Replicas n numLog numPhy) := do
  let numRedundant := (numPhy : ℤ) - numLog
  Raises.require (0 ≤ numRedundant)
  (List.range' numLog (numPhy - numLog)).foldlM (replicateStep weight)
    { phy2log := fun _ p => p, logcnt := fun _ _ => 1 }

/-- What holds of one row when the physical experts below `i` are assigned. -/
structure RowInv (load : Fin numLog → ℚ) (i : ℕ) (phy2log : Fin numPhy → ℕ)
    (logcnt : Fin numLog → ℕ) : Prop where
  pos : ∀ e, 1 ≤ logcnt e
  total : ∑ e, logcnt e = i
  replicas : ∀ e : Fin numLog, (Finset.univ.filter fun p : Fin numPhy =>
    p.val < i ∧ phy2log p = e).card = logcnt e
  greedy : Greedy load logcnt

theorem rowInv_start (hphy : numLog ≤ numPhy) (load : Fin numLog → ℚ) :
    RowInv load numLog (fun p : Fin numPhy => p.val) fun _ => 1 := by
  constructor
  · exact fun e => le_rfl
  · simp
  · intro e
    rw [card_eq_one]
    use ⟨e, e.isLt.trans_le hphy⟩
    ext p
    simp only [mem_filter, mem_univ, true_and, mem_singleton, Fin.ext_iff]
    constructor
    · exact fun h => h.2
    · intro h
      rw [h]
      exact ⟨e.isLt, rfl⟩
  · exact greedy_one load

theorem RowInv.step {load : Fin numLog → ℚ} {i : ℕ} {phy2log : Fin numPhy → ℕ}
    {logcnt : Fin numLog → ℕ} (h : RowInv load i phy2log logcnt) (hload : ∀ e, 0 ≤ load e)
    (hi : i < numPhy) {m : Fin numLog} (hmax : ∀ e, load e / logcnt e ≤ load m / logcnt m) :
    RowInv load (i + 1) (fun p => if p.val = i then m else phy2log p)
      (Function.update logcnt m (logcnt m + 1)) := by
  constructor
  · intro e
    rcases eq_or_ne e m with rfl | hne
    · simp
    · rw [Function.update_of_ne hne]
      exact h.pos e
  · rw [sum_update_of_mem (mem_univ m), ← h.total,
      ← add_sum_erase Finset.univ logcnt (mem_univ m), sdiff_singleton_eq_erase]
    omega
  · intro e
    -- the positions below `i` keep their expert, and position `i` is new
    have hsplit : (Finset.univ.filter fun p : Fin numPhy =>
        p.val < i + 1 ∧ (if p.val = i then m.val else phy2log p) = e) =
        (Finset.univ.filter fun p : Fin numPhy => p.val < i ∧ phy2log p = e) ∪
          (if m = e then {⟨i, hi⟩} else ∅) := by
      ext p
      by_cases hp : p.val = i
      · by_cases hm : m = e
        · simp [hp, hm, Fin.ext_iff]
        · have hval : m.val ≠ e.val := fun heq => hm (Fin.ext heq)
          simp [hp, hm, hval]
      · by_cases hm : m = e
        · simp [hp, hm, Fin.ext_iff]
          omega
        · simp [hp, hm]
          omega
    rw [hsplit]
    by_cases hm : m = e
    · rw [if_pos hm, ← hm, Function.update_self, card_union_of_disjoint, h.replicas m]
      · rfl
      · simp
    · rw [if_neg hm, union_empty, Function.update_of_ne (Ne.symm hm)]
      exact h.replicas e
  · exact h.greedy.increment hload h.pos hmax

/-- `np.argmax` of rows with entries. -/
theorem argmaxRows_spec (hlog : 0 < numLog) (m : Fin n → Fin numLog → ℚ) :
    ∃ best, argmaxRows m = .ok best ∧ ∀ r e, m r e ≤ m r (best r) := by
  refine ⟨_, dif_pos hlog, fun r e => ?_⟩
  cases hmax : (List.finRange numLog).argmax (m r) with
  | none =>
    have hempty := List.argmax_eq_none.mp hmax
    exact absurd (List.mem_finRange e) (by simp [hempty])
  | some best => exact List.le_of_mem_argmax (List.mem_finRange e) hmax

variable {weight : Fin n → Fin numLog → ℚ}

variable {maps : Replicas n numLog numPhy}

theorem replicateStep_inv (hlog : 0 < numLog) (hweight : ∀ r e, 0 ≤ weight r e) {i : ℕ}
    (hi : i < numPhy) (h : ∀ r, RowInv (weight r) i (maps.phy2log r) (maps.logcnt r)) :
    ∃ maps', replicateStep weight maps i = .ok maps' ∧
      ∀ r, RowInv (weight r) (i + 1) (maps'.phy2log r) (maps'.logcnt r) := by
  rcases argmaxRows_spec hlog fun r e => weight r e / maps.logcnt r e with ⟨best, hbest, hmax⟩
  constructor
  · constructor
    · unfold replicateStep
      rw [hbest]
      rfl
    · exact fun r => (h r).step (hweight r) hi (hmax r)

theorem replicateLoop_inv (hlog : 0 < numLog) (hweight : ∀ r e, 0 ≤ weight r e) (k : ℕ) {i : ℕ}
    (hi : i + k = numPhy) (h : ∀ r, RowInv (weight r) i (maps.phy2log r) (maps.logcnt r)) :
    ∃ maps', (List.range' i k).foldlM (replicateStep weight) maps = .ok maps' ∧
      ∀ r, RowInv (weight r) numPhy (maps'.phy2log r) (maps'.logcnt r) := by
  induction k generalizing i maps with
  | zero =>
    rw [add_zero] at hi
    exact ⟨maps, rfl, fun r => hi ▸ h r⟩
  | succ k ih =>
    rcases replicateStep_inv hlog hweight (by omega) h with ⟨maps', hstep, h'⟩
    rcases ih (by omega) h' with ⟨out, hout, hinv⟩
    use out
    constructor
    · rw [List.range'_succ, List.foldlM_cons, hstep]
      exact hout
    · exact hinv

theorem replicateExperts_eq (hphy : numLog ≤ numPhy) : replicateExperts weight numPhy =
    (List.range' numLog (numPhy - numLog)).foldlM (replicateStep weight)
      { phy2log := fun _ p => p, logcnt := fun _ _ => 1 } := by
  have hredundant : 0 ≤ (numPhy : ℤ) - numLog := by omega
  unfold replicateExperts Raises.require
  dsimp only
  rw [if_pos hredundant]
  rfl

theorem replicateExperts_inv (hphy : numLog ≤ numPhy) (hlog : numLog = 0 → numPhy = 0)
    (hweight : ∀ r e, 0 ≤ weight r e) : ∃ out, replicateExperts weight numPhy = .ok out ∧
      ∀ r, RowInv (weight r) numPhy (out.phy2log r) (out.logcnt r) := by
  rw [replicateExperts_eq hphy]
  rcases Nat.eq_zero_or_pos numLog with hzero | hpos
  · have hnone := hlog hzero
    subst hzero hnone
    exact ⟨_, rfl, fun r => rowInv_start le_rfl (weight r)⟩
  · exact replicateLoop_inv hpos hweight _ (by omega) fun r => rowInv_start hphy (weight r)

/-- Physical experts without a logical one make `np.argmax` raise. -/
theorem replicateExperts_of_noExpert (hlog : numLog = 0) (hphy : 0 < numPhy) :
    replicateExperts weight numPhy = .error .valueError := by
  subst hlog
  cases numPhy with
  | zero => exact absurd hphy (lt_irrefl 0)
  | succ k => rfl

/-- Replication reaches the least possible maximum load per replica in every row. -/
theorem replicateExperts_optimal (weight : Fin n → Fin numLog → ℚ) (numPhy : ℕ)
    (hphy : numLog ≤ numPhy) (hweight : ∀ r e, 0 ≤ weight r e) :
    ((numLog = 0 → numPhy = 0) → ∃ out, replicateExperts weight numPhy = .ok out) ∧
      ∀ out, replicateExperts weight numPhy = .ok out → ∀ r,
        (∀ e, 1 ≤ out.logcnt r e) ∧ ∑ e, out.logcnt r e = numPhy ∧
        (∀ e, (Finset.univ.filter fun p => out.phy2log r p = Fin.val e).card = out.logcnt r e) ∧
        ∀ other : Fin numLog → ℕ, (∀ e, 1 ≤ other e) → ∑ e, other e = numPhy →
          MaxLe (weight r) (out.logcnt r) other := by
  constructor
  · intro hlog
    rcases replicateExperts_inv hphy hlog hweight with ⟨out, hout, -⟩
    exact ⟨out, hout⟩
  · intro out hout r
    have hlog : numLog = 0 → numPhy = 0 := by
      intro hzero
      by_contra hne
      rw [replicateExperts_of_noExpert hzero (Nat.pos_of_ne_zero hne)] at hout
      cases hout
    rcases replicateExperts_inv hphy hlog hweight with ⟨out', hout', hinv⟩
    cases hout.symm.trans hout'
    have hrow := hinv r
    constructor
    · exact hrow.pos
    constructor
    · exact hrow.total
    constructor
    · intro e
      rw [← hrow.replicas e]
      simp
    · intro other hother hsum
      exact hrow.greedy.maxLe (hweight r) hother (hrow.total.trans hsum.symm)

theorem replicateExperts_optimal_pair :
    ∃ out, replicateExperts (fun (_ : Fin 1) (e : Fin 2) => if e = 0 then (5 : ℚ) else 2) 4 =
      .ok out ∧ (∀ e, 1 ≤ out.logcnt 0 e) ∧ ∑ e, out.logcnt 0 e = 4 ∧
        ∀ other : Fin 2 → ℕ, (∀ e, 1 ≤ other e) → ∑ e, other e = 4 →
          MaxLe (fun e => if e = 0 then (5 : ℚ) else 2) (out.logcnt 0) other := by
  have hweight : ∀ r e, (0 : ℚ) ≤ (fun (_ : Fin 1) (e : Fin 2) => if e = 0 then 5 else 2) r e := by
    intro r e
    dsimp only
    split
    · norm_num
    · norm_num
  obtain ⟨htotal, hoptimal⟩ := replicateExperts_optimal _ 4 (by norm_num) hweight
  obtain ⟨out, hout⟩ := htotal fun hzero => absurd hzero (by norm_num)
  obtain ⟨hpos, hsum, -, hother⟩ := hoptimal out hout 0
  exact ⟨out, hout, hpos, hsum, hother⟩

end Vllm.Eplb
