import Vllm.Offload.PrepareStore
import Vllm.Offload.Tiering

/-! The jobs of the tiering manager: each keeps its primary blocks in place, from the submission to
the report of a secondary tier. -/
namespace Vllm
open Multiset CPUOffloadingManager
namespace TieringOffloadingManager
open CPUOffloadingManager
variable {P : Type} {c : CachePolicy P} {held : P → Multiset CacheEntry}
  {m m' : TieringOffloadingManager P} {extra loads : Multiset OffloadKey} {keys : List OffloadKey}

/-- The keys of the jobs in flight, of the promotions or of the others. -/
def jobKeys (m : TieringOffloadingManager P) (isPromotion : Bool) : Multiset OffloadKey :=
  m.transferJobs.sumValues fun job => if job.isPromotion = isPromotion then (job.keys : Multiset _)
    else 0

/-- The jobs in flight: promotions write their blocks, the others read them. The stores of `extra`
and the loads of `loads` are outstanding too. -/
structure JobsInv (c : CachePolicy P) (held : P → Multiset CacheEntry)
    (m : TieringOffloadingManager P) (extra loads : Multiset OffloadKey) : Prop where
  pool : CPUOffloadingManager.PoolInv held m.primaryTier (extra + m.jobKeys true)
    (loads + m.jobKeys false) 0
  located : ∀ id job, m.transferJobs.get? id = some job →
    Located c m.primaryTier job.keys job.blockIds
  counter : ∀ id job, m.transferJobs.get? id = some job → id < m.jobIdCounter
  counts : m.primaryTier.counts = none

/-- What is readable stays readable. -/
def StaysReady (c : CachePolicy P) (p p' : CPUOffloadingManager P) : Prop :=
  ∀ k, p.answer c k = some true → p'.answer c k = some true

theorem jobKeys_erase {id : JobId} {job : JobMetadata} (h : m.transferJobs.get? id = some job)
    (isPromotion : Bool) (p : CPUOffloadingManager P) :
    m.jobKeys isPromotion =
      jobKeys { m with primaryTier := p, transferJobs := m.transferJobs.erase id } isPromotion +
        if job.isPromotion = isPromotion then (job.keys : Multiset _) else 0 := by
  have hsum := m.transferJobs.sumValues_erase
    (fun job => if job.isPromotion = isPromotion then (job.keys : Multiset OffloadKey) else 0) id
  rw [h] at hsum
  exact hsum.symm

theorem jobKeys_addJob (h : ∀ id job, m.transferJobs.get? id = some job → id < m.jobIdCounter)
    (job : JobMetadata) (isPromotion : Bool) :
    (m.addJob job).jobKeys isPromotion =
      m.jobKeys isPromotion + if job.isPromotion = isPromotion then (job.keys : Multiset _)
        else 0 := by
  have hfresh : m.transferJobs.get? m.jobIdCounter = none := by
    cases hget : m.transferJobs.get? m.jobIdCounter with
    | none => rfl
    | some old => exact absurd (h _ old hget) (Nat.lt_irrefl _)
  have hsum := m.transferJobs.sumValues_set
    (fun job => if job.isPromotion = isPromotion then (job.keys : Multiset OffloadKey) else 0)
    m.jobIdCounter job
  rw [hfresh] at hsum
  exact (add_zero _).symm.trans hsum

theorem mem_jobKeys {id : JobId} {job : JobMetadata} (h : m.transferJobs.get? id = some job)
    {k : OffloadKey} (hk : k ∈ job.keys) : k ∈ m.jobKeys job.isPromotion := by
  rw [jobKeys_erase h job.isPromotion m.primaryTier, if_pos rfl]
  exact mem_add.mpr (Or.inr (mem_coe.mpr hk))

namespace JobsInv

theorem setPrimary {p : CPUOffloadingManager P} {extra' loads' : Multiset OffloadKey}
    (h : JobsInv c held m extra loads)
    (hpool : CPUOffloadingManager.PoolInv held p (extra' + m.jobKeys true)
      (loads' + m.jobKeys false) 0)
    (hkeep : ∀ k, k ∈ m.jobKeys true ∨ k ∈ m.jobKeys false →
      p.idOf c k = m.primaryTier.idOf c k)
    (hcounts : p.counts = m.primaryTier.counts) :
    JobsInv c held { m with primaryTier := p } extra' loads' := by
  refine ⟨hpool, fun id job hjob => ?_, h.counter, hcounts.trans h.counts⟩
  refine (h.located id job hjob).mono fun k hk i hi => (hkeep k ?_).trans hi
  have hmem := mem_jobKeys hjob hk
  cases hkind : job.isPromotion with
  | true => exact Or.inl (hkind ▸ hmem)
  | false => exact Or.inr (hkind ▸ hmem)

theorem addJob {job : JobMetadata}
    (h : JobsInv c held m ((if job.isPromotion then (job.keys : Multiset _) else 0) + extra)
      ((if job.isPromotion then 0 else (job.keys : Multiset _)) + loads))
    (hloc : Located c m.primaryTier job.keys job.blockIds) :
    JobsInv c held (m.addJob job) extra loads := by
  constructor
  · have hpool := h.pool
    show CPUOffloadingManager.PoolInv held m.primaryTier _ _ 0
    rw [jobKeys_addJob h.counter, jobKeys_addJob h.counter]
    cases hkind : job.isPromotion with
    | true =>
      rw [hkind] at hpool
      rw [if_pos rfl, if_neg (by decide), add_zero, ← add_assoc, add_right_comm, add_comm extra]
      simpa using hpool
    | false =>
      rw [hkind] at hpool
      rw [if_pos rfl, if_neg (by decide), add_zero, ← add_assoc, add_right_comm, add_comm loads]
      simpa using hpool
  · intro id job' hjob'
    change (m.transferJobs.set m.jobIdCounter job).get? id = some job' at hjob'
    rw [Dict.get?_set] at hjob'
    split_ifs at hjob' with hid
    · cases hjob'
      exact hloc
    · exact h.located id job' hjob'
  · intro id job' hjob'
    change (m.transferJobs.set m.jobIdCounter job).get? id = some job' at hjob'
    rw [Dict.get?_set] at hjob'
    show id < m.jobIdCounter + 1
    split_ifs at hjob' with hid
    · exact hid ▸ Nat.lt_succ_self _
    · exact Nat.lt_succ_of_lt (h.counter id job' hjob')
  · exact h.counts

theorem addPromotion {ids : List ℕ} (h : JobsInv c held m (keys + extra) loads)
    (hloc : Located c m.primaryTier keys ids) (reqId : RequestId) :
    JobsInv c held (m.addJob { keys, blockIds := ids, isPromotion := true, reqId }) extra
      loads := by
  refine addJob ?_ hloc
  show JobsInv c held m (keys + extra) (0 + loads)
  rw [zero_add]
  exact h

theorem addCascade {ids : List ℕ} (h : JobsInv c held m extra (keys + loads))
    (hloc : Located c m.primaryTier keys ids) (reqId : RequestId) :
    JobsInv c held (m.addJob { keys, blockIds := ids, isPromotion := false, reqId }) extra
      loads := by
  refine addJob ?_ hloc
  show JobsInv c held m (0 + extra) (keys + loads)
  rw [zero_add]
  exact h

theorem finish {id : JobId} {p : CPUOffloadingManager P} (h : JobsInv c held m extra loads)
    (hpool : CPUOffloadingManager.PoolInv held p
      (extra + jobKeys { m with transferJobs := m.transferJobs.erase id } true)
      (loads + jobKeys { m with transferJobs := m.transferJobs.erase id } false) 0)
    (hkeep : ∀ k, k ∈ jobKeys { m with transferJobs := m.transferJobs.erase id } true ∨
      k ∈ jobKeys { m with transferJobs := m.transferJobs.erase id } false →
      p.idOf c k = m.primaryTier.idOf c k)
    (hcounts : p.counts = m.primaryTier.counts) :
    JobsInv c held { m with primaryTier := p, transferJobs := m.transferJobs.erase id } extra
      loads := by
  have hold : ∀ id' job', (m.transferJobs.erase id).get? id' = some job' →
      m.transferJobs.get? id' = some job' := by
    intro id' job' hget
    rw [Dict.get?_erase] at hget
    split_ifs at hget
    exact hget
  refine ⟨hpool, fun id' job' hget => ?_,
    fun id' job' hget => h.counter id' job' (hold id' job' hget), hcounts.trans h.counts⟩
  refine (h.located id' job' (hold id' job' hget)).mono fun k hk i hi => (hkeep k ?_).trans hi
  have hmem : k ∈ jobKeys { m with transferJobs := m.transferJobs.erase id } job'.isPromotion :=
    mem_jobKeys hget hk
  cases hkind : job'.isPromotion with
  | true => exact Or.inl (hkind ▸ hmem)
  | false => exact Or.inr (hkind ▸ hmem)

section Calls
variable (h : JobsInv c held m extra loads) (hc : c.Lawful held)
include h hc

theorem prepareLoad (hready : ∀ k ∈ keys, m.primaryTier.answer c k = some true) :
    ∃ ids p, m.primaryTier.prepareLoad c keys = .ok (ids, p) ∧
      JobsInv c held { m with primaryTier := p } extra (keys + loads) ∧ Located c p keys ids ∧
      SameBlocks c m.primaryTier p ∧ ∀ k, p.answer c k = m.primaryTier.answer c k := by
  rcases h.pool.prepareLoad hc hready with ⟨ids, p, hrun, hinv, hloc, hsame, hanswer, hcounts⟩
  rw [← add_assoc] at hinv
  exact ⟨ids, p, hrun, h.setPrimary hinv (fun k _ => hsame k) hcounts, hloc, hsame, hanswer⟩

theorem prepareStore (hnodup : keys.Nodup) :
    ∃ out p, m.primaryTier.prepareStore c keys = .ok (out, p) ∧
      (∀ k ∈ extra, p.idOf c k = m.primaryTier.idOf c k) ∧
      match out with
      | none => Unchanged m.primaryTier p ∧
        JobsInv c held { m with primaryTier := p } extra loads
      | some o => PreparedStore c m.primaryTier p keys o ∧
        JobsInv c held { m with primaryTier := p } (o.keysToStore + extra) loads := by
  rcases h.pool.prepareStore hc hnodup with ⟨out, p, hrun, hcounts, hout⟩
  refine ⟨out, p, hrun, ?_, ?_⟩
  · intro k hk
    have hused : k ∈ extra + m.jobKeys true := mem_add.mpr (Or.inl hk)
    cases out with
    | none => exact CPUOffloadingManager.PoolInv.unchanged_idOf hout.1 k
    | some o => exact h.pool.prepareStore_keeps hc hout.1 (Or.inl hused)
  · cases out with
    | none =>
      exact ⟨hout.1, h.setPrimary hout.2
        (fun k _ => CPUOffloadingManager.PoolInv.unchanged_idOf hout.1 k) hcounts⟩
    | some o =>
      refine ⟨hout.1, h.setPrimary (by rw [add_assoc]; exact hout.2) (fun k hk => ?_) hcounts⟩
      refine h.pool.prepareStore_keeps hc hout.1 (hk.imp ?_ ?_)
      · exact fun hk => mem_add.mpr (Or.inr hk)
      · exact fun hk => mem_add.mpr (Or.inr hk)

end Calls

theorem completeLoad (h : JobsInv c held m extra (keys + loads)) (hc : c.Lawful held) :
    ∃ p, m.primaryTier.completeLoad c keys = .ok p ∧
      JobsInv c held { m with primaryTier := p } extra loads ∧ SameBlocks c m.primaryTier p ∧
      ∀ k, p.answer c k = m.primaryTier.answer c k := by
  have hpool := h.pool
  rw [add_assoc] at hpool
  rcases hpool.completeLoad hc with ⟨p, hrun, hinv, hsame, hanswer, hcounts⟩
  exact ⟨p, hrun, h.setPrimary hinv (fun k _ => hsame k) hcounts, hsame, hanswer⟩

end JobsInv

theorem completeStore_spec {p : CPUOffloadingManager P} {pending : Multiset OffloadKey}
    (h : CPUOffloadingManager.PoolInv held p (keys + pending) loads 0) (hc : c.Lawful held)
    (success : Bool) :
    ∃ p', p.completeStore c keys success = .ok p' ∧
      CPUOffloadingManager.PoolInv held p' pending loads 0 ∧
      (∀ k, k ∈ pending ∨ k ∈ loads → p'.idOf c k = p.idOf c k) ∧ StaysReady c p p' ∧
      (success = true → ∀ k ∈ keys, p'.answer c k = some true) ∧ p'.counts = p.counts := by
  cases success with
  | true =>
    rcases h.completeStore_success hc with ⟨p', hrun, hinv, hsame, hanswer, hcounts⟩
    refine ⟨p', hrun, hinv, fun k _ => hsame k, ?_, ?_, hcounts⟩
    · intro k hk
      rw [hanswer k, hk, ite_self]
    · intro _ k hk
      rw [hanswer k, if_pos hk]
  | false =>
    rcases h.completeStore_failure hc with ⟨p', hrun, hinv, hget, hcounts⟩
    refine ⟨p', hrun, hinv, fun k hk => h.completeStore_failure_keeps hget hk, ?_,
      (fun hfalse => nomatch hfalse), hcounts⟩
    intro k hk
    rcases answer_eq_true_iff.mp hk with ⟨b, hb, hready⟩
    have hnot : k ∉ keys := by
      intro hin
      have hpending : k ∈ (keys : Multiset OffloadKey) + pending :=
        mem_add.mpr (Or.inl (mem_coe.mpr hin))
      exact (h.refCnt_neg_iff ((h.get_iff hc).mp hb)).mpr hpending hready
    rw [answer_eq_true_iff]
    exact ⟨b, (hget k).trans ((if_neg hnot).trans hb), hready⟩

namespace JobsInv

theorem completeStore (h : JobsInv c held m (keys + extra) loads) (hc : c.Lawful held)
    (success : Bool) :
    ∃ p, m.primaryTier.completeStore c keys success = .ok p ∧
      JobsInv c held { m with primaryTier := p } extra loads ∧
      (∀ k ∈ extra, p.idOf c k = m.primaryTier.idOf c k) ∧ StaysReady c m.primaryTier p ∧
      (success = true → ∀ k ∈ keys, p.answer c k = some true) := by
  have hpool := h.pool
  rw [add_assoc] at hpool
  rcases completeStore_spec hpool hc success with ⟨p, hrun, hinv, hkeep, hready, hkeys, hcounts⟩
  refine ⟨p, hrun, h.setPrimary hinv (fun k hk => hkeep k ?_) hcounts, ?_, hready, hkeys⟩
  · refine hk.imp ?_ ?_
    · exact fun hk => mem_add.mpr (Or.inr hk)
    · exact fun hk => mem_add.mpr (Or.inr hk)
  · exact fun k hk => hkeep k (Or.inl (mem_add.mpr (Or.inl hk)))

theorem processJob {r : JobResult} {job : JobMetadata} (h : JobsInv c held m extra loads)
    (hc : c.Lawful held) (hjob : m.transferJobs.get? r.jobId = some job) :
    ∃ p, TieringOffloadingManager.processJob c m r =
        .ok { m with primaryTier := p, transferJobs := m.transferJobs.erase r.jobId } ∧
      JobsInv c held { m with primaryTier := p, transferJobs := m.transferJobs.erase r.jobId } extra
        loads ∧
      (∀ k ∈ extra, p.idOf c k = m.primaryTier.idOf c k) ∧ StaysReady c m.primaryTier p := by
  have htrue := jobKeys_erase hjob true m.primaryTier
  have hfalse := jobKeys_erase hjob false m.primaryTier
  have hpool := h.pool
  rw [htrue, hfalse] at hpool
  unfold TieringOffloadingManager.processJob
  rw [hjob]
  dsimp only
  cases hkind : job.isPromotion with
  | true =>
    rw [hkind, if_pos rfl, if_neg (by decide), add_zero, ← add_assoc,
      add_comm _ (job.keys : Multiset OffloadKey)] at hpool
    rcases completeStore_spec hpool hc r.success with ⟨p, hrun, hinv, hkeep, hready, -, hcounts⟩
    refine ⟨p, ?_, h.finish hinv (fun k hk => hkeep k ?_) hcounts, ?_, hready⟩
    · rw [if_pos rfl, hrun]
      rfl
    · refine hk.imp ?_ ?_
      · exact fun hk => mem_add.mpr (Or.inr hk)
      · exact fun hk => mem_add.mpr (Or.inr hk)
    · exact fun k hk => hkeep k (Or.inl (mem_add.mpr (Or.inl hk)))
  | false =>
    rw [hkind, if_pos rfl, if_neg (by decide), add_zero, ← add_assoc,
      add_comm _ (job.keys : Multiset OffloadKey)] at hpool
    rcases hpool.completeLoad hc with ⟨p, hrun, hinv, hsame, hanswer, hcounts⟩
    refine ⟨p, ?_, h.finish hinv (fun k _ => hsame k) hcounts, fun k _ => hsame k,
      fun k hk => (hanswer k).trans hk⟩
    rw [if_neg Bool.false_ne_true, hrun]
    rfl

end JobsInv
end TieringOffloadingManager
end Vllm
