import Vllm.Moe.AlignCorrect

/-! The small-batch kernel aligns the routes too, and so does every launch. -/
namespace Vllm.Moe
open GridLoop Tickets Nat Finset

variable {cfg : AlignConfig} {expertMap : Option ExpertMap} {ids : List ℤ}

theorem AlignConfig.smallThreads_pos (cfg : AlignConfig) : 0 < cfg.smallThreads :=
  lt_of_lt_of_le cfg.warpSize_pos (le_max_right _ _)

variable {i tid : ℕ}

theorem mem_stridedLoop_iff_mod {threads bound : ℕ} (ht : tid < threads) :
    i ∈ stridedLoop tid threads bound ↔ i < bound ∧ i % threads = tid := by
  rw [mem_stridedLoop (by omega)]
  constructor
  · rintro ⟨k, rfl, hk⟩
    exact ⟨hk, by rw [add_mul_mod_self_right, mod_eq_of_lt ht]⟩
  · rintro ⟨hi, rfl⟩
    have hdiv := mod_add_div i threads
    exact ⟨i / threads, by rw [mul_comm]; omega, hi⟩

theorem smallSortKey_eq (i : ℕ) : smallSortKey cfg expertMap ids i =
    (kernelRoute cfg.numExperts expertMap ids i).map fun e => (i % cfg.smallThreads, e) := by
  rw [smallSortKey]
  split
  · rfl
  · rename_i hi
    rw [mem_gridLoop cfg.smallThreads_pos, not_lt] at hi
    rw [kernelRoute_eq_none_of_le hi]
    rfl

theorem smallSortKey_eq_some {k : ℕ × ℕ} : smallSortKey cfg expertMap ids i = some k ↔
    kernelRoute cfg.numExperts expertMap ids i = some k.2 ∧ i % cfg.smallThreads = k.1 := by
  rw [smallSortKey_eq, Option.map_eq_some_iff]
  constructor
  · rintro ⟨e, he, rfl⟩
    exact ⟨he, rfl⟩
  · rintro ⟨he, hk⟩
    exact ⟨k.2, he, by rw [hk]⟩

theorem smallSortKey_mem_range (h : smallSortKey cfg expertMap ids i ≠ none) :
    i ∈ Finset.range ids.length := by
  obtain ⟨k, hk⟩ := Option.ne_none_iff_exists'.mp h
  exact mem_range.mpr (lt_length_of_kernelRoute (smallSortKey_eq_some.mp hk).1)

theorem card_smallTasksOf (e : ℕ) (ht : tid < cfg.smallThreads) :
    (tasksOf (smallSortKey cfg expertMap ids) (Finset.range ids.length) (tid, e)).card =
      threadCounts cfg expertMap ids tid e := by
  have hnodup : (stridedLoop tid cfg.smallThreads ids.length).Nodup := by
    refine List.nodup_range.map fun a b hab => ?_
    exact eq_of_mul_eq_mul_right cfg.smallThreads_pos (by simpa using hab)
  have hset : tasksOf (smallSortKey cfg expertMap ids) (Finset.range ids.length)
      (tid, e) = ((stridedLoop tid cfg.smallThreads ids.length).filter fun i =>
        kernelRoute cfg.numExperts expertMap ids i = some e).toFinset := by
    ext i
    simp only [tasksOf, mem_filter, mem_range, smallSortKey_eq_some,
      List.mem_toFinset, List.mem_filter, mem_stridedLoop_iff_mod ht, decide_eq_true_eq]
    tauto
  rw [hset, List.toFinset_card_of_nodup (hnodup.filter _), threadCounts, foldl_increment,
    zero_add, List.countP_eq_length_filter]

theorem card_smallTasksOf_of_le (e : ℕ) (ht : cfg.smallThreads ≤ tid) :
    (tasksOf (smallSortKey cfg expertMap ids) (Finset.range ids.length)
      (tid, e)).card = 0 := by
  rw [Finset.card_eq_zero, tasksOf, Finset.filter_eq_empty_iff]
  intro i _ hi
  have := mod_lt i cfg.smallThreads_pos
  have := (smallSortKey_eq_some.mp hi).2
  omega

theorem tokensCnts_eq_sum (i e : ℕ) : tokensCnts cfg expertMap ids i e =
    ∑ tid ∈ Finset.range i, threadCounts cfg expertMap ids tid e := by
  induction i with
  | zero => rfl
  | succ i ih => rw [tokensCnts, sum_range_succ, ih, add_comm]

theorem tokensCnts_mono (cfg : AlignConfig) (expertMap : Option ExpertMap) (ids : List ℤ) {i' : ℕ}
    (e : ℕ) (h : i ≤ i') :
    tokensCnts cfg expertMap ids i e ≤ tokensCnts cfg expertMap ids i' e := by
  rw [tokensCnts_eq_sum, tokensCnts_eq_sum]
  exact sum_le_sum_of_subset (range_mono h)

/-- The last row counts all the routes of an expert. -/
theorem tokensCnts_smallThreads (e : ℕ) : tokensCnts cfg expertMap ids cfg.smallThreads e =
    routeCount (kernelRoute cfg.numExperts expertMap ids) ids.length e := by
  rw [tokensCnts_eq_sum, routeCount, card_eq_sum_card_fiberwise
    (f := (· % cfg.smallThreads)) (t := Finset.range cfg.smallThreads)
    fun i _ => mem_coe.mpr (mem_range.mpr (mod_lt i cfg.smallThreads_pos))]
  refine sum_congr rfl fun tid ht => ?_
  rw [← card_smallTasksOf e (mem_range.mp ht), tasksOf, filter_filter]
  congr 1
  refine filter_congr fun i _ => ?_
  exact smallSortKey_eq_some

theorem smallCumsum_eq (t : ℕ) : smallCumsum cfg expertMap ids t =
    blockStart (kernelRoute cfg.numExperts expertMap ids) ids.length cfg.blockSize t := by
  induction t with
  | zero => rfl
  | succ t ih => rw [smallCumsum, ih, tokensCnts_smallThreads, blockStart_succ]

/-- The ranks that a thread takes for an expert lie in the expert's blocks, between the
rows of `tokens_cnts`. -/
theorem smallSegment {e r : ℕ}
    (h1 : tokensCnts cfg expertMap ids tid e + smallCumsum cfg expertMap ids e ≤ r)
    (h2 : r < tokensCnts cfg expertMap ids tid e + smallCumsum cfg expertMap ids e +
      (tasksOf (smallSortKey cfg expertMap ids) (Finset.range ids.length)
        (tid, e)).card) :
    blockStart (kernelRoute cfg.numExperts expertMap ids) ids.length cfg.blockSize e ≤ r ∧
    r < blockStart (kernelRoute cfg.numExperts expertMap ids) ids.length cfg.blockSize (e + 1) ∧
    r < tokensCnts cfg expertMap ids (tid + 1) e + smallCumsum cfg expertMap ids e := by
  have ht : tid < cfg.smallThreads := by
    by_contra h
    rw [card_smallTasksOf_of_le e (not_lt.mp h)] at h2
    omega
  rw [card_smallTasksOf e ht] at h2
  have hrow : tokensCnts cfg expertMap ids (tid + 1) e =
      threadCounts cfg expertMap ids tid e + tokensCnts cfg expertMap ids tid e := rfl
  have hmono := tokensCnts_mono cfg expertMap ids e (show tid + 1 ≤ cfg.smallThreads from ht)
  have hend := routeCount_end_le (kernelRoute cfg.numExperts expertMap ids) ids.length
    cfg.blockSize_pos e
  rw [tokensCnts_smallThreads] at hmono
  rw [smallCumsum_eq] at h1 h2 ⊢
  exact ⟨by omega, by omega, by omega⟩

theorem smallSegmentsDisjoint : SegmentsDisjoint (smallSortKey cfg expertMap ids)
    (Finset.range ids.length)
    fun k => tokensCnts cfg expertMap ids k.1 k.2 + smallCumsum cfg expertMap ids k.2 := by
  rintro ⟨tid, e⟩ ⟨tid', e'⟩ r h1 h2 h1' h2'
  obtain ⟨hb, hb', hrow⟩ := smallSegment h1 h2
  obtain ⟨hc, hc', hrow'⟩ := smallSegment h1' h2'
  obtain rfl := blockStart_unique hb hb' hc hc'
  simp only at h1 h1' hrow hrow'
  rcases lt_trichotomy tid tid' with h | h | h
  · have := tokensCnts_mono cfg expertMap ids e (show tid + 1 ≤ tid' from h)
    omega
  · rw [h]
  · have := tokensCnts_mono cfg expertMap ids e (show tid' + 1 ≤ tid from h)
    omega

namespace SmallBatchRun
variable {capacity : ℕ} (run : SmallBatchRun cfg expertMap ids capacity)

theorem fill_eq {r : ℕ} (hr : r < capacity) :
    writeAll run.sortedMemory (run.fillOrder.map (·, (ids.length : ℤ))) r = ids.length :=
  writeAll_const (run.fillOrder_perm.mem_iff.mpr ((mem_gridLoop (by norm_num)).mpr hr))

theorem aligned (hmap : ∀ m ∈ expertMap, m.WellFormed cfg.numExperts)
    (hcap : blockStart (kernelRoute cfg.numExperts expertMap ids) ids.length cfg.blockSize
      cfg.numExperts ≤ capacity) :
    Aligned (kernelRoute cfg.numExperts expertMap ids) ids.length cfg.blockSize cfg.numExperts
      capacity (fun e => (e : ℤ)) run.output := by
  have hinv := Inv.init.run smallSegmentsDisjoint (fun i hi => smallSortKey_mem_range hi) run.ran
  obtain ⟨hplaced, hcells, hrest⟩ := hinv.complete run.complete
  refine Aligned.of_placement run.final.ticket
    (fun i e he => ⟨lt_length_of_kernelRoute he, kernelRoute_lt cfg.numExperts_lt hmap he⟩)
    (smallCumsum_eq _) hcap (fun i e he => ?_) (fun i r hr => ?_) (fun r hr => ?_)
    (fun e he r h1 h2 => idWrites_block (le_max_left _ _) (fun t _ => smallCumsum_eq t)
      run.idOrder_perm he h1 h2)
  · obtain ⟨r, h1, h2, ht, hm⟩ := hplaced i (i % cfg.smallThreads, e)
      (smallSortKey_eq_some.mpr ⟨he, rfl⟩)
    obtain ⟨hb, hb', -⟩ := smallSegment h1 h2
    exact ⟨r, hb, hb', ht, hm⟩
  · obtain ⟨k, hk, -⟩ := hinv.drawn i r hr
    simp [(smallSortKey_eq_some.mp hk).1]
  · by_cases h : ∃ k : ℕ × ℕ, tokensCnts cfg expertMap ids k.1 k.2 +
        smallCumsum cfg expertMap ids k.2 ≤ r ∧ r < tokensCnts cfg expertMap ids k.1 k.2 +
        smallCumsum cfg expertMap ids k.2 + (tasksOf (smallSortKey cfg expertMap ids)
          (Finset.range ids.length) k).card
    · obtain ⟨k, h1, h2⟩ := h
      obtain ⟨i, hi, ht, hm⟩ := hcells k r h1 h2
      exact .inl ⟨i, k.2, (smallSortKey_eq_some.mp hi).1, ht, hm⟩
    · refine .inr ((hrest r fun k => ?_).trans (run.fill_eq hr))
      by_contra hc
      exact h ⟨k, by omega, by omega⟩

theorem nonempty (cfg : AlignConfig) (expertMap : Option ExpertMap) (ids : List ℤ)
    (capacity : ℕ) : Nonempty (SmallBatchRun cfg expertMap ids capacity) := by
  obtain ⟨events, final, hrun, hdone⟩ := exists_run_complete
    (smallSortKey cfg expertMap ids) (fun i => (i : ℤ)) _ (fun i hi => smallSortKey_mem_range hi)
    (.init (fun k => tokensCnts cfg expertMap ids k.1 k.2 + smallCumsum cfg expertMap ids k.2)
      (writeAll (fun _ => 0) ((gridLoop 256 capacity).map (·, (ids.length : ℤ)))))
  exact ⟨{
    sortedMemory := fun _ => 0
    expertIdsMemory := fun _ => 0
    idOrder := _
    idOrder_perm := List.Perm.refl _
    fillOrder := gridLoop 256 capacity
    fillOrder_perm := List.Perm.refl _
    events := events
    final := final
    ran := hrun
    complete := hdone }⟩

end SmallBatchRun

theorem KernelRun.aligned {capacity : ℕ} (run : KernelRun cfg expertMap ids capacity)
    (hmap : ∀ m ∈ expertMap, m.WellFormed cfg.numExperts)
    (hcap : blockStart (kernelRoute cfg.numExperts expertMap ids) ids.length cfg.blockSize
      cfg.numExperts ≤ capacity) :
    Aligned (kernelRoute cfg.numExperts expertMap ids) ids.length cfg.blockSize cfg.numExperts
      capacity (fun e => (e : ℤ)) run.output := by
  cases run with
  | small _ run | large _ run => exact run.aligned hmap hcap

theorem KernelRun.nonempty (cfg : AlignConfig) (expertMap : Option ExpertMap) (ids : List ℤ)
    (capacity : ℕ) : Nonempty (KernelRun cfg expertMap ids capacity) := by
  by_cases h : ids.length < 1024 ∧ cfg.numExperts ≤ 64
  · obtain ⟨run⟩ := SmallBatchRun.nonempty cfg expertMap ids capacity
    exact ⟨.small h run⟩
  · obtain ⟨run⟩ := LargeBatchRun.nonempty cfg expertMap ids capacity
    exact ⟨.large h run⟩

end Vllm.Moe
