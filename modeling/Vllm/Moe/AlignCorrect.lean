import Mathlib.Algebra.Order.BigOperators.Group.Finset
import Vllm.Moe.Align

/-! Every run of the large-batch kernels aligns the routes: each scheduled route once, in a
block of its expert, the rest padding. -/
namespace Vllm.Moe
open GridLoop List Nat

/-- The expert of a valid route: its id is that of an expert, which the map does not leave out. -/
def validExpert (numExperts : ℕ) (expertMap : Option ExpertMap) (id : ℤ) : Option ℕ :=
  if 0 ≤ id ∧ id < numExperts then
    expertMap.elim (some id.toNat) fun m => if m.read id = -1 then none else some (m.read id).toNat
  else none

section Spec
variable (route : ℕ → Option ℕ) (numel blockSize : ℕ)

/-- The number of routes scheduled for an expert. -/
def routeCount (e : ℕ) : ℕ := ((Finset.range numel).filter fun i => route i = some e).card

/-- The first entry of the blocks of an expert. -/
def blockStart (e : ℕ) : ℕ :=
  ∑ e' ∈ Finset.range e, ceilDiv (routeCount route numel e') blockSize * blockSize

/-- What `moe_align_block_size` is for: within the first `numTokensPostPad` entries of the
`capacity` sorted ones every scheduled route occurs once, in a block that carries its
expert, every other entry is the sentinel, and a skipped route occurs in none. -/
structure Aligned (numExperts capacity : ℕ) (expertOf : ℕ → ℤ) (out : AlignOutput) : Prop where
  numTokensPostPad : out.numTokensPostPad =
    ∑ e ∈ Finset.range numExperts, ceilDiv (routeCount route numel e) blockSize * blockSize
  fits : out.numTokensPostPad ≤ capacity
  scheduled_once : ∀ i < numel, route i ≠ none →
    ∃! r, r < out.numTokensPostPad ∧ out.sortedTokenIds r = i
  in_block : ∀ i < numel, ∀ e r, route i = some e → r < out.numTokensPostPad →
    out.sortedTokenIds r = i → out.expertIds (r / blockSize) = expertOf e
  others : ∀ r < out.numTokensPostPad,
    (∃ i < numel, route i ≠ none ∧ out.sortedTokenIds r = i) ∨ out.sortedTokenIds r = numel
  skipped : ∀ i < numel, route i = none → ∀ r < capacity, out.sortedTokenIds r ≠ i

theorem blockStart_succ (e : ℕ) : blockStart route numel blockSize (e + 1) =
    blockStart route numel blockSize e +
      ceilDiv (routeCount route numel e) blockSize * blockSize :=
  Finset.sum_range_succ _ _

theorem blockStart_mono {e e' : ℕ} (h : e ≤ e') :
    blockStart route numel blockSize e ≤ blockStart route numel blockSize e' :=
  Finset.sum_le_sum_of_subset (Finset.range_mono h)

theorem blockSize_dvd_blockStart (e : ℕ) : blockSize ∣ blockStart route numel blockSize e :=
  Finset.dvd_sum fun _ _ => Dvd.intro_left _ rfl

variable {blockSize}

theorem routeCount_end_le (hb : 0 < blockSize) (e : ℕ) :
    blockStart route numel blockSize e + routeCount route numel e ≤
      blockStart route numel blockSize (e + 1) := by
  rw [blockStart_succ]
  exact Nat.add_le_add_left (le_ceilDiv_mul hb) _

variable {route numel} in
theorem blockStart_unique {e e' r : ℕ} (h1 : blockStart route numel blockSize e ≤ r)
    (h2 : r < blockStart route numel blockSize (e + 1))
    (h1' : blockStart route numel blockSize e' ≤ r)
    (h2' : r < blockStart route numel blockSize (e' + 1)) : e = e' := by
  rcases lt_trichotomy e e' with h | h | h
  · have := blockStart_mono route numel blockSize (show _ + 1 ≤ _ from h)
    omega
  · exact h
  · have := blockStart_mono route numel blockSize (show _ + 1 ≤ _ from h)
    omega

theorem sum_routeCount_le (n : ℕ) : ∑ e ∈ Finset.range n, routeCount route numel e ≤ numel := by
  have hdisj : (↑(Finset.range n) : Set ℕ).PairwiseDisjoint fun e =>
      (Finset.range numel).filter fun i => route i = some e := by
    intro e _ e' _ hne
    refine Finset.disjoint_filter.mpr fun i _ h h' => hne ?_
    exact Option.some.inj (h.symm.trans h')
  have hcard := Finset.card_biUnion hdisj
  simp only [routeCount]
  rw [← hcard]
  calc _ ≤ (Finset.range numel).card := by
        refine Finset.card_le_card fun i hi => ?_
        obtain ⟨e, -, h⟩ := Finset.mem_biUnion.mp hi
        exact (Finset.mem_filter.mp h).1
    _ = numel := Finset.card_range numel

section
variable (hb : 0 < blockSize) (n : ℕ)
include hb n

theorem blockStart_le_mul : blockStart route numel blockSize n ≤ numel * blockSize := by
  calc blockStart route numel blockSize n
      ≤ ∑ e ∈ Finset.range n, routeCount route numel e * blockSize :=
        Finset.sum_le_sum fun e _ => mul_le_mul_right _ (ceilDiv_le_self hb)
    _ = (∑ e ∈ Finset.range n, routeCount route numel e) * blockSize := by
        rw [Finset.sum_mul]
    _ ≤ numel * blockSize := mul_le_mul_right _ (sum_routeCount_le route numel n)

theorem blockStart_le_add : blockStart route numel blockSize n ≤ numel + n * (blockSize - 1) := by
  calc blockStart route numel blockSize n
      ≤ ∑ e ∈ Finset.range n, (routeCount route numel e + (blockSize - 1)) := by
        refine Finset.sum_le_sum fun e _ => ?_
        have := ceilDiv_mul_lt (x := routeCount route numel e) hb
        omega
    _ = ∑ e ∈ Finset.range n, routeCount route numel e + n * (blockSize - 1) := by
        rw [Finset.sum_add_distrib, Finset.sum_const, Finset.card_range, smul_eq_mul]
    _ ≤ numel + n * (blockSize - 1) := Nat.add_le_add_right (sum_routeCount_le route numel n) _

theorem blockStart_le_maxNumTokensPadded (pad : Bool) :
    blockStart route numel blockSize n ≤ maxNumTokensPadded numel blockSize n pad := by
  have hadd := blockStart_le_add route numel hb n
  have hmul := blockStart_le_mul route numel hb n
  have hround := hadd.trans (le_ceilDiv_mul hb)
  have hbound : blockStart route numel blockSize n ≤
      if pad then roundUp (numel + n * (blockSize - 1)) blockSize
      else numel + n * (blockSize - 1) := by
    split
    · exact hround
    · exact hadd
  simp only [maxNumTokensPadded]
  split
  · exact le_min hmul hbound
  · exact hbound

end

variable {route numel} in
/-- Outputs are aligned when every scheduled route has an entry of its own among those of
its expert, and the entries that no route has keep the sentinel. -/
theorem Aligned.of_placement {n capacity : ℕ} {out : AlignOutput} (entry : ℕ → Option ℕ)
    (hroute : ∀ i e, route i = some e → i < numel ∧ e < n)
    (htotal : out.numTokensPostPad = blockStart route numel blockSize n)
    (hcap : blockStart route numel blockSize n ≤ capacity)
    (hplaced : ∀ i e, route i = some e → ∃ r, blockStart route numel blockSize e ≤ r ∧
      r < blockStart route numel blockSize (e + 1) ∧ entry i = some r ∧
      out.sortedTokenIds r = i)
    (hentry : ∀ i r, entry i = some r → route i ≠ none)
    (hcell : ∀ r < capacity, (∃ i e, route i = some e ∧ entry i = some r ∧
      out.sortedTokenIds r = i) ∨ out.sortedTokenIds r = numel)
    (hids : ∀ e < n, ∀ r, blockStart route numel blockSize e ≤ r →
      r < blockStart route numel blockSize (e + 1) → out.expertIds (r / blockSize) = e) :
    Aligned route numel blockSize n capacity (fun e => (e : ℤ)) out := by
  have hback {i r : ℕ} (hi : i < numel) (hr : r < capacity) (hm : out.sortedTokenIds r = i) :
      entry i = some r := by
    rcases hcell r hr with ⟨i', e, -, ht, hm'⟩ | hm'
    · obtain rfl : i = i' := by
        have := hm.symm.trans hm'
        exact_mod_cast this
      exact ht
    · have := hm.symm.trans hm'
      omega
  refine ⟨htotal, htotal ▸ hcap, ?_, ?_, ?_, ?_⟩
  · intro i hi hne
    obtain ⟨e, he⟩ := Option.ne_none_iff_exists'.mp hne
    obtain ⟨r, -, h2, ht, hm⟩ := hplaced i e he
    have hmono := blockStart_mono route numel blockSize (show e + 1 ≤ n from (hroute i e he).2)
    refine ⟨r, ⟨by omega, hm⟩, fun r' ⟨hr', hm'⟩ => ?_⟩
    have ht' := hback hi (by omega) hm'
    exact Option.some.inj (ht'.symm.trans ht)
  · intro i hi e r he hr hm
    have ht := hback hi (by omega) hm
    obtain ⟨r', h1, h2, ht', -⟩ := hplaced i e he
    obtain rfl : r' = r := Option.some.inj (ht'.symm.trans ht)
    exact hids e (hroute i e he).2 r' h1 h2
  · intro r hr
    rcases hcell r (by omega) with ⟨i, e, he, -, hm⟩ | hm
    · exact .inl ⟨i, (hroute i e he).1, by simp [he], hm⟩
    · exact .inr hm
  · intro i hi hnone r hr hm
    exact hentry i r (hback hi hr hm) hnone

end Spec

section Kernel
variable {cfg : AlignConfig} {expertMap : Option ExpertMap} {ids : List ℤ}

theorem AlignConfig.numExperts_lt (cfg : AlignConfig) : cfg.numExperts < 1024 :=
  lt_of_le_of_lt (le_ceilDiv_mul cfg.warpSize_pos) cfg.admitted

theorem AlignConfig.le_threads (cfg : AlignConfig) : 1024 ≤ cfg.threads :=
  le_ceilDiv_mul cfg.warpSize_pos

@[simp] theorem AlignConfig.sharedCell_eq (cfg : AlignConfig) (e : ℕ) : cfg.sharedCell e = e :=
  div_add_mod' e cfg.warpSize

variable {n e : ℕ}

theorem bmod_of_emod_lt {id : ℤ} (hn : n < 1024) (h : ¬(n : ℤ) ≤ Int.bmod id (2 ^ 32) % 2 ^ 32) :
    0 ≤ Int.bmod id (2 ^ 32) ∧ Int.bmod id (2 ^ 32) < n := by
  have h1 : -(2 ^ 31 : ℤ) ≤ Int.bmod id (2 ^ 32) := by
    have := Int.le_bmod (x := id) (m := 2 ^ 32) (by norm_num)
    norm_num at this ⊢
    exact this
  have h2 : Int.bmod id (2 ^ 32) < (2 ^ 31 : ℤ) := by
    have := Int.bmod_lt (x := id) (m := 2 ^ 32) (by norm_num)
    norm_num at this ⊢
    exact this
  omega

/-- The kernels go by the last 32 bits of an id. -/
theorem kernelExpert_eq (hn : n < 1024) (m : Option ExpertMap) (id : ℤ) :
    kernelExpert n m id = validExpert n m (id % 2 ^ 32) := by
  have hmod : Int.bmod id (2 ^ 32) % 2 ^ 32 = id % 2 ^ 32 := by
    have := Int.bmod_emod (x := id) (m := 2 ^ 32)
    exact_mod_cast this
  have hpos : 0 ≤ id % 2 ^ 32 := Int.emod_nonneg id (by decide)
  unfold kernelExpert validExpert
  dsimp only
  by_cases hle : (n : ℤ) ≤ id % 2 ^ 32
  · rw [hmod, if_pos hle, if_neg (by omega)]
  · obtain ⟨h0, hlt⟩ := bmod_of_emod_lt hn (hmod.symm ▸ hle)
    have heq : Int.bmod id (2 ^ 32) = id % 2 ^ 32 := by
      rw [← hmod, Int.emod_eq_of_lt h0 (by omega)]
    rw [hmod, if_neg hle, heq, if_pos ⟨hpos, by omega⟩]
    cases m with
    | none | some m => rfl

theorem validExpert_eq_none_iff (m : Option ExpertMap) {id : ℤ} (hpos : 0 ≤ id) :
    validExpert n m id = none ↔ (n : ℤ) ≤ id ∨ ∃ m' ∈ m, m'.read id = -1 := by
  unfold validExpert
  by_cases hlt : id < n
  · rw [if_pos ⟨hpos, hlt⟩]
    cases m with
    | none => simp [hlt]
    | some m => simp [hlt]
  · rw [if_neg (by omega)]
    exact iff_of_true rfl (.inl (by omega))

section
variable (hn : n < 1024) (hmap : ∀ m ∈ expertMap, m.WellFormed n)
include hn hmap

theorem kernelExpert_lt {id : ℤ} (h : kernelExpert n expertMap id = some e) : e < n := by
  simp only [kernelExpert] at h
  split at h
  · exact absurd h (by simp)
  · rename_i hid
    obtain ⟨h0, hlt⟩ := bmod_of_emod_lt hn hid
    cases expertMap with
    | none =>
      cases h
      omega
    | some m =>
      have hwf := hmap m rfl
      simp only at h
      split at h
      · exact absurd h (by simp)
      · rename_i hne
        cases h
        have hcov := hwf.covers
        rcases hwf.entries (Int.bmod id (2 ^ 32)).toNat (by omega) with hm | ⟨hm0, hm⟩
        · rw [Int.toNat_of_nonneg h0] at hm
          exact absurd hm hne
        · rw [Int.toNat_of_nonneg h0] at hm0 hm
          omega

theorem kernelRoute_lt {i : ℕ} (h : kernelRoute n expertMap ids i = some e) : e < n := by
  obtain ⟨id, -, hid⟩ := Option.bind_eq_some_iff.mp h
  exact kernelExpert_lt hn hmap hid

end

theorem kernelRoute_eq_none_of_le {i : ℕ} (h : ids.length ≤ i) :
    kernelRoute n expertMap ids i = none := by
  simp [kernelRoute, List.getElem?_eq_none h]

theorem lt_length_of_kernelRoute {i : ℕ} (h : kernelRoute n expertMap ids i = some e) :
    i < ids.length := by
  by_contra hi
  rw [kernelRoute_eq_none_of_le (not_lt.mp hi)] at h
  exact absurd h (by simp)

theorem foldl_increment (route : ℕ → Option ℕ) (order : List ℕ) (counts : ℕ → ℕ) (e : ℕ) :
    order.foldl (fun row i => increment row (route i)) counts e =
      counts e + order.countP fun i => route i = some e := by
  induction order generalizing counts with
  | nil => simp
  | cons i order ih =>
    rw [foldl_cons, ih, countP_cons]
    cases hr : route i with
    | none => simp [increment]
    | some e' =>
      by_cases he : e' = e
      · subst he
        simp [increment]
        omega
      · simp [increment, he, Function.update_of_ne (Ne.symm he)]

theorem foldl_countStep (order : List ℕ) (counts : ℕ → ℕ) (e : ℕ) :
    order.foldl (countStep cfg expertMap ids) counts e =
      counts e + order.countP fun i => kernelRoute cfg.numExperts expertMap ids i = some e := by
  have hstep : countStep cfg expertMap ids = fun row i =>
      increment row (kernelRoute cfg.numExperts expertMap ids i) := by
    funext row i
    rw [countStep, show cfg.sharedCell = id from funext cfg.sharedCell_eq, Option.map_id, id]
  rw [hstep, foldl_increment]

theorem mem_zeroCells (he : e < cfg.numExperts) : e ∈ cfg.zeroCells := by
  have hlt := cfg.numExperts_lt
  have hthreads := cfg.le_threads
  have hpad := le_ceilDiv_mul (x := cfg.numExperts) cfg.warpSize_pos
  refine mem_flatMap.mpr ⟨e, mem_range.mpr (by omega), mem_filter.mpr ⟨?_, ?_⟩⟩
  · exact mem_map.mpr ⟨e % cfg.warpSize,
      mem_range.mpr (mod_lt _ cfg.warpSize_pos), div_add_mod' e cfg.warpSize⟩
  · exact decide_eq_true (lt_of_lt_of_le he hpad)

theorem idWrites_block {threads maxNumMBlocks : ℕ} {cumsum : ℕ → ℕ} {mem : ℕ → ℤ}
    {order : List (ℕ × ℤ)} (hthreads : cfg.numExperts ≤ threads)
    (hcumsum : ∀ t ≤ cfg.numExperts, cumsum t = blockStart
      (kernelRoute cfg.numExperts expertMap ids) ids.length cfg.blockSize t)
    (hperm : order.Perm (cfg.idWrites threads cumsum maxNumMBlocks)) {r : ℕ}
    (he : e < cfg.numExperts)
    (h1 : blockStart (kernelRoute cfg.numExperts expertMap ids) ids.length cfg.blockSize e ≤ r)
    (h2 : r < blockStart (kernelRoute cfg.numExperts expertMap ids) ids.length cfg.blockSize
      (e + 1)) : writeAll mem order (r / cfg.blockSize) = e := by
  have hb := cfg.blockSize_pos
  have hfloor := div_mul_le_self r cfg.blockSize
  obtain ⟨q, hq⟩ := blockSize_dvd_blockStart (kernelRoute cfg.numExperts expertMap ids)
    ids.length cfg.blockSize e
  have hqr : q ≤ r / cfg.blockSize := by
    rw [le_div_iff_mul_le hb, mul_comm, ← hq]
    exact h1
  have hstart : blockStart (kernelRoute cfg.numExperts expertMap ids) ids.length cfg.blockSize e ≤
      r / cfg.blockSize * cfg.blockSize := by
    rw [hq, mul_comm]
    exact mul_le_mul_right _ hqr
  refine writeAll_of_mem (hperm.mem_iff.mpr ?_) fun v hv => ?_
  · refine mem_flatMap.mpr ⟨e, mem_range.mpr (by omega), mem_append_left _ ?_⟩
    rw [if_pos he]
    refine mem_map.mpr ⟨r / cfg.blockSize * cfg.blockSize, ?_, ?_⟩
    · refine (mem_stridedLoop hb).mpr ⟨r / cfg.blockSize - q, ?_, ?_⟩
      · rw [hcumsum e he.le, hq, Nat.sub_mul, Nat.mul_comm q]
        omega
      · rw [hcumsum (e + 1) he]
        omega
    · rw [Nat.mul_div_cancel _ hb]
  · obtain ⟨tid, -, hv⟩ := mem_flatMap.mp (hperm.mem_iff.mp hv)
    rcases mem_append.mp hv with hv | hv
    · split at hv
      · rename_i htid
        obtain ⟨i, hi, hiv⟩ := mem_map.mp hv
        obtain ⟨hcell, rfl⟩ := Prod.mk.inj hiv
        obtain ⟨k, hik, hilt⟩ := (mem_stridedLoop hb).mp hi
        rw [hcumsum tid htid.le] at hik
        rw [hcumsum (tid + 1) htid] at hilt
        obtain ⟨q', hq'⟩ := blockSize_dvd_blockStart
          (kernelRoute cfg.numExperts expertMap ids) ids.length cfg.blockSize tid
        have hi' : i = r / cfg.blockSize * cfg.blockSize := by
          rw [← hcell, hik, hq', Nat.mul_comm, ← Nat.add_mul, Nat.mul_div_cancel _ hb]
        have hsame : tid = e := blockStart_unique (hik ▸ Nat.le_add_right _ _) hilt
          (hi' ▸ hstart) (by omega)
        exact_mod_cast hsame
      · exact absurd hv (by simp)
    · obtain ⟨i, hi, hiv⟩ := mem_map.mp hv
      obtain ⟨hcell, -⟩ := Prod.mk.inj hiv
      obtain ⟨k, hik, -⟩ := (mem_stridedLoop (by omega)).mp hi
      rw [hcumsum _ le_rfl] at hik
      obtain ⟨q', hq'⟩ := blockSize_dvd_blockStart
        (kernelRoute cfg.numExperts expertMap ids) ids.length cfg.blockSize cfg.numExperts
      have hmono := blockStart_mono (kernelRoute cfg.numExperts expertMap ids) ids.length
        cfg.blockSize (show e + 1 ≤ cfg.numExperts from he)
      have hlt' : r / cfg.blockSize < q' := by
        rw [div_lt_iff_lt_mul hb, mul_comm, ← hq']
        omega
      rw [hq', Nat.mul_div_cancel_left _ hb] at hik
      omega

namespace LargeBatchRun
variable {capacity : ℕ} (run : LargeBatchRun cfg expertMap ids capacity)

/-- `shared_counts` counts the routes, whatever the order of the increments. -/
theorem counts_eq {e : ℕ} (he : e < cfg.numExperts) :
    run.counts e = routeCount (kernelRoute cfg.numExperts expertMap ids) ids.length e := by
  have hthreads : 0 < cfg.threads := lt_of_lt_of_le (by norm_num) cfg.le_threads
  have hzero : writeAll run.shared (run.zeroOrder.map (·, 0)) e = 0 :=
    writeAll_const (run.zeroOrder_perm.mem_iff.mpr (mem_zeroCells he))
  have hperm := run.countOrder_perm.trans (gridLoop_perm ids.length hthreads)
  rw [LargeBatchRun.counts, foldl_countStep, hzero, hperm.countP_eq, zero_add, routeCount,
    countP_eq_length_filter]
  rfl

theorem exclusiveSum_eq {t : ℕ} (ht : t ≤ cfg.numExperts) :
    exclusiveSum (cfg.expertCount run.counts) t =
      blockStart (kernelRoute cfg.numExperts expertMap ids) ids.length cfg.blockSize t := by
  refine Finset.sum_congr rfl fun e he => ?_
  have hlt : e < cfg.numExperts := lt_of_lt_of_le (Finset.mem_range.mp he) ht
  rw [AlignConfig.expertCount, if_pos hlt, cfg.sharedCell_eq, run.counts_eq hlt]

theorem cumsum_eq {t : ℕ} (ht : t ≤ cfg.numExperts) :
    run.cumsum t =
      blockStart (kernelRoute cfg.numExperts expertMap ids) ids.length cfg.blockSize t := by
  rw [← run.exclusiveSum_eq ht]
  have hthreads := cfg.le_threads
  have hlt := cfg.numExperts_lt
  refine writeAll_of_mem (run.cumsumOrder_perm.mem_iff.mpr ?_) fun v hv => ?_
  · refine mem_map.mpr ⟨t, ?_, rfl⟩
    simp only [mem_filter, mem_range, decide_eq_true_eq]
    omega
  · obtain ⟨t', -, h⟩ := mem_map.mp (run.cumsumOrder_perm.mem_iff.mp hv)
    cases h
    rfl

theorem expertIds_eq {e r : ℕ} (he : e < cfg.numExperts)
    (h1 : blockStart (kernelRoute cfg.numExperts expertMap ids) ids.length cfg.blockSize e ≤ r)
    (h2 : r < blockStart (kernelRoute cfg.numExperts expertMap ids) ids.length cfg.blockSize
      (e + 1)) : run.output.expertIds (r / cfg.blockSize) = e := by
  have hthreads := cfg.le_threads
  have hlt := cfg.numExperts_lt
  exact idWrites_block (by omega) (fun t ht => run.cumsum_eq ht) run.idOrder_perm he h1 h2

end LargeBatchRun

theorem sortKey_eq : sortKey cfg expertMap ids = kernelRoute cfg.numExperts expertMap ids := by
  funext i
  rw [sortKey]
  split
  · rfl
  · rename_i hi
    refine (kernelRoute_eq_none_of_le ?_).symm
    by_contra hlen
    have hthreads := cfg.le_threads
    have hpos : 0 < cfg.sortThreads ids.length := by
      refine mul_pos (by omega) (lt_min ?_ (by norm_num))
      exact (lt_ceilDiv_iff (by omega)).mpr (by omega)
    exact hi ((mem_gridLoop hpos).mpr (not_le.mp hlen))

theorem card_tasksOf (e : ℕ) :
    (Tickets.tasksOf (sortKey cfg expertMap ids) (Finset.range ids.length) e).card =
      routeCount (kernelRoute cfg.numExperts expertMap ids) ids.length e := by
  rw [Tickets.tasksOf, routeCount, sortKey_eq]

theorem routeCount_pos_lt (ids : List ℤ) (hmap : ∀ m ∈ expertMap, m.WellFormed cfg.numExperts)
    (h : 0 < routeCount (kernelRoute cfg.numExperts expertMap ids) ids.length e) :
    e < cfg.numExperts := by
  obtain ⟨i, hi⟩ := Finset.card_pos.mp h
  exact kernelRoute_lt cfg.numExperts_lt hmap (Finset.mem_filter.mp hi).2

namespace LargeBatchRun
variable {capacity : ℕ} (run : LargeBatchRun cfg expertMap ids capacity)

section
variable (hmap : ∀ m ∈ expertMap, m.WellFormed cfg.numExperts)
include hmap

theorem segmentsDisjoint :
    Tickets.SegmentsDisjoint (sortKey cfg expertMap ids) (Finset.range ids.length)
      run.cumsum := by
  intro e e' r h1 h2 h1' h2'
  rw [card_tasksOf] at h2 h2'
  have he : e < cfg.numExperts := routeCount_pos_lt ids hmap (by omega)
  have he' : e' < cfg.numExperts := routeCount_pos_lt ids hmap (by omega)
  rw [run.cumsum_eq he.le] at h1 h2
  rw [run.cumsum_eq he'.le] at h1' h2'
  exact blockStart_unique h1 (lt_of_lt_of_le h2 (routeCount_end_le _ _ cfg.blockSize_pos e)) h1'
    (lt_of_lt_of_le h2' (routeCount_end_le _ _ cfg.blockSize_pos e'))

theorem ticketsInv :
    Tickets.Inv (sortKey cfg expertMap ids) (fun i => (i : ℤ)) (Finset.range ids.length)
      run.cumsum (writeAll run.sortedMemory (run.fillOrder.map (·, (ids.length : ℤ))))
      run.final := by
  refine Tickets.Inv.init.run (run.segmentsDisjoint hmap) (fun i hi => ?_) run.ran
  rw [sortKey_eq] at hi
  exact Finset.mem_range.mpr (not_le.mp fun h => hi (kernelRoute_eq_none_of_le h))

end

theorem fill_eq {r : ℕ} (hr : r < capacity) :
    writeAll run.sortedMemory (run.fillOrder.map (·, (ids.length : ℤ))) r = ids.length := by
  refine writeAll_const (run.fillOrder_perm.mem_iff.mpr ?_)
  exact (mem_gridLoop (lt_of_lt_of_le (by norm_num) cfg.le_threads)).mpr hr

theorem aligned (hmap : ∀ m ∈ expertMap, m.WellFormed cfg.numExperts)
    (hcap : blockStart (kernelRoute cfg.numExperts expertMap ids) ids.length cfg.blockSize
      cfg.numExperts ≤ capacity) :
    Aligned (kernelRoute cfg.numExperts expertMap ids) ids.length cfg.blockSize cfg.numExperts
      capacity (fun e => (e : ℤ)) run.output := by
  have hinv := run.ticketsInv hmap
  obtain ⟨hplaced, hcells, hrest⟩ := hinv.complete run.complete
  simp only [card_tasksOf] at hplaced hcells hrest
  rw [sortKey_eq] at hplaced hcells
  refine Aligned.of_placement run.final.ticket
    (fun i e he => ⟨lt_length_of_kernelRoute he, kernelRoute_lt cfg.numExperts_lt hmap he⟩)
    (run.exclusiveSum_eq le_rfl) hcap (fun i e he => ?_) (fun i r hr => ?_) (fun r hr => ?_)
    (fun e he r h1 h2 => run.expertIds_eq he h1 h2)
  · obtain ⟨r, h1, h2, ht, hm⟩ := hplaced i e he
    rw [run.cumsum_eq (kernelRoute_lt cfg.numExperts_lt hmap he).le] at h1 h2
    exact ⟨r, h1, lt_of_lt_of_le h2 (routeCount_end_le _ _ cfg.blockSize_pos e), ht, hm⟩
  · obtain ⟨e, he, -⟩ := hinv.drawn i r hr
    rw [sortKey_eq] at he
    simp [he]
  · by_cases h : ∃ e, run.cumsum e ≤ r ∧ r < run.cumsum e +
        routeCount (kernelRoute cfg.numExperts expertMap ids) ids.length e
    · obtain ⟨e, h1, h2⟩ := h
      obtain ⟨i, hi, ht, hm⟩ := hcells e r h1 h2
      exact .inl ⟨i, e, hi, ht, hm⟩
    · refine .inr ((hrest r fun e => ?_).trans (run.fill_eq hr))
      by_contra hc
      exact h ⟨e, by omega, by omega⟩

theorem nonempty (cfg : AlignConfig) (expertMap : Option ExpertMap) (ids : List ℤ)
    (capacity : ℕ) : Nonempty (LargeBatchRun cfg expertMap ids capacity) := by
  let counts := (gridLoop cfg.threads ids.length).foldl (countStep cfg expertMap ids)
    (writeAll (fun _ => 0) (cfg.zeroCells.map (·, 0)))
  let cumsum := writeAll (fun _ => 0) (cfg.cumsumWrites counts)
  let fill := (gridLoop cfg.threads capacity).map (·, (ids.length : ℤ))
  obtain ⟨events, final, hrun, hdone⟩ := Tickets.exists_run_complete
    (sortKey cfg expertMap ids) (fun i => (i : ℤ)) (Finset.range ids.length) (fun i hi => by
      rw [sortKey_eq] at hi
      exact Finset.mem_range.mpr (not_le.mp fun h => hi (kernelRoute_eq_none_of_le h)))
    (.init cumsum (writeAll (fun _ => 0) fill))
  exact ⟨{
    shared := fun _ => 0
    cumsumBuffer := fun _ => 0
    sortedMemory := fun _ => 0
    expertIdsMemory := fun _ => 0
    zeroOrder := cfg.zeroCells
    zeroOrder_perm := List.Perm.refl _
    countOrder := gridLoop cfg.threads ids.length
    countOrder_perm := List.Perm.refl _
    cumsumOrder := cfg.cumsumWrites counts
    cumsumOrder_perm := List.Perm.refl _
    idOrder := cfg.idWrites cfg.threads cumsum (ceilDiv capacity cfg.blockSize)
    idOrder_perm := List.Perm.refl _
    fillOrder := gridLoop cfg.threads capacity
    fillOrder_perm := List.Perm.refl _
    events := events
    final := final
    ran := hrun
    complete := hdone }⟩

end LargeBatchRun

end Kernel

theorem Aligned.moeAlignBlockSize {route : ℕ → Option ℕ} {numel blockSize n capacity : ℕ}
    {out : AlignOutput} (h : Aligned route numel blockSize n capacity (fun e => (e : ℤ)) out)
    (expertMap : Option ExpertMap) (ignoreInvalidExperts : Bool) :
    Aligned route numel blockSize n capacity (finalExpert expertMap ignoreInvalidExperts)
      (Moe.moeAlignBlockSize expertMap ignoreInvalidExperts out) := by
  cases expertMap with
  | none => exact h
  | some m =>
    cases ignoreInvalidExperts with
    | true => exact h
    | false =>
      refine ⟨h.numTokensPostPad, h.fits, h.scheduled_once, ?_, h.others, h.skipped⟩
      intro i hi e r he hr hm
      have hid := h.in_block i hi e r he hr hm
      calc m.index (out.expertIds (r / blockSize)) = m.index e := by rw [hid]
        _ = m.read e := by rw [ExpertMap.index, if_neg (by omega)]
        _ = finalExpert (some m) false e := rfl

theorem kernelMap_wellFormed {n : ℕ} {expertMap : Option ExpertMap}
    (hmap : ∀ m ∈ expertMap, m.WellFormed n) (ignoreInvalidExperts : Bool) :
    ∀ m ∈ kernelMap expertMap ignoreInvalidExperts, m.WellFormed n := by
  intro m hm
  cases ignoreInvalidExperts with
  | true => exact hmap m hm
  | false => exact absurd hm (by simp [kernelMap])

/-- Two experts in blocks of four entries. -/
def twoExperts : AlignConfig := ⟨2, 4, 32, by decide, by decide, by decide⟩

/-- A shard that holds the first of two experts. -/
def firstExpertMap : ExpertMap := ⟨2, fun i => if i = 0 then 0 else -1, by norm_num⟩

theorem firstExpertMap_wellFormed : firstExpertMap.WellFormed 2 := by
  refine ⟨le_rfl, fun i _ => ?_⟩
  by_cases hi : i = 0
  · exact .inr (by simp [firstExpertMap, hi])
  · exact .inl (by simp [firstExpertMap, hi])

end Vllm.Moe
