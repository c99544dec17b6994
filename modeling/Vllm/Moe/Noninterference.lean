import Vllm.Moe.FastPath

/-! When the alignment skips invalid routes, nothing of the workspaces' old content reaches
the output, as long as the three kernels agree on which routes are valid. -/
namespace Vllm.Moe
open GridLoop

section Routes
variable {X S : Type}

/-- The reduction and the masked activation load the rows of the scheduled routes and of no
others. -/
def ReadsScheduled (numExperts : ℕ) (expertMap : ExpertMap) (tokens : RoutedTokens X S) : Prop :=
  ∀ m < tokens.numTokens, ∀ n < tokens.topK,
    (0 ≤ mulSumLocalExpert expertMap tokens.topkIds tokens.topK m n ↔
      kernelRoute numExperts (some expertMap) tokens.topkIds (m * tokens.topK + n) ≠ none) ∧
    (0 ≤ maskedLocalExpert expertMap tokens.topkIds tokens.topK (m * tokens.topK + n) ↔
      kernelRoute numExperts (some expertMap) tokens.topkIds (m * tokens.topK + n) ≠ none)

/-- Two maps with the same entries; the memory around them may differ. -/
def ExpertMap.SameTensor (m m' : ExpertMap) : Prop :=
  m'.size = m.size ∧ ∀ i : ℤ, 0 ≤ i → i < m.size → m'.read i = m.read i

/-- An id that is no expert lies within the map or is negative, has no local expert there,
and is not a scheduled expert modulo 2 ^ 32. -/
def IdsCovered (numExperts : ℕ) (expertMap : ExpertMap) (topkIds : List ℤ) : Prop :=
  ∀ id ∈ topkIds, ¬(0 ≤ id ∧ id < numExperts) →
    ((numExperts : ℤ) ≤ id % 2 ^ 32 ∨ expertMap.read (id % 2 ^ 32) = -1) ∧
    (0 ≤ id → id < expertMap.size ∧ expertMap.read id = -1)

instance (numExperts : ℕ) (expertMap : ExpertMap) (topkIds : List ℤ) :
    Decidable (IdsCovered numExperts expertMap topkIds) :=
  inferInstanceAs (Decidable (∀ id ∈ topkIds, _ → _ ∧ (_ → _)))

variable {m : ExpertMap} {n : ℕ} {ids : List ℤ}

theorem ExpertMap.SameTensor.wellFormed {m' : ExpertMap} (h : m.SameTensor m')
    (hwf : m.WellFormed n) : m'.WellFormed n := by
  refine ⟨h.1 ▸ hwf.covers, fun i hi => ?_⟩
  have hi : i < m.size := h.1 ▸ hi
  rw [h.2 i (by omega) (by exact_mod_cast hi)]
  exact hwf.entries i hi

theorem ExpertMap.SameTensor.idsCovered {m' : ExpertMap} (h : m.SameTensor m')
    (hwf : m.WellFormed n) (hids : IdsCovered n m ids) :
    IdsCovered n m' ids := by
  have hcovers := hwf.covers
  intro id hid hout
  obtain ⟨hwrap, hin⟩ := hids id hid hout
  refine ⟨?_, fun h0 => ?_⟩
  · by_cases hlt : (n : ℤ) ≤ id % 2 ^ 32
    · exact .inl hlt
    · right
      rw [h.2 _ (by omega) (by omega)]
      exact hwrap.resolve_left hlt
  · obtain ⟨hsize, hread⟩ := hin h0
    rw [h.1, h.2 id h0 hsize]
    exact ⟨hsize, hread⟩

theorem kernelExpert_eq_none_iff {id : ℤ} (hn : n < 1024) :
    kernelExpert n (some m) id = none ↔ (n : ℤ) ≤ id % 2 ^ 32 ∨ m.read (id % 2 ^ 32) = -1 := by
  rw [kernelExpert_eq hn, validExpert_eq_none_iff _ (Int.emod_nonneg id (by decide))]
  simp

theorem kernelRoute_getElem {m : Option ExpertMap} {i : ℕ} (hi : i < ids.length) :
    kernelRoute n m ids i = kernelExpert n m ids[i] := by
  rw [kernelRoute, List.getElem?_eq_getElem hi]
  rfl

theorem mulSumLocalExpert_nonneg {topK token k : ℕ} (hi : token * topK + k < ids.length) :
    0 ≤ mulSumLocalExpert m ids topK token k ↔ 0 ≤ ids[token * topK + k] ∧
      ids[token * topK + k] < m.size ∧ 0 ≤ m.read ids[token * topK + k] := by
  simp only [mulSumLocalExpert, List.getD, List.getElem?_eq_getElem hi, Option.getD_some]
  split
  · rename_i h
    exact ⟨fun h' => ⟨h.1, h.2, h'⟩, fun h' => h'.2.2⟩
  · rename_i h
    exact ⟨fun h' => absurd h' (by omega), fun h' => absurd ⟨h'.1, h'.2.1⟩ h⟩

theorem maskedLocalExpert_nonneg {topK i : ℕ} (hi : i < ids.length) :
    0 ≤ maskedLocalExpert m ids topK i ↔ 0 ≤ ids[i] ∧ 0 ≤ m.read ids[i] := by
  simp only [maskedLocalExpert, Nat.div_add_mod', List.getD, List.getElem?_eq_getElem hi,
    Option.getD_some]
  split
  · rename_i h
    exact ⟨fun h' => ⟨h, h'⟩, fun h' => h'.2⟩
  · rename_i h
    exact ⟨fun h' => absurd h' (by omega), fun h' => absurd h'.1 h⟩

theorem readsScheduled_of_idsCovered (hn : n < 1024) (hwf : m.WellFormed n)
    {tokens : RoutedTokens X S} (hids : IdsCovered n m tokens.topkIds) :
    ReadsScheduled n m tokens := by
  have hcovers := hwf.covers
  intro token htoken k hk
  have hi := route_lt_length htoken hk
  rw [mulSumLocalExpert_nonneg hi, maskedLocalExpert_nonneg hi, kernelRoute_getElem hi]
  generalize hid : tokens.topkIds[token * tokens.topK + k] = id
  by_cases hin : 0 ≤ id ∧ id < n
  · have hentry := hwf.entries id.toNat (by omega)
    rw [Int.toNat_of_nonneg hin.1] at hentry
    have hroute : kernelExpert n (some m) id ≠ none ↔ 0 ≤ m.read id := by
      rw [kernelExpert_of_lt hn hin.1 hin.2]
      rcases hentry with h | ⟨h, -⟩
      · simp [h]
      · rw [if_neg (by omega)]
        simp [h]
    rw [hroute]
    exact ⟨⟨fun h => h.2.2, fun h => ⟨hin.1, by omega, h⟩⟩, ⟨fun h => h.2, fun h => ⟨hin.1, h⟩⟩⟩
  · obtain ⟨hwrap, hcov⟩ := hids id (hid ▸ List.getElem_mem hi) hin
    have hnone : kernelExpert n (some m) id = none := (kernelExpert_eq_none_iff hn).mpr hwrap
    have hread (h0 : 0 ≤ id) : ¬0 ≤ m.read id := by
      rw [(hcov h0).2]
      omega
    exact ⟨⟨fun h => absurd h.2.2 (hread h.1), fun h => absurd hnone h⟩,
      ⟨fun h => absurd h.2 (hread h.1), fun h => absurd hnone h⟩⟩

/-- If the kernels agree whatever lies behind the map, all ids are covered. -/
theorem idsCovered_of_readsScheduled (hn : n < 1024) (hwf : m.WellFormed n)
    {tokens : RoutedTokens X S} (h : ∀ m', m.SameTensor m' → ReadsScheduled n m' tokens) :
    IdsCovered n m tokens.topkIds := by
  have hsize31 := m.size_lt
  intro id hid hout
  obtain ⟨i, hi, rfl⟩ := List.getElem_of_mem hid
  have hpos : 0 < tokens.topK := by
    rw [tokens.length_topkIds] at hi
    exact Nat.pos_of_ne_zero fun h0 => by simp [h0] at hi
  have hcell : i / tokens.topK * tokens.topK + i % tokens.topK = i := Nat.div_add_mod' _ _
  have hroutes (m' : ExpertMap) (hm' : m.SameTensor m') :
      (0 ≤ tokens.topkIds[i] ∧ tokens.topkIds[i] < m'.size ∧ 0 ≤ m'.read tokens.topkIds[i] ↔
        kernelExpert n (some m') tokens.topkIds[i] ≠ none) ∧
      (0 ≤ tokens.topkIds[i] ∧ 0 ≤ m'.read tokens.topkIds[i] ↔
        kernelExpert n (some m') tokens.topkIds[i] ≠ none) := by
    have := h m' hm' (i / tokens.topK)
      ((Nat.div_lt_iff_lt_mul hpos).mpr (tokens.length_topkIds ▸ hi)) (i % tokens.topK)
      (Nat.mod_lt i hpos)
    have hlt : i / tokens.topK * tokens.topK + i % tokens.topK < tokens.topkIds.length := by
      rw [hcell]
      exact hi
    rw [mulSumLocalExpert_nonneg hlt] at this
    simp only [hcell] at this
    rw [maskedLocalExpert_nonneg hi, kernelRoute_getElem hi] at this
    exact this
  have hself := hroutes m ⟨rfl, fun _ _ _ => rfl⟩
  have hsched (h : tokens.topkIds[i] < 2 ^ 31) (h0 : 0 ≤ tokens.topkIds[i]) (m' : ExpertMap) :
      kernelExpert n (some m') tokens.topkIds[i] = none := by
    refine (kernelExpert_eq_none_iff hn).mpr (.inl ?_)
    omega
  refine ⟨?_, fun h0 => ?_⟩
  · by_contra hc
    have hne : kernelExpert n (some m) tokens.topkIds[i] ≠ none := fun e =>
      hc ((kernelExpert_eq_none_iff hn).mp e)
    obtain ⟨h0, hlt, -⟩ := hself.1.mpr hne
    exact hne (hsched (by omega) h0 m)
  · have hlt : tokens.topkIds[i] < m.size := by
      by_contra hge
      have hbehind := hroutes ⟨m.size, Function.update m.read tokens.topkIds[i] 0, m.size_lt⟩
        ⟨rfl, fun j _ hj => Function.update_of_ne (by omega) _ _⟩
      have hne := hbehind.2.mp ⟨h0, by simp⟩
      exact hge (hbehind.1.mpr hne).2.1
    refine ⟨hlt, ?_⟩
    have hentry := hwf.entries tokens.topkIds[i].toNat (by omega)
    rw [Int.toNat_of_nonneg h0] at hentry
    refine hentry.resolve_right fun hread => ?_
    exact hself.1.mp ⟨h0, hlt, hread.1⟩ (hsched (by omega) h0 m)

end Routes

section Outputs
variable {X H A Y S : Type} [Zero H] [Semiring S] [AddCommMonoid Y] [Module S Y]

/-- The experts on an assignment that ignores invalid experts. -/
def ignoringAssignment (w1Config w2Config : AlignConfig)
    (h : w2Config.numExperts = w1Config.numExperts) (expertMap : ExpertMap)
    (maskedActivation : Bool) : Assignment :=
  ⟨w1Config, w2Config, h, expertMap, true, maskedActivation⟩

/-- The output rows do not depend on the content of the workspaces, nor on the orders in
which the kernels run. -/
def Noninterferent (layer : ExpertLayer X H A Y) (tokens : RoutedTokens X S)
    (asg : Assignment) : Prop :=
  ∀ run run' : ExpertsRun layer tokens asg, ∀ m < tokens.numTokens, run.output m = run'.output m

theorem noninterferent_of_readsScheduled {layer : ExpertLayer X H A Y}
    {tokens : RoutedTokens X S} {c1 c2 : AlignConfig} {hc : c2.numExperts = c1.numExperts}
    {expertMap : ExpertMap} {masked : Bool} (hwf : expertMap.WellFormed c1.numExperts)
    (hreads : ReadsScheduled c1.numExperts expertMap tokens) :
    Noninterferent layer tokens (ignoringAssignment c1 c2 hc expertMap masked) := by
  intro run run' m hm
  refine List.foldl_ext _ _ _ fun acc n hn => ?_
  obtain ⟨hmul, hmask⟩ := hreads m hm n (List.mem_range.mp hn)
  congr 2
  refine ite_congr rfl (fun hread => ?_) fun _ => rfl
  have hne := hmul.mp hread
  obtain ⟨e, he⟩ := Option.ne_none_iff_exists'.mp hne
  have hi := route_lt_length hm (List.mem_range.mp hn)
  have hlocal : finalExpert (some expertMap) true e ≠ -1 := by
    change ((e : ℕ) : ℤ) ≠ -1
    omega
  rw [run.cache3_scheduled hwf hi he (fun _ => hmask.mpr hne) hlocal,
    run'.cache3_scheduled hwf hi he (fun _ => hmask.mpr hne) hlocal]

/-- Whatever lies behind the map in memory, the alignment, the masked activation and the
reduction work on the same routes, and so the output is free of old content of the
workspaces, exactly when all ids are covered. -/
theorem ignoreInvalid_noninterferent_iff (layer : ExpertLayer X H A Y)
    (tokens : RoutedTokens X S) (c1 c2 : AlignConfig) (hc : c2.numExperts = c1.numExperts)
    (expertMap : ExpertMap) (hwf : expertMap.WellFormed c1.numExperts) :
    (∀ m, expertMap.SameTensor m → ReadsScheduled c1.numExperts m tokens ∧
      ∀ masked, Noninterferent layer tokens (ignoringAssignment c1 c2 hc m masked)) ↔
    IdsCovered c1.numExperts expertMap tokens.topkIds := by
  constructor
  · intro h
    exact idsCovered_of_readsScheduled c1.numExperts_lt hwf fun m hm => (h m hm).1
  · intro hids m hm
    have hreads := readsScheduled_of_idsCovered c1.numExperts_lt (hm.wellFormed hwf)
      (hm.idsCovered hwf hids)
    exact ⟨hreads, fun masked => noninterferent_of_readsScheduled (hm.wellFormed hwf) hreads⟩

end Outputs

theorem ignoreInvalid_noninterferent_paddedToken :
    firstExpertMap.WellFormed twoExperts.numExperts ∧
    ∀ masked, Noninterferent scaleLayer paddedToken
      (ignoringAssignment twoExperts twoExperts rfl firstExpertMap masked) := by
  refine ⟨firstExpertMap_wellFormed, ?_⟩
  have h := (ignoreInvalid_noninterferent_iff scaleLayer paddedToken twoExperts twoExperts rfl
    firstExpertMap firstExpertMap_wellFormed).mpr (by decide)
  exact (h firstExpertMap ⟨rfl, fun _ _ _ => rfl⟩).2

/-- The map of two experts with a zero right behind it. -/
def crowdedMap : ExpertMap :=
  ⟨2, fun i => if i = 0 ∨ i = 2 then 0 else -1, firstExpertMap.size_lt⟩

/-- A map with an entry more than there are experts. -/
def longMap : ExpertMap := ⟨3, fun i => if i = 0 ∨ i = 2 then 0 else -1, by norm_num⟩

/-- A token with an id past the last expert. -/
def pastToken : RoutedTokens ℚ ℚ :=
  ⟨1, 8, [2, -1, -1, -1, -1, -1, -1, -1], rfl, fun _ => 1, fun _ => 3⟩

/-- The masked activation loads the row of a route that the alignment skips. With a longer
map the reduction does, and the output row shows the old content of the workspace. -/
theorem ignoreInvalid_not_noninterferent :
    (crowdedMap.WellFormed 2 ∧ ¬ReadsScheduled 2 crowdedMap pastToken) ∧
    longMap.WellFormed 2 ∧ ∀ masked, ¬Noninterferent scaleLayer pastToken
      (ignoringAssignment twoExperts twoExperts rfl longMap masked) := by
  have hlong : longMap.WellFormed 2 := by
    refine ⟨by decide, fun i hi => ?_⟩
    have hi : i < 3 := hi
    interval_cases i <;> decide
  refine ⟨⟨⟨by decide, fun i hi => ?_⟩, fun h => ?_⟩, hlong, fun masked h => ?_⟩
  · have hi : i < 2 := hi
    interval_cases i <;> decide
  · have hroute := (h 0 (by decide) 0 (by decide)).2.mp (by decide)
    exact hroute (by decide)
  · have hout (c : ℚ) : ∃ run : ExpertsRun scaleLayer pastToken
        (ignoringAssignment twoExperts twoExperts rfl longMap masked), run.output 0 = c := by
      obtain ⟨run, hrun⟩ := ExpertsRun.exists_run scaleLayer pastToken
        (ignoringAssignment twoExperts twoExperts rfl longMap masked)
        ⟨fun _ => 0, fun _ => 0, fun _ _ => c⟩
      have hrow : run.cache3 0 = c := by
        rw [run.cache3_skipped hlong (by decide : kernelRoute 2 (some longMap) _ 0 = none), hrun]
      refine ⟨run, ?_⟩
      change moeFusedMulSum run.cache3 pastToken.topkWeights 8
        [2, -1, -1, -1, -1, -1, -1, -1] longMap 0 = c
      generalize run.cache3 = rows at hrow
      simp [moeFusedMulSum, mulSumLocalExpert, List.range, List.range.loop, longMap, pastToken,
        hrow]
    obtain ⟨run, hrun⟩ := hout 0
    obtain ⟨run', hrun'⟩ := hout 1
    have := h run run' 0 (by decide)
    rw [hrun, hrun'] at this
    exact absurd this (by norm_num)

end Vllm.Moe
