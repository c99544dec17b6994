import Vllm.KvCache.WindowHits

/-! Which blocks of a sliding window are kept: with dense retention the tail of every aligned
segment, with sparse retention those of larger segments and of the boundary of a replay. -/
namespace Vllm.CacheHit
open RightmostRun

variable {blockSize alignmentTokens per maxNumBlocks c e e' : ℕ} {dropEagleBlock : Bool}
  {cached cached' : ℕ → Bool}

/-- The length of a hit whose run ends with block `e`, in segments of `per` blocks. -/
def hitOf (contiguousBlocks per : ℕ) (dropEagleBlock : Bool) (e : ℕ) : ℕ :=
  if dropEagleBlock then
    if e + 1 < contiguousBlocks ∧ per ≠ 1 ∧ e ≠ 0 then e - per else e
  else e + 1

section
variable (hbs : 0 < blockSize)
include hbs

theorem mod_mul_eq_zero_iff {n : ℕ} : n * blockSize % (per * blockSize) = 0 ↔ per ∣ n := by
  rw [Nat.mul_mod_mul_right, Nat.dvd_iff_mod_eq_zero]
  constructor
  · intro h
    exact (Nat.mul_eq_zero.mp h).resolve_right hbs.ne'
  · intro h
    rw [h, Nat.zero_mul]

theorem mayEnd_iff :
    mayEnd blockSize (per * blockSize) dropEagleBlock e = true ↔
      per ∣ if dropEagleBlock then e else e + 1 := by
  rw [mayEnd, decide_eq_true_eq, mod_mul_eq_zero_iff hbs]

theorem alignedLength_eq_floor (hper : 0 < per) (n : ℕ) :
    alignedLength blockSize (per * blockSize) n = n / per * per := by
  apply le_antisymm
  · have haligned := @alignedLength_aligned blockSize (per * blockSize) n
    rcases (mod_mul_eq_zero_iff hbs).mp haligned with ⟨q, hq⟩
    have hle := @alignedLength_le blockSize (per * blockSize) n
    rw [hq, Nat.mul_comm per] at hle ⊢
    exact Nat.mul_le_mul_right _ ((Nat.le_div_iff_mul_le hper).mpr hle)
  · apply le_alignedLength (Nat.div_mul_le_self n per)
    rw [mod_mul_eq_zero_iff hbs]
    exact Nat.dvd_mul_left per _

theorem windowHitLength_eq_hitOf (hper : 0 < per) (hc : 0 < c)
    (hbest : Best cached (mayEnd blockSize (per * blockSize) dropEagleBlock) c maxNumBlocks e) :
    windowHitLength cached c blockSize (per * blockSize) dropEagleBlock maxNumBlocks =
      hitOf c per dropEagleBlock e := by
  have hdvd := (mayEnd_iff hbs).mp hbest.isEnd
  have hscan : scan cached (mayEnd blockSize (per * blockSize) dropEagleBlock) c maxNumBlocks 0 =
      (e + 1, decide (c ≤ e + 1)) := by
    rcases scan_spec hc maxNumBlocks with ⟨-, hnone⟩ | ⟨e', hbest', hscan'⟩
    · exact absurd hbest.run (hnone e hbest.lt hbest.isEnd)
    · rw [hbest.unique hbest']
      exact hscan'
  rw [windowHitLength, hscan]
  simp only [decide_eq_true_eq, alignedLength_eq_floor hbs hper, hitOf]
  cases dropEagleBlock with
  | false =>
    simp only [Bool.false_eq_true, ↓reduceIte] at hdvd ⊢
    rw [Nat.div_mul_cancel hdvd, ite_self]
  | true =>
    simp only [↓reduceIte] at hdvd ⊢
    rcases hdvd with ⟨q, rfl⟩
    have hfloor : (per * q + 1) / per * per = if per = 1 then q + 1 else per * q := by
      split_ifs with hone
      · rw [hone]
        simp
      · rw [Nat.mul_add_div hper, Nat.div_eq_of_lt (by omega), Nat.add_zero, Nat.mul_comm]
    have hself : per * q / per * per = per * q := by
      rw [Nat.mul_div_cancel_left q hper, Nat.mul_comm]
    by_cases hfull : c ≤ per * q + 1
    · rw [if_pos hfull, if_neg (by omega), Nat.add_sub_cancel, hself]
    · rw [if_neg hfull, hfloor]
      by_cases hone : per = 1
      · rw [if_pos hone, if_neg (by simp [hone]), hone]
        simp
      · rw [if_neg hone]
        cases q with
        | zero => simp
        | succ q =>
          rw [if_pos ⟨by omega, hone, by positivity⟩]
          have hpred : per * (q + 1) - 1 = per * q + (per - 1) := by
            rw [Nat.mul_succ]
            omega
          rw [hpred, Nat.mul_add_div hper, Nat.div_eq_of_lt (by omega), Nat.add_zero,
            Nat.mul_succ, Nat.add_sub_cancel, Nat.mul_comm]

end

section
variable (hdvd : per ∣ if dropEagleBlock then e else e + 1)
  (hdvd' : per ∣ if dropEagleBlock then e' else e' + 1)
include hdvd hdvd'

/-- A run that ends earlier gives a shorter hit, unless both are empty. -/
theorem hitOf_lt (hlt : e' < e) (hpos : hitOf c per dropEagleBlock e ≠ 0) :
    hitOf c per dropEagleBlock e' < hitOf c per dropEagleBlock e := by
  cases dropEagleBlock with
  | false =>
    simp only [hitOf, Bool.false_eq_true, ↓reduceIte]
    omega
  | true =>
    simp only [↓reduceIte] at hdvd hdvd'
    have hstep : e' + per ≤ e := by
      have hle := Nat.le_of_dvd (Nat.sub_pos_of_lt hlt) (Nat.dvd_sub hdvd hdvd')
      omega
    simp only [hitOf, ↓reduceIte] at hpos ⊢
    split_ifs at hpos ⊢ with h h' <;> omega

theorem hitOf_le (hle : e' ≤ e) (hzero : hitOf c per dropEagleBlock e = 0) :
    hitOf c per dropEagleBlock e' = 0 := by
  rcases Nat.eq_or_lt_of_le hle with rfl | hlt
  · exact hzero
  · cases dropEagleBlock with
    | false =>
      simp only [hitOf, Bool.false_eq_true, ↓reduceIte] at hzero
      omega
    | true =>
      simp only [↓reduceIte] at hdvd hdvd'
      have hstep := Nat.le_of_dvd (Nat.sub_pos_of_lt hlt) (Nat.dvd_sub hdvd hdvd')
      simp only [hitOf, ↓reduceIte] at hzero ⊢
      split_ifs at hzero ⊢ <;> omega

end

theorem Run.mono (hsub : ∀ j, cached' j = true → cached j = true) (h : Run cached' c e) :
    Run cached c e := fun j hj hj' => hsub j (h j hj hj')

/-- Fewer cached blocks give a hit of the same length exactly if the run of the longest hit is
among them, unless that hit is empty. -/
theorem windowHitLength_eq_iff (hbs : 0 < blockSize) (hper : 0 < per) (hc : 0 < c)
    (hsub : ∀ j, cached' j = true → cached j = true) :
    windowHitLength cached' c blockSize (per * blockSize) dropEagleBlock maxNumBlocks =
        windowHitLength cached c blockSize (per * blockSize) dropEagleBlock maxNumBlocks ↔
      ∀ e, Best cached (mayEnd blockSize (per * blockSize) dropEagleBlock) c maxNumBlocks e →
        Run cached' c e ∨ hitOf c per dropEagleBlock e = 0 := by
  let ends := mayEnd blockSize (per * blockSize) dropEagleBlock
  have hless := @scan_spec cached' ends c hc maxNumBlocks
  rcases @scan_spec cached ends c hc maxNumBlocks with ⟨hscan, hnone⟩ | ⟨e, hbest, -⟩
  · rw [windowHitLength_none hscan]
    refine iff_of_true ?_ fun e he => absurd he.run (hnone e he.lt he.isEnd)
    rcases hless with ⟨hscan', -⟩ | ⟨e', hbest', -⟩
    · exact windowHitLength_none hscan'
    · exact absurd (Run.mono hsub hbest'.run) (hnone e' hbest'.lt hbest'.isEnd)
  · have hlength := windowHitLength_eq_hitOf hbs hper hc hbest
    have hend := (mayEnd_iff hbs).mp hbest.isEnd
    -- a shorter run of the fewer blocks, if there is one at all
    have hbefore : ¬Run cached' c e →
        windowHitLength cached' c blockSize (per * blockSize) dropEagleBlock maxNumBlocks = 0 ∨
        ∃ e' < e, (per ∣ if dropEagleBlock then e' else e' + 1) ∧
          windowHitLength cached' c blockSize (per * blockSize) dropEagleBlock maxNumBlocks =
            hitOf c per dropEagleBlock e' := by
      intro hnot
      rcases hless with ⟨hscan', -⟩ | ⟨e', hbest', -⟩
      · exact .inl (windowHitLength_none hscan')
      · right
        refine ⟨e', ?_, (mayEnd_iff hbs).mp hbest'.isEnd,
          windowHitLength_eq_hitOf hbs hper hc hbest'⟩
        rcases lt_trichotomy e' e with hlt | rfl | hgt
        · exact hlt
        · exact absurd hbest'.run hnot
        · exact absurd (Run.mono hsub hbest'.run) (hbest.rightmost e' hgt hbest'.lt hbest'.isEnd)
    rw [hlength]
    constructor
    · intro heq e₁ hbest₁
      rw [← hbest.unique hbest₁]
      by_contra hnot
      rw [not_or] at hnot
      rcases hbefore hnot.1 with hzero | ⟨e', hlt, hend', hlen'⟩
      · exact hnot.2 (by rw [← heq, hzero])
      · rw [hlen'] at heq
        exact (hitOf_lt hend hend' hlt hnot.2).ne heq
    · intro hall
      by_cases hrun : Run cached' c e
      · apply windowHitLength_eq_hitOf hbs hper hc
        exact ⟨hbest.lt, hbest.isEnd, hrun, fun e' he' hlt hend' hrun' =>
          hbest.rightmost e' he' hlt hend' (Run.mono hsub hrun')⟩
      · have hzero := (hall e hbest).resolve_left hrun
        rw [hzero]
        rcases hbefore hrun with hnone | ⟨e', hlt, hend', hlen'⟩
        · exact hnone
        · rw [hlen']
          exact hitOf_le hend hend' hlt.le hzero

/-- The lookup reads blocks below its bound only. -/
theorem windowHitLength_congr (h : ∀ j < maxNumBlocks, cached' j = cached j) :
    windowHitLength cached' c blockSize alignmentTokens dropEagleBlock maxNumBlocks =
      windowHitLength cached c blockSize alignmentTokens dropEagleBlock maxNumBlocks := by
  have hscan : ∀ (i num : ℕ) ends, i ≤ maxNumBlocks →
      scan cached' ends c i num = scan cached ends c i num := by
    intro i
    induction i with
    | zero => intros; rfl
    | succ i ih =>
      intro num ends hi
      rw [scan, scan, h i hi]
      split_ifs
      · exact ih _ _ (Nat.le_of_succ_le hi)
      · rfl
      · exact ih _ _ (Nat.le_of_succ_le hi)
      · exact ih _ _ (Nat.le_of_succ_le hi)
  rw [windowHitLength, windowHitLength, hscan _ _ _ le_rfl]

/-- Which blocks the mask of a sliding window keeps, in blocks: `need` blocks before the end of
each segment and before the end `replay` of the tail of the prompt, where they are shifted by
one block with EAGLE. -/
def keeps (need shift : ℕ) (segment replay : Option ℕ) (i : ℕ) : Bool :=
  segment.any (need ≥ ·) ||
    (segment.any (fun per => i ≥ shift ∧ (i - shift) % per ≥ per - need) ||
      replay.any fun stop => stop - need ≤ i ∧ i < stop)

section Tails
variable {k P q segmentBlocks : ℕ} {segment replay : Option ℕ}

theorem keeps_of_le (h : P ≤ k) (shift i : ℕ) : keeps k shift (some P) replay i = true := by
  simp [keeps, h]

theorem keeps_tail {i m : ℕ} (hlow : m * P ≤ i + k) (hhigh : i < m * P) :
    keeps k 0 (some P) replay i = true := by
  by_cases hle : P ≤ k
  · exact keeps_of_le hle 0 i
  · cases m with
    | zero => omega
    | succ m =>
      have hmul : (m + 1) * P = m * P + P := Nat.succ_mul m P
      have hmod : i % P = i - m * P := by
        rw [show i = i - m * P + m * P by omega, Nat.add_mul_mod_self_right,
          Nat.mod_eq_of_lt (by omega)]
        omega
      simp only [keeps, Option.any_some, Nat.zero_le, ge_iff_le, true_and, Nat.sub_zero, hmod,
        Bool.or_eq_true, decide_eq_true_eq]
      right
      left
      omega

theorem keeps_eagleTail {i m : ℕ} (hpos : 0 < i) (hlow : m * P ≤ i + k) (hhigh : i ≤ m * P) :
    keeps (k + 1) 1 (some P) replay i = true := by
  by_cases hle : P ≤ k + 1
  · exact keeps_of_le hle 1 i
  · have htail := @keeps_tail (k + 1) P none (i - 1) m (by omega) (by omega)
    simp only [keeps, Option.any_some, Option.any_none, ge_iff_le, hle, decide_false, Bool.false_or,
      Bool.or_false, Nat.zero_le, true_and, Nat.sub_zero, decide_eq_true_eq, Bool.or_eq_true]
      at htail ⊢
    exact .inl ⟨hpos, htail⟩

theorem keeps_replay {need shift stop i : ℕ} (hlow : stop ≤ i + need) (hhigh : i < stop) :
    keeps need shift segment (some stop) i = true := by
  simp only [keeps, Option.any_some, Bool.or_eq_true, decide_eq_true_eq]
  right
  right
  omega

theorem keeps_cases {i : ℕ} (h : keeps (k + 1) 1 segment (some (q + 1)) i = true) :
    (∃ P, segment = some P ∧ (P ≤ k + 1 ∨ 0 < i ∧ P - (k + 1) ≤ (i - 1) % P)) ∨
      q ≤ i + k ∧ i ≤ q := by
  simp only [keeps, Option.any_some, Bool.or_eq_true, decide_eq_true_eq, Option.any_eq_true,
    ge_iff_le] at h
  rcases h with ⟨P, rfl, hP⟩ | ⟨P, rfl, hP⟩ | hreplay
  · exact .inl ⟨P, rfl, .inl hP⟩
  · exact .inl ⟨P, rfl, .inr hP⟩
  · right
    omega

end Tails

/-- Dense retention loses no hit, if the boundary blocks and what is before them get registered. A
window that needs no block is left out. -/
theorem windowHitLength_dense (hbs : 0 < blockSize) (hper : 0 < per) {k : ℕ}
    {registered : ℕ → Prop} (hneed : 0 < k ∨ dropEagleBlock = true)
    (hkept : ∀ j, cached' j = true ↔ keeps (k + if dropEagleBlock then 1 else 0)
      (if dropEagleBlock then 1 else 0) (some per) none j = true ∧ registered j)
    (hsub : ∀ j, cached' j = true → cached j = true)
    (hregistered : ∀ e, (per ∣ if dropEagleBlock then e else e + 1) →
      (dropEagleBlock = true → e ≠ 0) → cached e = true → ∀ j ≤ e, registered j) :
    windowHitLength cached' (k + if dropEagleBlock then 1 else 0) blockSize (per * blockSize)
        dropEagleBlock maxNumBlocks =
      windowHitLength cached (k + if dropEagleBlock then 1 else 0) blockSize (per * blockSize)
        dropEagleBlock maxNumBlocks := by
  have hc : 0 < k + if dropEagleBlock then 1 else 0 := by
    rcases hneed with hk | hdrop
    · omega
    · rw [if_pos hdrop]
      omega
  rw [windowHitLength_eq_iff hbs hper hc hsub]
  intro e hbest
  have hend := (mayEnd_iff hbs).mp hbest.isEnd
  have hlast : cached e = true := hbest.run e (by omega) le_rfl
  cases hdrop : dropEagleBlock with
  | false =>
    rw [hdrop] at hkept hregistered hend
    simp only [Bool.false_eq_true, ↓reduceIte, Nat.add_zero] at hkept hregistered hend ⊢
    left
    intro j hj hj'
    rw [hkept]
    refine ⟨?_, hregistered e hend (fun h => absurd h (by simp)) hlast j hj'⟩
    rcases hend with ⟨m, hm⟩
    rw [Nat.mul_comm] at hm
    exact @keeps_tail k per none j m (by omega) (by omega)
  | true =>
    rw [hdrop] at hkept hregistered hend
    simp only [↓reduceIte, forall_const] at hkept hregistered hend ⊢
    by_cases hzero : e = 0
    · right
      simp [hitOf, hzero]
    · left
      intro j hj hj'
      rw [hkept]
      refine ⟨?_, hregistered e hend hzero hlast j hj'⟩
      by_cases hle : per ≤ k + 1
      · exact keeps_of_le hle 1 j
      · have hper_le := Nat.le_of_dvd (Nat.pos_of_ne_zero hzero) hend
        rcases hend with ⟨m, hm⟩
        rw [Nat.mul_comm] at hm
        exact @keeps_eagleTail k per none j m (by omega) (by omega) (by omega)

section Replay
variable {k M P : ℕ} {segment : Option ℕ} {registered : ℕ → Prop}

/-- When an EAGLE lookup of the same prompt still finds its longest hit: `M` full blocks lie before
the last token of the prompt, `k` blocks in the window, and `segment` blocks in a segment. -/
inductive ReplayKept (k per M : ℕ) (segment : Option ℕ) : Prop
  | peeked (h : M % per ≠ 0)
  | oneSegment (h : M ≤ per)
  | shortPrompt (h : M ≤ k)
  | emptyHit (h : M = 2 * per) (hlong : per < k)
  | allKept (P : ℕ) (h : segment = some P) (hshort : P ≤ k + 1)
  | segmentTail (P : ℕ) (h : segment = some P) (hpos : 0 < (M - per) / P)
      (hjoin : (M - per) / P * P = M - per ∨ M ≤ (M - per) / P * P + k + 1)

theorem windowHitLength_replay_window (hbs : 0 < blockSize) (hper : 0 < per) (hk : 0 < k)
    (hkept : ∀ j < M, cached' j = true ↔
      keeps k 0 segment (some (M / per * per)) j = true ∧ registered j)
    (hregistered : ∀ j < M / per * per, registered j) :
    windowHitLength cached' k blockSize (per * blockSize) false M =
      windowHitLength (fun _ => true) k blockSize (per * blockSize) false M := by
  rw [windowHitLength_eq_iff hbs hper hk fun _ _ => rfl]
  intro e hbest
  left
  have hend : per ∣ e + 1 := by simpa using (mayEnd_iff hbs).mp hbest.isEnd
  have hle : M / per * per ≤ M := Nat.div_mul_le_self M per
  have hlt := hbest.lt
  have hlow : e + 1 ≤ M / per * per := by
    rcases hend with ⟨m, hm⟩
    rw [hm, Nat.mul_comm per]
    apply Nat.mul_le_mul_right
    rw [Nat.le_div_iff_mul_le hper, Nat.mul_comm, ← hm]
    exact hlt
  have hhigh : M / per * per ≤ e + 1 := by
    by_contra hgap
    rw [Nat.not_le] at hgap
    refine hbest.rightmost (M / per * per - 1) (by omega) (by omega) ?_ fun _ _ _ => rfl
    rw [mayEnd_iff hbs, if_neg (by simp), Nat.sub_add_cancel (by omega)]
    exact Nat.dvd_mul_left per _
  intro j hj hj'
  rw [hkept j (by omega)]
  exact ⟨keeps_replay (by omega) (by omega), hregistered j (by omega)⟩

theorem best_eagle_iff (hbs : 0 < blockSize) (hper : 0 < per) :
    Best (fun _ => true) (mayEnd blockSize (per * blockSize) true) c M e ↔
      0 < M ∧ e = (M - 1) / per * per := by
  have hle : (M - 1) / per * per ≤ M - 1 := Nat.div_mul_le_self _ _
  have hmax : ∀ e', per ∣ e' → e' < M → e' ≤ (M - 1) / per * per := by
    rintro e' ⟨m, rfl⟩ hlt
    rw [Nat.mul_comm per m] at hlt ⊢
    apply Nat.mul_le_mul_right
    rw [Nat.le_div_iff_mul_le hper]
    omega
  constructor
  · intro hbest
    have hlt := hbest.lt
    have hend : per ∣ e := by simpa using (mayEnd_iff hbs).mp hbest.isEnd
    refine ⟨by omega, le_antisymm (hmax e hend hlt) ?_⟩
    by_contra hgap
    rw [Nat.not_le] at hgap
    refine hbest.rightmost _ hgap (by omega) ?_ fun _ _ _ => rfl
    rw [mayEnd_iff hbs, if_pos rfl]
    exact Nat.dvd_mul_left per _
  · rintro ⟨hpos, rfl⟩
    refine ⟨by omega, ?_, fun _ _ _ => rfl, fun e' hlt hM hend => ?_⟩
    · rw [mayEnd_iff hbs, if_pos rfl]
      exact Nat.dvd_mul_left per _
    · have hdvd : per ∣ e' := by simpa using (mayEnd_iff hbs).mp hend
      exact absurd (hmax e' hdvd hM) (by omega)

theorem run_previous_iff (hkept : ∀ j < M, cached' j = true ↔
      keeps (k + 1) 1 segment (some (M + 1)) j = true ∧ registered j)
    (hregistered : ∀ j < M, registered j) (hper : 0 < per) (hlong : per < M) :
    Run cached' (k + 1) (M - per) ↔ M ≤ k ∨ ∃ P, segment = some P ∧
      (P ≤ k + 1 ∨ 0 < (M - per) / P ∧
        ((M - per) / P * P = M - per ∨ M ≤ (M - per) / P * P + k + 1)) := by
  have hkeeps : Run cached' (k + 1) (M - per) ↔ ∀ j, M - per ≤ j + k → j ≤ M - per →
      keeps (k + 1) 1 segment (some (M + 1)) j = true := by
    constructor
    · intro hrun j hj hj'
      exact ((hkept j (by omega)).mp (hrun j (by omega) hj')).1
    · intro hall j hj hj'
      exact (hkept j (by omega)).mpr ⟨hall j (by omega) hj', hregistered j (by omega)⟩
  rw [hkeeps]
  constructor
  · intro hall
    rcases Nat.lt_or_ge k M with hk | hk
    · right
      -- the first block of the run lies before the tail of the prompt
      rcases keeps_cases (hall (M - per - k) (by omega) (by omega)) with ⟨P, rfl, hP⟩ | htail
      · refine ⟨P, rfl, ?_⟩
        rcases hP with hP | ⟨hpos, hmod⟩
        · exact .inl hP
        · rcases Nat.lt_or_ge (k + 1) P with hlt | hge
          · right
            have hstart := Nat.div_add_mod' (M - per - k - 1) P
            have hnext : (M - per - k - 1) / P + 1 ≤ (M - per) / P := by
              rw [Nat.le_div_iff_mul_le (by omega), Nat.succ_mul]
              omega
            have hreach := Nat.mul_le_mul_right P hnext
            rw [Nat.succ_mul] at hreach
            have hmodlt := Nat.mod_lt (M - per - k - 1) (show 0 < P by omega)
            refine ⟨(Nat.succ_pos _).trans_le hnext, ?_⟩
            have hfloor := Nat.div_mul_le_self (M - per) P
            by_contra hjoin
            rw [not_or] at hjoin
            -- the block behind the last segment boundary is in no tail
            rcases keeps_cases (hall ((M - per) / P * P + 1) (by omega) (by omega)) with
              ⟨P', hP', hno⟩ | htail
            · cases hP'
              rcases hno with hno | ⟨-, hno⟩
              · omega
              · rw [Nat.add_sub_cancel, Nat.mul_mod_left] at hno
                omega
            · omega
          · exact .inl hge
      · omega
    · exact .inl hk
  · rintro (hk | ⟨P, rfl, hP | ⟨hpos, hjoin⟩⟩) j hj hj'
    · exact keeps_replay (by omega) (by omega)
    · exact keeps_of_le hP 1 j
    · by_cases htail : M ≤ j + k
      · exact keeps_replay (by omega) (by omega)
      · by_cases hle : P ≤ k + 1
        · exact keeps_of_le hle 1 j
        · have hfloor := Nat.div_mul_le_self (M - per) P
          have hone : P ≤ (M - per) / P * P := Nat.le_mul_of_pos_left P hpos
          exact @keeps_eagleTail k P (some (M + 1)) j ((M - per) / P) (by omega) (by omega)
            (by omega)

theorem hitOf_previous (hper : 0 < per) (htwo : 2 * per ≤ M) :
    hitOf (k + 1) per true (M - per) = 0 ↔ M - per < k ∧ per ≠ 1 ∧ M = 2 * per := by
  simp only [hitOf, ↓reduceIte]
  split_ifs with hpopped
  · rcases hpopped with ⟨hshort, hone, -⟩
    constructor
    · intro hnone
      exact ⟨by omega, hone, by omega⟩
    · rintro ⟨-, -, htwice⟩
      omega
  · constructor
    · intro hnone
      omega
    · rintro ⟨hshort, hone, -⟩
      exact absurd ⟨by omega, hone, by omega⟩ hpopped

theorem windowHitLength_replay_eagle_iff (hbs : 0 < blockSize) (hper : 0 < per)
    (hkept : ∀ j < M, cached' j = true ↔
      keeps (k + 1) 1 segment (some (M / per * per + 1)) j = true ∧ registered j)
    (hregistered : ∀ j < M, 0 < M / per → j ≤ M / per * per → registered j) :
    windowHitLength cached' (k + 1) blockSize (per * blockSize) true M =
        windowHitLength (fun _ => true) (k + 1) blockSize (per * blockSize) true M ↔
      ReplayKept k per M segment := by
  rw [windowHitLength_eq_iff hbs hper (Nat.succ_pos k) fun _ _ => rfl]
  simp only [best_eagle_iff hbs hper]
  have hsplit := Nat.div_add_mod' M per
  by_cases hpeek : M % per = 0
  · by_cases hone : M ≤ per
    · refine iff_of_true ?_ (.oneSegment hone)
      rintro e ⟨hpos, rfl⟩
      right
      rw [Nat.div_eq_of_lt (by omega), Nat.zero_mul]
      simp [hitOf]
    · rw [Nat.not_le] at hone
      have hM : M / per * per = M := by omega
      rw [hM] at hkept hregistered
      have hdiv : (M - 1) / per * per = M - per := by
        have hpred : M - 1 = (M / per - 1) * per + (per - 1) := by
          rw [Nat.sub_mul, Nat.one_mul, hM]
          omega
        rw [hpred, Nat.add_comm, Nat.add_mul_div_right _ _ hper, Nat.div_eq_of_lt (by omega),
          Nat.zero_add, Nat.sub_mul, Nat.one_mul, hM]
      have hrun := run_previous_iff hkept
        (fun j hj => hregistered j hj (Nat.div_pos hone.le hper) hj.le) hper hone
      have htwo : 2 * per ≤ M := by
        have hquot : 2 ≤ M / per := by
          by_contra hfew
          have hle := Nat.mul_le_mul_right per (show M / per ≤ 1 by omega)
          omega
        have hle := Nat.mul_le_mul_right per hquot
        omega
      have hzero := @hitOf_previous per k M hper htwo
      constructor
      · intro hall
        rcases hall _ ⟨by omega, rfl⟩ with hrun' | hzero'
        · rw [hdiv] at hrun'
          rcases hrun.mp hrun' with hk | ⟨P, hP, hshort | ⟨hpos, hjoin⟩⟩
          · exact .shortPrompt hk
          · exact .allKept P hP hshort
          · exact .segmentTail P hP hpos hjoin
        · rw [hdiv, hzero] at hzero'
          rcases hzero' with ⟨hlong, -, htwice⟩
          rw [htwice, Nat.two_mul, Nat.add_sub_cancel] at hlong
          exact .emptyHit htwice hlong
      · rintro hreplay e ⟨-, rfl⟩
        rw [hdiv, hzero, hrun]
        cases hreplay with
        | peeked h => exact absurd hpeek h
        | oneSegment h => omega
        | shortPrompt h => exact .inl (.inl h)
        | emptyHit h hlong =>
          rcases Nat.lt_or_ge k M with hk | hk
          · right
            refine ⟨by omega, ?_, h⟩
            rintro rfl
            omega
          · exact .inl (.inl hk)
        | allKept P h hshort => exact .inl (.inr ⟨P, h, .inl hshort⟩)
        | segmentTail P h hpos hjoin => exact .inl (.inr ⟨P, h, .inr ⟨hpos, hjoin⟩⟩)
  · refine iff_of_true ?_ (.peeked hpeek)
    rintro e ⟨hpos, rfl⟩
    have hdiv : (M - 1) / per = M / per := by
      rw [show M - 1 = M / per * per + (M % per - 1) by omega, Nat.add_comm,
        Nat.add_mul_div_right _ _ hper, Nat.div_eq_of_lt
          (by have hlt := Nat.mod_lt M hper; omega), Nat.zero_add]
    rw [hdiv]
    by_cases hzero : M / per = 0
    · right
      simp [hitOf, hzero]
    · left
      intro j hj hj'
      rw [hkept j (by omega)]
      exact ⟨keeps_replay (by omega) (by omega),
        hregistered j (by omega) (Nat.pos_of_ne_zero hzero) hj'⟩

end Replay

end Vllm.CacheHit
