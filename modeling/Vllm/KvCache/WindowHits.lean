import Vllm.KvCache.LookupSpec
import Vllm.Lib.RightmostRun

/-! How long the hits of a sliding window are. The longest possible hit is missed in two cases: a
short hit under EAGLE whose blocks are popped twice, and a window of one token. -/
namespace Vllm.CacheHit
open RightmostRun SingleTypeKVCacheManager List Nat

variable {pool : BlockPool} {blockHashes : List BlockHash} {groupIds : List ℕ}
  {blockSize alignmentTokens maxLength : ℕ} {dropEagleBlock : Bool}

/-- All groups have a cached block at index `i`. -/
def cachedAt (pool : BlockPool) (blockHashes : List BlockHash) (groupIds : List ℕ) (i : ℕ) : Bool :=
  match lookup pool blockHashes groupIds i with
  | .ok (some _) => true
  | _ => false

/-- A run of hits may end with block `i`: what is left of it is aligned. -/
def mayEnd (blockSize alignmentTokens : ℕ) (dropEagleBlock : Bool) (i : ℕ) : Bool :=
  (if dropEagleBlock then i else i + 1) * blockSize % alignmentTokens = 0

/-- The number of rows that the lookup returns. -/
def windowHitLength (cached : ℕ → Bool) (contiguousBlocks blockSize alignmentTokens : ℕ)
    (dropEagleBlock : Bool) (maxNumBlocks : ℕ) : ℕ :=
  let (n, found) :=
    scan cached (mayEnd blockSize alignmentTokens dropEagleBlock) contiguousBlocks maxNumBlocks 0
  let n := if found then n else alignedLength blockSize alignmentTokens n
  if dropEagleBlock then alignedLength blockSize alignmentTokens (n - 1) else n

theorem mayEnd_eq_false {i : ℕ} : mayEnd blockSize alignmentTokens dropEagleBlock i = false ↔
    blockSize ≠ alignmentTokens ∧
      (if dropEagleBlock then i else i + 1) * blockSize % alignmentTokens ≠ 0 := by
  rw [mayEnd, decide_eq_false_iff_not]
  constructor
  · intro hne
    refine ⟨?_, hne⟩
    rintro rfl
    exact hne (mul_mod_left _ _)
  · exact And.right

theorem slidingWindowScan_eq (blockSize contiguousBlocks : ℕ) (dropEagleBlock : Bool)
    (alignmentTokens : ℕ) {i : ℕ} (rows : List HitRow) (num : ℕ)
    (htotal : ∀ j < i, ∃ row, lookup pool blockHashes groupIds j = .ok row)
    (hlen : i + num ≤ rows.length) :
    ∃ rows' n, slidingWindowScan pool blockHashes groupIds blockSize contiguousBlocks
        dropEagleBlock alignmentTokens i rows num =
      .ok (rows', n, (scan (cachedAt pool blockHashes groupIds)
        (mayEnd blockSize alignmentTokens dropEagleBlock) contiguousBlocks i num).2) ∧
      if (scan (cachedAt pool blockHashes groupIds)
        (mayEnd blockSize alignmentTokens dropEagleBlock) contiguousBlocks i num).2
      then rows'.length = (scan (cachedAt pool blockHashes groupIds)
        (mayEnd blockSize alignmentTokens dropEagleBlock) contiguousBlocks i num).1
      else n = (scan (cachedAt pool blockHashes groupIds)
        (mayEnd blockSize alignmentTokens dropEagleBlock) contiguousBlocks i num).1 ∧
        n ≤ rows.length ∧ rows'.length = rows.length := by
  induction i generalizing rows num with
  | zero => exact ⟨rows, num, rfl, rfl, by omega, rfl⟩
  | succ i ih =>
    rcases htotal i (lt_succ_self i) with ⟨cachedBlock, hlookup⟩
    have hbelow : ∀ j < i, ∃ row, lookup pool blockHashes groupIds j = .ok row :=
      fun j hj => htotal j (hj.trans (lt_succ_self i))
    rw [slidingWindowScan, hlookup, scan]
    cases cachedBlock with
    | none =>
      have hmiss : cachedAt pool blockHashes groupIds i = false := by rw [cachedAt, hlookup]
      rw [hmiss]
      exact ih rows 0 hbelow (by omega)
    | some row =>
      have hhit : cachedAt pool blockHashes groupIds i = true := by rw [cachedAt, hlookup]
      rw [hhit, if_pos rfl]
      by_cases hskip : num = 0 ∧ mayEnd blockSize alignmentTokens dropEagleBlock i = false
      · have hcode := hskip
        rw [mayEnd_eq_false] at hcode
        rw [if_pos hskip]
        rcases hskip with ⟨rfl, -⟩
        rcases ih rows 0 hbelow (by omega) with ⟨rows', n, hscan, hspec⟩
        refine ⟨rows', n, ?_, hspec⟩
        rw [← hscan]
        exact if_pos hcode
      · have hcode := hskip
        rw [mayEnd_eq_false] at hcode
        rw [if_neg hskip]
        by_cases hfull : num + 1 ≥ contiguousBlocks
        · rw [if_pos hfull]
          refine ⟨(rows.set i row).take (i + (num + 1)), num + 1, ?_, ?_⟩
          · exact (if_neg hcode).trans (if_pos hfull)
          · rw [if_pos rfl, length_take, length_set]
            omega
        · rw [if_neg hfull]
          rcases ih (rows.set i row) (num + 1) hbelow
            (by rw [length_set]; omega) with ⟨rows', n, hscan, hspec⟩
          rw [length_set] at hspec
          refine ⟨rows', n, ?_, hspec⟩
          rw [← hscan]
          exact (if_neg hcode).trans (if_neg hfull)

theorem slidingWindow_length {w : ℕ}
    (htotal : ∀ i < maxLength / blockSize, ∃ row, lookup pool blockHashes groupIds i = .ok row) :
    ∃ rows, slidingWindow pool blockHashes maxLength groupIds w blockSize dropEagleBlock
        alignmentTokens = .ok rows ∧
      rows.length = windowHitLength (cachedAt pool blockHashes groupIds)
        (contiguousBlocksForHit w blockSize dropEagleBlock) blockSize
        alignmentTokens dropEagleBlock (maxLength / blockSize) := by
  have hstart : maxLength / blockSize + 0 ≤ (List.replicate (maxLength / blockSize)
      (List.replicate groupIds.length pool.nullBlock)).length := by simp
  rcases slidingWindowScan_eq blockSize
    (contiguousBlocksForHit w blockSize dropEagleBlock) dropEagleBlock
    alignmentTokens _ 0 htotal hstart with ⟨rows', n, hscan, hspec⟩
  refine ⟨_, by rw [slidingWindow, hscan]; rfl, ?_⟩
  rw [windowHitLength]
  rcases hresult : scan (cachedAt pool blockHashes groupIds)
    (mayEnd blockSize alignmentTokens dropEagleBlock)
    (contiguousBlocksForHit w blockSize dropEagleBlock)
    (maxLength / blockSize) 0 with ⟨len, found⟩
  rw [hresult] at hspec
  have hrows : (if found then rows' else
      popUnaligned blockSize alignmentTokens (rows'.take n)).length =
      if found then len else alignedLength blockSize alignmentTokens len := by
    cases found with
    | true => simpa using hspec
    | false =>
      simp only [Bool.false_eq_true, ↓reduceIte] at hspec ⊢
      rw [popUnaligned_length, length_take, hspec.2.2, min_eq_left hspec.2.1, hspec.1]
  cases dropEagleBlock with
  | false => simpa using hrows
  | true =>
    simp only [↓reduceIte]
    rw [popUnaligned_length, length_dropLast, hrows]

/-- A hit of `n` blocks that the code may return: aligned, within the bound, the blocks of the
window cached, and with EAGLE the next block cached and within the bound as well. -/
structure Usable (cached : ℕ → Bool) (windowBlocks blockSize alignmentTokens maxLength : ℕ)
    (dropEagleBlock : Bool) (n : ℕ) : Prop where
  bound : n * blockSize ≤ maxLength
  aligned : n * blockSize % alignmentTokens = 0
  window : ∀ i, n - windowBlocks ≤ i → i < n → cached i = true
  peek : dropEagleBlock = true → (n + 1) * blockSize ≤ maxLength ∧ cached n = true

/-- The longest of the hits, or nothing if there is none. -/
def IsLongest (usable : ℕ → Prop) (n : ℕ) : Prop :=
  (usable n ∧ ∀ m, usable m → m ≤ n) ∨ (n = 0 ∧ ∀ m, ¬usable m)

theorem IsLongest.unique {usable : ℕ → Prop} {n m : ℕ} (h : IsLongest usable n)
    (h' : IsLongest usable m) : n = m := by
  rcases h with ⟨hn, hle⟩ | ⟨rfl, hnone⟩
  · rcases h' with ⟨hm, hle'⟩ | ⟨rfl, hnone'⟩
    · exact le_antisymm (hle' n hn) (hle m hm)
    · exact absurd hn (hnone' n)
  · rcases h' with ⟨hm, -⟩ | ⟨rfl, -⟩
    · exact absurd hm (hnone m)
    · rfl

variable {cached : ℕ → Bool} {windowBlocks n e : ℕ}

theorem usable_iff (hbs : 0 < blockSize) :
    Usable cached windowBlocks blockSize alignmentTokens maxLength dropEagleBlock n ↔
      (dropEagleBlock = false ∧ n = 0) ∨ ∃ e < maxLength / blockSize,
        n = (if dropEagleBlock then e else e + 1) ∧
        mayEnd blockSize alignmentTokens dropEagleBlock e = true ∧
        Run cached (windowBlocks + if dropEagleBlock then 1 else 0) e := by
  simp only [mayEnd, decide_eq_true_eq]
  constructor
  · rintro ⟨hbound, haligned, hwindow, hpeek⟩
    cases dropEagleBlock with
    | false =>
      cases n with
      | zero => exact .inl ⟨rfl, rfl⟩
      | succ e =>
        right
        exact ⟨e, (le_div_iff_mul_le hbs).mpr hbound, rfl, haligned,
          fun j hj hj' => hwindow j hj (lt_succ_of_le hj')⟩
    | true =>
      right
      rcases hpeek rfl with ⟨hnext, hcached⟩
      refine ⟨n, (le_div_iff_mul_le hbs).mpr hnext, rfl, haligned, fun j hj hj' => ?_⟩
      rcases eq_or_lt_of_le hj' with rfl | hlt
      · exact hcached
      · exact hwindow j (by simpa using hj) hlt
  · rintro (⟨rfl, rfl⟩ | ⟨e, he, rfl, haligned, hrun⟩)
    · exact ⟨by simp, by simp, fun i _ hi => absurd hi (not_lt_zero i), fun h => by cases h⟩
    · have hnext : (e + 1) * blockSize ≤ maxLength := (le_div_iff_mul_le hbs).mp he
      cases dropEagleBlock with
      | false =>
        exact ⟨hnext, haligned, fun i hi hi' => hrun i hi (le_of_lt_succ hi'),
          fun h => (by cases h)⟩
      | true =>
        refine ⟨(mul_le_mul_right _ (le_succ e)).trans hnext, haligned,
          fun i hi hi' => hrun i (by simpa using hi) hi'.le, fun _ => ⟨hnext, ?_⟩⟩
        exact hrun e (by simp) le_rfl

theorem alignedLength_succ (halign : e * blockSize % alignmentTokens = 0)
    (hne : blockSize % alignmentTokens ≠ 0) :
    alignedLength blockSize alignmentTokens (e + 1) = e := by
  rw [alignedLength, if_pos, alignedLength_eq_self halign]
  constructor
  · rintro rfl
    exact hne (mod_self _)
  · rw [add_mul, one_mul, add_mod, halign, zero_add, mod_mod]
    exact hne

theorem alignedLength_eq_of_dvd (hdvd : blockSize % alignmentTokens = 0) (n : ℕ) :
    alignedLength blockSize alignmentTokens n = n := by
  apply alignedLength_eq_self
  rw [mul_mod, hdvd, mul_zero, zero_mod]

section Cases
variable {contiguousBlocks maxNumBlocks : ℕ}

/-- Where EAGLE drops a block, only a run that reaches the first block is cut short: its blocks are
popped down to the alignment before and after the drop. -/
def PoppedTwice (contiguousBlocks blockSize alignmentTokens e : ℕ) : Prop :=
  e + 1 < contiguousBlocks ∧ blockSize % alignmentTokens ≠ 0 ∧ e ≠ 0

theorem windowHitLength_none
    (hscan : scan cached (mayEnd blockSize alignmentTokens dropEagleBlock) contiguousBlocks
      maxNumBlocks 0 = (0, false)) :
    windowHitLength cached contiguousBlocks blockSize alignmentTokens dropEagleBlock
      maxNumBlocks = 0 := by
  rw [windowHitLength, hscan]
  cases dropEagleBlock <;> rfl

theorem windowHitLength_of_best
    (hbest : Best cached (mayEnd blockSize alignmentTokens dropEagleBlock) contiguousBlocks
      maxNumBlocks e)
    (hscan : scan cached (mayEnd blockSize alignmentTokens dropEagleBlock) contiguousBlocks
      maxNumBlocks 0 = (e + 1, decide (contiguousBlocks ≤ e + 1))) :
    (dropEagleBlock = false → windowHitLength cached contiguousBlocks blockSize alignmentTokens
      dropEagleBlock maxNumBlocks = e + 1) ∧
    (dropEagleBlock = true → ¬PoppedTwice contiguousBlocks blockSize alignmentTokens e →
      windowHitLength cached contiguousBlocks blockSize alignmentTokens dropEagleBlock
        maxNumBlocks = e) ∧
    (dropEagleBlock = true → PoppedTwice contiguousBlocks blockSize alignmentTokens e →
      windowHitLength cached contiguousBlocks blockSize alignmentTokens dropEagleBlock
        maxNumBlocks < e) := by
  have hend := hbest.isEnd
  simp only [mayEnd, decide_eq_true_eq] at hend
  rw [windowHitLength, hscan]
  simp only [decide_eq_true_eq]
  refine ⟨?_, ?_, ?_⟩
  · rintro rfl
    simp only [Bool.false_eq_true, ↓reduceIte] at hend ⊢
    rw [alignedLength_eq_self hend, ite_self]
  · rintro rfl hnot
    simp only [↓reduceIte] at hend ⊢
    split_ifs with hfull
    · exact alignedLength_eq_self hend
    · by_cases hdvd : blockSize % alignmentTokens = 0
      · rw [alignedLength_eq_of_dvd hdvd, alignedLength_eq_of_dvd hdvd, Nat.add_sub_cancel]
      · have hzero : e = 0 := by
          by_contra hne
          exact hnot ⟨Nat.lt_of_not_le hfull, hdvd, hne⟩
        subst hzero
        rw [alignedLength_succ hend hdvd]
        rfl
  · rintro rfl ⟨hshort, hdvd, hne⟩
    simp only [↓reduceIte] at hend ⊢
    rw [if_neg (by omega), alignedLength_succ hend hdvd]
    have hle := @alignedLength_le blockSize alignmentTokens (e - 1)
    omega

end Cases

theorem le_alignedLength {m : ℕ} (hm : m ≤ n) (haligned : m * blockSize % alignmentTokens = 0) :
    m ≤ alignedLength blockSize alignmentTokens n := by
  induction n with
  | zero => exact hm
  | succ n ih =>
    unfold alignedLength
    split_ifs with h
    · rcases eq_or_lt_of_le hm with rfl | hlt
      · exact absurd haligned h.2
      · exact ih (le_of_lt_succ hlt)
    · exact hm

/-- When the lookup finds the longest usable hit. Under EAGLE a hit shorter than the window must be
empty, unless blocks are aligned anyhow. A window that needs no block has to find the last one. -/
structure FindsLongest (cached : ℕ → Bool) (windowBlocks blockSize alignmentTokens maxLength : ℕ)
    (dropEagleBlock : Bool) : Prop where
  short : dropEagleBlock = true → blockSize % alignmentTokens ≠ 0 →
    (∃ n ≥ windowBlocks, Usable cached windowBlocks blockSize alignmentTokens maxLength
      dropEagleBlock n) ∨
    ∀ n, Usable cached windowBlocks blockSize alignmentTokens maxLength dropEagleBlock n → n = 0
  noWindow : dropEagleBlock = false → windowBlocks = 0 →
    alignedLength blockSize alignmentTokens (maxLength / blockSize) = 0 ∨
      cached (alignedLength blockSize alignmentTokens (maxLength / blockSize) - 1) = true

section
variable (hbs : 0 < blockSize)
include hbs

theorem isLongest_of_best (hbest : Best cached (mayEnd blockSize alignmentTokens dropEagleBlock)
      (windowBlocks + if dropEagleBlock then 1 else 0) (maxLength / blockSize) e) :
    IsLongest (Usable cached windowBlocks blockSize alignmentTokens maxLength dropEagleBlock)
      (if dropEagleBlock then e else e + 1) := by
  left
  constructor
  · rw [usable_iff hbs]
    exact .inr ⟨e, hbest.lt, rfl, hbest.isEnd, hbest.run⟩
  · intro m hm
    rcases (usable_iff hbs).mp hm with ⟨-, rfl⟩ | ⟨e', he', rfl, hend', hrun'⟩
    · exact zero_le _
    · have hle : e' ≤ e := by
        by_contra hlt
        exact hbest.rightmost e' (Nat.lt_of_not_le hlt) he' hend' hrun'
      split_ifs <;> omega

theorem isLongest_of_none
    (hnone : ∀ e < maxLength / blockSize, mayEnd blockSize alignmentTokens dropEagleBlock e = true →
      ¬Run cached (windowBlocks + if dropEagleBlock then 1 else 0) e) :
    IsLongest (Usable cached windowBlocks blockSize alignmentTokens maxLength dropEagleBlock) 0 := by
  have hfew : ∀ m, Usable cached windowBlocks blockSize alignmentTokens maxLength dropEagleBlock m →
      dropEagleBlock = false ∧ m = 0 := by
    intro m hm
    rcases (usable_iff hbs).mp hm with h | ⟨e, he, -, hend, hrun⟩
    · exact h
    · exact absurd hrun (hnone e he hend)
  cases hdrop : dropEagleBlock with
  | false =>
    left
    rw [hdrop] at hfew
    exact ⟨(usable_iff hbs).mpr (.inl ⟨rfl, rfl⟩), fun m hm => (hfew m hm).2.le⟩
  | true =>
    right
    rw [hdrop] at hfew
    exact ⟨rfl, fun m hm => by cases (hfew m hm).1⟩

theorem windowHitLength_eagle_iff :
    IsLongest (Usable cached windowBlocks blockSize alignmentTokens maxLength true)
        (windowHitLength cached (windowBlocks + 1) blockSize alignmentTokens true
          (maxLength / blockSize)) ↔
      FindsLongest cached windowBlocks blockSize alignmentTokens maxLength true := by
  rcases @scan_spec cached (mayEnd blockSize alignmentTokens true) (windowBlocks + 1)
    (succ_pos _) (maxLength / blockSize) with ⟨hscan, hnone⟩ | ⟨e, hbest, hscan⟩
  · have hlongest : IsLongest (Usable cached windowBlocks blockSize alignmentTokens maxLength true)
        0 := isLongest_of_none hbs hnone
    rw [windowHitLength_none hscan]
    refine iff_of_true hlongest ⟨fun _ _ => .inr fun n hn => ?_, fun h => (by cases h)⟩
    rcases hlongest with ⟨-, hle⟩ | ⟨-, hnot⟩
    · exact le_zero.mp (hle n hn)
    · exact absurd hn (hnot n)
  · have hlongest : IsLongest (Usable cached windowBlocks blockSize alignmentTokens maxLength true)
        e := isLongest_of_best hbs hbest
    have husable : Usable cached windowBlocks blockSize alignmentTokens maxLength true e :=
      (usable_iff hbs).mpr (.inr ⟨e, hbest.lt, rfl, hbest.isEnd, hbest.run⟩)
    have hle : ∀ m, Usable cached windowBlocks blockSize alignmentTokens maxLength true m →
        m ≤ e := by
      rcases hlongest with ⟨-, hle⟩ | ⟨-, hnot⟩
      · exact hle
      · exact absurd husable (hnot e)
    rcases windowHitLength_of_best hbest hscan with ⟨-, hfound, hpopped⟩
    by_cases htwice : PoppedTwice (windowBlocks + 1) blockSize alignmentTokens e
    · have hlt := hpopped rfl htwice
      refine iff_of_false (fun h => hlt.ne (h.unique hlongest)) fun h => ?_
      rcases h.short rfl htwice.2.1 with ⟨n, hn, husable'⟩ | hzero
      · have hne := hle n husable'
        have hshort := htwice.1
        omega
      · exact htwice.2.2 (hzero e husable)
    · rw [hfound rfl htwice]
      refine iff_of_true hlongest ⟨fun _ hdvd => ?_, fun h => by cases h⟩
      by_cases hshort : e < windowBlocks
      · right
        intro n hn
        have hzero : e = 0 := by
          by_contra hne
          exact htwice ⟨by omega, hdvd, hne⟩
        have hne := hle n hn
        omega
      · left
        exact ⟨e, by omega, husable⟩

theorem windowHitLength_window_iff (hwindow : 0 < windowBlocks) :
    IsLongest (Usable cached windowBlocks blockSize alignmentTokens maxLength false)
        (windowHitLength cached windowBlocks blockSize alignmentTokens false
          (maxLength / blockSize)) ↔
      FindsLongest cached windowBlocks blockSize alignmentTokens maxLength false := by
  have hfinds : FindsLongest cached windowBlocks blockSize alignmentTokens maxLength false :=
    ⟨fun h => (by cases h), fun _ h => absurd h hwindow.ne'⟩
  refine iff_of_true ?_ hfinds
  rcases @scan_spec cached (mayEnd blockSize alignmentTokens false) windowBlocks hwindow
    (maxLength / blockSize) with ⟨hscan, hnone⟩ | ⟨e, hbest, hscan⟩
  · rw [windowHitLength_none hscan]
    exact isLongest_of_none hbs hnone
  · rw [(windowHitLength_of_best hbest hscan).1 rfl]
    exact isLongest_of_best hbs hbest

theorem windowHitLength_zero_iff :
    IsLongest (Usable cached 0 blockSize alignmentTokens maxLength false)
        (windowHitLength cached 0 blockSize alignmentTokens false (maxLength / blockSize)) ↔
      FindsLongest cached 0 blockSize alignmentTokens maxLength false := by
  have hone : windowHitLength cached 0 blockSize alignmentTokens false (maxLength / blockSize) =
      windowHitLength cached 1 blockSize alignmentTokens false (maxLength / blockSize) := by
    rw [windowHitLength, windowHitLength, scan_zero]
  let top := alignedLength blockSize alignmentTokens (maxLength / blockSize)
  have htop : top * blockSize % alignmentTokens = 0 := alignedLength_aligned _
  have hlongest : IsLongest (Usable cached 0 blockSize alignmentTokens maxLength false) top := by
    left
    constructor
    · exact ⟨(le_div_iff_mul_le hbs).mp (alignedLength_le _), htop,
        fun i hi hi' => absurd hi' (by omega), fun h => by cases h⟩
    · intro m hm
      exact le_alignedLength ((le_div_iff_mul_le hbs).mpr hm.bound) hm.aligned
  have hfinds : FindsLongest cached 0 blockSize alignmentTokens maxLength false ↔
      top = 0 ∨ cached (top - 1) = true :=
    ⟨fun h => h.noWindow rfl rfl, fun h => ⟨fun h' => (by cases h'), fun _ _ => h⟩⟩
  have hlast : top ≠ 0 → cached (top - 1) = true → top - 1 < maxLength / blockSize ∧
      mayEnd blockSize alignmentTokens false (top - 1) = true ∧ Run cached 1 (top - 1) := by
    intro hne hcached
    have hle : top ≤ maxLength / blockSize := alignedLength_le _
    refine ⟨by omega, ?_, fun j hj hj' => ?_⟩
    · simp only [mayEnd, Bool.false_eq_true, ↓reduceIte, decide_eq_true_eq]
      rw [Nat.sub_add_cancel (Nat.pos_of_ne_zero hne)]
      exact htop
    · rw [show j = top - 1 by omega]
      exact hcached
  rw [hone, hfinds]
  rcases @scan_spec cached (mayEnd blockSize alignmentTokens false) 1 one_pos
    (maxLength / blockSize) with ⟨hscan, hnone⟩ | ⟨e, hbest, hscan⟩
  · rw [windowHitLength_none hscan]
    constructor
    · intro h
      exact .inl (hlongest.unique h)
    · rintro (hzero | hcached)
      · rw [hzero] at hlongest
        exact hlongest
      · by_cases hne : top = 0
        · rw [hne] at hlongest
          exact hlongest
        · rcases hlast hne hcached with ⟨hlt, hend, hrun⟩
          exact absurd hrun (hnone _ hlt hend)
  · rw [(windowHitLength_of_best hbest hscan).1 rfl]
    constructor
    · intro h
      right
      rw [hlongest.unique h]
      exact hbest.run e (by omega) le_rfl
    · intro h
      have hend := hbest.isEnd
      simp only [mayEnd, Bool.false_eq_true, ↓reduceIte, decide_eq_true_eq] at hend
      have hle : e + 1 ≤ top := le_alignedLength hbest.lt hend
      rcases h with hzero | hcached
      · omega
      · rcases hlast (by omega) hcached with ⟨hlt, hend', hrun⟩
        have heq := hbest.unique ⟨hlt, hend', hrun, fun e' he' he'' hend'' _ => ?_⟩
        · rw [show e + 1 = top by omega]
          exact hlongest
        · simp only [mayEnd, Bool.false_eq_true, ↓reduceIte, decide_eq_true_eq] at hend''
          have hle' : e' + 1 ≤ top := le_alignedLength he'' hend''
          omega

theorem windowHitLength_iff :
    IsLongest (Usable cached windowBlocks blockSize alignmentTokens maxLength dropEagleBlock)
        (windowHitLength cached (windowBlocks + if dropEagleBlock then 1 else 0) blockSize
          alignmentTokens dropEagleBlock (maxLength / blockSize)) ↔
      FindsLongest cached windowBlocks blockSize alignmentTokens maxLength dropEagleBlock := by
  cases dropEagleBlock with
  | true => exact windowHitLength_eagle_iff hbs
  | false =>
    rcases Nat.eq_zero_or_pos windowBlocks with rfl | hwindow
    · exact windowHitLength_zero_iff hbs
    · exact windowHitLength_window_iff hbs hwindow

end

theorem cachedAt_iff {i : ℕ} : cachedAt pool blockHashes groupIds i = true ↔
    ∃ blockHash, blockHashes[i]? = some blockHash ∧ ∀ g ∈ groupIds, ∃ block,
      pool.cachedBlockHashToBlock.getOneBlock (makeBlockHashWithGroupId blockHash g) =
        .ok (some block) := by
  have hgroups : ∀ blockHash, (∃ row, pool.getCachedBlock blockHash groupIds = .ok (some row)) ↔
      ∀ g ∈ groupIds, ∃ block, pool.cachedBlockHashToBlock.getOneBlock
        (makeBlockHashWithGroupId blockHash g) = .ok (some block) := by
    intro blockHash
    induction groupIds with
    | nil => exact ⟨fun _ g hg => (by cases hg), fun _ => ⟨[], rfl⟩⟩
    | cons g rest ih =>
      simp only [BlockPool.getCachedBlock, Raises.bind_eq_ok, forall_mem_cons]
      rw [← ih]
      constructor
      · rintro ⟨row, block, hblock, hrow⟩
        cases block with
        | none => cases hrow
        | some block =>
          simp only [Raises.bind_eq_ok, Raises.pure_eq_ok] at hrow
          rcases hrow with ⟨blocks, hblocks, hmap⟩
          cases blocks with
          | none => cases hmap
          | some blocks => exact ⟨⟨block, hblock⟩, blocks, hblocks⟩
      · rintro ⟨⟨block, hblock⟩, blocks, hblocks⟩
        exact ⟨block :: blocks, some block, hblock, by rw [hblocks]; rfl⟩
  rw [cachedAt, lookup]
  cases hget : blockHashes[i]? with
  | none => simp [throw, throwThe, MonadExceptOf.throw]
  | some blockHash =>
    simp only [Option.some.injEq, exists_eq_left']
    rw [← hgroups blockHash]
    split <;> simp_all

end Vllm.CacheHit

namespace Vllm
open CacheHit

/-- The lookup of a sliding window returns, and exactly when it finds the longest usable hit. -/
theorem findLongestCacheHit_longest_iff {pool : BlockPool}
    (hmap : pool.cachedBlockHashToBlock.NoEmptyDict) {spec : KVCacheSpec} {w : ℕ}
    (hkind : spec.kind = .slidingWindow w) {blockHashes : List BlockHash} {maxLength : ℕ}
    (hlen : maxLength / spec.blockSize ≤ blockHashes.length) (groupIds : List ℕ)
    (dropEagleBlock : Bool) (alignmentTokens : ℕ) :
    ∃ rows, findLongestCacheHit pool blockHashes maxLength groupIds spec dropEagleBlock
        alignmentTokens 1 1 = .ok rows ∧
      (IsLongest (Usable (cachedAt pool blockHashes groupIds) (cdiv (w - 1) spec.blockSize)
          spec.blockSize alignmentTokens maxLength dropEagleBlock) rows.length ↔
        FindsLongest (cachedAt pool blockHashes groupIds) (cdiv (w - 1) spec.blockSize)
          spec.blockSize alignmentTokens maxLength dropEagleBlock) := by
  have htotal : ∀ i < maxLength / spec.blockSize,
      ∃ row, lookup pool blockHashes groupIds i = .ok row :=
    fun i hi => lookup_total hmap groupIds (hi.trans_le hlen)
  rcases @slidingWindow_length pool blockHashes groupIds spec.blockSize alignmentTokens maxLength
    dropEagleBlock w htotal with ⟨rows, hrows, hlength⟩
  refine ⟨rows, ?_, ?_⟩
  · rw [findLongestCacheHit, hkind, ← hrows]
    rfl
  · rw [hlength, SingleTypeKVCacheManager.contiguousBlocksForHit]
    exact windowHitLength_iff spec.blockSize_pos

/-- A sliding window of 100 tokens in blocks of two tokens. -/
def wideWindowSpec : KVCacheSpec := ⟨.slidingWindow 100, 2, 0, Nat.two_pos⟩

/-- Three cached blocks, and a pool that has them under their hashes. -/
def threeHashes : List BlockHash := [[0], [1], [2]]

def threeBlockMap : BlockHashToBlockMap :=
  ((BlockHashToBlockMap.empty.insert ⟨[0], 0⟩ 1).insert ⟨[1], 0⟩ 2).insert ⟨[2], 0⟩ 3

def threeBlockPool : Raises BlockPool := do
  let pool ← BlockPool.init 4 true 2 false false id
  pure { pool with cachedBlockHashToBlock := threeBlockMap }

theorem threeBlockMap_noEmptyDict : threeBlockMap.NoEmptyDict := by
  apply BlockHashToBlockMap.NoEmptyDict.insert
  apply BlockHashToBlockMap.NoEmptyDict.insert
  apply BlockHashToBlockMap.NoEmptyDict.insert
  intro key blocks hget
  cases hget

theorem threeBlockPool_longest_iff : ∃ pool, threeBlockPool = .ok pool ∧
    ∃ rows, findLongestCacheHit pool threeHashes 6 [0] wideWindowSpec false 4 1 1 = .ok rows ∧
      (IsLongest (Usable (cachedAt pool threeHashes [0]) (cdiv (100 - 1) 2) 2 4 6 false)
          rows.length ↔
        FindsLongest (cachedAt pool threeHashes [0]) (cdiv (100 - 1) 2) 2 4 6 false) := by
  rcases Raises.exists_ok (show threeBlockPool.toOption.map
    (fun pool => pool.nullBlock) = some 0 by decide +kernel) with ⟨pool, hpool, -⟩
  have hmap : pool.cachedBlockHashToBlock.NoEmptyDict := by
    simp only [threeBlockPool, Raises.bind_eq_ok, Raises.pure_eq_ok] at hpool
    rcases hpool with ⟨_, -, rfl⟩
    exact threeBlockMap_noEmptyDict
  exact ⟨pool, hpool, @findLongestCacheHit_longest_iff _ hmap wideWindowSpec 100 rfl threeHashes 6
    (by decide) [0] false 4⟩

/-- The three blocks are a run for the window that an EAGLE lookup with an alignment of two blocks
may end at the third one: two blocks are usable, but the lookup returns none of them. -/
theorem exists_not_longest : ∃ pool, threeBlockPool = .ok pool ∧
    findLongestCacheHit pool threeHashes 6 [0] wideWindowSpec true 4 1 1 = .ok [] ∧
      ¬IsLongest (Usable (cachedAt pool threeHashes [0]) 50 2 4 6 true) 0 := by
  rcases Raises.exists_ok (show threeBlockPool.toOption.map (fun pool =>
      ((findLongestCacheHit pool threeHashes 6 [0] wideWindowSpec true 4 1 1).toOption,
        (List.range 3).map (cachedAt pool threeHashes [0]))) =
      some (some [], [true, true, true]) by decide +kernel) with ⟨pool, hpool, hfacts⟩
  simp only [Prod.mk.injEq] at hfacts
  rcases hfacts with ⟨hhit, hcached⟩
  have hall : ∀ i < 3, cachedAt pool threeHashes [0] i = true := by
    simp only [List.range_succ, List.range_zero, List.nil_append, List.cons_append, List.map_cons,
      List.map_nil, List.cons.injEq, and_true] at hcached
    rcases hcached with ⟨h0, h1, h2⟩
    intro i hi
    interval_cases i
    · exact h0
    · exact h1
    · exact h2
  rcases Raises.exists_ok (show (findLongestCacheHit pool threeHashes 6 [0] wideWindowSpec true 4
      1 1).toOption.map id = some [] by rw [hhit]; rfl) with ⟨rows, hrows, rfl⟩
  refine ⟨pool, hpool, hrows, ?_⟩
  have husable : Usable (cachedAt pool threeHashes [0]) 50 2 4 6 true 2 :=
    ⟨by decide, by decide, fun i _ hi => hall i (by omega),
      fun _ => ⟨by decide, hall 2 (by decide)⟩⟩
  rintro (⟨-, hle⟩ | ⟨-, hnone⟩)
  · exact absurd (hle 2 husable) (by decide)
  · exact hnone 2 husable

end Vllm
