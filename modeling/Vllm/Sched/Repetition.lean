import Vllm.Sched.SchedRequest

/-! `check_sequence_repetition` with the checks that Python makes on every index: it never reads
outside the tokens, and it finds the repeated endings and nothing else. -/
namespace Vllm
open Raises List Nat
variable {tokenIds : List TokenId}

/-- `token_ids[i]`, where a negative index counts from the end. -/
def tokenAt (tokenIds : List TokenId) (i : ℤ) : Raises TokenId :=
  let position := if i < 0 then i + tokenIds.length else i
  if position < 0 then throw .indexError
  else match tokenIds[position.toNat]? with
    | none => throw .indexError
    | some token => pure token

/-- `_has_repeating_pattern`, whose two loops stop at the first difference. -/
def indexedRepeatingPattern (tokenIds : List TokenId) (patternLen repetitionMinCount : ℕ) :
    Raises Bool :=
  (List.range' 1 patternLen).allM fun (n : ℕ) => do
    let targetToken ← tokenAt tokenIds (-(n : ℤ))
    (List.range' 1 (repetitionMinCount - 1)).allM fun (m : ℕ) => do
      let token ← tokenAt tokenIds (-((patternLen * m + n : ℕ) : ℤ))
      pure (decide (token = targetToken))

/-- The loop of `check_sequence_repetition`. -/
def indexedScan (tokenIds : List TokenId) (minCount : ℕ) : List ℕ → Raises Bool
  | [] => pure false
  | patternLen :: rest =>
    if patternLen * minCount > tokenIds.length then pure false
    else do
      if ← indexedRepeatingPattern tokenIds patternLen minCount then pure true
      else indexedScan tokenIds minCount rest

/-- `check_sequence_repetition`, where an index outside the tokens raises. -/
def indexedSequenceRepetition (tokenIds : List TokenId) (params : RepetitionDetectionParams) :
    Raises Bool :=
  let minPatternSize := if params.minPatternSize ≤ 0 then 1 else params.minPatternSize
  if params.maxPatternSize ≤ 0 ∨ params.minCount < 2 ∨ minPatternSize > params.maxPatternSize then
    pure false
  else indexedScan tokenIds params.minCount.toNat (List.range' minPatternSize.toNat
    (params.maxPatternSize + 1 - minPatternSize).toNat)

theorem tokenAt_neg {k : ℕ} (hpos : 1 ≤ k) (hk : k ≤ tokenIds.length) :
    ∃ token, tokenAt tokenIds (-(k : ℤ)) = .ok token ∧ tokenFromEnd tokenIds k = some token := by
  have hlt : tokenIds.length - k < tokenIds.length := by omega
  have hposition : (-(k : ℤ) + tokenIds.length).toNat = tokenIds.length - k := by omega
  have hget := List.getElem?_eq_getElem hlt
  refine ⟨tokenIds[tokenIds.length - k], ?_, hget⟩
  have hneg : -(k : ℤ) < 0 := by omega
  have hstart : ¬(-(k : ℤ) + tokenIds.length < 0) := by omega
  simp only [tokenAt, if_pos hneg, if_neg hstart, hposition, hget]
  rfl

theorem allM_eq_ok {p : ℕ → Raises Bool} {q : ℕ → Bool} {l : List ℕ}
    (h : ∀ a ∈ l, p a = .ok (q a)) : l.allM p = .ok (l.all q) := by
  induction l with
  | nil => rfl
  | cons a l ih =>
    rw [List.allM, h a mem_cons_self, ok_bind, all_cons, ih fun b hb => h b (mem_cons_of_mem _ hb)]
    cases q a <;> rfl

variable {minCount patternLen : ℕ}

theorem indexedRepeatingPattern_eq (hpos : 1 ≤ minCount)
    (hlen : patternLen * minCount ≤ tokenIds.length) :
    indexedRepeatingPattern tokenIds patternLen minCount =
      .ok (hasRepeatingPattern tokenIds patternLen minCount) := by
  have hindex : ∀ n ≤ patternLen, ∀ m < minCount, patternLen * m + n ≤ tokenIds.length := by
    intro n hn m hm
    calc patternLen * m + n ≤ patternLen * (m + 1) := by rw [mul_succ]; omega
      _ ≤ patternLen * minCount := mul_le_mul_left _ hm
      _ ≤ tokenIds.length := hlen
  refine allM_eq_ok fun n hn => ?_
  rw [mem_range'_1] at hn
  have hfirst := hindex n (by omega) 0 hpos
  rcases @tokenAt_neg tokenIds _ hn.1 (by omega) with ⟨targetToken, htoken, htarget⟩
  rw [htoken, ok_bind]
  refine allM_eq_ok fun m hm => ?_
  rw [mem_range'_1] at hm
  have hrepeat := hindex n (by omega) m (by omega)
  rcases tokenAt_neg (by omega) hrepeat with ⟨token, htoken, hend⟩
  rw [htoken, ok_bind, hend, htarget]
  simp

theorem indexedScan_eq (hpos : 1 ≤ minCount) (patternLens : List ℕ) :
    indexedScan tokenIds minCount patternLens =
      .ok (scanPatterns tokenIds minCount patternLens) := by
  induction patternLens with
  | nil => rfl
  | cons patternLen rest ih =>
    rw [indexedScan, scanPatterns]
    split
    · rfl
    · rw [indexedRepeatingPattern_eq hpos (by omega), ok_bind, ih]
      exact (apply_ite _ _ _ _).symm

/-- The last `n` tokens. -/
def lastTokens (tokenIds : List TokenId) (n : ℕ) : List TokenId :=
  tokenIds.drop (tokenIds.length - n)

theorem length_lastTokens {n : ℕ} (hn : n ≤ tokenIds.length) :
    (lastTokens tokenIds n).length = n := by
  rw [lastTokens, length_drop]
  omega

/-- The tokens before the last `m` patterns repeat the pattern. -/
theorem take_lastTokens_eq_iff {m : ℕ} (hlen : patternLen * (m + 1) ≤ tokenIds.length) :
    (lastTokens tokenIds (patternLen * (m + 1))).take patternLen = lastTokens tokenIds patternLen ↔
      ∀ n, 1 ≤ n → n ≤ patternLen →
        tokenFromEnd tokenIds (patternLen * m + n) = tokenFromEnd tokenIds n := by
  have hmul : patternLen * (m + 1) = patternLen * m + patternLen := mul_succ _ _
  have hget : ∀ i < patternLen,
      ((lastTokens tokenIds (patternLen * (m + 1))).take patternLen)[i]? =
        tokenFromEnd tokenIds (patternLen * m + (patternLen - i)) ∧
      (lastTokens tokenIds patternLen)[i]? = tokenFromEnd tokenIds (patternLen - i) := by
    intro i hi
    rw [List.getElem?_take_of_lt hi, lastTokens, lastTokens, List.getElem?_drop, List.getElem?_drop,
      tokenFromEnd, tokenFromEnd]
    constructor <;> congr 1 <;> omega
  constructor
  · intro h n hpos hn
    have hi := hget (patternLen - n) (by omega)
    rw [show patternLen - (patternLen - n) = n by omega] at hi
    rw [← hi.1, ← hi.2, h]
  · intro h
    apply ext_getElem?
    intro i
    rcases lt_or_ge i patternLen with hi | hi
    · rw [(hget i hi).1, (hget i hi).2]
      exact h _ (by omega) (by omega)
    · rw [List.getElem?_eq_none (by rw [length_take]; omega),
        List.getElem?_eq_none (by rw [length_lastTokens (by omega)]; exact hi)]

/-- The patterns agree token by token if and only if the tail is made of copies of the last. -/
theorem hasRepeatingPattern_iff {count : ℕ} (hpos : 1 ≤ count)
    (hlen : patternLen * count ≤ tokenIds.length) :
    hasRepeatingPattern tokenIds patternLen count = true ↔
      lastTokens tokenIds (patternLen * count) =
        (List.replicate count (lastTokens tokenIds patternLen)).flatten := by
  induction count, hpos using le_induction with
  | base => simp [hasRepeatingPattern]
  | succ count hpos ih =>
    have hmul : patternLen * (count + 1) = patternLen * count + patternLen := mul_succ _ _
    have hstep : hasRepeatingPattern tokenIds patternLen (count + 1) = true ↔
        (∀ n, 1 ≤ n → n ≤ patternLen →
          tokenFromEnd tokenIds (patternLen * count + n) = tokenFromEnd tokenIds n) ∧
        hasRepeatingPattern tokenIds patternLen count = true := by
      simp only [hasRepeatingPattern, all_eq_true, mem_range'_1, decide_eq_true_eq]
      constructor
      · exact fun h => ⟨fun n h1 h2 => h n (by omega) count (by omega),
          fun n hn m hm => h n hn m (by omega)⟩
      · intro h n hn m hm
        rcases lt_or_ge m count with hlt | hge
        · exact h.2 n hn m (by omega)
        · obtain rfl : m = count := by omega
          exact h.1 n hn.1 (by omega)
    have hsplit : (lastTokens tokenIds (patternLen * (count + 1))).take patternLen ++
        lastTokens tokenIds (patternLen * count) =
          lastTokens tokenIds (patternLen * (count + 1)) := by
      have hdrop : lastTokens tokenIds (patternLen * count) =
          (lastTokens tokenIds (patternLen * (count + 1))).drop patternLen := by
        rw [lastTokens, lastTokens, drop_drop]
        congr 1
        omega
      rw [hdrop, take_append_drop]
    have hlength : ((lastTokens tokenIds (patternLen * (count + 1))).take patternLen).length =
        (lastTokens tokenIds patternLen).length := by
      rw [length_take, length_lastTokens hlen, length_lastTokens (by omega)]
      omega
    rw [hstep, ih (by omega), ← take_lastTokens_eq_iff hlen, replicate_succ, flatten_cons]
    constructor
    · intro h
      rw [← hsplit, h.1, h.2]
    · intro h
      rw [← hsplit] at h
      exact append_inj h hlength

theorem scanPatterns_iff {start : ℕ} (len : ℕ) :
    scanPatterns tokenIds minCount (List.range' start len) = true ↔
      ∃ p, start ≤ p ∧ p < start + len ∧ p * minCount ≤ tokenIds.length ∧
        hasRepeatingPattern tokenIds p minCount = true := by
  induction len generalizing start with
  | zero =>
    simp only [range'_zero, scanPatterns]
    constructor
    · exact fun h => absurd h (by simp)
    · rintro ⟨p, h1, h2, -⟩
      omega
  | succ len ih =>
    rw [range'_succ, scanPatterns]
    split
    · rename_i hlong
      constructor
      · exact fun h => absurd h (by simp)
      · rintro ⟨p, h1, -, h3, -⟩
        have := mul_le_mul_right minCount h1
        omega
    · rename_i hfits
      split
      · rename_i hfound
        exact ⟨fun _ => ⟨start, le_rfl, by omega, by omega, hfound⟩, fun _ => rfl⟩
      · rename_i hnot
        rw [ih]
        constructor
        · rintro ⟨p, h1, h2, h⟩
          exact ⟨p, by omega, by omega, h⟩
        · rintro ⟨p, h1, h2, h3, h4⟩
          rcases lt_or_ge start p with hlt | hge
          · exact ⟨p, hlt, by omega, h3, h4⟩
          · obtain rfl : p = start := by omega
            exact absurd h4 hnot

/-- The check of the scheduler reads tokens of the sequence only, and answers whether the sequence
ends in enough copies of a pattern of a size in the range. -/
theorem checkSequenceRepetition_exact (tokenIds : List TokenId)
    (params : RepetitionDetectionParams) :
    indexedSequenceRepetition tokenIds params = .ok (checkSequenceRepetition tokenIds params) ∧
    (checkSequenceRepetition tokenIds params = true ↔
      2 ≤ params.minCount ∧ ∃ p : ℕ, max 1 params.minPatternSize ≤ p ∧
        p ≤ params.maxPatternSize ∧ p * params.minCount ≤ tokenIds.length ∧
        lastTokens tokenIds (p * params.minCount.toNat) =
          (List.replicate params.minCount.toNat (lastTokens tokenIds p)).flatten) := by
  have hsize : (if params.minPatternSize ≤ 0 then 1 else params.minPatternSize) =
      max 1 params.minPatternSize := by
    split <;> omega
  unfold indexedSequenceRepetition checkSequenceRepetition
  simp only [hsize]
  by_cases hguard : params.maxPatternSize ≤ 0 ∨ params.minCount < 2 ∨
      max 1 params.minPatternSize > params.maxPatternSize
  · rw [if_pos hguard, if_pos hguard]
    refine ⟨rfl, ⟨fun h => absurd h (by simp), ?_⟩⟩
    rintro ⟨hcount, p, h1, h2, -⟩
    omega
  · rw [if_neg hguard, if_neg hguard]
    lift params.minCount to ℕ using by omega with count hcount
    refine ⟨indexedScan_eq (by omega) _, ?_⟩
    rw [Int.toNat_natCast, scanPatterns_iff]
    constructor
    · rintro ⟨p, h1, h2, h3, h4⟩
      exact ⟨by omega, p, by omega, by omega, mod_cast h3,
        (hasRepeatingPattern_iff (by omega) h3).mp h4⟩
    · rintro ⟨h0, p, h1, h2, h3, h4⟩
      have hfits : p * count ≤ tokenIds.length := mod_cast h3
      exact ⟨p, by omega, by omega, hfits, (hasRepeatingPattern_iff (by omega) hfits).mpr h4⟩

end Vllm
