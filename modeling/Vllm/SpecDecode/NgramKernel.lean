import Vllm.SpecDecode.NgramProposer

/-! `ngram_proposer_gpu.py`: all windows of a padded row are compared with its last tokens at once.
Tensor operations act on each row alone and are written for one row. -/
namespace Vllm
open List Option

/-- A row of the batch: its tokens with padding behind them, their number and the mask. -/
structure KernelRow where
  tokenIds : List TokenId
  numTokensNoSpec : ℕ
  combinedMask : Bool
  deriving DecidableEq, Repr

/-- The rows of a tensor have one width, and the tokens of a row are within it. -/
structure KernelBatch where
  maxSeqLen : ℕ
  rows : List KernelRow
  width : ∀ row ∈ rows, row.tokenIds.length = maxSeqLen
  within : ∀ row ∈ rows, row.numTokensNoSpec ≤ maxSeqLen

/-- `argmax` of flags: the first one that is set, or 0. -/
def argmaxFlag (flags : List Bool) : ℕ := (flags.findIdx? id).getD 0

namespace KernelRow

/-- Whether a window that leaves room for a draft token agrees with the last tokens. -/
def finalMatch (row : KernelRow) (ngramLen window : ℕ) : Bool :=
  let searchWindow := (row.tokenIds.drop window).take ngramLen
  let suffixStart := (row.numTokensNoSpec : ℤ) - ngramLen
  let suffix := (List.range ngramLen).map fun j : ℕ =>
    row.tokenIds.getD (max (suffixStart + j) 0).toNat 0
  let maxValidSuffixStart := (row.numTokensNoSpec : ℤ) - ngramLen - 1
  decide (searchWindow = suffix) && decide (window ≤ maxValidSuffixStart)

/-- The earliest match of an n-gram length, or -1. -/
def firstMatchPosition (row : KernelRow) (ngramLen : ℕ) : ℤ :=
  let numWindows := row.tokenIds.length - ngramLen + 1
  let finalMatches := (List.range numWindows).map (row.finalMatch ngramLen)
  let firstMatchIdx := argmaxFlag finalMatches
  if finalMatches.getD firstMatchIdx false then firstMatchIdx else -1

end KernelRow

/-- The attributes that the kernel reads; the lengths are validated with the configuration. -/
structure NgramGPUKernel where
  minN : ℕ
  maxN : ℕ
  k : ℕ
  minN_pos : 1 ≤ minN
  minN_le : minN ≤ maxN

namespace NgramGPUKernel
variable (c : NgramGPUKernel)

def ngramLengths : List ℕ := List.range' c.minN (c.maxN - c.minN + 1)

/-- `_find_first_and_extract_all_n_parallel` for one row. -/
def findFirstAndExtract (row : KernelRow) : List ℤ :=
  let maxSeqLen := row.tokenIds.length
  let numNgramSizes := c.maxN - c.minN + 1
  let firstMatchPositions := c.ngramLengths.map row.firstMatchPosition
  let bestNgramIdx := numNgramSizes - 1 -
    argmaxFlag (firstMatchPositions.map fun pos => decide (0 ≤ pos)).reverse
  let bestMatchPos := firstMatchPositions.getD bestNgramIdx (-1)
  let bestNgramLength := c.ngramLengths.getD bestNgramIdx 0
  let draftStart := if 0 ≤ bestMatchPos then bestMatchPos + bestNgramLength else 0
  let tokensAvailable := row.numTokensNoSpec - draftStart
  (List.range c.k).map fun j : ℕ =>
    let draftIndex := min (max (draftStart + j) 0) (maxSeqLen - 1)
    let draftToken := row.tokenIds.getD draftIndex.toNat 0
    if 0 ≤ bestMatchPos then if j < tokensAvailable then draftToken else -1 else -1

/-- The number of leading valid tokens: the places where all tokens so far are valid. -/
def numValidDraftTokens (draft : List ℤ) : ℕ :=
  ((List.range draft.length).filter fun j =>
    ((draft.take (j + 1)).filter fun token => decide (token ≠ -1)).length = j + 1).length

/-- What `forward` returns for a row. -/
def forwardRow (row : KernelRow) : List ℤ × ℕ :=
  let draft := if row.combinedMask then c.findFirstAndExtract row else List.replicate c.k (-1)
  (draft, numValidDraftTokens draft)

/-- `forward`; `unfold` raises where a window is longer than the rows. -/
def forward (batch : KernelBatch) : Raises (List (List ℤ × ℕ)) := do
  forM c.ngramLengths fun n => if n ≤ batch.maxSeqLen then pure () else throw .runtimeError
  pure (batch.rows.map c.forwardRow)

end NgramGPUKernel

theorem argmaxFlag_spec {flags : List Bool} (h : true ∈ flags) :
    flags[argmaxFlag flags]? = some true ∧ ∀ j < argmaxFlag flags, flags[j]? = some false := by
  unfold argmaxFlag
  cases hfind : flags.findIdx? id with
  | none =>
    have hnone := List.findIdx?_eq_none_iff.mp hfind true h
    cases hnone
  | some i =>
    rcases List.findIdx?_eq_some_iff_getElem.mp hfind with ⟨hi, htrue, hbefore⟩
    constructor
    · rw [getD_some, List.getElem?_eq_getElem hi]
      exact congrArg some htrue
    · intro j hj
      have hlt : j < flags.length := hj.trans hi
      rw [List.getElem?_eq_getElem hlt]
      have := hbefore j hj
      simpa using this

namespace KernelRow
variable {row : KernelRow} {tokens padding : List TokenId} {n : ℕ}

section
variable (hrow : row.tokenIds = tokens ++ padding) (hlen : row.numTokensNoSpec = tokens.length)
include hrow hlen

/-- A flag is set exactly where the last `n` tokens occur earlier, whatever the padding. -/
theorem finalMatch_iff (w : ℕ) : row.finalMatch n w = true ↔ OccursEarlier tokens n w := by
  unfold finalMatch OccursEarlier
  dsimp only
  rw [Bool.and_eq_true, decide_eq_true_eq, decide_eq_true_eq, hlen, hrow, and_comm]
  have hroom : (w : ℤ) ≤ tokens.length - n - 1 ↔ w + n < tokens.length := by omega
  rw [hroom]
  apply and_congr_right
  intro hw
  have hwindow : ∀ j < n, (((tokens ++ padding).drop w).take n)[j]? = tokens[w + j]? := by
    intro j hj
    rw [List.getElem?_take_of_lt hj, List.getElem?_drop, List.getElem?_append_left (by omega)]
  have hsuffix : ∀ j < n, ((List.range n).map fun j : ℕ =>
      (tokens ++ padding).getD (max ((tokens.length : ℤ) - n + j) 0).toNat 0)[j]? =
        tokens[tokens.length - n + j]? := by
    intro j hj
    have hidx : (max ((tokens.length : ℤ) - n + j) 0).toNat = tokens.length - n + j := by omega
    have hlt : tokens.length - n + j < tokens.length := by omega
    rw [List.getElem?_map, List.getElem?_range hj, map_some, hidx,
      List.getElem?_eq_getElem hlt, getD_eq_getElem?_getD, List.getElem?_append_left hlt,
      List.getElem?_eq_getElem hlt, getD_some]
  constructor
  · intro heq j hj
    rw [← hwindow j hj, ← hsuffix j hj, heq]
  · intro hagree
    apply ext_getElem?
    intro j
    rcases Nat.lt_or_ge j n with hj | hj
    · rw [hwindow j hj, hsuffix j hj, hagree j hj]
    · rw [List.getElem?_eq_none, List.getElem?_eq_none]
      · simpa using hj
      · rw [length_take]
        omega

theorem firstMatchPosition_spec (n : ℕ) :
    (∃ p : ℕ, row.firstMatchPosition n = p ∧ OccursEarlier tokens n p ∧
      ∀ q, OccursEarlier tokens n q → p ≤ q) ∨
    row.firstMatchPosition n = -1 ∧ ∀ q, ¬OccursEarlier tokens n q := by
  have hwide : tokens.length ≤ row.tokenIds.length := by
    rw [hrow, length_append]
    exact Nat.le_add_right _ _
  have hflag : ∀ w < row.tokenIds.length - n + 1,
      ((List.range (row.tokenIds.length - n + 1)).map (row.finalMatch n))[w]? =
        some (row.finalMatch n w) := by
    intro w hw
    rw [List.getElem?_map, List.getElem?_range hw]
    rfl
  have hwindow : ∀ q, OccursEarlier tokens n q → q < row.tokenIds.length - n + 1 := by
    intro q hq
    have := hq.1
    omega
  unfold firstMatchPosition
  dsimp only
  by_cases hany : ∃ q, OccursEarlier tokens n q
  · left
    rcases hany with ⟨q, hq⟩
    have hmem : true ∈ (List.range (row.tokenIds.length - n + 1)).map (row.finalMatch n) :=
      mem_map.mpr ⟨q, mem_range.mpr (hwindow q hq), (finalMatch_iff hrow hlen q).mpr hq⟩
    rcases argmaxFlag_spec hmem with ⟨htrue, hbefore⟩
    generalize argmaxFlag ((List.range (row.tokenIds.length - n + 1)).map (row.finalMatch n)) = p
      at htrue hbefore ⊢
    have hp : p < row.tokenIds.length - n + 1 := by
      have := (List.getElem?_eq_some_iff.mp htrue).1
      simpa using this
    use p
    rw [getD_eq_getElem?_getD, htrue]
    constructor
    · rfl
    rw [hflag p hp, Option.some.injEq, finalMatch_iff hrow hlen] at htrue
    constructor
    · exact htrue
    · intro r hr
      by_contra hlt
      have hfalse := hbefore r (not_le.mp hlt)
      rw [hflag r (hwindow r hr), (finalMatch_iff hrow hlen r).mpr hr] at hfalse
      cases hfalse
  · right
    push Not at hany
    have hnone : ∀ i, ((List.range (row.tokenIds.length - n + 1)).map (row.finalMatch n)).getD i
        false = false := by
      intro i
      rw [getD_eq_getElem?_getD]
      rcases Nat.lt_or_ge i (row.tokenIds.length - n + 1) with hi | hi
      · rw [hflag i hi, getD_some, Bool.eq_false_iff]
        exact fun htrue => hany i ((finalMatch_iff hrow hlen i).mp htrue)
      · rw [List.getElem?_eq_none (by simpa using hi)]
        rfl
    rw [hnone]
    exact ⟨rfl, hany⟩

end

end KernelRow

theorem LongestEarliest.unique {tokens : List TokenId} {minNgram maxNgram n p n' p' : ℕ}
    (h : LongestEarliest tokens minNgram maxNgram n p)
    (h' : LongestEarliest tokens minNgram maxNgram n' p') : n = n' ∧ p = p' := by
  have hn : n = n' := by
    apply le_antisymm
    · exact h'.longest n p h.within.1 h.within.2 h.occurs
    · exact h.longest n' p' h'.within.1 h'.within.2 h'.occurs
  subst hn
  exact ⟨rfl, le_antisymm (h.earliest p' h'.occurs) (h'.earliest p h.occurs)⟩

theorem argmaxFlag_reverse {flags : List Bool} (h : true ∈ flags) :
    flags[flags.length - 1 - argmaxFlag flags.reverse]? = some true ∧
      ∀ j, flags.length - 1 - argmaxFlag flags.reverse < j → j < flags.length →
        flags[j]? = some false := by
  rcases argmaxFlag_spec (mem_reverse.mpr h) with ⟨htrue, hbefore⟩
  have hlt := (List.getElem?_eq_some_iff.mp htrue).1
  rw [length_reverse] at hlt
  constructor
  · rw [List.getElem?_reverse hlt] at htrue
    exact htrue
  · intro j hj hjlt
    have hrev := hbefore (flags.length - 1 - j) (by omega)
    rw [List.getElem?_reverse (by omega)] at hrev
    have hidx : flags.length - 1 - (flags.length - 1 - j) = j := by omega
    rwa [hidx] at hrev

theorem numValidDraftTokens_append {draft : List ℤ} (hvalid : ∀ t ∈ draft, t ≠ -1) (r : ℕ) :
    NgramGPUKernel.numValidDraftTokens (draft ++ List.replicate r (-1)) = draft.length := by
  have hall : draft.filter (fun token => decide (token ≠ -1)) = draft := by
    rw [filter_eq_self]
    exact fun t ht => decide_eq_true (hvalid t ht)
  have hpad : ∀ m, (List.replicate m (-1 : ℤ)).filter (fun token => decide (token ≠ -1)) = [] := by
    intro m
    rw [filter_replicate]
    rfl
  have hcount : ∀ j, ((List.take (j + 1) (draft ++ List.replicate r (-1))).filter
      fun token => decide (token ≠ -1)).length = min (j + 1) draft.length := by
    intro j
    have htake : (draft.take (j + 1)).filter (fun token => decide (token ≠ -1)) =
        draft.take (j + 1) := by
      rw [filter_eq_self]
      exact fun t ht => decide_eq_true (hvalid t (mem_of_mem_take ht))
    rw [take_append, filter_append, htake, take_replicate, hpad, append_nil, length_take]
  unfold NgramGPUKernel.numValidDraftTokens
  simp only [hcount]
  rw [length_append, range_add, filter_append, length_append]
  have hfront : (List.range draft.length).filter
      (fun j => decide (min (j + 1) draft.length = j + 1)) = List.range draft.length := by
    rw [filter_eq_self]
    intro j hj
    rw [mem_range] at hj
    exact decide_eq_true (by omega)
  have hback : ((List.range (List.replicate r (-1 : ℤ)).length).map (draft.length + ·)).filter
      (fun j => decide (min (j + 1) draft.length = j + 1)) = [] := by
    rw [filter_eq_nil_iff]
    intro j hj
    rcases mem_map.mp hj with ⟨i, -, rfl⟩
    rw [decide_eq_true_eq]
    omega
  rw [hfront, hback, length_range, length_nil, add_zero]

namespace NgramGPUKernel
variable {c : NgramGPUKernel} {row : KernelRow} {tokens padding : List TokenId}

theorem getElem?_ngramLengths {i : ℕ} (hi : i < c.maxN - c.minN + 1) :
    c.ngramLengths[i]? = some (c.minN + i) := by
  unfold ngramLengths
  rw [List.getElem?_range' hi, one_mul]

section
variable (hrow : row.tokenIds = tokens ++ padding) (hlen : row.numTokensNoSpec = tokens.length)
include hrow hlen

theorem bestMatch_spec :
    let positions := c.ngramLengths.map row.firstMatchPosition
    let best := c.maxN - c.minN + 1 - 1 -
      argmaxFlag (positions.map fun pos => decide (0 ≤ pos)).reverse
    (∃ n p : ℕ, LongestEarliest tokens c.minN c.maxN n p ∧ positions.getD best (-1) = p ∧
      c.ngramLengths.getD best 0 = n) ∨
    positions.getD best (-1) = -1 ∧
      ∀ n p, c.minN ≤ n → n ≤ c.maxN → ¬OccursEarlier tokens n p := by
  have hle := c.minN_le
  have hcount : c.ngramLengths.length = c.maxN - c.minN + 1 := length_range'
  dsimp only
  have hpos : ∀ i < c.maxN - c.minN + 1, (c.ngramLengths.map row.firstMatchPosition)[i]? =
      some (row.firstMatchPosition (c.minN + i)) := by
    intro i hi
    rw [List.getElem?_map, getElem?_ngramLengths hi]
    rfl
  by_cases hany : ∃ n p, c.minN ≤ n ∧ n ≤ c.maxN ∧ OccursEarlier tokens n p
  · left
    have hfound : ∀ n q, OccursEarlier tokens n q → 0 ≤ row.firstMatchPosition n := by
      intro n q hq
      rcases row.firstMatchPosition_spec hrow hlen n with ⟨p, hp, -⟩ | ⟨-, hnone⟩
      · rw [hp]
        exact Int.natCast_nonneg p
      · exact absurd hq (hnone q)
    have hflag : ∀ i < c.maxN - c.minN + 1, ((c.ngramLengths.map row.firstMatchPosition).map
        fun pos => decide (0 ≤ pos))[i]? =
          some (decide (0 ≤ row.firstMatchPosition (c.minN + i))) := by
      intro i hi
      rw [List.getElem?_map, hpos i hi]
      rfl
    have hmem : true ∈ (c.ngramLengths.map row.firstMatchPosition).map
        fun pos => decide (0 ≤ pos) := by
      rcases hany with ⟨n, p, hmin, hmax, hoccurs⟩
      apply mem_of_getElem? (i := n - c.minN)
      rw [hflag _ (by omega), Nat.add_sub_cancel' hmin, decide_eq_true (hfound n p hoccurs)]
    rcases argmaxFlag_reverse hmem with ⟨htrue, hafter⟩
    rw [length_map, length_map, hcount] at htrue hafter
    generalize c.maxN - c.minN + 1 - 1 - argmaxFlag ((c.ngramLengths.map
      row.firstMatchPosition).map fun pos => decide (0 ≤ pos)).reverse = best at htrue hafter ⊢
    have hbest : best < c.maxN - c.minN + 1 := by
      have := (List.getElem?_eq_some_iff.mp htrue).1
      simpa [hcount] using this
    rw [hflag best hbest, Option.some.injEq, decide_eq_true_eq] at htrue
    rcases row.firstMatchPosition_spec hrow hlen (c.minN + best) with ⟨p, hp, hoccurs, hfirst⟩ | hneg
    · use c.minN + best, p
      constructor
      · constructor
        · exact ⟨by omega, by omega⟩
        · exact hoccurs
        · intro m q hmin hmax hm
          by_contra hlonger
          have hfalse := hafter (m - c.minN) (by omega) (by omega)
          rw [hflag _ (by omega), Nat.add_sub_cancel' hmin,
            decide_eq_true (hfound m q hm)] at hfalse
          cases hfalse
        · exact hfirst
      constructor
      · rw [getD_eq_getElem?_getD, hpos best hbest, getD_some, hp]
      · rw [getD_eq_getElem?_getD, getElem?_ngramLengths hbest, getD_some]
    · rw [hneg.1] at htrue
      omega
  · right
    push Not at hany
    constructor
    · generalize c.maxN - c.minN + 1 - 1 - argmaxFlag ((c.ngramLengths.map
        row.firstMatchPosition).map fun pos => decide (0 ≤ pos)).reverse = best
      rw [getD_eq_getElem?_getD]
      rcases Nat.lt_or_ge best (c.maxN - c.minN + 1) with hbest | hbest
      · rw [hpos best hbest, getD_some]
        rcases row.firstMatchPosition_spec hrow hlen (c.minN + best) with ⟨p, -, hp, -⟩ | hneg
        · exact absurd hp (hany _ p (by omega) (by omega))
        · exact hneg.1
      · rw [List.getElem?_eq_none (by simpa [hcount] using hbest)]
        rfl
    · exact hany

theorem findFirstAndExtract_eq {draft : List TokenId}
    (hdraft : ∀ n p, LongestEarliest tokens c.minN c.maxN n p →
      draft = (tokens.drop (p + n)).take c.k)
    (hnone : (∀ n p, c.minN ≤ n → n ≤ c.maxN → ¬OccursEarlier tokens n p) → draft = []) :
    c.findFirstAndExtract row = draft ++ List.replicate (c.k - draft.length) (-1) := by
  unfold findFirstAndExtract
  dsimp only
  rcases bestMatch_spec (c := c) hrow hlen with ⟨n, p, hbest, hpos, hn⟩ | ⟨hpos, hno⟩
  · have hoccurs := hbest.occurs.1
    have hnonneg : (0 : ℤ) ≤ (p : ℤ) := Int.natCast_nonneg p
    rw [hpos, hn, if_pos hnonneg, hdraft n p hbest, hlen]
    apply ext_getElem?
    intro j
    rcases Nat.lt_or_ge j c.k with hj | hj
    · rw [List.getElem?_map, List.getElem?_range hj, map_some, if_pos hnonneg]
      rcases Nat.lt_or_ge (p + n + j) tokens.length with hlt | hge
      · have havailable : (j : ℤ) < tokens.length - (p + n) := by omega
        have hidx : (min (max ((p : ℤ) + n + j) 0) (row.tokenIds.length - 1)).toNat =
            p + n + j := by
          rw [hrow, length_append]
          omega
        have hlong : j < ((tokens.drop (p + n)).take c.k).length := by
          rw [length_take, length_drop]
          omega
        rw [if_pos havailable, hidx, List.getElem?_append_left hlong, List.getElem?_take_of_lt hj,
          List.getElem?_drop, hrow, getD_eq_getElem?_getD, List.getElem?_append_left hlt,
          List.getElem?_eq_getElem hlt, getD_some]
      · have hgone : ¬(j : ℤ) < tokens.length - (p + n) := by omega
        have hshort : ((tokens.drop (p + n)).take c.k).length ≤ j := by
          rw [length_take, length_drop]
          omega
        rw [if_neg hgone, List.getElem?_append_right hshort, List.getElem?_replicate, if_pos]
        omega
    · rw [List.getElem?_eq_none, List.getElem?_eq_none]
      · rw [length_append, length_replicate, length_take]
        omega
      · simpa using hj
  · have hneg : ¬(0 : ℤ) ≤ -1 := by omega
    rw [hpos, hnone hno]
    simp only [if_neg hneg]
    simp [map_const']

end

/-- For rows that are wide enough, the kernel's valid draft tokens are the proposal of the scan on
the row's tokens, and the other places are marked invalid. -/
theorem forward_eq_proposeTokens (c : NgramGPUKernel) (batch : KernelBatch) (maxModelLen : ℕ)
    (hwide : c.maxN ≤ batch.maxSeqLen) :
    ∃ outs, c.forward batch = .ok outs ∧ List.Forall₂ (fun row out =>
      ∀ tokens padding, row.tokenIds = tokens ++ padding → row.numTokensNoSpec = tokens.length →
        (∀ t ∈ tokens, t ≠ -1) → c.minN ≤ tokens.length → tokens.length + c.k ≤ maxModelLen →
          (row.combinedMask = true → ∀ rounds, 2 * tokens.length ≤ rounds → ∃ draft,
            findLongestMatchedNgramAndProposeTokens rounds tokens c.minN c.maxN maxModelLen c.k =
              .ok (some draft) ∧ draft.length ≤ c.k ∧
            out = (draft ++ List.replicate (c.k - draft.length) (-1), draft.length)) ∧
          (row.combinedMask = false → out = (List.replicate c.k (-1), 0))) batch.rows outs := by
  have hloop : (forM c.ngramLengths fun n => if n ≤ batch.maxSeqLen then pure ()
      else throw .runtimeError : Raises Unit) = .ok () := by
    have hle : ∀ n ∈ c.ngramLengths, n ≤ batch.maxSeqLen := by
      intro n hn
      have hmem := mem_range'_1.mp hn
      have := c.minN_le
      omega
    generalize c.ngramLengths = lengths at hle
    induction lengths with
    | nil => rfl
    | cons n lengths ih =>
      rw [forM_cons, if_pos (hle n mem_cons_self)]
      exact ih fun m hm => hle m (mem_cons_of_mem _ hm)
  use batch.rows.map c.forwardRow
  constructor
  · unfold forward
    rw [hloop]
    rfl
  rw [forall₂_map_right_iff, forall₂_same]
  intro row _ tokens padding hrow hlen hids hmin hroom
  constructor
  · intro hmask rounds hrounds
    rcases proposeTokens_longestEarliest tokens c.minN c.maxN maxModelLen c.k rounds
      c.minN_pos c.minN_le hrounds with ⟨draft, hdraft, hno, hsome⟩
    have htaken : ∀ n p, LongestEarliest tokens c.minN c.maxN n p →
        draft = (tokens.drop (p + n)).take c.k := by
      intro n p hbest
      by_cases hproposal : NoProposal tokens c.minN c.maxN maxModelLen
      · rcases hproposal with hshort | hfull | hnever
        · omega
        · have hk : c.k = 0 := by omega
          rw [hk, take_zero]
          exact hno (Or.inr (Or.inl hfull))
        · exact absurd hbest.occurs (hnever n p hbest.within.1 hbest.within.2)
      · rcases hsome hproposal with ⟨n', p', hbest', heq⟩
        rcases hbest.unique hbest' with ⟨rfl, rfl⟩
        have hdrop : (tokens.drop (p + n)).length = tokens.length - (p + n) := length_drop
        rw [heq, take_eq_take_iff, hdrop]
        omega
    have hempty : (∀ n p, c.minN ≤ n → n ≤ c.maxN → ¬OccursEarlier tokens n p) → draft = [] :=
      fun hnever => hno (Or.inr (Or.inr hnever))
    have hextract := findFirstAndExtract_eq hrow hlen htaken hempty
    have hvalid : ∀ t ∈ draft, t ≠ -1 := by
      intro t ht
      by_cases hany : ∀ n p, c.minN ≤ n → n ≤ c.maxN → ¬OccursEarlier tokens n p
      · rw [hempty hany] at ht
        cases ht
      · rcases bestMatch_spec (c := c) hrow hlen with ⟨n, p, hbest, -⟩ | ⟨-, hnever⟩
        · rw [htaken n p hbest] at ht
          exact hids t (mem_of_mem_drop (mem_of_mem_take ht))
        · exact absurd hnever hany
    use draft
    constructor
    · exact hdraft
    constructor
    · by_contra hlong
      have := congrArg List.length hextract
      unfold findFirstAndExtract at this
      rw [length_map, length_range, length_append, length_replicate] at this
      omega
    · unfold forwardRow
      rw [if_pos hmask]
      dsimp only
      rw [hextract, numValidDraftTokens_append hvalid]
  · intro hmask
    have hnone : numValidDraftTokens ([] ++ List.replicate c.k (-1)) = 0 :=
      numValidDraftTokens_append (fun t ht => absurd ht not_mem_nil) c.k
    unfold forwardRow
    rw [if_neg (by simp [hmask])]
    exact congrArg (Prod.mk _) hnone

/-- Windows of three tokens over rows of two. -/
def narrowKernel : NgramGPUKernel where
  minN := 1
  maxN := 3
  k := 1
  minN_pos := by decide
  minN_le := by decide

def narrowBatch : KernelBatch where
  maxSeqLen := 2
  rows := [{ tokenIds := [5, 0], numTokensNoSpec := 1, combinedMask := true }]
  width := by decide
  within := by decide

/-- The n-gram lengths may exceed the rows; the scan has no such limit. -/
theorem forward_raises : narrowKernel.forward narrowBatch = .error .runtimeError ∧
    findLongestMatchedNgramAndProposeTokens 2 [5] 1 3 2 1 = .ok (some []) :=
  ⟨rfl, by decide⟩

/-- Three tokens whose last one came first. -/
def repeatBatch : KernelBatch where
  maxSeqLen := 5
  rows := [{ tokenIds := [7, 8, 7, 9, 9], numTokensNoSpec := 3, combinedMask := true }]
  width := by decide
  within := by decide

theorem forward_eq_proposeTokens_repeat :
    ∃ outs, narrowKernel.forward repeatBatch = .ok outs ∧ ∀ out ∈ outs, ∃ draft,
      findLongestMatchedNgramAndProposeTokens 6 [7, 8, 7] 1 3 4 1 = .ok (some draft) ∧
        out = (draft ++ List.replicate (1 - draft.length) (-1), draft.length) := by
  rcases forward_eq_proposeTokens narrowKernel repeatBatch 4 (by decide) with ⟨outs, hrun, hrows⟩
  rcases forall₂_cons_left_iff.mp hrows with ⟨out, rest, hrow, hrest, rfl⟩
  cases forall₂_nil_left_iff.mp hrest
  use [out], hrun
  intro out' hout'
  cases mem_singleton.mp hout'
  rcases (hrow [7, 8, 7] [9, 9] rfl rfl (by decide) (by decide) (by decide)).1 rfl 6 (by decide) with
    ⟨draft, hdraft, -, hout⟩
  exact ⟨draft, hdraft, hout⟩

end NgramGPUKernel

end Vllm
