import Vllm.Lib.Borders
import Vllm.Request

/-! `ngram_proposer.py`: the tokens that followed the last tokens when they occurred before. The
scan of `ngram_proposer.py` keeps the longest border that can still grow and the longest match so
far. -/
namespace Vllm

/-- The variables of the scan over the reversed tokens. -/
structure NgramScan where
  i : ℕ := 1
  prevLps : ℕ := 0
  lps : List ℕ
  longestNgram : ℕ := 0
  position : ℕ := 0
  deriving DecidableEq, Repr

namespace NgramScan

/-- An array read, which must be within the array. -/
def read {α : Type} (xs : List α) (i : ℕ) : Raises α :=
  match xs[i]? with
  | none => throw .indexError
  | some x => pure x

/-- The border to go on with after a match: one at the cap may not grow. -/
def capped (maxNgram : ℕ) (lps : List ℕ) (prevLps : ℕ) : Raises ℕ :=
  if prevLps = maxNgram then read lps (maxNgram - 1) else pure prevLps

/-- The first branch of the loop: the next token agrees. -/
def matched (maxNgram : ℕ) (s : NgramScan) : Raises NgramScan := do
  let prevLps := s.prevLps + 1
  let lps := if s.i < maxNgram then s.lps.set s.i prevLps else s.lps
  let next ← capped maxNgram lps prevLps
  if s.longestNgram ≤ prevLps then
    pure { i := s.i + 1, prevLps := next, lps, longestNgram := prevLps, position := s.i }
  else pure { s with i := s.i + 1, prevLps := next, lps }

/-- One round of the loop. -/
def step (tokens : List TokenId) (maxNgram : ℕ) (s : NgramScan) : Raises NgramScan := do
  let a ← read tokens s.prevLps
  let b ← read tokens s.i
  if a = b then matched maxNgram s
  else if s.prevLps ≠ 0 then do
    let prevLps ← read s.lps (s.prevLps - 1)
    pure { s with prevLps }
  else pure { s with i := s.i + 1 }

/-- The loop, for so many rounds; none if they do not suffice. -/
def run (tokens : List TokenId) (maxNgram : ℕ) : ℕ → NgramScan → Raises (Option NgramScan)
  | 0, s => pure (if s.i < tokens.length then none else some s)
  | rounds + 1, s =>
    if s.i < tokens.length then do
      let s ← step tokens maxNgram s
      run tokens maxNgram rounds s
    else pure (some s)

end NgramScan

/-- `_find_longest_matched_ngram_and_propose_tokens`. -/
def findLongestMatchedNgramAndProposeTokens (rounds : ℕ) (originTokens : List TokenId)
    (minNgram maxNgram : ℕ) (maxModelLen k : ℤ) : Raises (Option (List TokenId)) :=
  let totalToken := originTokens.length
  let k := min k (maxModelLen - totalToken)
  if totalToken < minNgram then pure (some [])
  else if k ≤ 0 then pure (some [])
  else do
    let scan ← NgramScan.run originTokens.reverse maxNgram rounds
      { lps := List.replicate maxNgram 0 }
    pure (scan.map fun s =>
      if s.longestNgram < minNgram then []
      else
        let startPosition := totalToken - 1 - s.position + s.longestNgram
        let k := min k.toNat (totalToken - startPosition)
        (originTokens.drop startPosition).take k)

/-- The last `n` tokens occur at an earlier position `p` too. -/
def OccursEarlier (tokens : List TokenId) (n p : ℕ) : Prop :=
  p + n < tokens.length ∧ ∀ j < n, tokens[p + j]? = tokens[tokens.length - n + j]?

open Borders

namespace NgramScan
variable {tokens : List TokenId} {maxNgram : ℕ} {s s' : NgramScan}

theorem read_eq_ok {α : Type} {xs : List α} {i : ℕ} {x : α} (h : xs[i]? = some x) :
    read xs i = .ok x := by
  unfold read
  rw [h]
  rfl

/-- The table holds the longest border of each short prefix that has been scanned. -/
structure TableInv (tokens : List TokenId) (maxNgram i : ℕ) (lps : List ℕ) : Prop where
  length_eq : lps.length = maxNgram
  scanned : ∀ j < maxNgram, j < i → ∃ v, lps[j]? = some v ∧ Longest tokens (j + 1) v
  fresh : ∀ j < maxNgram, i ≤ j → lps[j]? = some 0

/-- The best match: none that ends before `i` is longer, or as long and later. -/
structure BestInv (tokens : List TokenId) (maxNgram i longest position : ℕ) : Prop where
  found : longest ≠ 0 → Border tokens (position + 1) longest ∧ longest ≤ position ∧ position < i ∧
    longest ≤ maxNgram
  best : ∀ e v, e < i → 0 < v → v ≤ e → v ≤ maxNgram → Border tokens (e + 1) v →
    v < longest ∨ v = longest ∧ e ≤ position

structure Inv (tokens : List TokenId) (maxNgram : ℕ) (s : NgramScan) : Prop where
  pos : 0 < s.i
  le : s.i ≤ tokens.length
  table : TableInv tokens maxNgram s.i s.lps
  best : BestInv tokens maxNgram s.i s.longestNgram s.position
  border : Border tokens s.i s.prevLps
  short : s.prevLps < s.i ∧ s.prevLps < maxNgram
  /-- Only borders up to the current one can grow. -/
  longest : ∀ w, w < s.i → w < maxNgram → Border tokens s.i w → tokens[w]? = tokens[s.i]? →
    w ≤ s.prevLps

/-- The rounds that are left at most. -/
def measure (tokens : List TokenId) (s : NgramScan) : ℕ := 2 * (tokens.length - s.i) + s.prevLps

/-- No border that grows at `i` beats the best match. -/
theorem BestInv.skip {i longest position : ℕ} (h : BestInv tokens maxNgram i longest position)
    (hnone : ∀ w, w ≤ i → w ≤ maxNgram → Border tokens (i + 1) w → w = 0 ∨ w < longest) :
    BestInv tokens maxNgram (i + 1) longest position := by
  constructor
  · intro hne
    rcases h.found hne with ⟨hb, hp, hi, hm⟩
    exact ⟨hb, hp, Nat.lt_succ_of_lt hi, hm⟩
  · intro e w he hw hwe hwmax hwborder
    rcases Nat.lt_succ_iff_lt_or_eq.mp he with he | rfl
    · exact h.best e w he hw hwe hwmax hwborder
    · have hless := hnone w hwe hwmax hwborder
      omega

/-- With the best match up to `i`, after the longest match that ends there. -/
theorem BestInv.extend {i longest position v : ℕ} (h : BestInv tokens maxNgram i longest position)
    (hborder : Border tokens (i + 1) v) (hle : v ≤ i) (hmax : v ≤ maxNgram)
    (hlongest : ∀ w, w ≤ i → w ≤ maxNgram → Border tokens (i + 1) w → w ≤ v) :
    BestInv tokens maxNgram (i + 1) (if longest ≤ v then v else longest)
      (if longest ≤ v then i else position) := by
  by_cases hbetter : longest ≤ v
  · rw [if_pos hbetter, if_pos hbetter]
    constructor
    · intro _
      exact ⟨hborder, hle, Nat.lt_succ_self i, hmax⟩
    · intro e w he hw hwe hwmax hwborder
      rcases Nat.lt_succ_iff_lt_or_eq.mp he with he | rfl
      · have hold := h.best e w he hw hwe hwmax hwborder
        omega
      · have hwv := hlongest w hwe hwmax hwborder
        omega
  · rw [if_neg hbetter, if_neg hbetter]
    apply h.skip
    intro w hw hwmax hwborder
    have hwv := hlongest w hw hwmax hwborder
    omega

theorem TableInv.extend {i v : ℕ} {lps : List ℕ} (h : TableInv tokens maxNgram i lps)
    (hv : i < maxNgram → Longest tokens (i + 1) v) :
    TableInv tokens maxNgram (i + 1) (if i < maxNgram then lps.set i v else lps) := by
  by_cases hi : i < maxNgram
  · rw [if_pos hi]
    constructor
    · rw [List.length_set, h.length_eq]
    · intro j hj hji
      rcases Nat.lt_succ_iff_lt_or_eq.mp hji with hji | rfl
      · rw [List.getElem?_set_ne (Nat.ne_of_gt hji)]
        exact h.scanned j hj hji
      · refine ⟨v, ?_, hv hi⟩
        rw [List.getElem?_set_self (by rw [h.length_eq]; exact hj)]
    · intro j hj hij
      rw [List.getElem?_set_ne (by omega)]
      exact h.fresh j hj (by omega)
  · rw [if_neg hi]
    constructor
    · exact h.length_eq
    · intro j hj hji
      exact h.scanned j hj (by omega)
    · intro j hj hij
      omega

theorem TableInv.skip {i : ℕ} {lps : List ℕ} (h : TableInv tokens maxNgram i lps)
    (hv : i < maxNgram → Longest tokens (i + 1) 0) : TableInv tokens maxNgram (i + 1) lps := by
  constructor
  · exact h.length_eq
  · intro j hj hji
    rcases Nat.lt_succ_iff_lt_or_eq.mp hji with hji | rfl
    · exact h.scanned j hj hji
    · exact ⟨0, h.fresh j hj (Nat.le_refl j), hv hj⟩
  · intro j hj hij
    exact h.fresh j hj (Nat.le_of_succ_le hij)

section
variable (h : Inv tokens maxNgram s)
include h

theorem Inv.border_le {w : ℕ} (hw : w ≤ s.i) (hmax : w ≤ maxNgram)
    (hborder : Border tokens (s.i + 1) w) : w ≤ s.prevLps + 1 := by
  cases w with
  | zero => exact Nat.zero_le _
  | succ w =>
    rcases border_succ.mp hborder with ⟨hold, hagree⟩
    exact Nat.succ_le_succ (h.longest w hw hmax hold hagree)

theorem Inv.matched (hi : s.i < tokens.length) (hagree : tokens[s.prevLps]? = tokens[s.i]?) :
    ∃ s', NgramScan.matched maxNgram s = .ok s' ∧ Inv tokens maxNgram s' ∧
      measure tokens s' < measure tokens s := by
  have hgrown : Border tokens (s.i + 1) (s.prevLps + 1) := border_succ.mpr ⟨h.border, hagree⟩
  have hlongest : ∀ w, w ≤ s.i → w ≤ maxNgram → Border tokens (s.i + 1) w → w ≤ s.prevLps + 1 :=
    fun w hw hmax hb => h.border_le hw hmax hb
  have hbest := h.best.extend hgrown h.short.1 h.short.2 hlongest
  have htable := h.table.extend (v := s.prevLps + 1) (fun hcap => ⟨hgrown,
    Nat.succ_lt_succ h.short.1, fun w hw hb => hlongest w (by omega) (by omega) hb⟩)
  have hnext : ∃ next, capped maxNgram
        (if s.i < maxNgram then s.lps.set s.i (s.prevLps + 1) else s.lps) (s.prevLps + 1) =
          .ok next ∧
      Border tokens (s.i + 1) next ∧ next ≤ s.prevLps + 1 ∧ next < maxNgram ∧
      ∀ w, w < s.i + 1 → w < maxNgram → Border tokens (s.i + 1) w → w ≤ next := by
    by_cases hcap : s.prevLps + 1 = maxNgram
    · have hshort := h.short.1
      rcases htable.scanned (maxNgram - 1) (by omega) (by omega) with ⟨v, hread, hv⟩
      rw [Nat.sub_add_cancel (by omega)] at hv
      rw [hcap] at hgrown
      rcases hgrown.fallback hv with ⟨hb, hrest⟩
      refine ⟨v, ?_, hb, ?_, hv.proper, fun w _ hw hwb => hrest w hw hwb⟩
      · exact (if_pos hcap).trans (read_eq_ok hread)
      · have := hv.proper
        omega
    · refine ⟨s.prevLps + 1, if_neg hcap, hgrown, Nat.le_refl _, ?_, ?_⟩
      · have := h.short.2
        omega
      · intro w hw hmax hb
        exact hlongest w (Nat.lt_succ_iff.mp hw) hmax.le hb
  rcases hnext with ⟨next, hread, hb, hle, hmax, hrest⟩
  have hmeasure : 2 * (tokens.length - (s.i + 1)) + next < measure tokens s := by
    unfold measure
    omega
  have hshort : next < s.i + 1 := by
    have := h.short.1
    omega
  unfold NgramScan.matched
  dsimp only
  rw [hread]
  by_cases hbetter : s.longestNgram ≤ s.prevLps + 1
  · rw [if_pos hbetter, if_pos hbetter] at hbest
    refine ⟨_, if_pos hbetter, ?_, hmeasure⟩
    exact ⟨Nat.succ_pos _, hi, htable, hbest, hb, ⟨hshort, hmax⟩,
      fun w hw hwmax hwb _ => hrest w hw hwmax hwb⟩
  · rw [if_neg hbetter, if_neg hbetter] at hbest
    refine ⟨_, if_neg hbetter, ?_, hmeasure⟩
    exact ⟨Nat.succ_pos _, hi, htable, hbest, hb, ⟨hshort, hmax⟩,
      fun w hw hwmax hwb _ => hrest w hw hwmax hwb⟩

theorem Inv.fallback (hne : s.prevLps ≠ 0) (hdiffer : tokens[s.prevLps]? ≠ tokens[s.i]?) :
    ∃ v, read s.lps (s.prevLps - 1) = .ok v ∧ Inv tokens maxNgram { s with prevLps := v } ∧
      v < s.prevLps := by
  rcases h.short with ⟨hlt, hmax⟩
  rcases h.table.scanned (s.prevLps - 1) (by omega) (by omega) with ⟨v, hread, hv⟩
  rw [Nat.sub_add_cancel (Nat.pos_of_ne_zero hne)] at hv
  rcases h.border.fallback hv with ⟨hb, hrest⟩
  refine ⟨v, read_eq_ok hread, ?_, hv.proper⟩
  refine ⟨h.pos, h.le, h.table, h.best, hb, ⟨hv.proper.trans hlt, hv.proper.trans hmax⟩, ?_⟩
  intro w hw hwmax hwb hagree
  have hle := h.longest w hw hwmax hwb hagree
  rcases Nat.lt_or_eq_of_le hle with hlt | rfl
  · exact hrest w hlt hwb
  · exact absurd hagree hdiffer

theorem Inv.skip (hi : s.i < tokens.length) (hzero : s.prevLps = 0)
    (hdiffer : tokens[s.prevLps]? ≠ tokens[s.i]?) :
    Inv tokens maxNgram { s with i := s.i + 1 } := by
  have hnone : ∀ w, w ≤ s.i → w ≤ maxNgram → Border tokens (s.i + 1) w → w = 0 := by
    intro w hw hmax hb
    cases w with
    | zero => rfl
    | succ w =>
      rcases border_succ.mp hb with ⟨hold, hagree⟩
      have hle := h.longest w hw hmax hold hagree
      have hw0 : w = s.prevLps := by omega
      rw [hw0] at hagree
      exact absurd hagree hdiffer
  have htable := h.table.skip (fun hcap => ⟨Border.zero tokens _, Nat.succ_pos _,
    fun w hw hb => (hnone w (by omega) (by omega) hb).le⟩)
  constructor
  · exact Nat.succ_pos _
  · exact hi
  · exact htable
  · exact h.best.skip fun w hw hmax hb => .inl (hnone w hw hmax hb)
  · show Border tokens (s.i + 1) s.prevLps
    rw [hzero]
    exact Border.zero tokens _
  · exact ⟨Nat.lt_succ_of_lt h.short.1, h.short.2⟩
  · intro w hw hmax hb _
    have := hnone w (Nat.lt_succ_iff.mp hw) hmax.le hb
    omega

theorem Inv.step (hi : s.i < tokens.length) :
    ∃ s', NgramScan.step tokens maxNgram s = .ok s' ∧ Inv tokens maxNgram s' ∧
      measure tokens s' < measure tokens s := by
  have hprev : s.prevLps < tokens.length := h.short.1.trans hi
  have hreads : NgramScan.step tokens maxNgram s =
      if tokens[s.prevLps] = tokens[s.i] then NgramScan.matched maxNgram s
      else if s.prevLps ≠ 0 then do
        let prevLps ← read s.lps (s.prevLps - 1)
        pure { s with prevLps }
      else pure { s with i := s.i + 1 } := by
    unfold NgramScan.step
    rw [read_eq_ok (List.getElem?_eq_getElem hprev), read_eq_ok (List.getElem?_eq_getElem hi)]
    rfl
  rw [hreads]
  by_cases hagree : tokens[s.prevLps] = tokens[s.i]
  · rw [if_pos hagree]
    apply h.matched hi
    rw [List.getElem?_eq_getElem hprev, List.getElem?_eq_getElem hi, hagree]
  · rw [if_neg hagree]
    have hdiffer : tokens[s.prevLps]? ≠ tokens[s.i]? := by
      rw [List.getElem?_eq_getElem hprev, List.getElem?_eq_getElem hi]
      exact fun heq => hagree (Option.some.inj heq)
    by_cases hzero : s.prevLps = 0
    · rw [if_neg (not_not.mpr hzero)]
      refine ⟨_, rfl, h.skip hi hzero hdiffer, ?_⟩
      unfold measure
      dsimp only
      omega
    · rw [if_pos hzero]
      rcases h.fallback hzero hdiffer with ⟨v, hread, hinv, hlt⟩
      rw [hread]
      refine ⟨_, rfl, hinv, ?_⟩
      unfold measure
      dsimp only
      omega

theorem Inv.run {rounds : ℕ} (hrounds : measure tokens s ≤ rounds) :
    ∃ s', NgramScan.run tokens maxNgram rounds s = .ok (some s') ∧ Inv tokens maxNgram s' ∧
      s'.i = tokens.length := by
  induction rounds generalizing s with
  | zero =>
    have hend : ¬s.i < tokens.length := by
      unfold measure at hrounds
      omega
    refine ⟨s, ?_, h, Nat.le_antisymm h.le (Nat.le_of_not_lt hend)⟩
    unfold NgramScan.run
    rw [if_neg hend]
    rfl
  | succ rounds ih =>
    unfold NgramScan.run
    by_cases hi : s.i < tokens.length
    · rw [if_pos hi]
      rcases h.step hi with ⟨next, hstep, hinv, hlt⟩
      rw [hstep]
      exact ih hinv (by omega)
    · rw [if_neg hi]
      exact ⟨s, rfl, h, Nat.le_antisymm h.le (Nat.le_of_not_lt hi)⟩

end

theorem Inv.start (hne : 0 < tokens.length) (hmax : 0 < maxNgram) :
    Inv tokens maxNgram { lps := List.replicate maxNgram 0 } := by
  constructor
  · exact Nat.one_pos
  · exact hne
  · constructor
    · exact List.length_replicate
    · intro j hj hj1
      refine ⟨0, List.getElem?_replicate_of_lt hj, Border.zero tokens _, Nat.succ_pos _, ?_⟩
      intro w hw _
      have : j < 1 := hj1
      omega
    · intro j hj _
      exact List.getElem?_replicate_of_lt hj
  · constructor
    · intro hne
      exact absurd rfl hne
    · intro e v he hv hve
      have : e < 1 := he
      omega
  · exact Border.zero tokens _
  · exact ⟨Nat.one_pos, hmax⟩
  · intro w hw _ _ _
    exact Nat.lt_succ_iff.mp hw

end NgramScan

section Occurrences
variable {tokens : List TokenId} {minNgram maxNgram n p e v : ℕ}

theorem border_reverse (he : e < tokens.length) (hve : v ≤ e) :
    Border tokens.reverse (e + 1) v ↔ OccursEarlier tokens v (tokens.length - 1 - e) := by
  have hentry : ∀ j < v, (tokens.reverse[j]? = tokens.reverse[e + 1 - v + j]? ↔
      tokens[tokens.length - 1 - e + (v - 1 - j)]? =
        tokens[tokens.length - v + (v - 1 - j)]?) := by
    intro j hj
    rw [List.getElem?_reverse (by omega), List.getElem?_reverse (by omega), eq_comm,
      show tokens.length - 1 - (e + 1 - v + j) = tokens.length - 1 - e + (v - 1 - j) by omega,
      show tokens.length - 1 - j = tokens.length - v + (v - 1 - j) by omega]
  constructor
  · rintro ⟨-, hagree⟩
    refine ⟨by omega, fun j hj => ?_⟩
    have hback := (hentry (v - 1 - j) (by omega)).mp (hagree _ (by omega))
    rwa [show v - 1 - (v - 1 - j) = j by omega] at hback
  · rintro ⟨-, hagree⟩
    refine ⟨by omega, fun j hj => (hentry j hj).mpr (hagree _ (by omega))⟩

theorem NgramScan.Inv.found {s : NgramScan} (h : NgramScan.Inv tokens.reverse maxNgram s)
    (hend : s.i = tokens.reverse.length) :
    (s.longestNgram ≠ 0 → s.position < tokens.length ∧ s.longestNgram ≤ maxNgram ∧
      OccursEarlier tokens s.longestNgram (tokens.length - 1 - s.position)) ∧
    ∀ n p, 0 < n → n ≤ maxNgram → OccursEarlier tokens n p →
      n < s.longestNgram ∨ n = s.longestNgram ∧ tokens.length - 1 - s.position ≤ p := by
  have hlen : tokens.reverse.length = tokens.length := List.length_reverse
  constructor
  · intro hne
    rcases h.best.found hne with ⟨hb, hle, hlt, hmax⟩
    have hpos : s.position < tokens.length := by omega
    exact ⟨hpos, hmax, (border_reverse hpos hle).mp hb⟩
  · intro n p hn hmax hoccurs
    have hlt := hoccurs.1
    have hp : tokens.length - 1 - (tokens.length - 1 - p) = p := by omega
    have hb : Border tokens.reverse (tokens.length - 1 - p + 1) n := by
      rw [border_reverse (by omega) (by omega), hp]
      exact hoccurs
    have hbest := h.best.best (tokens.length - 1 - p) n (by omega) hn (by omega) hmax hb
    omega

/-- The longest n-gram within the bounds that ends the tokens and occurs before, and where it
occurs first. -/
structure LongestEarliest (tokens : List TokenId) (minNgram maxNgram n p : ℕ) : Prop where
  within : minNgram ≤ n ∧ n ≤ maxNgram
  occurs : OccursEarlier tokens n p
  longest : ∀ m q, minNgram ≤ m → m ≤ maxNgram → OccursEarlier tokens m q → m ≤ n
  earliest : ∀ q, OccursEarlier tokens n q → p ≤ q

/-- Too few tokens, no room, or nothing that occurs before. -/
def NoProposal (tokens : List TokenId) (minNgram maxNgram : ℕ) (maxModelLen : ℤ) : Prop :=
  tokens.length < minNgram ∨ maxModelLen ≤ tokens.length ∨
    ∀ n p, minNgram ≤ n → n ≤ maxNgram → ¬OccursEarlier tokens n p

theorem scan_longestEarliest {rounds : ℕ} (hmin : 1 ≤ minNgram) (hmax : minNgram ≤ maxNgram)
    (hne : 0 < tokens.length) (hrounds : 2 * tokens.length ≤ rounds) :
    ∃ s, NgramScan.run tokens.reverse maxNgram rounds { lps := List.replicate maxNgram 0 } =
        .ok (some s) ∧
      (s.longestNgram < minNgram →
        ∀ n p, minNgram ≤ n → n ≤ maxNgram → ¬OccursEarlier tokens n p) ∧
      (minNgram ≤ s.longestNgram → LongestEarliest tokens minNgram maxNgram s.longestNgram
        (tokens.length - 1 - s.position)) := by
  have hlen : tokens.reverse.length = tokens.length := List.length_reverse
  have hstart : NgramScan.Inv tokens.reverse maxNgram { lps := List.replicate maxNgram 0 } :=
    NgramScan.Inv.start (hlen ▸ hne) (hmin.trans hmax)
  have hmeasure : NgramScan.measure tokens.reverse { lps := List.replicate maxNgram 0 } ≤
      rounds := by
    unfold NgramScan.measure
    dsimp only
    omega
  rcases hstart.run hmeasure with ⟨s, hrun, hinv, hend⟩
  rcases hinv.found hend with ⟨hfound, hbest⟩
  refine ⟨s, hrun, ?_, ?_⟩
  · intro hshort n p hn hcap hoccurs
    have := hbest n p (by omega) hcap hoccurs
    omega
  · intro hlong
    rcases hfound (by omega) with ⟨-, hcap, hoccurs⟩
    constructor
    · exact ⟨hlong, hcap⟩
    · exact hoccurs
    · intro m q hm hcap hq
      have := hbest m q (by omega) hcap hq
      omega
    · intro q hq
      have := hbest _ q (by omega) hcap hq
      omega

/-- The proposal: nothing without a match or room, else the tokens behind the first occurrence. The
loop ends within twice as many rounds as there are tokens, and reads within its arrays. -/
theorem proposeTokens_longestEarliest (originTokens : List TokenId) (minNgram maxNgram : ℕ)
    (maxModelLen k : ℤ) (rounds : ℕ) (hmin : 1 ≤ minNgram) (hmax : minNgram ≤ maxNgram)
    (hrounds : 2 * originTokens.length ≤ rounds) :
    ∃ draft, findLongestMatchedNgramAndProposeTokens rounds originTokens minNgram maxNgram
        maxModelLen k = .ok (some draft) ∧
      (NoProposal originTokens minNgram maxNgram maxModelLen → draft = []) ∧
      (¬NoProposal originTokens minNgram maxNgram maxModelLen →
        ∃ n p, LongestEarliest originTokens minNgram maxNgram n p ∧
          draft = (originTokens.drop (p + n)).take (min k (min (maxModelLen - originTokens.length)
            (originTokens.length - (p + n) : ℕ))).toNat) := by
  by_cases hshort : originTokens.length < minNgram
  · refine ⟨[], if_pos hshort, fun _ => rfl, fun hsome => absurd (Or.inl hshort) hsome⟩
  rcases scan_longestEarliest hmin hmax (by omega) hrounds with
    ⟨s, hrun, hnone, hlongest⟩
  have hmatch : ¬NoProposal originTokens minNgram maxNgram maxModelLen →
      minNgram ≤ s.longestNgram := by
    intro hsome
    by_contra hlt
    exact hsome (Or.inr (Or.inr (hnone (Nat.lt_of_not_le hlt))))
  unfold findLongestMatchedNgramAndProposeTokens
  dsimp only
  rw [if_neg hshort, hrun]
  by_cases hroom : min k (maxModelLen - originTokens.length) ≤ 0
  · refine ⟨[], if_pos hroom, fun _ => rfl, fun hsome => ?_⟩
    refine ⟨_, _, hlongest (hmatch hsome), ?_⟩
    rw [Int.toNat_of_nonpos (by omega), List.take_zero]
  rw [if_neg hroom]
  refine ⟨_, rfl, ?_, ?_⟩
  · rintro (hlt | hfull | hnever)
    · exact absurd hlt hshort
    · omega
    · by_cases hlt : s.longestNgram < minNgram
      · exact if_pos hlt
      · have hfound := hlongest (Nat.le_of_not_lt hlt)
        exact absurd hfound.occurs (hnever _ _ hfound.within.1 hfound.within.2)
  · intro hsome
    have hlong := hmatch hsome
    refine ⟨_, _, hlongest hlong, ?_⟩
    apply (if_neg (Nat.not_lt.mpr hlong)).trans
    congr 1
    omega

/-- `1, 2, 3` comes twice before; the tokens behind its first occurrence are proposed. -/
theorem proposeTokens_longestEarliest_twice :
    ∃ draft, findLongestMatchedNgramAndProposeTokens 40 [1, 2, 3, 4, 1, 2, 3, 5, 2, 3, 1, 2, 3] 2 3
        100 2 = .ok (some draft) ∧
      (NoProposal [1, 2, 3, 4, 1, 2, 3, 5, 2, 3, 1, 2, 3] 2 3 100 → draft = []) ∧
      (¬NoProposal [1, 2, 3, 4, 1, 2, 3, 5, 2, 3, 1, 2, 3] 2 3 100 →
        ∃ n p, LongestEarliest [1, 2, 3, 4, 1, 2, 3, 5, 2, 3, 1, 2, 3] 2 3 n p ∧
          draft = ([1, 2, 3, 4, 1, 2, 3, 5, 2, 3, 1, 2, 3].drop (p + n)).take
            (min (2 : ℤ) (min (100 - 13) (13 - (p + n) : ℕ))).toNat) :=
  proposeTokens_longestEarliest [1, 2, 3, 4, 1, 2, 3, 5, 2, 3, 1, 2, 3] 2 3 100 2 40
    (by decide) (by decide) (by decide)

example : findLongestMatchedNgramAndProposeTokens 40 [1, 2, 3, 4, 1, 2, 3, 5, 2, 3, 1, 2, 3] 2 3
    100 2 = .ok (some [4, 1]) := by decide

end Occurrences
end Vllm
