import Vllm.Text.StopSearch

/-! Stop strings when several tokens come in one call of `update`: it stops where a single token
would, but may report a string that stands earlier in the list and is completed later in the call.
-/
namespace Vllm.Text
open Occurrences List

section Search
variable {stops : List (List Char)} {a b text ss : List Char} {old i : ℕ}

theorem endsAfter_append (hne : ss ≠ []) (hold : old ≤ a.length) : EndsAfter ss (a ++ b) old i ↔
    EndsAfter ss a old i ∨ EndsAfter ss (a ++ b) a.length i := by
  have hpos := length_pos_iff.mpr hne
  constructor
  · intro h
    rcases Nat.lt_or_ge a.length (i + ss.length) with hbehind | hfront
    · exact Or.inr ⟨h.1, hbehind⟩
    · exact Or.inl ⟨h.1.of_append hfront, h.2⟩
  · rintro (h | h)
    · have hle := h.le hne
      exact ⟨h.1.append (by omega) b, h.2⟩
    · have hend := h.2
      exact ⟨h.1, by omega⟩

theorem completed_append (hne : ss ≠ []) (hold : old ≤ a.length) : Completed (a ++ b) old ss ↔
    Completed a old ss ∨ Completed (a ++ b) a.length ss := by
  unfold Completed
  simp only [endsAfter_append hne hold, exists_or]

theorem not_completed_self (hne : ss ≠ []) : ¬Completed text text.length ss := by
  rintro ⟨i, h⟩
  have hle := h.le hne
  have hend := h.2
  omega

theorem reported_eq_none : reported stops text old = none ↔
    ∀ ss ∈ stops, ¬Completed text old ss := by
  unfold reported
  simp

/-- The first of several that satisfy `p`, when `q` admits more of them. -/
theorem find?_or_eq {α : Type} [DecidableEq α] {p q : α → Prop} [DecidablePred p] [DecidablePred q]
    {l : List α} {x : α} (hx : l.find? (fun s => decide (p s)) = some x) :
    l.find? (fun s => decide (p s ∨ q s)) = some x ↔ ∀ s ∈ l.takeWhile (fun s => s ≠ x), ¬q s := by
  induction l with
  | nil => cases hx
  | cons s l ih =>
    rw [List.find?_cons] at hx ⊢
    by_cases hs : p s
    · rw [decide_eq_true hs] at hx
      cases hx
      rw [decide_eq_true (Or.inl hs)]
      simp
    · rw [decide_eq_false hs] at hx
      have hne : s ≠ x := by
        intro heq
        have := List.find?_some hx
        rw [decide_eq_true_eq, ← heq] at this
        exact hs this
      have htake : (s :: l).takeWhile (fun t => decide (t ≠ x)) =
          s :: l.takeWhile fun t => decide (t ≠ x) := by simp [hne]
      rw [htake]
      by_cases hq : q s
      · rw [decide_eq_true (Or.inr hq)]
        constructor
        · intro h
          exact absurd (Option.some.inj h) hne
        · intro h
          exact absurd hq (h s mem_cons_self)
      · rw [decide_eq_false (not_or_intro hs hq)]
        dsimp only
        rw [ih hx]
        simp [hq]

end Search

section Tokens
variable {stops : List (List Char)} {minTokens count : ℕ} {text : List Char} {tokens : List Token}
variable {found : Stopped}

/-- The length of the text from which a call looks for stop strings. -/
def checkFrom (minTokens count : ℕ) (text : List Char) (tokens : List Token) : ℕ :=
  (text ++ texts (tokens.take (minTokens - count))).length

theorem checkFrom_le (minTokens count : ℕ) (text : List Char) (tokens : List Token) :
    checkFrom minTokens count text tokens ≤ (text ++ texts tokens).length := by
  have hsplit : texts tokens = texts (tokens.take (minTokens - count)) ++
      texts (tokens.drop (minTokens - count)) := by
    unfold texts
    rw [← flatMap_append, take_append_drop]
  unfold checkFrom
  rw [hsplit, ← append_assoc]
  exact List.IsPrefix.length_le (prefix_append _ _)

theorem length_le_checkFrom (minTokens count : ℕ) (text : List Char) (tokens : List Token) :
    text.length ≤ checkFrom minTokens count text tokens := by
  unfold checkFrom
  rw [length_append]
  exact Nat.le_add_right _ _

theorem checkFrom_of_le (h : minTokens ≤ count) : checkFrom minTokens count text tokens =
    text.length := by
  unfold checkFrom
  rw [Nat.sub_eq_zero_of_le h, take_zero]
  simp [texts]

theorem checkFrom_cons {token : Token} (h : count < minTokens) :
    checkFrom minTokens count text (token :: tokens) =
      checkFrom minTokens (count + 1) (text ++ token.text) tokens := by
  unfold checkFrom
  have hsub : minTokens - count = minTokens - (count + 1) + 1 := by omega
  rw [hsub, take_succ_cons]
  simp [texts]

/-- No token stops exactly if the text of all of them completes nothing. -/
theorem firstStop_eq_none (hne : ∀ ss ∈ stops, ss ≠ []) :
    firstStop stops minTokens count text tokens = none ↔
      ∀ ss ∈ stops, ¬Completed (text ++ texts tokens) (checkFrom minTokens count text tokens) ss :=
        by
  induction tokens generalizing count text with
  | nil =>
    have hfrom : checkFrom minTokens count text [] = text.length := by simp [checkFrom, texts]
    have htext : text ++ texts [] = text := append_nil _
    rw [hfrom, htext]
    exact iff_of_true rfl fun ss hss => not_completed_self (hne ss hss)
  | cons token tokens ih =>
    have htexts : text ++ texts (token :: tokens) = text ++ token.text ++ texts tokens := by
      simp [texts]
    rw [firstStop, htexts]
    by_cases hmin : count + 1 > minTokens
    · have hfrom : checkFrom minTokens count text (token :: tokens) = text.length :=
        checkFrom_of_le (by omega)
      have hrest : checkFrom minTokens (count + 1) (text ++ token.text) tokens =
          (text ++ token.text).length := checkFrom_of_le (by omega)
      have hold : text.length ≤ (text ++ token.text).length := by
        rw [length_append]
        exact Nat.le_add_right _ _
      have hsplit : (∀ ss ∈ stops, ¬Completed (text ++ token.text ++ texts tokens) text.length ss) ↔
          (∀ ss ∈ stops, ¬Completed (text ++ token.text) text.length ss) ∧
            ∀ ss ∈ stops, ¬Completed (text ++ token.text ++ texts tokens)
              (text ++ token.text).length ss := by
        rw [← forall₂_and]
        apply forall₂_congr
        intro ss hss
        rw [completed_append (hne ss hss) hold, not_or]
      rw [if_pos hmin, hfrom, hsplit, ← reported_eq_none]
      cases hreported : reported stops (text ++ token.text) text.length with
      | some ss => simp
      | none =>
        dsimp only
        rw [ih, hrest]
        simp
    · rw [if_neg hmin, checkFrom_cons (by omega)]
      exact ih

theorem firstStop_eq_some (h : firstStop stops minTokens count text tokens = some found) :
    ∃ front token rest, tokens = front ++ token :: rest ∧
      firstStop stops minTokens count text front = none ∧ minTokens < count + front.length + 1 ∧
      found.text = text ++ texts front ++ token.text ∧ found.old = (text ++ texts front).length ∧
      reported stops found.text found.old = some found.ss := by
  induction tokens generalizing count text with
  | nil => cases h
  | cons token tokens ih =>
    rw [firstStop] at h
    split at h
    · next ss hss =>
      cases h
      split at hss
      · next hmin =>
        refine ⟨[], token, tokens, rfl, rfl, hmin, ?_, ?_, hss⟩
        · simp [texts]
        · simp [texts]
      · cases hss
    · next hno =>
      rcases ih h with ⟨front, t, rest, rfl, hfront, hcount, htext, hold, hreported⟩
      refine ⟨token :: front, t, rest, rfl, ?_, ?_, ?_, ?_, hreported⟩
      · rw [firstStop, hno]
        exact hfront
      · rw [length_cons]
        omega
      · rw [htext]
        simp [texts]
      · rw [hold]
        simp [texts]

end Tokens

namespace BaseIncrementalDetokenizer
variable {d : BaseIncrementalDetokenizer} {tokens : List Token}

/-- The detokenizer after some tokens, before the stop strings are checked. -/
def decoded (d : BaseIncrementalDetokenizer) (tokens : List Token) : BaseIncrementalDetokenizer :=
  { d with
    tokenIds := d.tokenIds ++ tokens.map Token.id
    outputText := d.outputText ++ texts tokens }

theorem decoded_nil (d : BaseIncrementalDetokenizer) : d.decoded [] = d := by
  simp [decoded, texts]

theorem decoded_cons (d : BaseIncrementalDetokenizer) (token : Token) (tokens : List Token) :
    d.decoded (token :: tokens) = (d.decoded [token]).decoded tokens := by
  simp [decoded, texts]

theorem decoded_append (d : BaseIncrementalDetokenizer) (a b : List Token) :
    d.decoded (a ++ b) = (d.decoded a).decoded b := by
  simp [decoded, texts]

theorem decodeToken_eq (d : BaseIncrementalDetokenizer) (old : ℕ) (token : Token) :
    decodeToken (d, old) token = (d.decoded [token],
      if d.params.minTokens ≠ 0 ∧ d.tokenIds.length + 1 ≤ d.params.minTokens
      then (d.outputText ++ token.text).length else old) := by
  have htext : texts [token] = token.text := append_nil _
  unfold decodeToken decoded numOutputTokens
  simp [htext]

theorem foldl_decodeToken_of_le (hmin : d.params.minTokens ≤ d.tokenIds.length) (old : ℕ) :
    tokens.foldl decodeToken (d, old) = (d.decoded tokens, old) := by
  induction tokens generalizing d with
  | nil => rw [decoded_nil]; rfl
  | cons token tokens ih =>
    have hkeep : ¬(d.params.minTokens ≠ 0 ∧ d.tokenIds.length + 1 ≤ d.params.minTokens) :=
      fun h => absurd h.2 (by omega)
    have hnext : (d.decoded [token]).params.minTokens ≤ (d.decoded [token]).tokenIds.length := by
      dsimp only [decoded]
      rw [length_append]
      omega
    rw [foldl_cons, decodeToken_eq, if_neg hkeep, ih hnext, decoded_cons d token tokens]

theorem foldl_decodeToken (d : BaseIncrementalDetokenizer) (tokens : List Token) :
    tokens.foldl decodeToken (d, d.outputText.length) = (d.decoded tokens,
      checkFrom d.params.minTokens d.tokenIds.length d.outputText tokens) := by
  induction tokens generalizing d with
  | nil =>
    rw [decoded_nil]
    simp [checkFrom, texts]
  | cons token tokens ih =>
    rcases Nat.lt_or_ge d.tokenIds.length d.params.minTokens with hlt | hge
    · have htext : texts [token] = token.text := append_nil _
      have hnext : (d.outputText ++ token.text).length = (d.decoded [token]).outputText.length := by
        dsimp only [decoded]
        rw [htext]
      rw [foldl_cons, decodeToken_eq, if_pos ⟨by omega, hlt⟩, hnext, ih,
        decoded_cons d token tokens, checkFrom_cons hlt]
      simp [decoded, htext]
    · rw [foldl_decodeToken_of_le hge, checkFrom_of_le hge]

/-- A call whose stop token is skipped is one whose last token has no text. -/
def effective (includeStop : Bool) (call : List Token × Bool) : List Token :=
  if call.2 && !includeStop then
    call.1.dropLast ++ (call.1.getLast?.map fun token => (⟨token.id, []⟩ : Token)).toList
  else call.1

theorem map_id_effective (includeStop : Bool) (call : List Token × Bool) :
    (effective includeStop call).map Token.id = call.1.map Token.id := by
  unfold effective
  split
  · rcases call.1.eq_nil_or_concat with hnil | ⟨front, token, hcall⟩
    · simp [hnil]
    · simp [hcall]
  · rfl

theorem update_eq (d : BaseIncrementalDetokenizer) {tokens : List Token} (hne : tokens ≠ []) :
    d.update tokens false = (d.decoded tokens).evaluateStop
      (checkFrom d.params.minTokens d.tokenIds.length d.outputText tokens) := by
  unfold update
  rw [if_neg hne]
  simp only [Bool.false_and, Bool.false_eq_true, if_false]
  rw [foldl_decodeToken]

theorem evaluateStop_of_le (d : BaseIncrementalDetokenizer) (old : ℕ)
    (h : d.tokenIds.length ≤ d.params.minTokens) : d.evaluateStop old = (d, none) :=
  if_neg fun hstop => absurd hstop.2 (by unfold numOutputTokens; omega)

theorem update_effective (d : BaseIncrementalDetokenizer) (call : List Token × Bool) :
    d.update call.1 call.2 =
      d.update (effective d.params.includeStopStrInOutput call) false := by
  rcases call with ⟨tokens, flag⟩
  by_cases hskip : (flag && !d.params.includeStopStrInOutput) = true
  · rcases tokens.eq_nil_or_concat with rfl | ⟨front, token, rfl⟩
    · simp [update, effective]
    · have heff : effective d.params.includeStopStrInOutput (front.concat token, flag) =
          front ++ [⟨token.id, []⟩] := by
        simp [effective, hskip]
      have hne : front ++ [(⟨token.id, []⟩ : Token)] ≠ [] := by simp
      have hsame : (d.decoded front).decoded [⟨token.id, []⟩] = { d.decoded front with
          tokenIds := (d.decoded front).tokenIds ++ [token.id] } := by
        simp [decoded, texts]
      have hleft : d.update (front.concat token) flag =
          ((d.decoded front).decoded [⟨token.id, []⟩]).evaluateStop
            (checkFrom d.params.minTokens d.tokenIds.length d.outputText front) := by
        rw [hsame]
        unfold update
        rw [if_neg (by simp), hskip]
        simp [foldl_decodeToken]
      rw [heff, update_eq d hne, decoded_append, hleft]
      rcases Nat.lt_or_ge d.params.minTokens (d.tokenIds.length + front.length + 1) with hlt | hge
      · have hfrom : checkFrom d.params.minTokens d.tokenIds.length d.outputText
            (front ++ [⟨token.id, []⟩]) =
              checkFrom d.params.minTokens d.tokenIds.length d.outputText front := by
          unfold checkFrom
          rw [take_append_of_le_length (by omega)]
        rw [hfrom]
      · have hcount : ((d.decoded front).decoded [⟨token.id, []⟩]).tokenIds.length ≤
            ((d.decoded front).decoded [⟨token.id, []⟩]).params.minTokens := by
          simp [decoded]
          omega
        rw [evaluateStop_of_le _ _ hcount, evaluateStop_of_le _ _ hcount]
  · have heff : effective d.params.includeStopStrInOutput (tokens, flag) = tokens := if_neg hskip
    rw [heff]
    unfold update
    rw [Bool.not_eq_true] at hskip
    rw [hskip]
    simp

end BaseIncrementalDetokenizer

/-- A stop string before the reported one in the list is completed behind the first stop. -/
def OvertakenBy (stops : List (List Char)) (found : Stopped) (text : List Char) : Prop :=
  ∃ ss ∈ stops.takeWhile (fun ss => ss ≠ found.ss), Completed text found.text.length ss

section Group
variable {stops : List (List Char)} {minTokens count : ℕ} {text : List Char} {tokens : List Token}
variable {found : Stopped}

section
variable (hne : ∀ ss ∈ stops, ss ≠ [])
  (h : firstStop stops minTokens count text tokens = some found)
include hne h

theorem group_spec :
    found.text <+: text ++ texts tokens ∧ minTokens < count + tokens.length ∧
      reported stops found.text found.old = some found.ss ∧
      ∀ ss ∈ stops, ∀ i,
        EndsAfter ss (text ++ texts tokens) (checkFrom minTokens count text tokens) i ↔
          EndsAfter ss found.text found.old i ∨
            EndsAfter ss (text ++ texts tokens) found.text.length i := by
  rcases firstStop_eq_some h with ⟨front, token, rest, rfl, hfront, hmin, htext, hold, hreported⟩
  have hwhole : text ++ texts (front ++ token :: rest) = found.text ++ texts rest := by
    rw [htext]
    simp [texts]
  have hfrom : checkFrom minTokens count text (front ++ token :: rest) =
      checkFrom minTokens count text front := by
    unfold checkFrom
    rw [take_append_of_le_length (by omega)]
  have hbefore := (firstStop_eq_none hne).mp hfront
  have hfromle := checkFrom_le minTokens count text front
  have hlen : found.old ≤ found.text.length := by
    rw [hold, htext]
    exact List.IsPrefix.length_le (prefix_append _ _)
  rw [hwhole, hfrom]
  constructor
  · exact prefix_append _ _
  constructor
  · rw [length_append, length_cons]
    omega
  constructor
  · exact hreported
  · intro ss hss i
    rw [endsAfter_append (hne ss hss) (by omega)]
    apply or_congr_left
    rw [htext, endsAfter_append (hne ss hss) hfromle, ← htext, ← hold]
    constructor
    · rintro (hends | hends)
      · exact absurd ⟨i, hends⟩ (hbefore ss hss)
      · exact hends
    · exact Or.inr

/-- The call reports the stop string of its first stop unless one before it is completed later. -/
theorem reported_group :
    reported stops (text ++ texts tokens) (checkFrom minTokens count text tokens) = some found.ss ↔
      ¬OvertakenBy stops found (text ++ texts tokens) := by
  rcases group_spec hne h with ⟨-, -, hreported, hends⟩
  have hcompleted : ∀ ss ∈ stops,
      decide (Completed (text ++ texts tokens) (checkFrom minTokens count text tokens) ss) =
        decide (Completed found.text found.old ss ∨
          Completed (text ++ texts tokens) found.text.length ss) := by
    intro ss hss
    rw [decide_eq_decide]
    unfold Completed
    simp only [hends ss hss, exists_or]
  unfold reported at hreported ⊢
  rw [List.find?_congr hcompleted, find?_or_eq hreported]
  unfold OvertakenBy
  push Not
  exact Iff.rfl

theorem first_group {i j : ℕ}
    (hi : EndsAfter found.ss (text ++ texts tokens) (checkFrom minTokens count text tokens) i)
    (hfirst : ∀ l < i, ¬EndsAfter found.ss (text ++ texts tokens)
      (checkFrom minTokens count text tokens) l)
    (hj : EndsAfter found.ss found.text found.old j)
    (hfirst' : ∀ l < j, ¬EndsAfter found.ss found.text found.old l) (includeStop : Bool) :
    (text ++ texts tokens).take (cutAt includeStop found.ss i) =
      found.text.take (cutAt includeStop found.ss j) := by
  rcases group_spec hne h with ⟨hbegins, -, hreported, hends⟩
  have hmem := (reported_mem hreported).1
  have hle := hj.le (hne _ hmem)
  have hsame : i = j := by
    apply le_antisymm
    · by_contra hlt
      exact hfirst j (not_le.mp hlt) ((hends _ hmem j).mpr (Or.inl hj))
    · by_contra hlt
      rcases (hends _ hmem i).mp hi with hin | hout
      · exact hfirst' i (not_le.mp hlt) hin
      · have hend := hout.2
        omega
  have hcut : cutAt includeStop found.ss j ≤ found.text.length := by
    unfold cutAt
    split <;> omega
  rcases hbegins with ⟨more, hmore⟩
  rw [hsame, ← hmore, take_append_of_le_length hcut]

end

end Group

namespace BaseIncrementalDetokenizer
variable {d : BaseIncrementalDetokenizer} {tokens : List Token}

/-- One call of `update`: nothing is reported without a stop, else the text is cut. -/
theorem update_spec (d : BaseIncrementalDetokenizer) (tokens : List Token) :
    match firstStop d.params.stop d.params.minTokens d.tokenIds.length d.outputText tokens with
    | none => d.update tokens false = (d.decoded tokens, none)
    | some _ => ∃ ss i, reported d.params.stop (d.outputText ++ texts tokens)
          (checkFrom d.params.minTokens d.tokenIds.length d.outputText tokens) = some ss ∧
        EndsAfter ss (d.outputText ++ texts tokens)
          (checkFrom d.params.minTokens d.tokenIds.length d.outputText tokens) i ∧
        (∀ j < i, ¬EndsAfter ss (d.outputText ++ texts tokens)
          (checkFrom d.params.minTokens d.tokenIds.length d.outputText tokens) j) ∧
        d.update tokens false = ({ d.decoded tokens with
          outputText := (d.outputText ++ texts tokens).take
            (cutAt d.params.includeStopStrInOutput ss i) }, some ss) := by
  by_cases hempty : tokens = []
  · subst hempty
    rw [decoded_nil]
    rfl
  have hstop := evaluateStop_eq (d.decoded tokens)
    (checkFrom d.params.minTokens d.tokenIds.length d.outputText tokens)
    (checkFrom_le _ _ _ _)
  have hcount : (d.decoded tokens).tokenIds.length = d.tokenIds.length + tokens.length := by
    simp [decoded]
  rw [update_eq d hempty]
  cases hfirst :
    firstStop d.params.stop d.params.minTokens d.tokenIds.length d.outputText tokens with
  | none =>
    have hnone : reported (d.decoded tokens).params.stop (d.decoded tokens).outputText
        (checkFrom d.params.minTokens d.tokenIds.length d.outputText tokens) = none :=
      reported_eq_none.mpr ((firstStop_eq_none d.params.nonempty).mp hfirst)
    rw [hnone, ite_self] at hstop
    exact hstop
  | some found =>
    rcases group_spec d.params.nonempty hfirst with ⟨-, hmin, hreported, hends⟩
    have hgt : (d.decoded tokens).tokenIds.length > (d.decoded tokens).params.minTokens := by
      rw [hcount]
      exact hmin
    rw [if_pos hgt] at hstop
    cases hgroup : reported (d.decoded tokens).params.stop (d.decoded tokens).outputText
        (checkFrom d.params.minTokens d.tokenIds.length d.outputText tokens) with
    | none =>
      rcases reported_mem hreported with ⟨hmem, i, hi⟩
      exact absurd ⟨i, (hends _ hmem i).mpr (Or.inl hi)⟩ (reported_eq_none.mp hgroup _ hmem)
    | some ss =>
      rw [hgroup] at hstop
      rcases hstop with ⟨i, ⟨hi, hbefore⟩, heq⟩
      exact ⟨ss, i, hgroup, hi, hbefore, heq⟩

theorem update_params (d : BaseIncrementalDetokenizer) (tokens : List Token) :
    (d.update tokens false).1.params = d.params := by
  have hspec := d.update_spec tokens
  cases hfirst :
    firstStop d.params.stop d.params.minTokens d.tokenIds.length d.outputText tokens with
  | none =>
    rw [hfirst] at hspec
    rw [hspec]
    rfl
  | some found =>
    rw [hfirst] at hspec
    rcases hspec with ⟨ss, i, -, -, -, hspec⟩
    rw [hspec]
    rfl

end BaseIncrementalDetokenizer

open BaseIncrementalDetokenizer

/-- What calls of `update` with several tokens each leave, up to the first reported stop. -/
structure Updates where
  detokenizer : BaseIncrementalDetokenizer
  stop : Option (List Char)
  made : ℕ

def updates (d : BaseIncrementalDetokenizer) : List (List Token × Bool) → Updates
  | [] => ⟨d, none, 0⟩
  | call :: rest =>
    match d.update call.1 call.2 with
    | (d, some stop) => ⟨d, some stop, 1⟩
    | (d, none) =>
      let later := updates d rest
      { later with made := later.made + 1 }

/-- The tokens of a call one by one; the flag is about the last one. -/
def singleCalls (call : List Token × Bool) : List (Token × Bool) :=
  call.1.dropLast.map (·, false) ++ (call.1.getLast?.map (·, call.2)).toList

/-- The calls up to the one that contains the first stop. -/
def callsToStop (stops : List (List Char)) (minTokens : ℕ) (includeStop : Bool) :
    ℕ → List Char → List (List Token × Bool) → ℕ
  | _, _, [] => 0
  | count, text, call :: rest =>
    match firstStop stops minTokens count text (effective includeStop call) with
    | some _ => 1
    | none => callsToStop stops minTokens includeStop
        (count + (effective includeStop call).length)
        (text ++ texts (effective includeStop call)) rest + 1

/-- In the call of the first stop, a stop string before its own is completed by a later token. -/
def Overtaken (stops : List (List Char)) (minTokens : ℕ) (includeStop : Bool) :
    ℕ → List Char → List (List Token × Bool) → Prop
  | _, _, [] => False
  | count, text, call :: rest =>
    match firstStop stops minTokens count text (effective includeStop call) with
    | some found => OvertakenBy stops found (text ++ texts (effective includeStop call))
    | none => Overtaken stops minTokens includeStop (count + (effective includeStop call).length)
        (text ++ texts (effective includeStop call)) rest

section Runs
variable {d : BaseIncrementalDetokenizer}

theorem feed_tokens (d : BaseIncrementalDetokenizer) (tokens : List Token)
    (tail : List (Token × Bool)) :
    match firstStop d.params.stop d.params.minTokens d.tokenIds.length d.outputText tokens with
    | none => feed d (tokens.map (·, false) ++ tail) = feed (d.decoded tokens) tail
    | some found => ∃ i, EndsAfter found.ss found.text found.old i ∧
        (∀ j < i, ¬EndsAfter found.ss found.text found.old j) ∧
        (feed d (tokens.map (·, false) ++ tail)).1.outputText =
          found.text.take (cutAt d.params.includeStopStrInOutput found.ss i) ∧
        (feed d (tokens.map (·, false) ++ tail)).2 = some found.ss := by
  induction tokens generalizing d with
  | nil =>
    rw [decoded_nil]
    rfl
  | cons token tokens ih =>
    have hstep := update_singleton d token
    have hone : d.decoded [token] = { d with
        tokenIds := d.tokenIds ++ [token.id], outputText := d.outputText ++ token.text } := by
      simp [decoded, texts]
    rw [firstStop, map_cons, cons_append, feed]
    cases hreported : (if d.tokenIds.length + 1 > d.params.minTokens then
        reported d.params.stop (d.outputText ++ token.text) d.outputText.length else none) with
    | some ss =>
      rw [hreported] at hstep
      rcases hstep with ⟨i, ⟨hi, hfirst⟩, hupdate⟩
      rw [hupdate]
      exact ⟨i, hi, hfirst, rfl, rfl⟩
    | none =>
      rw [hreported] at hstep
      dsimp only at hstep ⊢
      rw [hstep, ← hone, decoded_cons d token tokens]
      have hrest := ih (d.decoded [token])
      have hcount : (d.decoded [token]).tokenIds.length = d.tokenIds.length + 1 := by
        simp [decoded]
      have htext : (d.decoded [token]).outputText = d.outputText ++ token.text := by
        simp [decoded, texts]
      rw [hcount, htext] at hrest
      exact hrest

theorem update_single (d : BaseIncrementalDetokenizer) (token : Token) :
    d.update [token] true = d.update
      [if d.params.includeStopStrInOutput then token else ⟨token.id, []⟩] false := by
  rw [d.update_effective ([token], true)]
  unfold effective
  cases d.params.includeStopStrInOutput with
  | false | true => rfl

theorem feed_singleCalls (d : BaseIncrementalDetokenizer) (calls : List (List Token × Bool)) :
    feed d (calls.flatMap singleCalls) = feed d
      ((calls.flatMap (effective d.params.includeStopStrInOutput)).map (·, false)) := by
  have hsame : ∀ (singles : List (Token × Bool)) (d : BaseIncrementalDetokenizer),
      feed d singles = feed d (singles.map fun c => ((if c.2 && !d.params.includeStopStrInOutput
        then ⟨c.1.id, []⟩ else c.1 : Token), false)) := by
    intro singles
    induction singles with
    | nil => exact fun d => rfl
    | cons c singles ih =>
      intro d
      rcases c with ⟨token, flag⟩
      have hupdate : d.update [token] flag = d.update
          [if flag && !d.params.includeStopStrInOutput then ⟨token.id, []⟩ else token] false := by
        cases flag with
        | false => rfl
        | true =>
          rw [update_single]
          cases d.params.includeStopStrInOutput with
          | false => rfl
          | true => rfl
      have hparams := d.update_params
        [if flag && !d.params.includeStopStrInOutput then ⟨token.id, []⟩ else token]
      rw [map_cons, feed, feed, hupdate]
      rcases hresult : d.update
        [if flag && !d.params.includeStopStrInOutput then ⟨token.id, []⟩ else token] false with
        ⟨d', stop⟩
      rw [hresult] at hparams
      cases stop with
      | some stop => rfl
      | none =>
        dsimp only at hparams ⊢
        rw [ih d', hparams]
  rw [hsame]
  congr 1
  rw [map_flatMap, map_flatMap]
  congr 1
  funext call
  rcases call with ⟨tokens, flag⟩
  rcases tokens.eq_nil_or_concat with rfl | ⟨front, token, rfl⟩
  · cases flag <;> simp [singleCalls, effective]
  · cases hinclude : d.params.includeStopStrInOutput with
    | false | true => cases flag <;> simp [singleCalls, effective]

/-- Several tokens per call stop in the call of the first stop, and alike unless overtaken. -/
theorem updates_spec (d : BaseIncrementalDetokenizer) (calls : List (List Token × Bool)) :
    (updates d calls).made = callsToStop d.params.stop d.params.minTokens
        d.params.includeStopStrInOutput d.tokenIds.length d.outputText calls ∧
      ((updates d calls).stop = (feed d
          ((calls.flatMap (effective d.params.includeStopStrInOutput)).map (·, false))).2 ∧
        (updates d calls).detokenizer.outputText = (feed d
          ((calls.flatMap (effective d.params.includeStopStrInOutput)).map (·, false))).1.outputText ↔
        ¬Overtaken d.params.stop d.params.minTokens d.params.includeStopStrInOutput
          d.tokenIds.length d.outputText calls) := by
  induction calls generalizing d with
  | nil =>
    constructor
    · rfl
    · exact iff_of_true ⟨rfl, rfl⟩ not_false
  | cons call calls ih =>
    have hupdate := d.update_spec (effective d.params.includeStopStrInOutput call)
    have hfeed := feed_tokens d (effective d.params.includeStopStrInOutput call)
      ((calls.flatMap (effective d.params.includeStopStrInOutput)).map (·, false))
    rw [updates, callsToStop, Overtaken, d.update_effective call, flatMap_cons, map_append]
    generalize effective d.params.includeStopStrInOutput call = tokens at hupdate hfeed ⊢
    cases hfirst : firstStop d.params.stop d.params.minTokens d.tokenIds.length d.outputText
        tokens with
    | none =>
      rw [hfirst] at hupdate hfeed
      dsimp only at hupdate hfeed ⊢
      rw [hupdate, hfeed]
      have hcount : (d.decoded tokens).tokenIds.length = d.tokenIds.length + tokens.length := by
        simp [decoded]
      have hrest := ih (d.decoded tokens)
      rw [hcount] at hrest
      constructor
      · exact congrArg (· + 1) hrest.1
      · exact hrest.2
    | some found =>
      rw [hfirst] at hupdate hfeed
      rcases hupdate with ⟨ss, i, hreported, hi, hbefore, hupdate⟩
      rcases hfeed with ⟨j, hj, hbefore', htext, hstop⟩
      dsimp only
      rw [hupdate, htext, hstop]
      constructor
      · rfl
      · rw [← reported_group d.params.nonempty hfirst, hreported]
        constructor
        · exact fun h => h.1
        · intro hsame
          cases hsame
          exact ⟨rfl, first_group d.params.nonempty hfirst hi hbefore hj hbefore' _⟩

end Runs

/-- The calls stop in the call of the first stop, with the stop string and the text of single
tokens. -/
structure StopsAlike (params : StopParams) (calls : List (List Token × Bool)) : Prop where
  made : (updates { params := params } calls).made =
    callsToStop params.stop params.minTokens params.includeStopStrInOutput 0 [] calls
  stop : (updates { params := params } calls).stop =
    (feed { params := params } (calls.flatMap singleCalls)).2
  text : (updates { params := params } calls).detokenizer.outputText =
    (feed { params := params } (calls.flatMap singleCalls)).1.outputText

/-- Grouping changes nothing exactly where no stop string is overtaken. -/
theorem stopsAlike_iff (params : StopParams) (calls : List (List Token × Bool)) :
    StopsAlike params calls ↔
      ¬Overtaken params.stop params.minTokens params.includeStopStrInOutput 0 [] calls := by
  rcases updates_spec { params := params } calls with ⟨hmade, hiff⟩
  rw [← feed_singleCalls { params := params } calls] at hiff
  constructor
  · exact fun h => hiff.mp ⟨h.stop, h.text⟩
  · intro h
    rcases hiff.mpr h with ⟨hstop, htext⟩
    exact ⟨hmade, hstop, htext⟩

/-- Two stop strings completed by two tokens of one call: the later one is reported. -/
theorem exists_not_stopsAlike :
    ¬StopsAlike { stop := [['b'], ['a']] } [([⟨0, ['a']⟩, ⟨1, ['b']⟩], false)] :=
  fun h => absurd h.stop (by decide)

end Vllm.Text
