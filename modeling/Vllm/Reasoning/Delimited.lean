import Vllm.Lib.Occurrences

/-! The incremental split of a text into reasoning and content at two delimiters. Strings are lists
of characters, so that every index is a character boundary. The split of a text does not depend on
how the text is cut into deltas: a delimiter is never cut in two, because the end that may still
become one is held back. -/
namespace Vllm.Reasoning
open Occurrences

structure ReasoningDelta where
  reasoning : Option (List Char) := none
  content : Option (List Char) := none
  deriving DecidableEq, Repr

namespace ReasoningDelta

def pushReasoning (delta : ReasoningDelta) (text : List Char) : ReasoningDelta :=
  if text = [] then delta
  else match delta.reasoning with
    | some existing => { delta with reasoning := some (existing ++ text) }
    | none => { delta with reasoning := some text }

def pushContent (delta : ReasoningDelta) (text : List Char) : ReasoningDelta :=
  if text = [] then delta
  else match delta.content with
    | some existing => { delta with content := some (existing ++ text) }
    | none => { delta with content := some text }

/-- The reasoning text of a delta, or its content. -/
def text (delta : ReasoningDelta) (inReasoning : Bool) : List Char :=
  if inReasoning then delta.reasoning.getD [] else delta.content.getD []

end ReasoningDelta

/-- The delimiters are the texts of tokens, which are not empty. -/
structure Delimiters where
  startToken : List Char
  endToken : List Char
  startToken_ne : startToken ≠ []
  endToken_ne : endToken ≠ []

structure DelimitedReasoningParser extends Delimiters where
  currentInReasoning : Bool
  buffer : List Char := []

namespace Delimiters
variable (d : Delimiters)

/-- The loop of `parse_stable_text`, with `current_in_reasoning` and the delta so far. -/
def parseLoop (inReasoning : Bool) (delta : ReasoningDelta) (stable : List Char) :
    Bool × ReasoningDelta :=
  if stable = [] then (inReasoning, delta)
  else if inReasoning then
    match findFrom stable d.endToken 0 with
    | some endIdx =>
      parseLoop false (delta.pushReasoning (stable.take endIdx))
        (stable.drop (endIdx + d.endToken.length))
    | none => (inReasoning, delta.pushReasoning stable)
  else
    match findFrom stable d.startToken 0 with
    | some startIdx =>
      parseLoop true (delta.pushContent (stable.take startIdx))
        (stable.drop (startIdx + d.startToken.length))
    | none => (inReasoning, delta.pushContent stable)
termination_by stable.length
decreasing_by
  · have := List.length_pos_iff.mpr d.endToken_ne
    have := List.length_pos_iff.mpr ‹¬stable = []›
    rw [List.length_drop]
    omega
  · have := List.length_pos_iff.mpr d.startToken_ne
    have := List.length_pos_iff.mpr ‹¬stable = []›
    rw [List.length_drop]
    omega

/-- The best length so far, or that of a suffix that could still complete a delimiter. -/
def partialSuffix (best : ℕ) (suffix : List Char) : ℕ :=
  let best := if suffix <+: d.startToken ∧ d.startToken ≠ suffix then max best suffix.length
    else best
  if suffix <+: d.endToken ∧ d.endToken ≠ suffix then max best suffix.length else best

/-- `partial_suffix_len`: the suffixes from the second character on, then the whole text. -/
def partialSuffixLen (text : List Char) : ℕ :=
  let best := (List.range' 1 (text.length - 1)).foldl
    (fun best idx => d.partialSuffix best (text.drop idx)) 0
  d.partialSuffix best text

end Delimiters

namespace DelimitedReasoningParser
variable (p : DelimitedReasoningParser)

def parseStableText (stable : List Char) : DelimitedReasoningParser × ReasoningDelta :=
  let parsed := p.parseLoop p.currentInReasoning {} stable
  ({ p with currentInReasoning := parsed.1 }, parsed.2)

def push (delta : List Char) : DelimitedReasoningParser × ReasoningDelta :=
  let buffer := p.buffer ++ delta
  let stableLen := buffer.length - p.partialSuffixLen buffer
  { p with buffer := buffer.drop stableLen }.parseStableText (buffer.take stableLen)

def finish : DelimitedReasoningParser × ReasoningDelta :=
  { p with buffer := [] }.parseStableText p.buffer

/-- One call of `push` for each delta, then `finish`: the deltas that were returned. -/
def stream : DelimitedReasoningParser → List (List Char) →
    DelimitedReasoningParser × List ReasoningDelta
  | p, [] => (p.finish.1, [p.finish.2])
  | p, delta :: deltas =>
    let rest := stream (p.push delta).1 deltas
    (rest.1, (p.push delta).2 :: rest.2)

end DelimitedReasoningParser

namespace Delimiters
variable (d : Delimiters)

/-- The delimiter that ends the current section. -/
def token (inReasoning : Bool) : List Char := if inReasoning then d.endToken else d.startToken

theorem token_ne (inReasoning : Bool) : d.token inReasoning ≠ [] := by
  cases inReasoning with
  | false => exact d.startToken_ne
  | true => exact d.endToken_ne

end Delimiters

namespace ReasoningDelta

/-- Text of the current section. -/
def pushText (delta : ReasoningDelta) (inReasoning : Bool) (text : List Char) : ReasoningDelta :=
  if inReasoning then delta.pushReasoning text else delta.pushContent text

theorem pushText_nil (delta : ReasoningDelta) (inReasoning : Bool) :
    delta.pushText inReasoning [] = delta := by
  cases inReasoning with
  | false | true => rfl

theorem pushText_append (delta : ReasoningDelta) (inReasoning : Bool) (a b : List Char) :
    delta.pushText inReasoning (a ++ b) =
      (delta.pushText inReasoning a).pushText inReasoning b := by
  rcases delta with ⟨reasoning, content⟩
  cases inReasoning with
  | false =>
    cases content <;> by_cases ha : a = [] <;> by_cases hb : b = [] <;>
      simp [pushText, pushContent, ha, hb]
  | true =>
    cases reasoning <;> by_cases ha : a = [] <;> by_cases hb : b = [] <;>
      simp [pushText, pushReasoning, ha, hb]

theorem text_pushText (delta : ReasoningDelta) (inReasoning b : Bool) (t : List Char) :
    (delta.pushText inReasoning t).text b =
      delta.text b ++ if b = inReasoning then t else [] := by
  rcases delta with ⟨reasoning, content⟩
  by_cases ht : t = []
  · rw [ht, pushText_nil]
    simp
  · cases inReasoning <;> cases b <;> cases content <;> cases reasoning <;>
      simp [pushText, pushContent, pushReasoning, text, ht]

end ReasoningDelta

/-- One turn of the loop, whatever the section. -/
theorem Delimiters.parseLoop_eq (d : Delimiters) (inReasoning : Bool) (delta : ReasoningDelta)
    (stable : List Char) : d.parseLoop inReasoning delta stable =
      if stable = [] then (inReasoning, delta)
      else match findFrom stable (d.token inReasoning) 0 with
        | some idx =>
          d.parseLoop (!inReasoning) (delta.pushText inReasoning (stable.take idx))
            (stable.drop (idx + (d.token inReasoning).length))
        | none => (inReasoning, delta.pushText inReasoning stable) := by
  rw [Delimiters.parseLoop]
  cases inReasoning with
  | false | true => rfl

open Holdback

namespace Delimiters
variable {d : Delimiters} {s t : List Char}

def tokens (d : Delimiters) : List (List Char) := [d.startToken, d.endToken]

theorem token_mem (d : Delimiters) (b : Bool) : d.token b ∈ d.tokens := by
  cases b with
  | false => exact List.mem_cons_self
  | true => exact List.mem_cons_of_mem _ List.mem_cons_self

theorem straddles_of_drop {tok : List Char} {k : ℕ} (hk : k ≤ s.length)
    (h : Straddles tok (s.drop k ++ t) (s.drop k).length) : Straddles tok (s ++ t) s.length := by
  rcases h with ⟨i, hoccurs, hbefore, hbehind⟩
  rw [List.length_drop] at hbefore hbehind
  rw [← List.drop_append_of_le_length hk, occursAt_drop] at hoccurs
  exact ⟨k + i, hoccurs, by omega, by omega⟩

/-- The first occurrence in a text is the first one whatever follows. -/
theorem findFrom_append_some {tok : List Char} {idx : ℕ}
    (hclean : ¬Straddles tok (s ++ t) s.length) (h : findFrom s tok 0 = some idx) :
    findFrom (s ++ t) tok 0 = some idx := by
  rcases findFrom_eq_some.mp h with ⟨⟨-, hle, hoccurs⟩, hfirst⟩
  apply findFrom_eq_some.mpr
  constructor
  · exact ⟨Nat.zero_le _, by rw [List.length_append]; omega, hoccurs.append hle t⟩
  · intro j hj hlt hoccurs'
    rcases Nat.lt_or_ge s.length (j + tok.length) with hbehind | hinside
    · exact hclean ⟨j, hoccurs', by omega, hbehind⟩
    · exact hfirst j hj hlt (hoccurs'.of_append hinside)

theorem findFrom_append_none {tok : List Char}
    (hclean : ¬Straddles tok (s ++ t) s.length) (h : findFrom s tok 0 = none) :
    findFrom (s ++ t) tok 0 = (findFrom t tok 0).map (s.length + ·) := by
  have hbehind : ∀ i, OccursAt tok (s ++ t) i → s.length ≤ i := by
    intro i hoccurs
    by_contra hlt
    rcases Nat.lt_or_ge s.length (i + tok.length) with hacross | hinside
    · exact hclean ⟨i, hoccurs, by omega, hacross⟩
    · exact findFrom_eq_none.mp h i (Nat.zero_le _) (by omega) (hoccurs.of_append hinside)
  have hshift : ∀ i, OccursAt tok (s ++ t) (s.length + i) ↔ OccursAt tok t i := by
    intro i
    rw [← occursAt_drop, List.drop_left]
  cases hfind : findFrom t tok 0 with
  | none =>
    apply findFrom_eq_none.mpr
    intro i _ hle hoccurs
    rcases Nat.exists_eq_add_of_le (hbehind i hoccurs) with ⟨j, rfl⟩
    rw [List.length_append] at hle
    exact findFrom_eq_none.mp hfind j (Nat.zero_le _) (by omega) ((hshift j).mp hoccurs)
  | some idx =>
    rcases findFrom_eq_some.mp hfind with ⟨⟨-, hle, hoccurs⟩, hfirst⟩
    change findFrom (s ++ t) tok 0 = some (s.length + idx)
    apply findFrom_eq_some.mpr
    constructor
    · exact ⟨Nat.zero_le _, by rw [List.length_append]; omega, (hshift idx).mpr hoccurs⟩
    · intro j _ hlt hoccurs'
      rcases Nat.exists_eq_add_of_le (hbehind j hoccurs') with ⟨i, rfl⟩
      exact hfirst i (Nat.zero_le _) (by omega) ((hshift i).mp hoccurs')

theorem parseLoop_append (hclean : ∀ tok ∈ d.tokens, ¬Straddles tok (s ++ t) s.length) (b : Bool)
    (delta : ReasoningDelta) : d.parseLoop b delta (s ++ t) =
      d.parseLoop (d.parseLoop b delta s).1 (d.parseLoop b delta s).2 t := by
  induction hn : s.length using Nat.strong_induction_on generalizing s b delta with
  | _ n ih =>
    have hne := d.token_ne b
    have hpos := List.length_pos_iff.mpr hne
    by_cases hs : s = []
    · subst hs
      rw [List.nil_append, d.parseLoop_eq b delta [], if_pos rfl]
    · have hst : s ++ t ≠ [] := fun hnil => hs (List.append_eq_nil_iff.mp hnil).1
      have hno := hclean _ (d.token_mem b)
      rw [d.parseLoop_eq b delta (s ++ t), d.parseLoop_eq b delta s, if_neg hst, if_neg hs]
      cases hfind : findFrom s (d.token b) 0 with
      | some idx =>
        rcases findFrom_eq_some.mp hfind with ⟨⟨-, hidx, hoccurs⟩, -⟩
        have hle := hoccurs.le hne
        rw [findFrom_append_some hno hfind]
        dsimp only
        rw [List.take_append_of_le_length hidx, List.drop_append_of_le_length hle]
        apply ih (s.drop (idx + (d.token b).length)).length
        · rw [List.length_drop]
          omega
        · exact fun tok htok hstr => hclean tok htok (straddles_of_drop hle hstr)
        · rfl
      | none =>
        rw [findFrom_append_none hno hfind]
        by_cases ht : t = []
        · subst ht
          have hnone : findFrom ([] : List Char) (d.token b) 0 = none := by
            apply findFrom_eq_none.mpr
            intro i _ _ hoccurs
            have := hoccurs.le hne
            rw [List.length_nil] at this
            omega
          rw [hnone, d.parseLoop_eq b _ [], if_pos rfl, List.append_nil]
          rfl
        · rw [d.parseLoop_eq b _ t, if_neg ht]
          cases hfindt : findFrom t (d.token b) 0 with
          | none =>
            dsimp only [Option.map]
            rw [ReasoningDelta.pushText_append]
          | some idx =>
            dsimp only [Option.map]
            rw [List.take_length_add_append, ReasoningDelta.pushText_append, add_assoc,
              List.drop_length_add_append]

theorem parseLoop_delta (d : Delimiters) (b : Bool) (delta : ReasoningDelta) (s : List Char) :
    (d.parseLoop b delta s).1 = (d.parseLoop b {} s).1 ∧
      ∀ c, (d.parseLoop b delta s).2.text c =
        delta.text c ++ (d.parseLoop b {} s).2.text c := by
  induction hn : s.length using Nat.strong_induction_on generalizing s b delta with
  | _ n ih =>
    have hpos := List.length_pos_iff.mpr (d.token_ne b)
    have hempty : ∀ c, ReasoningDelta.text {} c = [] := by
      intro c
      cases c <;> rfl
    rw [d.parseLoop_eq b delta, d.parseLoop_eq b {}]
    by_cases hs : s = []
    · rw [if_pos hs, if_pos hs]
      exact ⟨rfl, fun c => by rw [hempty, List.append_nil]⟩
    · rw [if_neg hs, if_neg hs]
      cases hfind : findFrom s (d.token b) 0 with
      | none =>
        constructor
        · rfl
        · intro c
          simp [ReasoningDelta.text_pushText, hempty]
      | some idx =>
        have hlt : (s.drop (idx + (d.token b).length)).length < n := by
          have := List.length_pos_iff.mpr hs
          rw [List.length_drop]
          omega
        rcases ih _ hlt (!b) (delta.pushText b (s.take idx)) _ rfl with ⟨hstate, htext⟩
        rcases ih _ hlt (!b) (ReasoningDelta.pushText {} b (s.take idx)) _ rfl with
          ⟨hstate', htext'⟩
        constructor
        · rw [hstate, hstate']
        · intro c
          rw [htext, htext', ReasoningDelta.text_pushText, ReasoningDelta.text_pushText, hempty]
          simp

/-- A suffix that could still complete a delimiter. -/
def Begins (d : Delimiters) (suffix : List Char) : Prop :=
  ∃ tok ∈ d.tokens, suffix <+: tok ∧ suffix ≠ tok

theorem begins_iff {suffix : List Char} : d.Begins suffix ↔
    (suffix <+: d.startToken ∧ d.startToken ≠ suffix) ∨
      (suffix <+: d.endToken ∧ d.endToken ≠ suffix) := by
  unfold Begins tokens
  simp [eq_comm]

theorem partialSuffix_spec (d : Delimiters) (best : ℕ) (suffix : List Char) :
    best ≤ d.partialSuffix best suffix ∧
      (d.partialSuffix best suffix = best ∨
        d.partialSuffix best suffix = suffix.length ∧ d.Begins suffix) ∧
      (d.Begins suffix → suffix.length ≤ d.partialSuffix best suffix) := by
  rw [begins_iff]
  unfold partialSuffix
  by_cases hstart : suffix <+: d.startToken ∧ d.startToken ≠ suffix
  · rw [if_pos hstart]
    have htwice : (if suffix <+: d.endToken ∧ d.endToken ≠ suffix then
        max (max best suffix.length) suffix.length else max best suffix.length) =
          max best suffix.length := by
      split
      · omega
      · rfl
    rw [htwice]
    exact ⟨le_max_left _ _, (max_choice _ _).imp id fun h => ⟨h, Or.inl hstart⟩,
      fun _ => le_max_right _ _⟩
  · rw [if_neg hstart]
    by_cases hend : suffix <+: d.endToken ∧ d.endToken ≠ suffix
    · rw [if_pos hend]
      exact ⟨le_max_left _ _, (max_choice _ _).imp id fun h => ⟨h, Or.inr hend⟩,
        fun _ => le_max_right _ _⟩
    · rw [if_neg hend]
      exact ⟨le_rfl, Or.inl rfl, fun h => h.elim (absurd · hstart) (absurd · hend)⟩

theorem partialSuffixes_spec (d : Delimiters) (text : List Char) (idxs : List ℕ) (best : ℕ) :
    let r := idxs.foldl (fun best idx => d.partialSuffix best (text.drop idx)) best
    best ≤ r ∧ (r = best ∨ ∃ idx ∈ idxs, r = (text.drop idx).length ∧ d.Begins (text.drop idx)) ∧
      ∀ idx ∈ idxs, d.Begins (text.drop idx) → (text.drop idx).length ≤ r := by
  induction idxs generalizing best with
  | nil => exact ⟨le_rfl, Or.inl rfl, fun idx h => nomatch h⟩
  | cons i idxs ih =>
    rcases d.partialSuffix_spec best (text.drop i) with ⟨hle, hcase, hbegins⟩
    rcases ih (d.partialSuffix best (text.drop i)) with ⟨hle', hcase', hbegins'⟩
    rw [List.foldl_cons]
    constructor
    · exact hle.trans hle'
    constructor
    · rcases hcase' with hsame | ⟨idx, hidx, hr⟩
      · rcases hcase with hold | ⟨hlen, hb⟩
        · exact Or.inl (hsame.trans hold)
        · exact Or.inr ⟨i, List.mem_cons_self, hsame.trans hlen, hb⟩
      · exact Or.inr ⟨idx, List.mem_cons_of_mem _ hidx, hr⟩
    · intro idx hidx hb
      rcases List.mem_cons.mp hidx with rfl | hrest
      · exact (hbegins hb).trans hle'
      · exact hbegins' idx hrest hb

theorem cut_partialSuffixLen (d : Delimiters) (text : List Char) :
    Cut d.tokens (text.take (text.length - d.partialSuffixLen text))
      (text.drop (text.length - d.partialSuffixLen text)) := by
  have hfold := d.partialSuffixes_spec text (List.range' 1 (text.length - 1)) 0
  have hwhole := d.partialSuffix_spec ((List.range' 1 (text.length - 1)).foldl
    (fun best idx => d.partialSuffix best (text.drop idx)) 0) text
  change _ ∧ (d.partialSuffixLen text = _ ∨ d.partialSuffixLen text = _ ∧ _) ∧
    (_ → _ ≤ d.partialSuffixLen text) at hwhole
  change _ ≤ d.partialSuffixLen text ∧ _ at hwhole
  generalize (List.range' 1 (text.length - 1)).foldl
    (fun best idx => d.partialSuffix best (text.drop idx)) 0 = most at hfold hwhole
  generalize d.partialSuffixLen text = len at hwhole ⊢
  rcases hfold with ⟨-, hfrom, hall⟩
  rcases hwhole with ⟨hmost, hcase, hbegins⟩
  have hend : len = 0 ∨ ∃ idx, len = (text.drop idx).length ∧ d.Begins (text.drop idx) := by
    rcases hcase with hsame | ⟨hlen, hb⟩
    · rcases hfrom with hzero | ⟨idx, -, hlen, hb⟩
      · exact Or.inl (hsame.trans hzero)
      · exact Or.inr ⟨idx, hsame.trans hlen, hb⟩
    · exact Or.inr ⟨0, hlen, hb⟩
  have hle : len ≤ text.length := by
    rcases hend with hzero | ⟨idx, hlen, -⟩
    · omega
    · rw [hlen, List.length_drop]
      exact Nat.sub_le _ _
  have hheld : (text.drop (text.length - len)).length = len := by
    rw [List.length_drop]
    omega
  constructor
  · intro hne
    rcases hend with hzero | ⟨idx, hlen, tok, htok, hprefix, -⟩
    · rw [hzero, Nat.sub_zero, List.drop_length] at hne
      exact absurd rfl hne
    · use tok, htok
      have hpos := List.length_pos_iff.mpr hne
      rw [List.length_drop] at hlen
      have hidx : text.length - len = idx := by omega
      rwa [hidx]
  · intro s hs hb
    rw [List.take_append_drop] at hs
    rw [hheld]
    have hdrop := List.suffix_iff_eq_drop.mp hs
    rw [hdrop] at hb ⊢
    rcases Nat.eq_zero_or_pos (text.length - s.length) with hzero | hpos
    · rw [hzero] at hb ⊢
      exact hbegins hb
    · rcases Nat.lt_or_ge (text.length - s.length) text.length with hlt | hge
      · apply (hall _ _ hb).trans hmost
        rw [List.mem_range'_1]
        omega
      · rw [List.drop_of_length_le hge]
        exact Nat.zero_le _

end Delimiters

namespace DelimitedReasoningParser
variable {p : DelimitedReasoningParser} {parsed : List Char} {b : Bool}

/-- All the text of one kind in some deltas. -/
def collect (deltas : List ReasoningDelta) (b : Bool) : List Char := deltas.flatMap (·.text b)

/-- `parsed` has been parsed from section `b` on, and the rest of the text is held back. -/
structure Parsed (p : DelimitedReasoningParser) (b : Bool) (parsed : List Char) : Prop where
  current : p.currentInReasoning = (p.parseLoop b {} parsed).1
  clean : Clean p.tokens parsed p.buffer

theorem Parsed.continue (h : p.Parsed b parsed) {part rest : List Char}
    (hpart : part <+: p.buffer ++ rest) :
    (p.parseLoop b {} (parsed ++ part)).1 = (p.parseLoop p.currentInReasoning {} part).1 ∧
      ∀ c, (p.parseLoop b {} (parsed ++ part)).2.text c =
        (p.parseLoop b {} parsed).2.text c ++
          (p.parseLoop p.currentInReasoning {} part).2.text c := by
  rw [Delimiters.parseLoop_append fun tok htok => h.clean.not_straddles hpart htok, h.current]
  exact Delimiters.parseLoop_delta _ _ _ _

theorem Parsed.push (h : p.Parsed b parsed) (hapart : Apart p.tokens) (delta : List Char) :
    ∃ stable, (p.push delta).1.Parsed b (parsed ++ stable) ∧
      (p.push delta).1.toDelimiters = p.toDelimiters ∧
      parsed ++ stable ++ (p.push delta).1.buffer = parsed ++ p.buffer ++ delta ∧
      ∀ c, (p.parseLoop b {} (parsed ++ stable)).2.text c =
        (p.parseLoop b {} parsed).2.text c ++ (p.push delta).2.text c := by
  have hcut := p.cut_partialSuffixLen (p.buffer ++ delta)
  have hsplit := List.take_append_drop
    ((p.buffer ++ delta).length - p.partialSuffixLen (p.buffer ++ delta)) (p.buffer ++ delta)
  have hpart := List.take_prefix
    ((p.buffer ++ delta).length - p.partialSuffixLen (p.buffer ++ delta)) (p.buffer ++ delta)
  rcases h.continue hpart with ⟨hsection, htext⟩
  use (p.buffer ++ delta).take
    ((p.buffer ++ delta).length - p.partialSuffixLen (p.buffer ++ delta))
  constructor
  · constructor
    · exact hsection.symm
    · exact h.clean.step hapart hcut hsplit.symm
  constructor
  · rfl
  constructor
  · change _ ++ (p.buffer ++ delta).drop _ = _
    rw [List.append_assoc, hsplit, List.append_assoc]
  · exact htext

theorem stream_spec (h : p.Parsed b parsed) (hapart : Apart p.tokens) (deltas : List (List Char)) :
    (p.stream deltas).1.currentInReasoning =
        (p.parseLoop b {} (parsed ++ p.buffer ++ deltas.flatten)).1 ∧
      ∀ c, (p.parseLoop b {} parsed).2.text c ++ collect (p.stream deltas).2 c =
        (p.parseLoop b {} (parsed ++ p.buffer ++ deltas.flatten)).2.text c := by
  induction deltas generalizing p parsed with
  | nil =>
    have hpart : p.buffer <+: p.buffer ++ [] := List.prefix_append _ _
    rcases h.continue hpart with ⟨hsection, htext⟩
    rw [List.flatten_nil, List.append_nil]
    constructor
    · exact hsection.symm
    · intro c
      rw [htext c]
      simp [stream, collect, finish, parseStableText]
  | cons delta deltas ih =>
    rcases h.push hapart delta with ⟨stable, hparsed, hsame, hall, htext⟩
    rcases ih hparsed (hsame ▸ hapart) with ⟨hsection, hrest⟩
    rw [hsame, hall] at hsection hrest
    rw [List.flatten_cons, ← List.append_assoc]
    constructor
    · exact hsection
    · intro c
      rw [← hrest c, htext c]
      simp [stream, collect]

/-- The reasoning, the content and the final section do not depend on how the text is cut. -/
theorem stream_eq_whole (p : DelimitedReasoningParser)
    (hapart : Apart [p.startToken, p.endToken]) (deltas : List (List Char)) :
    (∀ c, collect (p.stream deltas).2 c = collect (p.stream [deltas.flatten]).2 c) ∧
      (p.stream deltas).1.currentInReasoning =
        (p.stream [deltas.flatten]).1.currentInReasoning := by
  have hstart : p.Parsed p.currentInReasoning [] := by
    constructor
    · rw [Delimiters.parseLoop_eq, if_pos rfl]
    · exact clean_nil _ _
  rcases stream_spec hstart hapart deltas with ⟨hsection, htext⟩
  rcases stream_spec hstart hapart [deltas.flatten] with ⟨hsection', htext'⟩
  rw [List.flatten_singleton] at hsection' htext'
  constructor
  · intro c
    exact List.append_cancel_left ((htext c).trans (htext' c).symm)
  · exact hsection.trans hsection'.symm

/-- A parser with the delimiters `<t>` and `</t>`. -/
def tagParser : DelimitedReasoningParser where
  startToken := ['<', 't', '>']
  endToken := ['<', '/', 't', '>']
  startToken_ne := by decide
  endToken_ne := by decide
  currentInReasoning := true

theorem stream_eq_whole_tag : Apart [tagParser.startToken, tagParser.endToken] ∧
    (tagParser.stream [['a', '<', '/'], ['t', '>', 'b']]).1.currentInReasoning =
      (tagParser.stream [['a', '<', '/', 't', '>', 'b']]).1.currentInReasoning :=
  ⟨by decide, (stream_eq_whole tagParser (by decide) [['a', '<', '/'], ['t', '>', 'b']]).2⟩

end DelimitedReasoningParser

end Vllm.Reasoning
