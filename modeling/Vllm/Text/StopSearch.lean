import Vllm.Text.Detokenizer

/-! The first token of a text that completes a stop string. The detokenizer cuts the text at the
first occurrence that it completes, the decoded text stream at the last one. The two front-ends on
the same token texts report the same stop string at the same token; their texts agree exactly when
the token completes only one occurrence of it. -/
namespace Vllm.Text
open Occurrences Utf8

section Search
open List Option

theorem findSome?_eq_bind_find? {α β : Type*} {f : α → Option β} {p : α → Bool} {l : List α}
    (h : ∀ a ∈ l, (f a).isSome = p a) : l.findSome? f = (l.find? p).bind f := by
  induction l with
  | nil => rfl
  | cons a l ih =>
    have hrest := ih fun b hb => h b (mem_cons_of_mem a hb)
    have ha := h a mem_cons_self
    rw [List.findSome?_cons, List.find?_cons]
    cases hfa : f a with
    | some b =>
      rw [hfa, isSome_some] at ha
      rw [← ha]
      exact hfa.symm
    | none =>
      rw [hfa, isSome_none] at ha
      rw [← ha]
      exact hrest

/-- Some occurrence of `ss` ends after the first `old` characters. -/
def Completed (text : List Char) (old : ℕ) (ss : List Char) : Prop := ∃ i, EndsAfter ss text old i

instance (ss text : List Char) (old i : ℕ) : Decidable (EndsAfter ss text old i) :=
  inferInstanceAs (Decidable (_ ∧ _))

theorem completed_iff {text ss : List Char} {old : ℕ} :
    (∃ i < text.length + old + 2, EndsAfter ss text old i) ↔ Completed text old ss := by
  refine ⟨fun ⟨i, _, hi⟩ => ⟨i, hi⟩, fun ⟨i, hi⟩ => ?_⟩
  by_cases hne : ss = []
  · subst hne
    exact ⟨old + 1, by omega, nil_prefix, by simp⟩
  · have hle := hi.le hne
    exact ⟨i, by omega, hi⟩

instance (text : List Char) (old : ℕ) (ss : List Char) : Decidable (Completed text old ss) :=
  decidable_of_iff _ completed_iff

/-- The stop string that is reported for a text whose characters from `old` on are new. -/
def reported (stops : List (List Char)) (text : List Char) (old : ℕ) :
    Option (List Char) := stops.find? fun ss => Completed text old ss

/-- Where to cut the text for an occurrence at `i`. -/
def cutAt (includeStop : Bool) (ss : List Char) (i : ℕ) : ℕ :=
  if includeStop then i + ss.length else i

variable {stops : List (List Char)} {text ss : List Char} {old i : ℕ}

theorem reported_mem (h : reported stops text old = some ss) :
    ss ∈ stops ∧ Completed text old ss := by
  have hfind := List.find?_some h
  exact ⟨mem_of_find?_eq_some h, by simpa using hfind⟩

theorem reported_self (hne : ∀ ss ∈ stops, ss ≠ []) : reported stops text text.length = none := by
  rw [reported, List.find?_eq_none]
  intro ss hss
  rw [decide_eq_true_eq]
  rintro ⟨i, hends⟩
  have hle := hends.le (hne ss hss)
  have hend := hends.2
  omega

theorem exists_first (h : Completed text old ss) :
    ∃ i, EndsAfter ss text old i ∧ ∀ j < i, ¬EndsAfter ss text old j := by
  exact ⟨Nat.find h, Nat.find_spec h, fun j hj => Nat.find_min h hj⟩

theorem exists_last (hne : ss ≠ []) (h : Completed text old ss) :
    ∃ i, EndsAfter ss text old i ∧ ∀ j, i < j → ¬EndsAfter ss text old j := by
  have hbound : ∀ i, EndsAfter ss text old i → i ≤ text.length := fun i hi => by
    have hle := hi.le hne
    omega
  obtain ⟨i, hi⟩ := h
  refine ⟨Nat.findGreatest (EndsAfter ss text old) text.length,
    Nat.findGreatest_spec (hbound i hi) hi, fun j hj hends => ?_⟩
  exact absurd (Nat.le_findGreatest (hbound j hends) hends) (by omega)

/-- The text up to the cut, as `update` truncates it. -/
def truncated (text : List Char) (truncateTo : ℤ) : List Char :=
  if truncateTo ≠ -1 then text.take truncateTo.toNat else text

theorem checkStopStrings_eq (hne : ∀ ss ∈ stops, ss ≠ []) (hold : old ≤ text.length)
    (includeStop : Bool) :
    match reported stops text old with
    | none => checkStopStrings text (text.length - old) stops includeStop = none
    | some ss => ∃ i truncateTo, (EndsAfter ss text old i ∧ ∀ j < i, ¬EndsAfter ss text old j) ∧
        checkStopStrings text (text.length - old) stops includeStop = some (ss, truncateTo) ∧
        truncated text truncateTo = text.take (cutAt includeStop ss i) := by
  obtain hnew | hnew := Nat.eq_zero_or_pos (text.length - old)
  · have hsame : old = text.length := by omega
    subst hsame
    rw [reported_self hne]
    exact if_pos (.inl (Nat.sub_self _))
  have hback : text.length - (text.length - old) = old := by omega
  have hsearch : ∀ ss ∈ stops, ∀ g : ℕ → List Char × ℤ,
      ((find text ss (1 - (text.length - old : ℕ) - ss.length)).map g).isSome =
        decide (Completed text old ss) := by
    intro ss hss g
    rw [isSome_map]
    cases hfind : find text ss (1 - (text.length - old : ℕ) - ss.length) with
    | none =>
      rw [find_eq_none (Nat.sub_le _ _) hnew (hne ss hss), hback] at hfind
      exact (decide_eq_false fun ⟨i, hi⟩ => hfind i hi).symm
    | some i =>
      rw [find_eq_some (Nat.sub_le _ _) hnew (hne ss hss), hback] at hfind
      exact (decide_eq_true ⟨i, hfind.1⟩).symm
  have hcheck : checkStopStrings text (text.length - old) stops includeStop =
      (reported stops text old).bind fun ss =>
        (find text ss (1 - (text.length - old : ℕ) - ss.length)).map fun stopIndex =>
          if includeStop then
            let stopIndex := stopIndex + ss.length
            if stopIndex ≥ text.length then (ss, -1) else (ss, (stopIndex : ℤ))
          else (ss, (stopIndex : ℤ)) := by
    unfold checkStopStrings
    by_cases hempty : text.length - old = 0 ∨ stops = []
    · rw [if_pos hempty]
      have hnil : stops = [] := hempty.resolve_left (by omega)
      subst hnil
      rfl
    · rw [if_neg hempty]
      refine findSome?_eq_bind_find? fun ss hss => ?_
      exact hsearch ss hss _
  cases hreported : reported stops text old with
  | none =>
    rw [hreported] at hcheck
    exact hcheck
  | some ss =>
    obtain ⟨hmem, hcompleted⟩ := reported_mem hreported
    obtain ⟨i, hfirst⟩ := exists_first hcompleted
    have hfind : find text ss (1 - (text.length - old : ℕ) - ss.length) = some i := by
      rw [find_eq_some (Nat.sub_le _ _) hnew (hne ss hmem), hback]
      exact hfirst
    have hle := hfirst.1.le (hne ss hmem)
    rw [hreported, bind_some, hfind, map_some] at hcheck
    cases includeStop with
    | false => exact ⟨i, _, hfirst, hcheck, by rw [truncated, if_pos (by simp)]; rfl⟩
    | true =>
      dsimp only at hcheck
      rw [if_pos rfl] at hcheck
      by_cases hend : i + ss.length ≥ text.length
      · rw [if_pos hend] at hcheck
        refine ⟨i, _, hfirst, hcheck, ?_⟩
        rw [truncated, if_neg (by simp), cutAt, if_pos rfl, take_of_length_le hend]
      · rw [if_neg hend] at hcheck
        refine ⟨i, _, hfirst, hcheck, ?_⟩
        rw [truncated, if_pos (by omega), cutAt, if_pos rfl]
        congr 1

theorem take_cutAt (h : OccursAt ss text i) : text.take (i + ss.length) = text.take i ++ ss := by
  rw [take_add, prefix_iff_eq_take.mp h |>.symm]

theorem endsAfter_bytes (hne : ss ≠ []) (hold : old ≤ text.length) (h : OccursAt ss text i) :
    size (text.take old) < size (text.take i) + size ss ↔ old < i + ss.length := by
  have hle := h.le hne
  have hsize : size (text.take i) + size ss = size (text.take (i + ss.length)) := by
    rw [take_cutAt h, size_append]
  have hiff := size_take_le_iff (s := text) hle hold
  rw [hsize]
  omega

theorem rposition_bytes (hne : ss ≠ []) (hold : old ≤ text.length) {b : ℕ} :
    (rposition (· = bytes ss) (windows (size ss)
      ((bytes text).drop (size (text.take old) + 1 - size ss)))).map
        (size (text.take old) + 1 - size ss + ·) = some b ↔
      ∃ i, (EndsAfter ss text old i ∧ ∀ j, i < j → ¬EndsAfter ss text old j) ∧
        b = size (text.take i) := by
  set start := size (text.take old) + 1 - size ss with hstart
  have hss := size_pos hne
  simp only [map_eq_some_iff, size, rposition_windows (bytes_ne_nil hne), occursAt_drop]
  constructor
  · rintro ⟨p, ⟨hoccurs, hafter⟩, rfl⟩
    obtain ⟨i, hi, hsize, hchars⟩ := occursAt_bytes hne hoccurs
    refine ⟨i, ⟨⟨hchars, (endsAfter_bytes hne hold hchars).mp (by omega)⟩, ?_⟩, hsize⟩
    intro j hj hends
    have hle := hends.le hne
    have hlt := size_take_lt (s := text) hj (by omega)
    refine hafter (size (text.take j) - start) (by omega) ?_
    rw [Nat.add_sub_cancel' (by omega)]
    exact occursAt_chars hends.1
  · rintro ⟨i, ⟨hends, hafter⟩, rfl⟩
    have hend := (endsAfter_bytes hne hold hends.1).mpr hends.2
    have hle := hends.le hne
    have hback : start + (size (text.take i) - start) = size (text.take i) := by omega
    refine ⟨size (text.take i) - start, ⟨?_, ?_⟩, hback⟩
    · rw [hback]
      exact occursAt_chars hends.1
    · intro j hj hoccurs
      obtain ⟨k, hk, hsize, hchars⟩ := occursAt_bytes hne hoccurs
      have hik : i < k := by
        by_contra hki
        have hmono := (size_take_le_iff (s := text) hk (by omega)).mpr (Nat.le_of_not_lt hki)
        omega
      refine hafter k hik ⟨hchars, (endsAfter_bytes hne hold hchars).mp ?_⟩
      omega

theorem matchesStopString_eq (hne : ∀ ss ∈ stops, ss ≠ []) (text new : List Char) :
    match reported stops (text ++ new) text.length with
    | none => matchesStopString stops (text ++ new) (size new) = none
    | some ss => ∃ i idx, (EndsAfter ss (text ++ new) text.length i ∧
          ∀ j, i < j → ¬EndsAfter ss (text ++ new) text.length j) ∧
        stops[idx]? = some ss ∧ matchesStopString stops (text ++ new) (size new) =
          some (idx, size ((text ++ new).take i)) := by
  set output := text ++ new with houtput
  have hold : text.length ≤ output.length := by
    rw [houtput, length_append]
    omega
  have hnext : (bytes output).length + 1 - size new = size (output.take text.length) + 1 := by
    change size output + 1 - size new = _
    rw [houtput, take_left, size_append]
    omega
  have hsearch : ∀ x ∈ stops.zipIdx,
      ((rposition (· = bytes x.1) (windows (size x.1) ((bytes output).drop
        (size (output.take text.length) + 1 - size x.1)))).map fun pos =>
          (x.2, size (output.take text.length) + 1 - size x.1 + pos)).isSome =
        decide (Completed output text.length x.1) := by
    rintro ⟨ss, idx⟩ hx
    have hss := hne ss (mem_of_getElem? (mem_zipIdx_iff_getElem?.mp hx))
    have hpos := fun b => rposition_bytes (b := b) hss hold
    rw [isSome_map, Bool.eq_iff_iff, decide_eq_true_eq, isSome_iff_exists]
    constructor
    · rintro ⟨p, hp⟩
      obtain ⟨i, ⟨hends, -⟩, -⟩ := (hpos _).mp (congrArg (Option.map _) hp)
      exact ⟨i, hends⟩
    · intro hcompleted
      obtain ⟨i, hlast⟩ := exists_last hss hcompleted
      obtain ⟨p, hp, -⟩ := map_eq_some_iff.mp ((hpos _).mpr ⟨i, hlast, rfl⟩)
      exact ⟨p, hp⟩
  have hmatch : matchesStopString stops output (size new) =
      (stops.zipIdx.find? fun x => decide (Completed output text.length x.1)).bind fun x =>
        (rposition (· = bytes x.1) (windows (size x.1) ((bytes output).drop
          (size (output.take text.length) + 1 - size x.1)))).map fun pos =>
            (x.2, size (output.take text.length) + 1 - size x.1 + pos) := by
    unfold matchesStopString
    simp only [hnext]
    exact findSome?_eq_bind_find? hsearch
  have hreported : reported stops output text.length =
      (stops.zipIdx.find? fun x => decide (Completed output text.length x.1)).map Prod.fst := by
    have hfind := List.find?_map (p := fun ss => decide (Completed output text.length ss))
      (f := Prod.fst) (l := stops.zipIdx)
    rw [zipIdx_map_fst] at hfind
    exact hfind
  rw [hreported, hmatch]
  cases hfound : stops.zipIdx.find? fun x => decide (Completed output text.length x.1) with
  | none => rfl
  | some x =>
    obtain ⟨ss, idx⟩ := x
    have hget := mem_zipIdx_iff_getElem?.mp (mem_of_find?_eq_some hfound)
    have hss := hne ss (mem_of_getElem? hget)
    have hcompleted : Completed output text.length ss := by
      have hx := List.find?_some hfound
      simpa using hx
    obtain ⟨i, hlast⟩ := exists_last hss hcompleted
    obtain ⟨p, hp, hsize⟩ := map_eq_some_iff.mp ((rposition_bytes hss hold).mpr ⟨i, hlast, rfl⟩)
    refine ⟨i, idx, hlast, hget, ?_⟩
    rw [bind_some, hp, map_some, hsize]

end Search

open BaseIncrementalDetokenizer

/-- A stop string that a token completes: the text with the token, and the length before it. -/
structure Stopped where
  ss : List Char
  text : List Char
  old : ℕ
  deriving DecidableEq, Repr

/-- The first stop of the tokens that follow `count` tokens and the text `text`. -/
def firstStop (stops : List (List Char)) (minTokens : ℕ) :
    ℕ → List Char → List Token → Option Stopped
  | _, _, [] => none
  | count, text, token :: rest =>
    match if count + 1 > minTokens then reported stops (text ++ token.text) text.length
      else none with
    | some ss => some ⟨ss, text ++ token.text, text.length⟩
    | none => firstStop stops minTokens (count + 1) (text ++ token.text) rest

def texts (tokens : List Token) : List Char := tokens.flatMap Token.text

/-- The stop string is completed in one place only. -/
def Stopped.Unique (found : Stopped) : Prop :=
  ∀ i j, EndsAfter found.ss found.text found.old i → EndsAfter found.ss found.text found.old j →
    i = j

variable {stops : List (List Char)} {minTokens count : ℕ} {text : List Char}
  {tokens rest : List Token}
  {token : Token} {found : Stopped}

theorem firstStop_append : firstStop stops minTokens count text (tokens ++ rest) =
    match firstStop stops minTokens count text tokens with
    | some found => some found
    | none => firstStop stops minTokens (count + tokens.length) (text ++ texts tokens) rest := by
  induction tokens generalizing count text with
  | nil => simp [firstStop, texts]
  | cons token tokens ih =>
    simp only [List.cons_append, firstStop]
    split
    · rfl
    · have hcount : count + 1 + tokens.length = count + (tokens.length + 1) := by omega
      rw [ih]
      simp only [List.length_cons, texts, List.flatMap_cons, List.append_assoc, hcount]

theorem firstStop_spec (h : firstStop stops minTokens count text tokens = some found) :
    found.ss ∈ stops ∧ found.old ≤ found.text.length ∧
      Completed found.text found.old found.ss := by
  induction tokens generalizing count text with
  | nil => cases h
  | cons token tokens ih =>
    rw [firstStop] at h
    split at h
    · next ss hss =>
      cases h
      split at hss
      · obtain ⟨hmem, hcompleted⟩ := reported_mem hss
        refine ⟨hmem, ?_, hcompleted⟩
        dsimp only
        rw [List.length_append]
        omega
      · cases hss
    · exact ih h

/-- Calls of `update` with one token each, up to the first reported stop. -/
def feed (d : BaseIncrementalDetokenizer) :
    List (Token × Bool) → BaseIncrementalDetokenizer × Option (List Char)
  | [] => (d, none)
  | (token, stopTerminated) :: rest =>
    match d.update [token] stopTerminated with
    | (d, some stop) => (d, some stop)
    | (d, none) => feed d rest

section
variable (d : BaseIncrementalDetokenizer)
include d

theorem evaluateStop_eq (old : ℕ) (hold : old ≤ d.outputText.length) :
    match if d.tokenIds.length > d.params.minTokens then
      reported d.params.stop d.outputText old else none with
    | none => d.evaluateStop old = (d, none)
    | some ss => ∃ i, (EndsAfter ss d.outputText old i ∧
          ∀ j < i, ¬EndsAfter ss d.outputText old j) ∧
        d.evaluateStop old = ({ d with
          outputText := d.outputText.take (cutAt d.params.includeStopStrInOutput ss i) },
          some ss) := by
  have hcheck := checkStopStrings_eq d.params.nonempty hold d.params.includeStopStrInOutput
  by_cases hmin : d.tokenIds.length > d.params.minTokens
  · rw [if_pos hmin]
    cases hreported : reported d.params.stop d.outputText old with
    | none =>
      rw [hreported] at hcheck
      unfold evaluateStop
      dsimp only at hcheck ⊢
      split
      · rw [hcheck]
      · rfl
    | some ss =>
      rw [hreported] at hcheck
      obtain ⟨i, truncateTo, hfirst, hcheck, htext⟩ := hcheck
      have hne : d.params.stop ≠ [] := List.ne_nil_of_mem (reported_mem hreported).1
      refine ⟨i, hfirst, ?_⟩
      unfold evaluateStop
      rw [if_pos ⟨hne, hmin⟩, hcheck, ← htext, truncated]
      dsimp only
      split
      · rfl
      · rfl
  · rw [if_neg hmin]
    exact if_neg fun h => hmin h.2

theorem update_singleton (token : Token) :
    match if d.tokenIds.length + 1 > d.params.minTokens then
      reported d.params.stop (d.outputText ++ token.text) d.outputText.length else none with
    | none => d.update [token] false = ({ d with
        tokenIds := d.tokenIds ++ [token.id], outputText := d.outputText ++ token.text }, none)
    | some ss => ∃ i, (EndsAfter ss (d.outputText ++ token.text) d.outputText.length i ∧
          ∀ j < i, ¬EndsAfter ss (d.outputText ++ token.text) d.outputText.length j) ∧
        d.update [token] false = ({ d with
          tokenIds := d.tokenIds ++ [token.id]
          outputText := (d.outputText ++ token.text).take
            (cutAt d.params.includeStopStrInOutput ss i) }, some ss) := by
  set d' : BaseIncrementalDetokenizer := { d with
    tokenIds := d.tokenIds ++ [token.id], outputText := d.outputText ++ token.text } with hd'
  have hlen : d'.tokenIds.length = d.tokenIds.length + 1 := by simp [hd']
  have hupdate : d.update [token] false = d'.evaluateStop
      (if d.params.minTokens ≠ 0 ∧ d'.numOutputTokens ≤ d.params.minTokens then
        d'.outputText.length else d.outputText.length) := rfl
  rw [hupdate]
  by_cases hmin : d.tokenIds.length + 1 > d.params.minTokens
  · have hoffset : (if d.params.minTokens ≠ 0 ∧ d'.numOutputTokens ≤ d.params.minTokens then
        d'.outputText.length else d.outputText.length) = d.outputText.length := by
      refine if_neg fun h => ?_
      have hnum : d'.tokenIds.length ≤ d.params.minTokens := h.2
      omega
    have hstop := evaluateStop_eq d' d.outputText.length (by simp [hd'])
    rw [hlen] at hstop
    rw [hoffset]
    exact hstop
  · rw [if_neg hmin]
    refine if_neg fun h => hmin ?_
    have hnum : d'.tokenIds.length > d.params.minTokens := h.2
    omega

theorem update_stop_token (token : Token) (hinclude : d.params.includeStopStrInOutput = false) :
    d.update [token] true = ({ d with tokenIds := d.tokenIds ++ [token.id] }, none) := by
  set d' : BaseIncrementalDetokenizer := { d with tokenIds := d.tokenIds ++ [token.id] } with hd'
  have hupdate : d.update [token] true = d'.evaluateStop d.outputText.length := by
    unfold update
    rw [if_neg (List.cons_ne_nil _ _), hinclude]
    rfl
  have hstop := evaluateStop_eq d' d.outputText.length le_rfl
  have hself : reported d'.params.stop d'.outputText d.outputText.length = none :=
    reported_self d.params.nonempty
  rw [hself, ite_self] at hstop
  rw [hupdate]
  exact hstop

end

/-- The text that calls of `update` end with, and the stop string they report. -/
def FeedResult (includeStop : Bool) (text : List Char) :
    Option Stopped → List Char × Option (List Char) → Prop
  | none, result => result = (text, none)
  | some found, result => ∃ i, (EndsAfter found.ss found.text found.old i ∧
      ∀ j < i, ¬EndsAfter found.ss found.text found.old j) ∧
      result = (found.text.take (cutAt includeStop found.ss i), some found.ss)

theorem feed_spec (d : BaseIncrementalDetokenizer) (tokens : List Token)
    (tail : List (Token × Bool))
    (htail : ∀ d' : BaseIncrementalDetokenizer, d'.params = d.params →
      (feed d' tail).1.outputText = d'.outputText ∧ (feed d' tail).2 = none) :
    FeedResult d.params.includeStopStrInOutput (d.outputText ++ texts tokens)
      (firstStop d.params.stop d.params.minTokens d.tokenIds.length d.outputText tokens)
      ((feed d (tokens.map (·, false) ++ tail)).1.outputText,
        (feed d (tokens.map (·, false) ++ tail)).2) := by
  induction tokens generalizing d with
  | nil =>
    obtain ⟨htext, hstop⟩ := htail d rfl
    simp [firstStop, texts, FeedResult, htext, hstop]
  | cons token tokens ih =>
    have hstep := update_singleton d token
    rw [firstStop]
    rw [List.map_cons, List.cons_append, feed]
    cases hreported : (if d.tokenIds.length + 1 > d.params.minTokens then
        reported d.params.stop (d.outputText ++ token.text) d.outputText.length else none) with
    | some ss =>
      rw [hreported] at hstep
      obtain ⟨i, hfirst, hupdate⟩ := hstep
      rw [hupdate]
      exact ⟨i, hfirst, rfl⟩
    | none =>
      rw [hreported] at hstep
      dsimp only at hstep ⊢
      rw [hstep]
      have hrest := ih { d with
        tokenIds := d.tokenIds ++ [token.id], outputText := d.outputText ++ token.text } htail
      simp only [List.length_append, List.length_singleton, List.append_assoc] at hrest
      simpa [texts] using hrest

end Vllm.Text
