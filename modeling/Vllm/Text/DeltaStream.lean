import Vllm.Text.DeltaOutputs
import Vllm.Text.GroupedStops

/-! What the consumer of a delta stream receives, whenever it comes: all tokens and all of the text.
A last output that sends no tokens repeats logprobs. -/
namespace Vllm.Text
open Occurrences BaseIncrementalDetokenizer List

section Detokenizer
variable (d : BaseIncrementalDetokenizer)

theorem le_foldl_max {l : List ℕ} {a n : ℕ} (h : n ∈ l ∨ n ≤ a) : n ≤ l.foldl max a := by
  induction l generalizing a with
  | nil => simpa using h
  | cons b l ih =>
    rw [foldl_cons]
    refine ih ?_
    obtain hmem | hle := h
    · obtain rfl | hmem := mem_cons.mp hmem
      · exact .inr (le_max_right _ _)
      · exact .inl hmem
    · exact .inr (le_max_of_le_left hle)

theorem length_le_stopBufferLength {ss : List Char} (hss : ss ∈ d.params.stop)
    (hinclude : d.params.includeStopStrInOutput = false) : ss.length - 1 ≤ d.stopBufferLength := by
  have hmax : ss.length ≤ (d.params.stop.map List.length).foldl max 0 :=
    le_foldl_max (.inl (mem_map_of_mem hss))
  unfold stopBufferLength
  rw [if_pos ⟨ne_nil_of_mem hss, by rw [hinclude]; rfl⟩]
  omega

theorem evaluateStop_spec (old n : ℕ) (hn : n ≤ old) (hold : old ≤ d.outputText.length) :
    ∃ m, (d.evaluateStop old).1 = { d with outputText := d.outputText.take m } ∧
      n - d.stopBufferLength ≤ m ∧ ((d.evaluateStop old).2 = none → d.outputText.length ≤ m) := by
  have hstop := evaluateStop_eq d old hold
  cases hreported : (if d.tokenIds.length > d.params.minTokens then
      reported d.params.stop d.outputText old else none) with
  | none =>
    rw [hreported] at hstop
    dsimp only at hstop
    refine ⟨d.outputText.length, ?_, by omega, fun _ => le_rfl⟩
    rw [hstop, take_length]
  | some ss =>
    rw [hreported] at hstop
    obtain ⟨i, ⟨hends, -⟩, hstop⟩ := hstop
    have hss : ss ∈ d.params.stop := by
      split at hreported
      · exact (reported_mem hreported).1
      · cases hreported
    rw [hstop]
    refine ⟨_, rfl, ?_, nofun⟩
    have hend := hends.2
    unfold cutAt
    cases hinclude : d.params.includeStopStrInOutput with
    | true =>
      rw [if_pos rfl]
      omega
    | false =>
      have hle := length_le_stopBufferLength d hss hinclude
      rw [if_neg (by simp)]
      omega

/-- New tokens leave the text alone that was not held back. -/
theorem update_keeps (tokens : List Token) (stopTerminated : Bool) : ∃ text,
    (d.update tokens stopTerminated).1 = { d with
      tokenIds := d.tokenIds ++ tokens.map Token.id
      outputText := text } ∧
    d.outputText.take (d.outputText.length - d.stopBufferLength) <+: text ∧
    ((d.update tokens stopTerminated).2 = none → d.outputText <+: text) := by
  by_cases hnil : tokens = []
  · subst hnil
    refine ⟨d.outputText, ?_, take_prefix _ _, fun _ => prefix_rfl⟩
    simp [update]
  rw [d.update_effective (tokens, stopTerminated)]
  have hids := map_id_effective d.params.includeStopStrInOutput (tokens, stopTerminated)
  generalize effective d.params.includeStopStrInOutput (tokens, stopTerminated) = call at hids ⊢
  have hne : call ≠ [] := by
    rintro rfl
    exact hnil (map_eq_nil_iff.mp hids.symm)
  rw [update_eq d hne, ← hids]
  obtain ⟨m, hstop, hm, hnone⟩ := evaluateStop_spec (d.decoded call) _ d.outputText.length
    (length_le_checkFrom ..) (checkFrom_le ..)
  rw [hstop]
  refine ⟨(d.decoded call).outputText.take m, rfl, ?_, fun h => ?_⟩
  · have htake : d.outputText.take (d.outputText.length - d.stopBufferLength) =
        (d.decoded call).outputText.take (d.outputText.length - d.stopBufferLength) := by
      rw [decoded, take_append_of_le_length (Nat.sub_le _ _)]
    rw [htake]
    exact take_prefix_take_left hm
  · rw [take_of_length_le (hnone h)]
    exact prefix_append _ _

end Detokenizer

namespace IncrementalDetokenizer

/-- The text that has been sent. -/
def sentText : IncrementalDetokenizer → List Char
  | plain _ => []
  | base d => d.outputText.take d.lastOutputTextOffset

/-- What was sent is part of the text, and none of it is held back. -/
def Held : IncrementalDetokenizer → Prop
  | plain _ => True
  | base d => d.lastOutputTextOffset ≤ d.outputText.length - d.stopBufferLength

def Sendable : IncrementalDetokenizer → Prop
  | plain _ => True
  | base d => d.lastOutputTextOffset ≤ d.outputText.length

variable {d : IncrementalDetokenizer}

theorem Held.sendable (h : d.Held) : d.Sendable := by
  cases d with
  | plain _ => trivial
  | base d => exact le_trans h (Nat.sub_le _ _)

theorem update_tokens (tokens : List Token) (stopTerminated : Bool) :
    (d.update tokens stopTerminated).1.outputTokenIds =
      d.outputTokenIds ++ tokens.map Token.id := by
  cases d with
  | plain _ => rfl
  | base d =>
    rcases update_keeps d tokens stopTerminated with ⟨text, hupdate, -, -⟩
    have htokens := congrArg tokenIds hupdate
    exact htokens

theorem update_text (h : d.Held) (tokens : List Token) (stopTerminated : Bool) :
    (d.update tokens stopTerminated).1.sentText = d.sentText ∧
      (d.update tokens stopTerminated).1.Sendable ∧
      ((d.update tokens stopTerminated).2 = none →
        (d.update tokens stopTerminated).1.Held) := by
  cases d with
  | plain _ => exact ⟨rfl, trivial, fun _ => trivial⟩
  | base d =>
    rcases update_keeps d tokens stopTerminated with ⟨text, hupdate, hkept, hnone⟩
    have hsent : d.outputText.take d.lastOutputTextOffset <+: text :=
      (take_prefix_take_left h).trans hkept
    have hheld : d.lastOutputTextOffset ≤ d.outputText.length := le_trans h (Nat.sub_le _ _)
    have hlength : d.lastOutputTextOffset ≤ text.length := by
      have hle := hsent.length_le
      rw [length_take] at hle
      omega
    change ((d.update tokens stopTerminated).1.outputText.take
        (d.update tokens stopTerminated).1.lastOutputTextOffset = _) ∧
      (d.update tokens stopTerminated).1.lastOutputTextOffset ≤
        (d.update tokens stopTerminated).1.outputText.length ∧
      ((d.update tokens stopTerminated).2 = none →
        (d.update tokens stopTerminated).1.lastOutputTextOffset ≤
          (d.update tokens stopTerminated).1.outputText.length -
            (d.update tokens stopTerminated).1.stopBufferLength)
    rw [hupdate]
    refine ⟨?_, hlength, fun hstop => ?_⟩
    · have htake := prefix_iff_eq_take.mp hsent
      rw [length_take, min_eq_left hheld] at htake
      exact htake.symm
    · have hgrows := (hnone hstop).length_le
      have hold : d.lastOutputTextOffset ≤ d.outputText.length - d.stopBufferLength := h
      exact le_trans hold (Nat.sub_le_sub_right hgrows _)

theorem getNextOutputText_spec (finished : Bool) (hheld : finished = false → d.Held)
    (hsend : d.Sendable) :
    (d.getNextOutputText finished true).1.outputTokenIds = d.outputTokenIds ∧
      (d.getNextOutputText finished true).1.outputText = d.outputText ∧
      d.sentText ++ (d.getNextOutputText finished true).2 =
        (d.getNextOutputText finished true).1.sentText ∧
      (finished = false → (d.getNextOutputText finished true).1.Held) ∧
      (finished = true → (d.getNextOutputText finished true).1.sentText = d.outputText) := by
  cases d with
  | plain _ => exact ⟨rfl, rfl, rfl, fun _ => trivial, fun _ => rfl⟩
  | base d =>
    set length := d.outputText.length - (if finished then 0 else d.stopBufferLength) with hlength
    have hle : d.lastOutputTextOffset ≤ length := by
      cases finished with
      | true => exact hsend
      | false => exact hheld rfl
    have hnext : d.getNextOutputText finished true = ({ d with lastOutputTextOffset := length },
        (d.outputText.take length).drop d.lastOutputTextOffset) := by
      unfold BaseIncrementalDetokenizer.getNextOutputText
      dsimp only
      rw [if_neg (by simp), ← hlength]
      split
      · rfl
      · next hge =>
        have hsame : d.lastOutputTextOffset = length := by omega
        rw [← hsame, drop_eq_nil_of_le (by simp)]
    rw [getNextOutputText, hnext]
    refine ⟨rfl, rfl, ?_, ?_, ?_⟩
    · have htake : d.outputText.take d.lastOutputTextOffset =
          (d.outputText.take length).take d.lastOutputTextOffset := by
        rw [take_take, min_eq_left hle]
      change d.outputText.take d.lastOutputTextOffset ++ _ = d.outputText.take length
      rw [htake]
      exact take_append_drop _ _
    · rintro rfl
      exact le_rfl
    · rintro rfl
      exact take_length

end IncrementalDetokenizer

end Vllm.Text
