import Vllm.Text.GroupedStops
import Vllm.Text.DeltaStream

/-! Text that was streamed stays: what `get_next_output_text` returned is always the beginning of
the output text, because no stop string can begin before the characters that are held back. -/
namespace Vllm.Text
open Occurrences BaseIncrementalDetokenizer

/-- The calls of a request while it is generated. -/
inductive StreamCall where
  | update (tokens : List Token) (stopTerminated : Bool)
  | getNextOutputText
  deriving DecidableEq, Repr

/-- The texts that are returned, with a last call at the end of the request. No tokens come after a
reported stop. -/
def streamText : BaseIncrementalDetokenizer → Bool → List StreamCall →
    BaseIncrementalDetokenizer × List Char
  | d, _, [] => d.getNextOutputText true true
  | d, true, .update _ _ :: calls => streamText d true calls
  | d, false, .update tokens stopTerminated :: calls =>
    let (d, stop) := d.update tokens stopTerminated
    streamText d stop.isSome calls
  | d, stopped, .getNextOutputText :: calls =>
    let (d, text) := d.getNextOutputText false true
    let later := streamText d stopped calls
    (later.1, text ++ later.2)

/-- What was returned so far is the text up to the offset, and before a stop the last characters are
held back. -/
structure Streamed (d : BaseIncrementalDetokenizer) (stopped : Bool) (e : List Char) : Prop where
  emitted : e = d.outputText.take d.lastOutputTextOffset
  within : d.lastOutputTextOffset ≤ d.outputText.length
  held : stopped = false →
    d.lastOutputTextOffset = 0 ∨ d.lastOutputTextOffset + d.stopBufferLength ≤ d.outputText.length

variable {d : BaseIncrementalDetokenizer} {stopped : Bool} {e : List Char}

theorem Streamed.le_cut (h : Streamed d false e) {ss text : List Char} {old i : ℕ}
    (hss : ss ∈ d.params.stop) (hold : d.outputText.length ≤ old) (hi : EndsAfter ss text old i) :
    d.lastOutputTextOffset ≤ cutAt d.params.includeStopStrInOutput ss i := by
  have hend := hi.2
  have hwithin := h.within
  cases hinclude : d.params.includeStopStrInOutput with
  | true =>
    unfold cutAt
    rw [if_pos rfl]
    omega
  | false =>
    have hbuffer := length_le_stopBufferLength d hss hinclude
    unfold cutAt
    rw [if_neg (by simp)]
    rcases h.held rfl with hzero | hheld
    · omega
    · omega

theorem Streamed.update (h : Streamed d false e) (tokens : List Token) (stopTerminated : Bool) :
    Streamed (d.update tokens stopTerminated).1 (d.update tokens stopTerminated).2.isSome e := by
  rw [d.update_effective (tokens, stopTerminated)]
  generalize effective d.params.includeStopStrInOutput (tokens, stopTerminated) = tokens
  have hspec := d.update_spec tokens
  have hwithin := h.within
  have htake : ∀ n, d.lastOutputTextOffset ≤ n →
      e = ((d.outputText ++ texts tokens).take n).take d.lastOutputTextOffset := by
    intro n hn
    rw [List.take_take, min_eq_left hn, List.take_append_of_le_length hwithin]
    exact h.emitted
  cases hfirst :
    firstStop d.params.stop d.params.minTokens d.tokenIds.length d.outputText tokens with
  | none =>
    rw [hfirst] at hspec
    rw [hspec]
    have hgrow : d.outputText.length ≤ (d.outputText ++ texts tokens).length :=
      List.IsPrefix.length_le (List.prefix_append _ _)
    constructor
    · have := htake _ (hwithin.trans hgrow)
      rwa [List.take_length] at this
    · exact hwithin.trans hgrow
    · intro _
      rcases h.held rfl with hzero | hheld
      · exact Or.inl hzero
      · exact Or.inr (hheld.trans hgrow)
  | some found =>
    rw [hfirst] at hspec
    rcases hspec with ⟨ss, i, hreported, hi, -, hspec⟩
    rw [hspec]
    have hss := (reported_mem hreported).1
    have hcut := h.le_cut hss (length_le_checkFrom _ _ _ _) hi
    constructor
    · exact htake _ hcut
    · change d.lastOutputTextOffset ≤ (List.take _ (d.outputText ++ texts tokens)).length
      rw [List.length_take, List.length_append]
      omega
    · intro hstopped
      cases hstopped

section
variable (h : Streamed d stopped e)
include h

theorem Streamed.next (finished : Bool) :
    Streamed (d.getNextOutputText finished true).1 (stopped || finished)
      (e ++ (d.getNextOutputText finished true).2) := by
  have hwithin := h.within
  have hemitted := h.emitted
  unfold getNextOutputText
  simp only [Bool.not_true, Bool.false_eq_true, if_false]
  by_cases hmore : d.lastOutputTextOffset <
      d.outputText.length - (if finished = true then 0 else d.stopBufferLength)
  · rw [if_pos hmore]
    constructor
    · dsimp only
      rw [hemitted]
      have hsplit := List.take_append_drop d.lastOutputTextOffset
        (d.outputText.take (d.outputText.length - (if finished = true then 0
          else d.stopBufferLength)))
      rw [List.take_take, min_eq_left hmore.le] at hsplit
      exact hsplit
    · exact Nat.sub_le _ _
    · intro hneither
      rw [Bool.or_eq_false_iff] at hneither
      right
      change _ + d.stopBufferLength ≤ _
      dsimp only
      rw [hneither.2] at hmore ⊢
      simp only [Bool.false_eq_true, if_false] at hmore ⊢
      omega
  · rw [if_neg hmore, List.append_nil]
    constructor
    · exact hemitted
    · exact hwithin
    · intro hneither
      rw [Bool.or_eq_false_iff] at hneither
      exact h.held hneither.1

theorem Streamed.finish :
    e ++ (d.getNextOutputText true true).2 = (d.getNextOutputText true true).1.outputText := by
  have hwithin := h.within
  have hlast := h.next true
  have hoffset : (d.getNextOutputText true true).1.lastOutputTextOffset =
      (d.getNextOutputText true true).1.outputText.length := by
    unfold getNextOutputText
    simp only [Bool.not_true, Bool.false_eq_true, if_false, if_true, Nat.sub_zero]
    split
    · rfl
    · dsimp only
      omega
  rw [hlast.emitted, hoffset, List.take_length]

theorem streamText_spec (calls : List StreamCall) :
    e ++ (streamText d stopped calls).2 = (streamText d stopped calls).1.outputText := by
  induction calls generalizing d stopped e with
  | nil => exact h.finish
  | cons call calls ih =>
    cases call with
    | update tokens stopTerminated =>
      cases stopped with
      | true => exact ih h
      | false => exact ih (h.update tokens stopTerminated)
    | getNextOutputText =>
      have hnext := h.next false
      rw [Bool.or_false] at hnext
      have hrest := ih hnext
      rw [List.append_assoc] at hrest
      exact hrest

end

/-- The returned texts together are the final output text. -/
theorem streamText_eq_outputText (params : StopParams) (calls : List StreamCall) :
    (streamText { params := params } false calls).2 =
      (streamText { params := params } false calls).1.outputText :=
  have hstart : Streamed { params := params } false [] := ⟨rfl, Nat.zero_le _, fun _ => Or.inl rfl⟩
  streamText_spec hstart calls

end Vllm.Text
