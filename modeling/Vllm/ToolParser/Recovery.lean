import Vllm.ToolParser.Gemma4
import Vllm.ToolParser.QwenCoder

/-! What is left of the text when a call is malformed: the text emitted so far and the text that a
reset returns, beside the text fed without the calls that were emitted. -/
namespace Vllm.ToolParser
open Winnow Parsed History

namespace QwenCoder
open Qwen3CoderToolParser
variable {w : Winnow} {arguments : List Char → List (List Char × List Char) → List Char}
  {p : Qwen3CoderToolParser} {out : ToolParserOutput} {h : History}

/-- The raw text of the open call that the mode stands for. -/
def QwenCoderMode.consumed : QwenCoderMode → List Char
  | .text => []
  | .toolCall => toolCallStart

/-- All text outside of calls is emitted, and of an open call the start marker is gone. -/
structure Told (p : Qwen3CoderToolParser) (out : ToolParserOutput) (h : History) : Prop where
  kept : out.normalText = h.kept
  pending : h.pending = p.mode.consumed

theorem exists_of_toolCallEvent {s rest : List Char} {event : QwenCoderEvent}
    (hevent : toolCallEvent w s = .ok event rest) :
    ∃ name rawParams, event = .toolCall name rawParams := by
  rcases andThen_eq_ok.mp hevent with ⟨body, s', -, hbody⟩
  rcases andThen_eq_ok.mp hbody with ⟨event', s'', hdelimited, heq⟩
  cases heq
  rcases andThen_eq_ok.mp hdelimited with ⟨-, s₁, -, hterminated⟩
  rcases andThen_eq_ok.mp hterminated with ⟨event', s₂, hfunction, hmap⟩
  rcases Parsed.map_eq_ok.mp hmap with ⟨-, -, rfl⟩
  rcases andThen_eq_ok.mp hfunction with ⟨name, s₃, -, hparams⟩
  rcases Parsed.map_eq_ok.mp hparams with ⟨rawParams, -, rfl⟩
  exact ⟨name, rawParams, rfl⟩

theorem next_eq : (events w arguments).next p =
    parseBufferedEvent p.buffer (parseNextQwenCoderEvent w p.mode p.buffer) := rfl

theorem Told.turn {event : QwenCoderEvent} {len : ℕ} (hinv : Told p out h)
    (hnext : (events w arguments).next p = .ok (some (event, len))) :
    Told ((events w arguments).drain len (applyEvent arguments p event out).parser)
      (applyEvent arguments p event out).output (h.take (pieceKind event, p.buffer.take len)) := by
  rcases hinv with ⟨hkept, hpending⟩
  rw [next_eq] at hnext
  cases hmode : p.mode with
  | text =>
    rw [hmode] at hnext hpending
    rcases EventParser.startOrText_next hnext with ⟨rfl, htake⟩ | rfl
    · constructor
      · exact hkept
      · rw [htake]
        simp [take, pieceKind, hpending, QwenCoderMode.consumed, applyEvent, events]
    · constructor
      · simp [applyEvent, take, pieceKind, hkept, hpending, QwenCoderMode.consumed]
      · simp [take, pieceKind, applyEvent, events, hmode, QwenCoderMode.consumed]
  | toolCall =>
    rcases EventParser.parseBufferedEvent_eq_some hnext with ⟨rest, hparsed, -⟩
    rw [hmode] at hparsed
    rcases exists_of_toolCallEvent hparsed with ⟨name, rawParams, rfl⟩
    exact ⟨hkept, rfl⟩

variable {call : Call Qwen3CoderToolParser}

theorem mode_of_failure (hends : (events w arguments).Ends (p, out) call)
    (hfailed : call.ok = false) :
    p.mode = .toolCall ∧ call.parser = p ∧ call.output = out := by
  cases hends with
  | wait hnext => cases hfailed
  | parseFailed hnext =>
    cases hmode : p.mode with
    | text =>
      rw [next_eq, hmode] at hnext
      exact absurd hnext (EventParser.startOrText_not_error _)
    | toolCall => exact ⟨rfl, rfl, rfl⟩
  | applyFailed hnext hok =>
    rename_i event len
    cases event <;> cases hok

theorem told_of_failure {chunks : List (List Char)}
    (hfail : (events w arguments).FirstFailure {} {} chunks call) :
    (events w arguments).textWithoutCalls pieceKind {} {} chunks call =
      call.output.normalText ++ toolCallStart ++ (reset call.parser).2 := by
  rcases hfail.exists_calls with ⟨calls, hfeed, hcalls⟩
  have hstart : Told {} {} {} := ⟨rfl, rfl⟩
  rcases @EventParser.feed_keeps _ _ (events w arguments) pieceKind Told
    (fun hinv hnext _ => hinv.turn hnext) (fun _ hinv => ⟨hinv.kept, hinv.pending⟩)
    (fun hinv _ => hinv) _ _ _ hstart _ _ _ hfeed hcalls with
    ⟨q, out', hinv, hends⟩
  rcases mode_of_failure hends hfail.failed with ⟨hmode, hparser, hout⟩
  have hpending := hinv.pending
  rw [hmode, QwenCoderMode.consumed] at hpending
  rw [EventParser.textWithoutCalls, EventParser.history, hpending, ← hinv.kept, hparser, hout]
  rfl

end QwenCoder

namespace Gemma4
open Gemma4ToolParser
variable {w : Winnow} {parseF64 : List Char → Option UInt64} {serialize : Map → List Char}
  {p : Gemma4ToolParser} {out : ToolParserOutput} {h : History}

/-- The text of a header with the name as it stands there. -/
def rawHeader (rawName : List Char) : List Char :=
  toolCallStart ++ callPrefix ++ rawName ++ ['{']

/-- The raw text of the open call and what the mode knows of it. -/
def Pending : Gemma4Mode → List Char → Prop
  | .text, pending => pending = []
  | .header, pending => pending = toolCallStart
  | .toolCall name _, pending => ∃ rawName, trim rawName = name ∧ pending = rawHeader rawName

structure Told (p : Gemma4ToolParser) (out : ToolParserOutput) (h : History) : Prop where
  kept : out.normalText = h.kept
  pending : Pending p.mode h.pending

theorem next_eq : (events w parseF64 serialize).next p =
    parseBufferedEvent p.buffer (parseNextGemma4Event w parseF64 p.mode p.buffer).2 := rfl

variable {event : Gemma4Event}

theorem header_of_toolCallHeaderEvent {s rest : List Char}
    (hevent : toolCallHeaderEvent w s = .ok event rest) : ∃ rawName,
      event = .toolCallHeader (trim rawName) ∧ s = callPrefix ++ rawName ++ ['{'] ++ rest := by
  rcases Parsed.map_eq_ok.mp hevent with ⟨name, hterminated, rfl⟩
  rcases andThen_eq_ok.mp hterminated with ⟨name', s₁, hname, hmap⟩
  rcases Parsed.map_eq_ok.mp hmap with ⟨u, hbrace, rfl⟩
  rcases andThen_eq_ok.mp hname with ⟨u', s₂, hprefix', htool⟩
  have hs := eq_append_of_literal hprefix'
  have hs₁ := eq_append_of_literal hbrace
  rw [gemma4ToolName] at htool
  cases htake : w.takeUntil true 1 ['{'] s₂ with
  | ok rawName s₃ =>
    simp only [htake] at htool
    split_ifs at htool
    cases htool
    refine ⟨rawName, rfl, ?_⟩
    rw [hs, (w.takeUntil_ok htake).1, hs₁]
    simp
  | incomplete | backtrack | cut => simp [htake] at htool

theorem exists_of_toolCallArgsEvent {argsScan : Gemma4ArgsScanState} {s rest : List Char}
    (hevent : (toolCallArgsEvent w parseF64 argsScan s).2 = .ok event rest) :
    ∃ args, event = .toolCall args := by
  rcases andThen_eq_ok.mp hevent with ⟨rawArgs, s', -, hargs⟩
  split_ifs at hargs
  rcases andThen_eq_ok.mp hargs with ⟨args, s'', -, heq⟩
  cases heq
  exact ⟨args, rfl⟩

theorem Told.turn {len : ℕ} (hinv : Told p out h)
    (hnext : (events w parseF64 serialize).next p = .ok (some (event, len))) :
    Told ((events w parseF64 serialize).drain len (applyEvent serialize
        ((events w parseF64 serialize).parseNext p).1 event out).parser)
      (applyEvent serialize ((events w parseF64 serialize).parseNext p).1 event out).output
      (h.take (pieceKind event, p.buffer.take len)) := by
  rcases hinv with ⟨hkept, hpending⟩
  rw [next_eq] at hnext
  cases hmode : p.mode with
  | text =>
    rw [hmode] at hnext hpending
    rw [Pending] at hpending
    rcases EventParser.startOrText_next hnext with ⟨rfl, htake⟩ | rfl
    · constructor
      · exact hkept
      · rw [htake]
        simp [take, pieceKind, hpending, Pending, applyEvent, events]
    · constructor
      · simp [applyEvent, take, pieceKind, hkept, hpending, events]
      · simp [take, pieceKind, applyEvent, events, hmode, Pending, parseNextGemma4Event]
  | header =>
    rw [hmode] at hnext hpending
    rw [Pending] at hpending
    rcases EventParser.parseBufferedEvent_eq_some hnext with ⟨rest, hparsed, rfl⟩
    rcases header_of_toolCallHeaderEvent hparsed with ⟨rawName, rfl, hs⟩
    have htake : p.buffer.take (p.buffer.length - rest.length) = callPrefix ++ rawName ++ ['{'] := by
      rw [hs, List.length_append, Nat.add_sub_cancel, List.take_left]
    constructor
    · exact hkept
    · refine ⟨rawName, rfl, ?_⟩
      rw [htake]
      simp [take, pieceKind, hpending, rawHeader]
  | toolCall name argsScan =>
    rcases EventParser.parseBufferedEvent_eq_some hnext with ⟨rest, hparsed, -⟩
    rw [hmode] at hparsed
    rcases exists_of_toolCallArgsEvent hparsed with ⟨args, rfl⟩
    constructor
    · simp [applyEvent, events, hmode, parseNextGemma4Event, take, pieceKind, hkept]
    · simp [applyEvent, events, hmode, parseNextGemma4Event, take, pieceKind, Pending]

theorem Told.wait (hinv : Told p out h) : Told
    ((events w parseF64 serialize).parseNext p).1 out h := by
  constructor
  · exact hinv.kept
  · have hpending := hinv.pending
    cases hmode : p.mode with
    | text | header => simpa [events, parseNextGemma4Event, hmode] using hpending
    | toolCall name argsScan => simpa [events, parseNextGemma4Event, hmode, Pending] using hpending

variable {call : Call Gemma4ToolParser}

theorem told_of_ends (hinv : Told p out h)
    (hends : (events w parseF64 serialize).Ends (p, out) call) (hfailed : call.ok = false) :
    Told call.parser call.output h ∧ call.parser.mode ≠ .text := by
  cases hends with
  | wait hnext => cases hfailed
  | parseFailed hnext =>
    refine ⟨@Told.wait w parseF64 serialize _ _ _ hinv, ?_⟩
    rw [next_eq] at hnext
    cases hmode : p.mode with
    | text =>
      rw [hmode] at hnext
      exact absurd hnext (EventParser.startOrText_not_error _)
    | header => simp [events, parseNextGemma4Event, hmode]
    | toolCall name argsScan => simp [events, parseNextGemma4Event, hmode]
  | applyFailed hnext hok =>
    exfalso
    rename_i event len
    rw [next_eq] at hnext
    cases hmode : p.mode with
    | text =>
      rw [hmode] at hnext
      rcases EventParser.startOrText_next hnext with ⟨rfl, -⟩ | rfl
      · cases hok
      · cases hok
    | header =>
      rcases EventParser.parseBufferedEvent_eq_some hnext with ⟨rest, hparsed, -⟩
      rw [hmode] at hparsed
      rcases header_of_toolCallHeaderEvent hparsed with ⟨rawName, rfl, -⟩
      cases hok
    | toolCall name argsScan =>
      rcases EventParser.parseBufferedEvent_eq_some hnext with ⟨rest, hparsed, -⟩
      rw [hmode] at hparsed
      rcases exists_of_toolCallArgsEvent hparsed with ⟨args, rfl⟩
      simp [applyEvent, events, hmode, parseNextGemma4Event] at hok

theorem rawHeader_injective {a b : List Char} (heq : rawHeader a = rawHeader b) : a = b := by
  simpa [rawHeader] using heq

theorem rawHeader_ne (a : List Char) : rawHeader a ≠ toolCallStart := by
  intro heq
  have hlen := congrArg List.length heq
  simp only [rawHeader, List.length_append, List.length_singleton] at hlen
  omega

/-- A reset returns the text of the open call where the name stands there without white space
around it. -/
theorem Told.reset_iff (hinv : Told p out h) (hmode : p.mode ≠ .text) :
    out.normalText ++ (reset p).2 = h.kept ++ h.pending ++ p.buffer ↔
      ∀ rawName, h.pending = rawHeader rawName → trim rawName = rawName := by
  have hpending := hinv.pending
  rw [hinv.kept, List.append_assoc, List.append_cancel_left_eq, reset]
  cases hp : p.mode with
  | text => exact absurd hp hmode
  | header =>
    rw [hp, Pending] at hpending
    rw [hpending]
    exact iff_of_true rfl fun rawName heq => absurd heq.symm (rawHeader_ne rawName)
  | toolCall name argsScan =>
    rw [hp] at hpending
    rcases hpending with ⟨rawName, hname, hraw⟩
    rw [hraw]
    change rawHeader name ++ p.buffer = rawHeader rawName ++ p.buffer ↔ _
    rw [List.append_cancel_right_eq]
    constructor
    · intro heq rawName' heq'
      rw [← rawHeader_injective heq', hname]
      exact rawHeader_injective heq
    · intro htrim
      rw [← hname, htrim rawName rfl]

theorem reset_of_failure {chunks : List (List Char)}
    (hfail : (events w parseF64 serialize).FirstFailure {} {} chunks call) :
    call.output.normalText ++ (reset call.parser).2 =
        (events w parseF64 serialize).textWithoutCalls pieceKind {} {} chunks call ↔
      ∀ rawName, ((events w parseF64 serialize).history pieceKind {} {} chunks).pending =
        rawHeader rawName → trim rawName = rawName := by
  rcases hfail.exists_calls with ⟨calls, hfeed, hcalls⟩
  have hstart : Told {} {} {} := ⟨rfl, rfl⟩
  rcases @EventParser.feed_keeps _ _ (events w parseF64 serialize) pieceKind Told
    (fun hinv hnext _ => hinv.turn hnext) (fun _ hinv => ⟨hinv.kept, hinv.pending⟩)
    (fun hinv _ => hinv.wait) _ _ _ hstart _ _ _ hfeed hcalls with
    ⟨q, out', hinv, hends⟩
  rcases told_of_ends hinv hends hfail.failed with ⟨htold, hmode⟩
  exact htold.reset_iff hmode

end Gemma4

abbrev qwenEvents := QwenCoder.Qwen3CoderToolParser.events
abbrev gemmaEvents := Gemma4.Gemma4ToolParser.events

/-- What is emitted up to the first error, with what a reset returns, beside the text fed without
the calls emitted. Qwen Coder always loses the start marker; Gemma4 keeps it without white space. -/
theorem recovery_iff (w : Winnow) (arguments : List Char → List (List Char × List Char) → List Char)
    (parseF64 : List Char → Option UInt64) (serialize : Gemma4.Map → List Char) :
    (∀ chunks call, (qwenEvents w arguments).FirstFailure {} {} chunks call →
      ((qwenEvents w arguments).taken QwenCoder.pieceKind {} {} chunks).flatMap Prod.snd ++
        call.parser.buffer = chunks.flatten ∧
      call.output.normalText ++ call.parser.reset.2 ≠
        (qwenEvents w arguments).textWithoutCalls QwenCoder.pieceKind {} {} chunks call) ∧
    (∀ chunks call, (gemmaEvents w parseF64 serialize).FirstFailure {} {} chunks call →
      ((gemmaEvents w parseF64 serialize).taken Gemma4.pieceKind {} {} chunks).flatMap Prod.snd ++
        call.parser.buffer = chunks.flatten ∧
      (call.output.normalText ++ call.parser.reset.2 =
          (gemmaEvents w parseF64 serialize).textWithoutCalls Gemma4.pieceKind {} {} chunks call ↔
        ∀ rawName, ((gemmaEvents w parseF64 serialize).history Gemma4.pieceKind {} {}
          chunks).pending = Gemma4.rawHeader rawName → Gemma4.trim rawName = rawName)) := by
  constructor
  · intro chunks call hfail
    rcases hfail.exists_calls with ⟨calls, hfeed, -⟩
    refine ⟨EventParser.taken_buffer _ _ _ hfeed, ?_⟩
    rw [QwenCoder.told_of_failure hfail]
    intro heq
    have hlen := congrArg List.length heq
    have hmarker : QwenCoder.toolCallStart.length = 11 := by decide
    simp only [List.length_append] at hlen
    omega
  · intro chunks call hfail
    rcases hfail.exists_calls with ⟨calls, hfeed, -⟩
    exact ⟨EventParser.taken_buffer _ _ _ hfeed, Gemma4.reset_of_failure hfail⟩

section Broken

/-- A call without a function. -/
def qwenBroken : List Char := "<tool_call>x</tool_call>".toList

/-- A call with broken arguments. -/
def gemmaBroken (name : List Char) : List Char :=
  "<|tool_call>call:".toList ++ name ++ "\x7bbroken\x7d<tool_call|>".toList

def qwenCall : Call QwenCoder.Qwen3CoderToolParser :=
  QwenCoder.Qwen3CoderToolParser.parseInto .reference (fun _ _ => []) {} qwenBroken {}

def gemmaCall (name : List Char) : Call Gemma4.Gemma4ToolParser :=
  Gemma4.Gemma4ToolParser.parseInto .reference (fun _ => none) (fun _ => []) {} (gemmaBroken name) {}

theorem qwen_firstFailure :
    (qwenEvents .reference fun _ _ => []).FirstFailure {} {} [qwenBroken] qwenCall :=
  ⟨⟨[], rfl, by simp⟩, by decide⟩

theorem gemma_firstFailure {name : List Char} (hfailed : (gemmaCall name).ok = false) :
    (gemmaEvents .reference (fun _ => none) fun _ => []).FirstFailure {} {} [gemmaBroken name]
      (gemmaCall name) :=
  ⟨⟨[], rfl, by simp⟩, hfailed⟩

theorem recovery_iff_broken :
    qwenCall.output.normalText ++ qwenCall.parser.reset.2 ≠
      (qwenEvents .reference fun _ _ => []).textWithoutCalls QwenCoder.pieceKind {} {} [qwenBroken]
        qwenCall ∧
    (gemmaCall ['s']).output.normalText ++ (gemmaCall ['s']).parser.reset.2 =
      (gemmaEvents .reference (fun _ => none) fun _ => []).textWithoutCalls Gemma4.pieceKind {} {}
        [gemmaBroken ['s']] (gemmaCall ['s']) := by
  have hboth := recovery_iff .reference (fun _ _ => []) (fun _ => none) fun _ => []
  constructor
  · exact (hboth.1 _ _ qwen_firstFailure).2
  · refine (hboth.2 _ _ (gemma_firstFailure (by decide))).2.mpr fun rawName hraw => ?_
    have hpending : ((gemmaEvents .reference (fun _ => none) fun _ => []).history Gemma4.pieceKind
        {} {} [gemmaBroken ['s']]).pending = Gemma4.rawHeader ['s'] := by decide
    cases Gemma4.rawHeader_injective (hpending.symm.trans hraw)
    decide

/-- The start marker is lost, and so is the white space before the name. -/
theorem recovery_loses_text :
    (∃ chunks call, (qwenEvents .reference fun _ _ => []).FirstFailure {} {} chunks call ∧
      call.output.calls = [] ∧
      call.output.normalText ++ call.parser.reset.2 = "x</tool_call>".toList ∧
      chunks.flatten = "<tool_call>x</tool_call>".toList) ∧
    ∃ chunks call, (gemmaEvents .reference (fun _ => none) fun _ => []).FirstFailure {} {} chunks
        call ∧ call.output.calls = [] ∧
      call.output.normalText ++ call.parser.reset.2 =
        "<|tool_call>call:s\x7bbroken\x7d<tool_call|>".toList ∧
      chunks.flatten = "<|tool_call>call: s\x7bbroken\x7d<tool_call|>".toList :=
  ⟨⟨[qwenBroken], qwenCall, qwen_firstFailure, by decide, by decide, by decide⟩,
    ⟨[gemmaBroken [' ', 's']], gemmaCall [' ', 's'], gemma_firstFailure (by decide), by decide,
      by decide, by decide⟩⟩

end Broken

end Vllm.ToolParser
