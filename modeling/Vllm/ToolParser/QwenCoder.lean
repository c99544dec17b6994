import Vllm.ToolParser.Events

/-! The parser for the XML-style tool calls of Qwen Coder. A start marker leaves the buffer at once,
and a call is read when its end marker is there. -/
namespace Vllm.ToolParser.QwenCoder
open Winnow

def toolCallStart : List Char := "<tool_call>".toList
def toolCallEnd : List Char := "</tool_call>".toList
def functionStart : List Char := "<function=".toList
def functionEnd : List Char := "</function>".toList
def parameterStart : List Char := "<parameter=".toList
def parameterEnd : List Char := "</parameter>".toList

inductive QwenCoderMode where
  | text
  | toolCall
  deriving DecidableEq, Repr

inductive QwenCoderEvent where
  | text (len : ℕ)
  | toolCallStart
  | toolCall (name : List Char) (rawParams : List (List Char × List Char))
  deriving DecidableEq, Repr

structure Qwen3CoderToolParser where
  buffer : List Char := []
  mode : QwenCoderMode := .text
  emittedToolCount : ℕ := 0
  deriving DecidableEq, Repr

section Parsers
variable (w : Winnow)

/-- The value without one newline at each end. -/
def trimOneWrappingNewline (value : List Char) : List Char :=
  let value := if value.head? = some '\n' then value.tail else value
  if value.getLast? = some '\n' then value.dropLast else value

def parameter : Parser (List Char × List Char) :=
  ((w.literal false parameterStart).then' (w.takeUntil false 1 ['>'])).bind fun name =>
    (((w.literal false ['>']).then' (w.takeUntil false 0 parameterEnd)).terminated
      (w.literal false parameterEnd)).map fun value => (name, trimOneWrappingNewline value)

def functionEvent : Parser QwenCoderEvent :=
  ((w.literal false functionStart).then' (w.takeUntil false 1 ['>'])).bind fun name =>
    (((w.literal false ['>']).then' (w.multispace0 false)).then'
      ((w.repeat0 ((parameter w).terminated (w.multispace0 false))).terminated
        (w.literal false functionEnd))).map fun rawParams => .toolCall name rawParams

def parseToolCallBody (body : List Char) : Parsed QwenCoderEvent :=
  Parser.delimited (w.multispace0 false) (functionEvent w)
    ((w.multispace0 false).then' Parser.eof) body

def toolCallEvent : Parser QwenCoderEvent :=
  (((w.multispace0 true).then' (w.takeUntil true 0 toolCallEnd)).terminated
    (w.literal true toolCallEnd)).bind fun body rest =>
      (parseToolCallBody w body).andThen fun event _ => .ok event rest

def toolCallStartEvent : Parser QwenCoderEvent :=
  (w.literal true toolCallStart).map fun _ => .toolCallStart

def safeTextEvent : Parser QwenCoderEvent :=
  Parser.map QwenCoderEvent.text (safeTextLen toolCallStart)

def parseTextEvent : Parser QwenCoderEvent := (toolCallStartEvent w).alt safeTextEvent

def parseNextQwenCoderEvent (mode : QwenCoderMode) : Parser QwenCoderEvent :=
  match mode with
  | .text => parseTextEvent w
  | .toolCall => toolCallEvent w

end Parsers

namespace Qwen3CoderToolParser
-- `arguments` converts the parameters of a function by its schema and writes them as JSON.
variable (w : Winnow) (arguments : List Char → List (List Char × List Char) → List Char)

def applyEvent (p : Qwen3CoderToolParser) (event : QwenCoderEvent) (out : ToolParserOutput) :
    Call Qwen3CoderToolParser :=
  match event with
  | .text len => ⟨p, { out with normalText := out.normalText ++ p.buffer.take len }, true⟩
  | .toolCallStart => ⟨{ p with mode := .toolCall }, out, true⟩
  | .toolCall name rawParams =>
    ⟨{ p with mode := .text, emittedToolCount := p.emittedToolCount + 1 },
      { out with
        calls := out.calls ++ [⟨p.emittedToolCount, some name, arguments name rawParams⟩] }, true⟩

def reset (p : Qwen3CoderToolParser) : Qwen3CoderToolParser × List Char := ({}, p.buffer)

def events : EventParser Qwen3CoderToolParser QwenCoderEvent where
  buffer := buffer
  pushStr chunk p := { p with buffer := p.buffer ++ chunk }
  drain len p := { p with buffer := p.buffer.drop len }
  parseNext p := (p, parseNextQwenCoderEvent w p.mode p.buffer)
  applyEvent := applyEvent arguments
  buffer_pushStr _ _ := rfl
  buffer_drain _ _ := rfl
  buffer_parseNext _ := rfl
  buffer_applyEvent p e out := by cases e <;> rfl

def parseInto (p : Qwen3CoderToolParser) (chunk : List Char) (out : ToolParserOutput) :
    Call Qwen3CoderToolParser :=
  (events w arguments).parseInto chunk p out

end Qwen3CoderToolParser

def pieceKind : QwenCoderEvent → PieceKind
  | .text _ => .text
  | .toolCallStart => .opening
  | .toolCall _ _ => .call

end Vllm.ToolParser.QwenCoder
