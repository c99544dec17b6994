import Mathlib.Data.List.DropRight
import Vllm.ToolParser.Events

/-! The parser for the tool calls of Gemma4. The start marker and the header with the function name
leave the buffer when they are read, the arguments when the end marker is there. -/
namespace Vllm.ToolParser.Gemma4
open Occurrences Winnow

def toolCallStart : List Char := "<|tool_call>".toList
def toolCallEnd : List Char := "<tool_call|>".toList
def stringDelim : List Char := "<|\"|>".toList
def callPrefix : List Char := "call:".toList

/-- The white space that `trim` removes. -/
def isWhitespace (c : Char) : Bool :=
  (9 ≤ c.toNat ∧ c.toNat ≤ 13) ∨ (0x2000 ≤ c.toNat ∧ c.toNat ≤ 0x200A) ∨
    c.toNat ∈ [0x20, 0x85, 0xA0, 0x1680, 0x2028, 0x2029, 0x202F, 0x205F, 0x3000]

def trim (s : List Char) : List Char := (s.dropWhile isWhitespace).rdropWhile isWhitespace

inductive Number where
  | int (n : ℤ)
  /-- A finite float by its bits. -/
  | float (bits : UInt64)
  deriving DecidableEq, Repr

inductive Value where
  | null
  | bool (b : Bool)
  | number (n : Number)
  | string (s : List Char)
  | array (values : List Value)
  | object (entries : List (List Char × Value))

abbrev Map := List (List Char × Value)

/-- A later entry replaces the value of an earlier one. -/
def Map.insert (map : Map) (entry : List Char × Value) : Map :=
  if map.any (fun old => old.1 = entry.1) then
    map.map fun old => if old.1 = entry.1 then entry else old
  else map ++ [entry]

def Map.collect (entries : List (List Char × Value)) : Map := entries.foldl Map.insert []

inductive Gemma4Event where
  | text (len : ℕ)
  | toolCallStart
  | toolCallHeader (name : List Char)
  | toolCall (args : Map)

structure Gemma4ArgsScanState where
  scannedLen : ℕ := 0
  inString : Bool := false
  deriving DecidableEq, Repr

inductive Gemma4Mode where
  | text
  | header
  | toolCall (name : List Char) (argsScan : Gemma4ArgsScanState)
  deriving DecidableEq, Repr

structure Gemma4ToolParser where
  buffer : List Char := []
  mode : Gemma4Mode := .text
  emittedToolCount : ℕ := 0
  deriving DecidableEq, Repr

section Arguments
-- `parseF64` reads a finite float.
variable (w : Winnow) (parseF64 : List Char → Option UInt64)

/-- The digits of a decimal number. -/
def digitsValue (digits : List Char) : ℕ :=
  digits.foldl (fun n c => 10 * n + (c.toNat - '0'.toNat)) 0

def parseI64 (value : List Char) : Option ℤ :=
  let (negative, digits) := match value with
    | '-' :: digits => (true, digits)
    | '+' :: digits => (false, digits)
    | digits => (false, digits)
  if digits ≠ [] ∧ digits.all Char.isDigit then
    let n : ℤ := if negative then -(digitsValue digits : ℤ) else digitsValue digits
    if -2 ^ 63 ≤ n ∧ n < 2 ^ 63 then some n else none
  else none

def parseGemma4Scalar (value : List Char) : Value :=
  let value := trim value
  if value = [] then .string []
  else if value = "true".toList then .bool true
  else if value = "false".toList then .bool false
  else if value ∈ ["null", "none", "nil", "NULL", "None", "NIL"].map String.toList then .null
  else if '.' ∈ value then
    match parseF64 value with
    | some bits => .number (.float bits)
    | none => .string value
  else
    match parseI64 value with
    | some n => .number (.int n)
    | none => .string value

def commaSeparator : Parser Unit :=
  Parser.delimited (w.multispace0 false) (w.literal false [',']) (w.multispace0 false)

def gemma4Key : Parser (List Char) := fun input =>
  match w.takeTill false 1 (· = ':') input with
  | .ok key rest => if trim key = [] then .cut else .ok (trim key) rest
  | failed => failed

def gemma4String : Parser (List Char) :=
  Parser.delimited (w.literal false stringDelim) (w.takeUntil false 0 stringDelim)
    (w.literal false stringDelim)

def gemma4BareValue : Parser Value :=
  (w.takeTill false 1 fun c => c = ',' ∨ c = '}' ∨ c = ']').map (parseGemma4Scalar parseF64)

-- `value` reads the values inside.
variable (value : Parser Value)

def gemma4Pair : Parser (List Char × Value) :=
  let ws := w.multispace0 false
  (ws.then' (gemma4Key w)).bind fun key =>
    ((ws.then' (w.literal false [':'])).then' (ws.then' value)).map fun value => (key, value)

/-- Entries with commas between them, and perhaps one at the end. -/
def listed {α : Type} (entry : Parser α) : Parser (List α) :=
  Parser.delimited (w.multispace0 false)
    ((w.separated0 entry (commaSeparator w)).terminated (commaSeparator w).opt)
    (w.multispace0 false)

def gemma4Args : Parser Map := (listed w (gemma4Pair w value)).map Map.collect

def gemma4Object : Parser Map :=
  Parser.delimited (w.literal false ['{']) (gemma4Args w value) (w.literal false ['}'])

def gemma4ArrayContent : Parser (List Value) := listed w value

def gemma4ArrayValue : Parser (List Value) :=
  Parser.delimited (w.literal false ['[']) (gemma4ArrayContent w value) (w.literal false [']'])

/-- Values of at most `depth` levels. -/
def gemma4Value : ℕ → Parser Value
  | 0 => fun _ => .cut
  | depth + 1 =>
    ((gemma4String w).map .string).alt (((gemma4Object w (gemma4Value depth)).map .object).alt
      (((gemma4ArrayValue w (gemma4Value depth)).map .array).alt (gemma4BareValue w parseF64)))

/-- Every level takes a bracket, so the text bounds the depth. -/
def parseGemma4Args (args : List Char) : Parsed Map :=
  ((gemma4Args w (gemma4Value w parseF64 (args.length + 1))).terminated Parser.eof) args

end Arguments

/-- How far the scan may go when no marker is found: not into a part of one. -/
def safeScanLen (text : List Char) (start : ℕ) (markers : List (List Char)) : ℕ :=
  text.length - (markers.map (partialPrefixLen (text.drop start))).foldl max 0

/-- The scan for the end marker outside of strings, of at most `fuel` steps. -/
def rawArgsLoop (text : List Char) : ℕ → Gemma4ArgsScanState →
    Gemma4ArgsScanState × Parsed (List Char)
  | 0, state => (state, .incomplete)
  | fuel + 1, state =>
    let rest := text.drop state.scannedLen
    if state.inString then
      match findFrom rest stringDelim 0 with
      | none =>
        ({ state with scannedLen := safeScanLen text state.scannedLen [stringDelim] }, .incomplete)
      | some delim =>
        rawArgsLoop text fuel
          { scannedLen := state.scannedLen + (delim + stringDelim.length), inString := false }
    else
      let ended (toolCallEnd' : ℕ) : Gemma4ArgsScanState × Parsed (List Char) :=
        let stop := state.scannedLen + toolCallEnd'
        let scannedLen := stop + toolCallEnd.length
        ({ state with scannedLen := scannedLen }, .ok (text.take stop) (text.drop scannedLen))
      let intoString (delim : ℕ) : Gemma4ArgsScanState × Parsed (List Char) :=
        rawArgsLoop text fuel
          { scannedLen := state.scannedLen + (delim + stringDelim.length), inString := true }
      match findFrom rest stringDelim 0, findFrom rest toolCallEnd 0 with
      | some delim, some stop => if stop < delim then ended stop else intoString delim
      | some delim, none => intoString delim
      | none, some stop => ended stop
      | none, none =>
        ({ state with scannedLen := safeScanLen text state.scannedLen [stringDelim, toolCallEnd] },
          .incomplete)

def rawArgsUntilToolCallEnd (state : Gemma4ArgsScanState) (text : List Char) :
    Gemma4ArgsScanState × Parsed (List Char) :=
  if state.scannedLen > text.length then (state, .incomplete)
  else rawArgsLoop text (text.length + 1) state

section Parsers
variable (w : Winnow) (parseF64 : List Char → Option UInt64)

def toolCallArgsEvent (argsScan : Gemma4ArgsScanState) (input : List Char) :
    Gemma4ArgsScanState × Parsed Gemma4Event :=
  let (argsScan, raw) := rawArgsUntilToolCallEnd argsScan input
  (argsScan, raw.andThen fun rawArgs rest =>
    if rawArgs.getLast? = some '}' then
      (parseGemma4Args w parseF64 rawArgs.dropLast).andThen fun args _ => .ok (.toolCall args) rest
    else .cut)

def gemma4ToolName : Parser (List Char) := fun input =>
  match w.takeUntil true 1 ['{'] input with
  | .ok name rest => if trim name = [] then .cut else .ok (trim name) rest
  | failed => failed

def toolCallHeaderEvent : Parser Gemma4Event :=
  (((w.literal true callPrefix).then' (gemma4ToolName w)).terminated
    (w.literal true ['{'])).map fun name => .toolCallHeader name

def toolCallStartEvent : Parser Gemma4Event :=
  (w.literal true toolCallStart).map fun _ => .toolCallStart

def safeTextEvent : Parser Gemma4Event := Parser.map Gemma4Event.text (safeTextLen toolCallStart)

def parseTextEvent : Parser Gemma4Event := (toolCallStartEvent w).alt safeTextEvent

def parseNextGemma4Event (mode : Gemma4Mode) (input : List Char) :
    Gemma4Mode × Parsed Gemma4Event :=
  match mode with
  | .text => (.text, parseTextEvent w input)
  | .header => (.header, toolCallHeaderEvent w input)
  | .toolCall name argsScan =>
    let (argsScan, parsed) := toolCallArgsEvent w parseF64 argsScan input
    (.toolCall name argsScan, parsed)

end Parsers

namespace Gemma4ToolParser
-- `serialize` writes the arguments as JSON.
variable (w : Winnow) (parseF64 : List Char → Option UInt64) (serialize : Map → List Char)

def applyEvent (p : Gemma4ToolParser) (event : Gemma4Event) (out : ToolParserOutput) :
    Call Gemma4ToolParser :=
  match event with
  | .text len => ⟨p, { out with normalText := out.normalText ++ p.buffer.take len }, true⟩
  | .toolCallStart => ⟨{ p with mode := .header }, out, true⟩
  | .toolCallHeader name => ⟨{ p with mode := .toolCall name {} }, out, true⟩
  | .toolCall args =>
    match p.mode with
    | .toolCall name _ =>
      ⟨{ p with mode := .text, emittedToolCount := p.emittedToolCount + 1 },
        { out with calls := out.calls ++ [⟨p.emittedToolCount, some name, serialize args⟩] }, true⟩
    | _ => ⟨{ p with mode := .text }, out, false⟩

/-- The text of the mode and the buffer. -/
def reset (p : Gemma4ToolParser) : Gemma4ToolParser × List Char :=
  ({}, match p.mode with
    | .text => p.buffer
    | .header => toolCallStart ++ p.buffer
    | .toolCall name _ => toolCallStart ++ callPrefix ++ name ++ ['{'] ++ p.buffer)

def events : EventParser Gemma4ToolParser Gemma4Event where
  buffer := buffer
  pushStr chunk p := { p with buffer := p.buffer ++ chunk }
  drain len p := { p with buffer := p.buffer.drop len }
  parseNext p :=
    let (mode, parsed) := parseNextGemma4Event w parseF64 p.mode p.buffer
    ({ p with mode := mode }, parsed)
  applyEvent := applyEvent serialize
  buffer_pushStr _ _ := rfl
  buffer_drain _ _ := rfl
  buffer_parseNext _ := rfl
  buffer_applyEvent p e out := by
    cases e with
    | toolCall args => cases hmode : p.mode <;> simp [applyEvent, hmode]
    | text len => rfl
    | toolCallStart => rfl
    | toolCallHeader name => rfl

def parseInto (p : Gemma4ToolParser) (chunk : List Char) (out : ToolParserOutput) :
    Call Gemma4ToolParser :=
  (events w parseF64 serialize).parseInto chunk p out

end Gemma4ToolParser

def pieceKind : Gemma4Event → PieceKind
  | .text _ => .text
  | .toolCallStart => .opening
  | .toolCallHeader _ => .opening
  | .toolCall _ => .call

end Vllm.ToolParser.Gemma4
