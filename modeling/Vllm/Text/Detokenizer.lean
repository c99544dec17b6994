import Vllm.Lib.Utf8

/-! The incremental detokenizer of a request: output token ids, their text, and the check of the
stop strings. What a tokenizer decodes for a token is part of the token. The decoded text stream of
the Rust front-end: a decoder that holds back the last bytes of the text, the search for stop
strings among its bytes, and the events of one request. -/
namespace Vllm.Text
open Occurrences Utf8

/-- A token with the text that decoding it adds to the output. -/
structure Token where
  id : ℕ
  text : List Char
  deriving DecidableEq, Repr

/-- The stop parameters of a request; an empty stop string is rejected with the request. -/
structure StopParams where
  stop : List (List Char) := []
  minTokens : ℕ := 0
  includeStopStrInOutput : Bool := false
  nonempty : ∀ s ∈ stop, s ≠ [] := by decide

/-- `str.find` with a start that counts from the end when it is negative. -/
def find (s sub : List Char) (start : ℤ) : Option ℕ :=
  findFrom s sub (if start < 0 then (s.length + start).toNat else start.toNat)

/-- The stop string that was matched and where to truncate the text, or -1 for no truncation. -/
def checkStopStrings (outputText : List Char) (newCharCount : ℕ) (stop : List (List Char))
    (includeInOutput : Bool) : Option (List Char × ℤ) :=
  if newCharCount = 0 ∨ stop = [] then none
  else stop.findSome? fun stopStr =>
    (find outputText stopStr (1 - newCharCount - stopStr.length)).map fun stopIndex =>
      if includeInOutput then
        let stopIndex := stopIndex + stopStr.length
        if stopIndex ≥ outputText.length then (stopStr, -1) else (stopStr, stopIndex)
      else (stopStr, stopIndex)

structure BaseIncrementalDetokenizer where
  params : StopParams
  tokenIds : List ℕ := []
  outputText : List Char := []
  lastOutputTextOffset : ℕ := 0

namespace BaseIncrementalDetokenizer
variable (d : BaseIncrementalDetokenizer)

def numOutputTokens : ℕ := d.tokenIds.length

/-- Characters to hold back when stop strings are excluded from streamed output. -/
def stopBufferLength : ℕ :=
  if d.params.stop ≠ [] ∧ !d.params.includeStopStrInOutput then
    (d.params.stop.map List.length).foldl max 0 - 1
  else 0

/-- One turn of the decoding loop, with the offset from which stop strings are checked. -/
def decodeToken (acc : BaseIncrementalDetokenizer × ℕ) (token : Token) :
    BaseIncrementalDetokenizer × ℕ :=
  let (d, stopCheckOffset) := acc
  let d := { d with
    tokenIds := d.tokenIds ++ [token.id]
    outputText := d.outputText ++ token.text }
  (d, if d.params.minTokens ≠ 0 ∧ d.numOutputTokens ≤ d.params.minTokens then d.outputText.length
    else stopCheckOffset)

def evaluateStop (stopCheckOffset : ℕ) : BaseIncrementalDetokenizer × Option (List Char) :=
  if d.params.stop ≠ [] ∧ d.numOutputTokens > d.params.minTokens then
    match checkStopStrings d.outputText (d.outputText.length - stopCheckOffset) d.params.stop
        d.params.includeStopStrInOutput with
    | none => (d, none)
    | some (stopString, truncateTo) =>
      (if truncateTo ≠ -1 then { d with outputText := d.outputText.take truncateTo.toNat } else d,
        some stopString)
  else (d, none)

/-- Detokenizes new tokens and returns the matched stop string, if any. A stop token is only
counted, unless stop strings are part of the output. -/
def update (newTokens : List Token) (stopTerminated : Bool) :
    BaseIncrementalDetokenizer × Option (List Char) :=
  if newTokens = [] then (d, none)
  else
    let skip := stopTerminated && !d.params.includeStopStrInOutput
    let decoded := (if skip then newTokens.dropLast else newTokens).foldl decodeToken
      (d, d.outputText.length)
    let d := if skip then { decoded.1 with
        tokenIds := decoded.1.tokenIds ++ (newTokens.getLast?.map Token.id).toList }
      else decoded.1
    d.evaluateStop decoded.2

/-- With `delta`, the text since the last call. -/
def getNextOutputText (finished delta : Bool) : BaseIncrementalDetokenizer × List Char :=
  let bufferLength := if finished then 0 else d.stopBufferLength
  if !delta then (d, d.outputText.take (d.outputText.length - bufferLength))
  else
    let length := d.outputText.length - bufferLength
    if d.lastOutputTextOffset < length then
      ({ d with lastOutputTextOffset := length },
        (d.outputText.take length).drop d.lastOutputTextOffset)
    else (d, [])

end BaseIncrementalDetokenizer

variable {s sub : List Char}

theorem find_start {new : ℕ} (hnew : new ≤ s.length) (hpos : 0 < new) (hne : sub ≠ []) :
    find s sub (1 - new - sub.length) = findFrom s sub (s.length - new + 1 - sub.length) := by
  have hsub := List.length_pos_iff.mpr hne
  rw [find, if_pos (by omega)]
  congr 1
  omega

/-- `sub` stands at `i` and ends after the first `old` entries. -/
def EndsAfter (sub s : List Char) (old i : ℕ) : Prop := OccursAt sub s i ∧ old < i + sub.length

theorem EndsAfter.le {old i : ℕ} (h : EndsAfter sub s old i) (hne : sub ≠ []) :
    i + sub.length ≤ s.length := h.1.le hne

theorem find_eq_some {new i : ℕ} (hnew : new ≤ s.length) (hpos : 0 < new) (hne : sub ≠ []) :
    find s sub (1 - new - sub.length) = some i ↔
      EndsAfter sub s (s.length - new) i ∧ ∀ j < i, ¬EndsAfter sub s (s.length - new) j := by
  have hsub := List.length_pos_iff.mpr hne
  rw [find_start hnew hpos hne, findFrom_eq_some]
  constructor
  · rintro ⟨⟨hstart, -, hoccurs⟩, hbefore⟩
    refine ⟨⟨hoccurs, by omega⟩, fun j hj hends => hbefore j ?_ hj hends.1⟩
    have hend := hends.2
    omega
  · rintro ⟨hends, hbefore⟩
    have hend := hends.2
    have hle := hends.le hne
    refine ⟨⟨by omega, by omega, hends.1⟩, fun j hstart hj hoccurs => ?_⟩
    exact hbefore j hj ⟨hoccurs, by omega⟩

theorem find_eq_none {new : ℕ} (hnew : new ≤ s.length) (hpos : 0 < new) (hne : sub ≠ []) :
    find s sub (1 - new - sub.length) = none ↔
      ∀ i, ¬EndsAfter sub s (s.length - new) i := by
  have hsub := List.length_pos_iff.mpr hne
  rw [find_start hnew hpos hne, findFrom_eq_none]
  constructor
  · intro h i hends
    have hend := hends.2
    have hle := hends.le hne
    exact h i (by omega) (by omega) hends.1
  · exact fun h i hstart _ hoccurs => h i ⟨hoccurs, by omega⟩

structure DecodeStream where
  minBytesToBuffer : ℕ
  cumulativeOutput : List Char := []
  outputIndex : ℕ := 0

namespace DecodeStream
variable (d : DecodeStream)

/-- The number of new bytes comes with the decoder. -/
def pushToken (token : Token) : DecodeStream × ℕ :=
  ({ d with cumulativeOutput := d.cumulativeOutput ++ token.text }, size token.text)

def nextChunk : DecodeStream × Option (List Char) :=
  let cutoff := floorCharBoundary d.cumulativeOutput (size d.cumulativeOutput - d.minBytesToBuffer)
  if cutoff > d.outputIndex then
    ({ d with outputIndex := cutoff }, some (Utf8.slice d.cumulativeOutput d.outputIndex cutoff))
  else (d, none)

/-- The last chunk and the whole text. -/
def flush (truncateOutputTo : Option ℕ) : Option (List Char) × List Char :=
  let text := match truncateOutputTo with
    | some n => takeBytes d.cumulativeOutput n
    | none => d.cumulativeOutput
  (if d.outputIndex < size text then some (Utf8.slice text d.outputIndex (size text)) else none,
    text)

end DecodeStream

/-- The index of the stop string that matches and the byte index of its first byte. -/
def matchesStopString (stops : List (List Char)) (output : List Char) (newBytes : ℕ) :
    Option (ℕ × ℕ) :=
  let output := bytes output
  let nextOff := output.length + 1 - newBytes
  stops.zipIdx.findSome? fun (ss, ssIdx) =>
    let startOff := nextOff - size ss
    (rposition (· = bytes ss) (windows (size ss) (output.drop startOff))).map fun pos =>
      (ssIdx, startOff + pos)

inductive StopReason where
  | tokenId (id : ℕ)
  | text (s : List Char)
  deriving DecidableEq, Repr

inductive FinishReason where
  | stop (reason : Option StopReason)
  | length
  | abort
  | error
  | repetition
  deriving DecidableEq, Repr

def FinishReason.isStop : FinishReason → Bool
  | .stop _ => true
  | _ => false

structure TextDecodeOptions where
  includeStopStrInOutput : Bool := false
  stopStrings : Option (List (List Char)) := none
  minTokens : ℕ := 0

/-- The bytes to hold back. -/
def TextDecodeOptions.minBytesToBuffer (options : TextDecodeOptions) : ℕ :=
  if options.includeStopStrInOutput then 0
  else ((options.stopStrings.bind fun stops => (stops.map size).max?).getD 1) - 1

structure GenerateOutput where
  tokens : List Token
  finishReason : Option FinishReason := none
  deriving DecidableEq, Repr

structure TextDelta where
  delta : List Char
  tokenIds : List ℕ
  finished : Option FinishReason
  deriving DecidableEq, Repr

/-- A stop string that was matched at a token. -/
structure StopMatch where
  stopStr : List Char
  truncateOutputTo : ℕ
  truncateTokensTo : ℕ
  deriving DecidableEq, Repr

def pushChunk (delta : Option (List Char)) : Option (List Char) → Option (List Char)
  | some chunk => some (delta.getD [] ++ chunk)
  | none => delta

variable (options : TextDecodeOptions) (intermediate : Bool)

/-- The stop string that the last pushed token has completed, once there are enough tokens. -/
def stopMatch (outputTokenCount tokIdx newBytes : ℕ) (output : List Char) : Option StopMatch :=
  if outputTokenCount + tokIdx + 1 > options.minTokens then
    options.stopStrings.bind fun stops =>
      (matchesStopString stops output newBytes).bind fun (idx, off) =>
        stops[idx]?.map fun stopStr =>
          ⟨stopStr, if options.includeStopStrInOutput then off + size stopStr else off, tokIdx + 1⟩
  else none

/-- The loop over the tokens of one output. -/
def decodeTokens (outputTokenCount : ℕ) :
    List Token → ℕ → DecodeStream → Option (List Char) →
      DecodeStream × Option (List Char) × Option StopMatch
  | [], _, decoder, delta => (decoder, delta, none)
  | token :: rest, tokIdx, decoder, delta =>
    let (decoder, newBytes) := decoder.pushToken token
    match stopMatch options outputTokenCount tokIdx newBytes decoder.cumulativeOutput with
    | some found => (decoder, delta, some found)
    | none =>
      if intermediate then
        let (decoder, chunk) := decoder.nextChunk
        decodeTokens outputTokenCount rest (tokIdx + 1) decoder (pushChunk delta chunk)
      else decodeTokens outputTokenCount rest (tokIdx + 1) decoder delta

/-- The tokens of an output whose text counts: not a stop token at its end. -/
def decodableTokens (output : GenerateOutput) : List Token :=
  if (output.finishReason.any FinishReason.isStop) && !options.includeStopStrInOutput then
    output.tokens.dropLast
  else output.tokens

/-- The events of a request from the state before its next output; `none` if the stream ends
without a terminal output. -/
def textEvents (decoder : DecodeStream) (outputTokenCount : ℕ) (tokenIds : List ℕ) :
    List GenerateOutput → Option (List TextDelta)
  | [] => none
  | output :: outputs =>
    let (decoder, delta, found) := decodeTokens options intermediate outputTokenCount
      (decodableTokens options output) 0 decoder none
    let finishReason := match found with
      | some found => some (.stop (some (.text found.stopStr)))
      | none => output.finishReason
    let newTokenIds := match found with
      | some found => (output.tokens.map Token.id).take found.truncateTokensTo
      | none => output.tokens.map Token.id
    let tokenIds := if intermediate then tokenIds else tokenIds ++ newTokenIds
    match finishReason with
    | some reason =>
      let (lastChunk, text) := decoder.flush (found.map StopMatch.truncateOutputTo)
      if intermediate then
        some [⟨(pushChunk delta lastChunk).getD [], newTokenIds, some reason⟩]
      else some [⟨text, tokenIds, some reason⟩]
    | none =>
      (textEvents decoder (outputTokenCount + newTokenIds.length) tokenIds outputs).map fun events =>
        if intermediate then ⟨delta.getD [], newTokenIds, none⟩ :: events else events

def decodedTextEventStream (outputs : List GenerateOutput) : Option (List TextDelta) :=
  textEvents options intermediate { minBytesToBuffer := options.minBytesToBuffer } 0 [] outputs

end Vllm.Text
