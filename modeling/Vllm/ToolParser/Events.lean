import Vllm.Lib.Occurrences
import Vllm.Lib.Winnow

/-! What the streaming tool parsers share: the search for text that cannot begin a marker, the scan
of a JSON object, and the loop that takes events off the front of the buffered text. -/
namespace Vllm.ToolParser
open Occurrences Winnow List

/-- The length of the longest proper prefix of `token` that ends `buffer`. -/
def partialPrefixLen (buffer token : List Char) : ℕ :=
  let maxLen := min buffer.length (token.length - 1)
  ((List.range' (buffer.length - maxLen) maxLen).find? fun index =>
    buffer[index]? = token.head? ∧ token.take (buffer.length - index) = buffer.drop index).elim 0
      (buffer.length - ·)

/-- The text before the next `marker`, as far as it is safe. -/
def safeTextLen (marker : List Char) : Parser ℕ := fun text =>
  if text = [] then .incomplete
  else
    match findFrom text marker 0 with
    | some start => .ok start (text.drop start)
    | none =>
      let emitLen := text.length - partialPrefixLen text marker
      if emitLen = 0 then .incomplete else .ok emitLen (text.drop emitLen)

inductive JsonObjectScanPhase where
  | initial
  | scanning
  | complete
  deriving DecidableEq, Repr

structure JsonObjectScanState where
  objectDepth : ℕ := 0
  arrayDepth : ℕ := 0
  inString : Bool := false
  escape : Bool := false
  phase : JsonObjectScanPhase := .initial
  deriving DecidableEq, Repr

def JsonObjectScanState.isComplete (state : JsonObjectScanState) : Bool := state.phase = .complete

/-- The scan after `index` characters of the text. -/
def scanJsonObject (state : JsonObjectScanState) (index : ℕ) :
    List Char → JsonObjectScanState × Parsed ℕ
  | [] => (state, .ok index [])
  | c :: rest =>
    if state.inString then
      if state.escape then scanJsonObject { state with escape := false } (index + 1) rest
      else if c = '\\' then scanJsonObject { state with escape := true } (index + 1) rest
      else if c = '"' then scanJsonObject { state with inString := false } (index + 1) rest
      else scanJsonObject state (index + 1) rest
    else
      match c with
      | '"' => scanJsonObject { state with inString := true } (index + 1) rest
      | '{' => scanJsonObject { state with objectDepth := state.objectDepth + 1 } (index + 1) rest
      | '}' =>
        if state.objectDepth = 0 then (state, .cut)
        else
          let state := { state with objectDepth := state.objectDepth - 1 }
          if state.objectDepth = 0 ∧ state.arrayDepth = 0 then
            ({ state with phase := .complete }, .ok (index + 1) rest)
          else if state.objectDepth = 0 then (state, .cut)
          else scanJsonObject state (index + 1) rest
      | '[' => scanJsonObject { state with arrayDepth := state.arrayDepth + 1 } (index + 1) rest
      | ']' =>
        if state.arrayDepth = 0 then (state, .cut)
        else scanJsonObject { state with arrayDepth := state.arrayDepth - 1 } (index + 1) rest
      | _ => scanJsonObject state (index + 1) rest

def takeJsonObject (state : JsonObjectScanState) (text : List Char) :
    JsonObjectScanState × Parsed ℕ :=
  if text = [] then (state, .incomplete)
  else if state.isComplete then (state, .cut)
  else if state.phase = .initial then
    if text.head? = some '{' then
      scanJsonObject { state with phase := .scanning, objectDepth := 1 } 1 text.tail
    else (state, .cut)
  else scanJsonObject state 0 text

/-- The characters up to the quote that ends a JSON string. -/
def stringEnd (escape : Bool) (index : ℕ) : List Char → Option ℕ
  | [] => none
  | c :: rest =>
    if escape then stringEnd false (index + 1) rest
    else if c = '\\' then stringEnd true (index + 1) rest
    else if c = '"' then some (index + 1)
    else stringEnd false (index + 1) rest

/-- `decode` reads a JSON string literal. -/
def jsonStr (decode : List Char → Option (List Char)) : Parser (List Char) := fun text =>
  if text = [] then .incomplete
  else if text.head? = some '"' then
    match stringEnd false 1 text.tail with
    | none => .incomplete
    | some index =>
      match decode (text.take index) with
      | some value => .ok value (text.drop index)
      | none => .cut
  else .cut

/-- An event with the number of characters it takes, nothing where more text is needed, or an
error. -/
def parseBufferedEvent {E : Type} (buffer : List Char) (parsed : Parsed E) :
    Except Unit (Option (E × ℕ)) :=
  match parsed with
  | .ok event rest =>
    let consumedLen := buffer.length - rest.length
    if consumedLen = 0 then .ok none else .ok (some (event, consumedLen))
  | .incomplete => .ok none
  | .backtrack => .error ()
  | .cut => .error ()

structure ToolCallDelta where
  toolIndex : ℕ
  name : Option (List Char)
  arguments : List Char
  deriving DecidableEq, Repr

structure ToolParserOutput where
  normalText : List Char := []
  calls : List ToolCallDelta := []
  deriving DecidableEq, Repr

/-- A call of `parseInto`: the parser it leaves, the output, and whether it succeeded. -/
structure Call (P : Type) where
  parser : P
  output : ToolParserOutput
  ok : Bool
  deriving DecidableEq, Repr

/-- A parser that works event by event on its buffer. -/
structure EventParser (P E : Type) where
  buffer : P → List Char
  pushStr (chunk : List Char) : P → P
  drain (len : ℕ) : P → P
  parseNext : P → P × Parsed E
  applyEvent : P → E → ToolParserOutput → Call P
  buffer_pushStr (chunk : List Char) (p : P) : buffer (pushStr chunk p) = buffer p ++ chunk
  buffer_drain (len : ℕ) (p : P) : buffer (drain len p) = (buffer p).drop len
  buffer_parseNext (p : P) : buffer (parseNext p).1 = buffer p
  buffer_applyEvent (p : P) (e : E) (out : ToolParserOutput) :
    buffer (applyEvent p e out).parser = buffer p

namespace EventParser
variable {P E : Type} (ep : EventParser P E)

/-- What the buffer yields next. -/
def next (p : P) : Except Unit (Option (E × ℕ)) :=
  parseBufferedEvent (ep.buffer p) (ep.parseNext p).2

/-- The loop, of at most `fuel` turns. -/
def parseLoop : ℕ → P → ToolParserOutput → Call P
  | 0, p, out => ⟨p, out, true⟩
  | fuel + 1, p, out =>
    match ep.next p with
    | .error _ => ⟨(ep.parseNext p).1, out, false⟩
    | .ok none => ⟨(ep.parseNext p).1, out, true⟩
    | .ok (some (event, consumedLen)) =>
      let applied := ep.applyEvent (ep.parseNext p).1 event out
      if applied.ok then parseLoop fuel (ep.drain consumedLen applied.parser) applied.output
      else applied

def parseInto (chunk : List Char) (p : P) (out : ToolParserOutput) : Call P :=
  ep.parseLoop ((ep.buffer p).length + chunk.length + 1) (ep.pushStr chunk p) out

/-- One turn of the loop that takes an event. -/
inductive Turn : P × ToolParserOutput → P × ToolParserOutput → Prop
  | mk {p : P} {out : ToolParserOutput} {event : E} {consumedLen : ℕ}
    (hnext : ep.next p = .ok (some (event, consumedLen)))
    (hok : (ep.applyEvent (ep.parseNext p).1 event out).ok = true) :
    Turn (p, out) (ep.drain consumedLen (ep.applyEvent (ep.parseNext p).1 event out).parser,
      (ep.applyEvent (ep.parseNext p).1 event out).output)

/-- How the loop ends. -/
inductive Ends : P × ToolParserOutput → Call P → Prop
  | wait {p : P} {out : ToolParserOutput} (hnext : ep.next p = .ok none) :
    Ends (p, out) ⟨(ep.parseNext p).1, out, true⟩
  | parseFailed {p : P} {out : ToolParserOutput} {e : Unit} (hnext : ep.next p = .error e) :
    Ends (p, out) ⟨(ep.parseNext p).1, out, false⟩
  | applyFailed {p : P} {out : ToolParserOutput} {event : E} {consumedLen : ℕ}
    (hnext : ep.next p = .ok (some (event, consumedLen)))
    (hok : (ep.applyEvent (ep.parseNext p).1 event out).ok = false) :
    Ends (p, out) (ep.applyEvent (ep.parseNext p).1 event out)

/-- The calls with the chunks one after the other, whatever each of them returns. -/
def feed (p : P) (out : ToolParserOutput) : List (List Char) → List (Call P)
  | [] => []
  | chunk :: chunks =>
    let call := ep.parseInto chunk p out
    call :: feed call.parser call.output chunks

/-- In one of these calls, a turn of the loop starts at `q`. -/
def StartsTurn (p : P) (out : ToolParserOutput) (q : P) : List (List Char) → Prop
  | [] => False
  | chunk :: chunks =>
    (∃ out', Relation.ReflTransGen ep.Turn (ep.pushStr chunk p, out) (q, out')) ∨
      StartsTurn (ep.parseInto chunk p out).parser (ep.parseInto chunk p out).output q chunks

variable {ep}

variable {buffer : List Char} {parsed : Parsed E} {out : ToolParserOutput}
  {t : P × ToolParserOutput}

theorem parseBufferedEvent_pos {event : E} {len : ℕ}
    (h : parseBufferedEvent buffer parsed = .ok (some (event, len))) :
    0 < len ∧ len ≤ buffer.length := by
  cases parsed with
  | ok value rest =>
    simp only [parseBufferedEvent] at h
    split_ifs at h with hzero
    · cases h
    · cases h
      exact ⟨Nat.pos_of_ne_zero hzero, Nat.sub_le _ _⟩
  | incomplete | backtrack | cut => cases h

theorem Turn.length_lt {p q : P} {out' : ToolParserOutput} (h : ep.Turn (p, out) (q, out')) :
    (ep.buffer q).length < (ep.buffer p).length := by
  cases h with
  | mk hnext hok =>
    have hpos := parseBufferedEvent_pos hnext
    rw [ep.buffer_drain, ep.buffer_applyEvent, ep.buffer_parseNext, length_drop]
    omega

theorem parseLoop_spec {fuel : ℕ} {p : P} (out : ToolParserOutput)
    (hfuel : (ep.buffer p).length < fuel) :
    ∃ q : P × ToolParserOutput, Relation.ReflTransGen ep.Turn (p, out) q ∧
      ep.Ends q (ep.parseLoop fuel p out) := by
  induction fuel generalizing p out with
  | zero => omega
  | succ fuel ih =>
    rw [parseLoop]
    rcases hnext : ep.next p with e | - | ⟨event, consumedLen⟩
    · exact ⟨_, .refl, .parseFailed hnext⟩
    · exact ⟨_, .refl, .wait hnext⟩
    · cases hok : (ep.applyEvent (ep.parseNext p).1 event out).ok with
      | false =>
        simp only [hok, Bool.false_eq_true, ↓reduceIte]
        exact ⟨_, .refl, .applyFailed hnext hok⟩
      | true =>
        have hturn := Turn.mk hnext hok
        have hlt := hturn.length_lt
        rcases ih (ep.applyEvent (ep.parseNext p).1 event out).output
          (hlt.trans_le (Nat.le_of_lt_succ hfuel)) with ⟨q, hreach, hends⟩
        simp only [hok, ↓reduceIte]
        exact ⟨q, .head hturn hreach, hends⟩

theorem parseInto_spec (chunk : List Char) (p : P) (out : ToolParserOutput) :
    ∃ q : P × ToolParserOutput, Relation.ReflTransGen ep.Turn (ep.pushStr chunk p, out) q ∧
      ep.Ends q (ep.parseInto chunk p out) := by
  apply parseLoop_spec
  rw [ep.buffer_pushStr, length_append]
  omega

theorem parseBufferedEvent_eq_some {event : E} {len : ℕ}
    (h : parseBufferedEvent buffer parsed = .ok (some (event, len))) :
    ∃ rest, parsed = .ok event rest ∧ len = buffer.length - rest.length := by
  cases parsed with
  | ok value rest =>
    simp only [parseBufferedEvent] at h
    split_ifs at h
    · cases h
    · cases h
      exact ⟨rest, rfl, rfl⟩
  | incomplete | backtrack | cut => cases h

theorem parseBufferedEvent_eq_error {e : Unit} (h : parseBufferedEvent buffer parsed = .error e) :
    parsed = .backtrack ∨ parsed = .cut := by
  cases parsed with
  | ok value rest =>
    simp only [parseBufferedEvent] at h
    split_ifs at h
  | incomplete => cases h
  | backtrack => exact .inl rfl
  | cut => exact .inr rfl

theorem safeTextLen_cases (marker text : List Char) : safeTextLen marker text = .incomplete ∨
    ∃ len ≤ text.length, safeTextLen marker text = .ok len (text.drop len) := by
  rw [safeTextLen]
  split_ifs with hempty
  · exact .inl rfl
  cases hfind : findFrom text marker 0 with
  | some start => exact .inr ⟨start, (findFrom_eq_some.mp hfind).1.2.1, rfl⟩
  | none =>
    dsimp only
    split_ifs with hemit
    · exact .inl rfl
    · exact .inr ⟨_, Nat.sub_le _ _, rfl⟩

/-- Outside of a call a parser reads a start marker or text. -/
def startOrText (w : Winnow) (marker : List Char) (start : E) (text : ℕ → E) : Parser E :=
  ((w.literal true marker).map fun _ => start).alt (Parser.map text (safeTextLen marker))

section StartOrText
variable {w : Winnow} {marker s : List Char} {start : E} {text : ℕ → E}

theorem startOrText_cases (w : Winnow) (marker s : List Char) (start : E) (text : ℕ → E) :
    (∃ rest, startOrText w marker start text s = .ok start rest ∧ s = marker ++ rest) ∨
    (∃ len ≤ s.length, startOrText w marker start text s = .ok (text len) (s.drop len)) ∨
    startOrText w marker start text s = .incomplete := by
  simp only [startOrText, Parser.alt, Parser.map]
  rcases literal_cases w marker s with ⟨rest, hok, hs⟩ | hwait | hback
  · left
    exact ⟨rest, by rw [hok]; rfl, hs⟩
  · right
    right
    rw [hwait]
    rfl
  · right
    rw [hback]
    rcases safeTextLen_cases marker s with hwait | ⟨len, hle, hok⟩
    · right
      rw [hwait]
      rfl
    · left
      exact ⟨len, hle, by rw [hok]; rfl⟩

theorem startOrText_next {event : E} {len : ℕ}
    (h : parseBufferedEvent s (startOrText w marker start text s) = .ok (some (event, len))) :
    (event = start ∧ s.take len = marker) ∨ event = text len := by
  rcases parseBufferedEvent_eq_some h with ⟨rest, hparsed, rfl⟩
  rcases startOrText_cases w marker s start text with ⟨rest', hstart, hs⟩ | ⟨len, hle, htext⟩ | hwait
  · left
    cases hparsed.symm.trans hstart
    refine ⟨rfl, ?_⟩
    rw [hs, length_append, Nat.add_sub_cancel, take_left]
  · right
    cases hparsed.symm.trans htext
    have hlen : s.length - (s.drop len).length = len := by
      rw [length_drop]
      omega
    rw [hlen]
  · cases hparsed.symm.trans hwait

theorem startOrText_not_error (e : Unit) :
    parseBufferedEvent s (startOrText w marker start text s) ≠ .error e := by
  intro h
  have hfailed := parseBufferedEvent_eq_error h
  rcases startOrText_cases w marker s start text with ⟨rest, hok, -⟩ | ⟨len, -, hok⟩ | hok
  all_goals
    rw [hok] at hfailed
    simp at hfailed

end StartOrText

theorem Turn.unique {s t' : P × ToolParserOutput} (h : ep.Turn s t) (h' : ep.Turn s t') :
    t = t' := by
  cases h with
  | mk hnext hok =>
    cases h' with
    | mk hnext' hok' =>
      rw [hnext] at hnext'
      cases hnext'
      rfl

theorem not_turn_of_wait {p : P} (h : ep.next p = .ok none) : ¬ep.Turn (p, out) t := by
  intro hturn
  cases hturn with
  | mk hnext hok =>
    rw [h] at hnext
    cases hnext

theorem eq_of_wait {p : P} {s : P × ToolParserOutput} {call : Call P} (hwait : ep.next p = .ok none)
    (hp : Relation.ReflTransGen ep.Turn s (p, out)) (ht : Relation.ReflTransGen ep.Turn s t)
    (hends : ep.Ends t call) : t = (p, out) := by
  have hturn : ∀ {u}, Relation.ReflTransGen ep.Turn (p, out) u → u = (p, out) := by
    intro u hu
    rcases hu.cases_head with heq | ⟨v, hv, -⟩
    · exact heq.symm
    · exact absurd hv (not_turn_of_wait hwait)
  rcases Relation.ReflTransGen.total_of_right_unique (fun _ _ _ h h' => h.unique h') hp ht with
    hpt | htp
  · exact hturn hpt
  rcases htp.cases_head with heq | ⟨v, hv, -⟩
  · exact heq
  -- the other turn takes an event, so it is not where the call ended
  cases hends with
  | wait hnext => exact absurd hv (not_turn_of_wait hnext)
  | parseFailed hnext =>
    cases hv with
    | mk hnext' hok =>
      rw [hnext] at hnext'
      cases hnext'
  | applyFailed hnext hok =>
    cases hv with
    | mk hnext' hok' =>
      rw [hnext] at hnext'
      cases hnext'
      rw [hok] at hok'
      cases hok'

end EventParser

/-- What an event takes off the buffer: plain text, a part of a call, or the end of a call. -/
inductive PieceKind where
  | text
  | opening
  | call
  deriving DecidableEq, Repr

/-- The text outside of the emitted calls, and the text of the call that is open. -/
structure History where
  kept : List Char := []
  pending : List Char := []
  deriving DecidableEq, Repr

def History.take (h : History) : PieceKind × List Char → History
  | (.text, s) => { kept := h.kept ++ h.pending ++ s }
  | (.opening, s) => { h with pending := h.pending ++ s }
  | (.call, _) => { h with pending := [] }

namespace EventParser
variable {P E : Type} (ep : EventParser P E) (kind : E → PieceKind)

/-- The pieces that the loop takes. -/
def takenLoop : ℕ → P → ToolParserOutput → List (PieceKind × List Char)
  | 0, _, _ => []
  | fuel + 1, p, out =>
    match ep.next p with
    | .error _ => []
    | .ok none => []
    | .ok (some (event, consumedLen)) =>
      let applied := ep.applyEvent (ep.parseNext p).1 event out
      if applied.ok then
        (kind event, (ep.buffer p).take consumedLen) ::
          takenLoop fuel (ep.drain consumedLen applied.parser) applied.output
      else []

def takenInto (chunk : List Char) (p : P) (out : ToolParserOutput) :
    List (PieceKind × List Char) :=
  ep.takenLoop kind ((ep.buffer p).length + chunk.length + 1) (ep.pushStr chunk p) out

/-- The pieces that the calls of `feed` take. -/
def taken (p : P) (out : ToolParserOutput) : List (List Char) → List (PieceKind × List Char)
  | [] => []
  | chunk :: chunks =>
    let call := ep.parseInto chunk p out
    ep.takenInto kind chunk p out ++ taken call.parser call.output chunks

def history (p : P) (out : ToolParserOutput) (chunks : List (List Char)) : History :=
  (ep.taken kind p out chunks).foldl History.take {}

/-- The text fed, without the text of the calls that were emitted. -/
def textWithoutCalls (p : P) (out : ToolParserOutput) (chunks : List (List Char))
    (call : Call P) : List Char :=
  let h := ep.history kind p out chunks
  h.kept ++ h.pending ++ ep.buffer call.parser

/-- The last of the calls is the only one that fails. -/
structure FirstFailure (p : P) (out : ToolParserOutput) (chunks : List (List Char))
    (call : Call P) : Prop where
  exists_calls : ∃ calls, ep.feed p out chunks = calls ++ [call] ∧ ∀ c ∈ calls, c.ok = true
  failed : call.ok = false

variable {ep} {kind}

theorem takenLoop_buffer (fuel : ℕ) (p : P) (out : ToolParserOutput) :
    ((ep.takenLoop kind fuel p out).flatMap Prod.snd) ++
      ep.buffer (ep.parseLoop fuel p out).parser = ep.buffer p := by
  induction fuel generalizing p out with
  | zero => rfl
  | succ fuel ih =>
    rw [takenLoop, parseLoop]
    rcases hnext : ep.next p with e | - | ⟨event, consumedLen⟩
    · exact ep.buffer_parseNext p
    · exact ep.buffer_parseNext p
    · cases hok : (ep.applyEvent (ep.parseNext p).1 event out).ok with
      | false =>
        simp only [hok, Bool.false_eq_true, ↓reduceIte, flatMap_nil, nil_append]
        rw [ep.buffer_applyEvent, ep.buffer_parseNext]
      | true =>
        simp only [hok, ↓reduceIte, flatMap_cons, append_assoc, ih]
        rw [ep.buffer_drain, ep.buffer_applyEvent, ep.buffer_parseNext, take_append_drop]

theorem taken_buffer (p : P) (out : ToolParserOutput) (chunks : List (List Char))
    {calls : List (Call P)} {call : Call P} (h : ep.feed p out chunks = calls ++ [call]) :
    (ep.taken kind p out chunks).flatMap Prod.snd ++ ep.buffer call.parser =
      ep.buffer p ++ chunks.flatten := by
  induction chunks generalizing p out calls with
  | nil => simp [feed] at h
  | cons chunk chunks ih =>
    have hfirst := @takenLoop_buffer _ _ ep kind ((ep.buffer p).length + chunk.length + 1)
      (ep.pushStr chunk p) out
    rw [ep.buffer_pushStr] at hfirst
    rw [feed] at h
    rw [taken, flatMap_append, append_assoc, flatten_cons, ← append_assoc (ep.buffer p), ← hfirst]
    cases calls with
    | nil =>
      rw [nil_append, List.cons.injEq] at h
      rcases h with ⟨rfl, hrest⟩
      cases chunks with
      | nil => simp [taken, takenInto, parseInto]
      | cons chunk' chunks => simp [feed] at hrest
    | cons call' calls =>
      rw [cons_append, List.cons.injEq] at h
      rw [ih _ _ h.2, takenInto, append_assoc]
      rfl

section
variable {I : P → ToolParserOutput → History → Prop}
  (hturn : ∀ {p out h event len}, I p out h → ep.next p = .ok (some (event, len)) →
    (ep.applyEvent (ep.parseNext p).1 event out).ok = true →
    I (ep.drain len (ep.applyEvent (ep.parseNext p).1 event out).parser)
      (ep.applyEvent (ep.parseNext p).1 event out).output
      (h.take (kind event, (ep.buffer p).take len)))
include hturn

theorem parseLoop_keeps {fuel : ℕ} {p : P} {out : ToolParserOutput} {h : History}
    (hinv : I p out h) (hfuel : (ep.buffer p).length < fuel) :
    ∃ q out', I q out' ((ep.takenLoop kind fuel p out).foldl History.take h) ∧
      ep.Ends (q, out') (ep.parseLoop fuel p out) := by
  induction fuel generalizing p out h with
  | zero => omega
  | succ fuel ih =>
    rw [takenLoop, parseLoop]
    rcases hnext : ep.next p with e | - | ⟨event, consumedLen⟩
    · exact ⟨p, out, hinv, .parseFailed hnext⟩
    · exact ⟨p, out, hinv, .wait hnext⟩
    · cases hok : (ep.applyEvent (ep.parseNext p).1 event out).ok with
      | false =>
        simp only [hok, Bool.false_eq_true, ↓reduceIte]
        exact ⟨p, out, hinv, .applyFailed hnext hok⟩
      | true =>
        have hlt := (Turn.mk hnext hok).length_lt
        simp only [hok, ↓reduceIte, foldl_cons]
        exact ih (hturn hinv hnext hok) (hlt.trans_le (Nat.le_of_lt_succ hfuel))

theorem feed_keeps (hpush : ∀ {p out h} chunk, I p out h → I (ep.pushStr chunk p) out h)
    (hwait : ∀ {p out h}, I p out h → ep.next p = .ok none → I (ep.parseNext p).1 out h)
    {p : P} {out : ToolParserOutput} {h : History} (hinv : I p out h) {chunks : List (List Char)}
    {calls : List (Call P)} {call : Call P} (hfeed : ep.feed p out chunks = calls ++ [call])
    (hcalls : ∀ c ∈ calls, c.ok = true) :
    ∃ q out', I q out' ((ep.taken kind p out chunks).foldl History.take h) ∧
      ep.Ends (q, out') call := by
  induction chunks generalizing p out h calls with
  | nil => simp [feed] at hfeed
  | cons chunk chunks ih =>
    have hfuel : (ep.buffer (ep.pushStr chunk p)).length <
        (ep.buffer p).length + chunk.length + 1 := by
      rw [ep.buffer_pushStr, length_append]
      omega
    rcases parseLoop_keeps hturn (hpush chunk hinv) hfuel with ⟨q, out', hq, hends⟩
    rw [feed] at hfeed
    rw [taken, foldl_append]
    cases calls with
    | nil =>
      rw [nil_append, List.cons.injEq] at hfeed
      rcases hfeed with ⟨rfl, hrest⟩
      cases chunks with
      | nil => exact ⟨q, out', hq, hends⟩
      | cons chunk' chunks => simp [feed] at hrest
    | cons call' calls =>
      rw [cons_append, List.cons.injEq] at hfeed
      have hok := hcalls call' mem_cons_self
      rw [← hfeed.1] at hok
      refine ih ?_ hfeed.2 fun c hc => hcalls c (mem_cons_of_mem _ hc)
      -- the call succeeded, so it ended where it waits
      rw [parseInto] at hok ⊢
      generalize ep.parseLoop _ (ep.pushStr chunk p) out = first at hends hok ⊢
      cases hends with
      | wait hnext => exact hwait hq hnext
      | parseFailed hnext => cases hok
      | applyFailed hnext hfailed =>
        rw [hfailed] at hok
        cases hok

end

end EventParser

end Vllm.ToolParser
