import Mathlib.Data.List.TakeWhile
import Vllm.ToolParser.Events

/-! The core of the parsers for JSON tool calls between text markers, which keeps back only what may
begin a call, unless a start marker stands without its whitespace. -/
namespace Vllm.ToolParser
open Occurrences Winnow EventParser Parsed

inductive JsonToolCallWhitespace where
  | optional
  | exact (whitespace : List Char)
  deriving DecidableEq, Repr

structure JsonToolCallConfig where
  parserName : List Char
  startMarker : List Char
  endMarker : List Char
  markerWhitespace : JsonToolCallWhitespace
  delimiter : Option (List Char)
  nameKey : List Char
  /-- The keys that may name the arguments. -/
  argumentsKey : List (List Char)
  deriving DecidableEq, Repr

inductive JsonToolCallMode where
  | text
  | header
  | arguments (jsonScan : JsonObjectScanState)
  deriving DecidableEq, Repr

inductive JsonToolCallEvent where
  | text (len : ℕ)
  | toolCallStart
  | toolCallHeader (functionName : List Char)
  | arguments (len : ℕ)
  | toolCallDelimiter
  | toolCallEnd
  deriving DecidableEq, Repr

structure JsonToolCallParser where
  config : JsonToolCallConfig
  buffer : List Char := []
  mode : JsonToolCallMode := .text
  activeToolIndex : Option ℕ := none
  emittedToolCount : ℕ := 0
  deriving DecidableEq, Repr

namespace JsonToolCallConfig
-- `decode` reads a JSON string literal.
variable (w : Winnow) (decode : List Char → Option (List Char)) (config : JsonToolCallConfig)

def parseMarkerWhitespace : Parser Unit :=
  match config.markerWhitespace with
  | .optional => w.multispace0 true
  | .exact whitespace => w.literal true whitespace

def toolCallStartEvent : Parser JsonToolCallEvent :=
  ((w.literal true config.startMarker).then' (config.parseMarkerWhitespace w)).map fun _ =>
    .toolCallStart

def safeTextEvent : Parser JsonToolCallEvent :=
  (Parser.map JsonToolCallEvent.text (safeTextLen config.startMarker))

def parseTextEvent : Parser JsonToolCallEvent :=
  (config.toolCallStartEvent w).alt config.safeTextEvent

def jsonKey (key : List Char) : Parser Unit :=
  ((w.literal true ['"']).then' (w.literal true key)).then' (w.literal true ['"'])

local instance : LawfulBEq (List Char) := inferInstance

def jsonArgumentsKey (candidates : List (List Char)) : Parser Unit :=
  ((Parser.verify (jsonStr decode) fun key => key ∈ candidates)).map fun _ => ()

def toolCallHeaderEvent : Parser JsonToolCallEvent :=
  let ws := w.multispace0 true
  let upToName := ws.then' ((w.literal true ['{']).then' (ws.then' ((jsonKey w config.nameKey).then'
    (ws.then' ((w.literal true [':']).then' ws)))))
  let upToArguments := ws.then' ((w.literal true [',']).then' (ws.then'
    ((jsonArgumentsKey decode config.argumentsKey).then'
      (ws.then' ((w.literal true [':']).then' ws)))))
  (upToName.then' (Parser.terminated (jsonStr decode) upToArguments)).map fun functionName =>
    .toolCallHeader functionName

def toolCallEndEvent : Parser JsonToolCallEvent :=
  ((config.parseMarkerWhitespace w).then' (w.literal true config.endMarker)).map fun _ =>
    .toolCallEnd

def toolCallDelimiterEvent (delimiter : List Char) : Parser JsonToolCallEvent :=
  ((w.multispace0 true).then' ((w.literal true delimiter).then' (w.multispace0 true))).map fun _ =>
    .toolCallDelimiter

def toolCallCloseEvent : Parser JsonToolCallEvent :=
  (w.literal true ['}']).then' (match config.delimiter with
    | some delimiter => (config.toolCallEndEvent w).alt (toolCallDelimiterEvent w delimiter)
    | none => config.toolCallEndEvent w)

/-- The scan changes with what it reads. -/
def parseArgumentsEvent (jsonScan : JsonObjectScanState) (input : List Char) :
    JsonObjectScanState × Parsed JsonToolCallEvent :=
  if jsonScan.isComplete then (jsonScan, config.toolCallCloseEvent w input)
  else
    let (jsonScan, parsed) := takeJsonObject jsonScan input
    (jsonScan, parsed.map .arguments)

def parseNextJsonToolCallEvent (mode : JsonToolCallMode) (input : List Char) :
    JsonToolCallMode × Parsed JsonToolCallEvent :=
  match mode with
  | .text => (.text, config.parseTextEvent w input)
  | .header => (.header, config.toolCallHeaderEvent w decode input)
  | .arguments jsonScan =>
    let (jsonScan, parsed) := config.parseArgumentsEvent w jsonScan input
    (.arguments jsonScan, parsed)

end JsonToolCallConfig

namespace JsonToolCallParser
variable (w : Winnow) (decode : List Char → Option (List Char))

def applyEvent (p : JsonToolCallParser) (event : JsonToolCallEvent) (out : ToolParserOutput) :
    Call JsonToolCallParser :=
  match event with
  | .text len => ⟨p, { out with normalText := out.normalText ++ p.buffer.take len }, true⟩
  | .toolCallStart => ⟨{ p with mode := .header }, out, true⟩
  | .toolCallHeader functionName =>
    ⟨{ p with
        emittedToolCount := p.emittedToolCount + 1
        activeToolIndex := some p.emittedToolCount
        mode := .arguments {} },
      { out with calls := out.calls ++ [⟨p.emittedToolCount, some functionName, []⟩] }, true⟩
  | .arguments len =>
    match p.activeToolIndex with
    | none => ⟨p, out, false⟩
    | some toolIndex =>
      ⟨p, { out with calls := out.calls ++ [⟨toolIndex, none, p.buffer.take len⟩] }, true⟩
  | .toolCallDelimiter => ⟨{ p with activeToolIndex := none, mode := .header }, out, true⟩
  | .toolCallEnd => ⟨{ p with activeToolIndex := none, mode := .text }, out, true⟩

/-- The parser as one that works event by event. -/
def events : EventParser JsonToolCallParser JsonToolCallEvent where
  buffer := buffer
  pushStr chunk p := { p with buffer := p.buffer ++ chunk }
  drain len p := { p with buffer := p.buffer.drop len }
  parseNext p :=
    let (mode, parsed) := p.config.parseNextJsonToolCallEvent w decode p.mode p.buffer
    ({ p with mode := mode }, parsed)
  applyEvent := applyEvent
  buffer_pushStr _ _ := rfl
  buffer_drain _ _ := rfl
  buffer_parseNext _ := rfl
  buffer_applyEvent p e out := by
    cases e with
    | arguments len => cases hactive : p.activeToolIndex <;> simp [applyEvent, hactive]
    | text len => rfl
    | toolCallStart => rfl
    | toolCallHeader functionName => rfl
    | toolCallDelimiter => rfl
    | toolCallEnd => rfl

def parseInto (p : JsonToolCallParser) (chunk : List Char) (out : ToolParserOutput) :
    Call JsonToolCallParser :=
  (events w decode).parseInto chunk p out

end JsonToolCallParser

section Retained
variable {config : JsonToolCallConfig} {buffer text marker : List Char}

theorem partialPrefixLen_lt (hne : text ≠ []) (h : ¬text <+: marker) :
    partialPrefixLen text marker < text.length := by
  have hpos : 0 < text.length := List.length_pos_iff.mpr hne
  simp only [partialPrefixLen]
  rcases hfind : (List.range' (text.length - min text.length (marker.length - 1))
    (min text.length (marker.length - 1))).find? fun index =>
      decide (text[index]? = marker.head? ∧
        marker.take (text.length - index) = text.drop index) with - | index
  · exact hpos
  · have htest := List.find?_some hfind
    simp only [decide_eq_true_eq] at htest
    have hindex : index ≠ 0 := by
      rintro rfl
      apply h
      rw [Nat.sub_zero, List.drop_zero] at htest
      rw [← htest.2]
      exact List.take_prefix _ _
    simp only [Option.elim_some]
    omega

theorem safeTextLen_ok (hmarker : ¬marker <+: text) (hpart : ¬text <+: marker) :
    ∃ len rest, safeTextLen marker text = .ok len rest ∧ rest.length < text.length := by
  have hne : text ≠ [] := by
    rintro rfl
    exact hpart List.nil_prefix
  have hpos : 0 < text.length := List.length_pos_iff.mpr hne
  rw [safeTextLen, if_neg hne]
  cases hfind : findFrom text marker 0 with
  | some start =>
    have hstart := (findFrom_eq_some.mp hfind).1.2.2
    refine ⟨_, _, rfl, ?_⟩
    have hzero : start ≠ 0 := by
      rintro rfl
      exact hmarker hstart
    rw [List.length_drop]
    omega
  | none =>
    have hlt := partialPrefixLen_lt hne hpart
    have hemit : text.length - partialPrefixLen text marker ≠ 0 := by omega
    simp only [if_neg hemit]
    refine ⟨_, _, rfl, ?_⟩
    rw [List.length_drop]
    omega

theorem safeTextLen_marker (hne : text ≠ []) (hmarker : marker <+: text) :
    safeTextLen marker text = .ok 0 text := by
  have hfind : findFrom text marker 0 = some 0 := by
    rw [findFrom_eq_some]
    exact ⟨⟨le_rfl, Nat.zero_le _, hmarker⟩, fun j _ hj => absurd hj (Nat.not_lt_zero j)⟩
  rw [safeTextLen, if_neg hne, hfind]
  rfl

namespace JsonToolCallConfig

/-- Whitespace that is not yet all the whitespace a start marker takes. -/
def StillNeeds (config : JsonToolCallConfig) (rest : List Char) : Prop :=
  match config.markerWhitespace with
  | .optional => ∀ c ∈ rest, isSpace c = true
  | .exact whitespace => rest <+: whitespace ∧ rest ≠ whitespace

/-- A text that may still begin a call: less than a start marker, or a start marker with less
whitespace than it may still need. -/
inductive Retained (config : JsonToolCallConfig) : List Char → Prop
  | marker {buffer : List Char} (h : buffer <+: config.startMarker)
    (hne : buffer ≠ config.startMarker) : Retained config buffer
  | whitespace {rest : List Char} (h : config.StillNeeds rest) :
    Retained config (config.startMarker ++ rest)

/-- A start marker with a text after it that contradicts the whitespace it needs. -/
def Stray (config : JsonToolCallConfig) (buffer : List Char) : Prop :=
  ∃ whitespace rest, config.markerWhitespace = .exact whitespace ∧
    buffer = config.startMarker ++ rest ∧ ¬whitespace <+: rest ∧ ¬rest <+: whitespace

theorem Retained.not_stray (h : config.Retained buffer) : ¬config.Stray buffer := by
  rintro ⟨whitespace, rest, hexact, heq, hnot, hnot'⟩
  cases h with
  | marker hprefix hne =>
    have hlen := hprefix.length_le
    rw [heq, List.length_append] at hlen
    have hrest : rest = [] := List.eq_nil_of_length_eq_zero (by omega)
    rw [hrest] at hnot'
    exact hnot' List.nil_prefix
  | whitespace hneeds =>
    rw [List.append_cancel_left heq, StillNeeds, hexact] at hneeds
    exact hnot' hneeds.1

end JsonToolCallConfig

namespace JsonToolCallParser
variable {w : Winnow} {decode : List Char → Option (List Char)} {p : JsonToolCallParser}

theorem next_text (htext : p.mode = .text) : (events w decode).next p =
    parseBufferedEvent p.buffer (p.config.parseTextEvent w p.buffer) := by
  simp only [next, events, JsonToolCallConfig.parseNextJsonToolCallEvent, htext]

theorem startEvent_of_marker {rest : List Char} (hbuffer : p.buffer = p.config.startMarker ++ rest) :
    p.config.toolCallStartEvent w p.buffer =
      (p.config.parseMarkerWhitespace w rest).map fun _ => .toolCallStart := by
  have hliteral : w.literal true p.config.startMarker p.buffer = .ok () rest := by
    rw [w.literal_ok (hbuffer ▸ List.prefix_append _ _), hbuffer, List.drop_left]
  simp only [JsonToolCallConfig.toolCallStartEvent, Parser.map, Parser.then', Parser.bind, hliteral,
    andThen]

theorem takes_of_lt {event : JsonToolCallEvent} {rest : List Char}
    (hlt : rest.length < buffer.length) : parseBufferedEvent buffer (.ok event rest) ≠ .ok none := by
  have hne : buffer.length - rest.length ≠ 0 := by omega
  simp [parseBufferedEvent, hne]

theorem next_of_stray (htext : p.mode = .text) (hmarker : p.config.startMarker ≠ [])
    (h : p.config.Stray p.buffer) : (events w decode).next p = .ok none := by
  rcases h with ⟨whitespace, rest, hexact, hbuffer, hnot, hnot'⟩
  have hne : p.buffer ≠ [] := by simp [hbuffer, hmarker]
  have hliteral := @Winnow.literal_backtrack w true _ _ hnot hnot'
  have hsafe := safeTextLen_marker hne (hbuffer ▸ List.prefix_append p.config.startMarker rest)
  rw [next_text htext, JsonToolCallConfig.parseTextEvent, Parser.alt,
    startEvent_of_marker hbuffer, JsonToolCallConfig.parseMarkerWhitespace, hexact]
  simp only [hliteral, map, andThen, JsonToolCallConfig.safeTextEvent, Parser.map,
    hsafe, parseBufferedEvent, Nat.sub_self, ↓reduceIte]

theorem retained_or_stray (htext : p.mode = .text) (hmarker : p.config.startMarker ≠ [])
    (h : (events w decode).next p = .ok none) :
    p.config.Retained p.buffer ∨ p.config.Stray p.buffer := by
  rw [next_text htext, JsonToolCallConfig.parseTextEvent, Parser.alt] at h
  by_cases hstart : p.config.startMarker <+: p.buffer
  · rcases hstart with ⟨rest, hbuffer⟩
    have hpos := List.length_pos_iff.mpr hmarker
    have hlong : rest.length < p.buffer.length := by
      rw [← hbuffer, List.length_append]
      omega
    rw [startEvent_of_marker hbuffer.symm, JsonToolCallConfig.parseMarkerWhitespace] at h
    rw [← hbuffer]
    cases hws : p.config.markerWhitespace with
    | optional =>
      left
      apply JsonToolCallConfig.Retained.whitespace
      by_cases hall : rest.dropWhile isSpace = []
      · simp only [JsonToolCallConfig.StillNeeds, hws]
        exact List.dropWhile_eq_nil_iff.mp hall
      · have hle := (List.dropWhile_suffix (l := rest) isSpace).length_le
        simp only [hws, w.multispace0_ok hall, map, andThen] at h
        exact absurd h (takes_of_lt (hle.trans_lt hlong))
    | exact whitespace =>
      by_cases htaken : whitespace <+: rest
      · simp only [hws, w.literal_ok htaken, map, andThen] at h
        have hle : (rest.drop whitespace.length).length ≤ rest.length := by
          rw [List.length_drop]
          exact Nat.sub_le _ _
        exact absurd h (takes_of_lt (hle.trans_lt hlong))
      · by_cases hpart : rest <+: whitespace
        · left
          apply JsonToolCallConfig.Retained.whitespace
          simp only [JsonToolCallConfig.StillNeeds, hws]
          exact ⟨hpart, fun heq => htaken (heq ▸ List.prefix_refl _)⟩
        · right
          exact ⟨whitespace, rest, hws, rfl, htaken, hpart⟩
  · by_cases hpart : p.buffer <+: p.config.startMarker
    · left
      exact .marker hpart fun heq => hstart (heq ▸ List.prefix_refl _)
    · rcases safeTextLen_ok hstart hpart with ⟨len, rest, hsafe, hlt⟩
      simp only [JsonToolCallConfig.toolCallStartEvent, Parser.map, Parser.then', Parser.bind,
        w.literal_backtrack hstart hpart, andThen, map,
        JsonToolCallConfig.safeTextEvent, hsafe] at h
      exact absurd h (takes_of_lt hlt)

theorem parseNext_text (htext : p.mode = .text) : ((events w decode).parseNext p).1 = p := by
  simp only [events, JsonToolCallConfig.parseNextJsonToolCallEvent, htext]
  rw [← htext]

theorem text_of_parseNext (h : ((events w decode).parseNext p).1.mode = .text) : p.mode = .text := by
  cases hmode : p.mode with
  | text => rfl
  | header | arguments jsonScan =>
    simp [events, JsonToolCallConfig.parseNextJsonToolCallEvent, hmode] at h

theorem applyEvent_config (event : JsonToolCallEvent) (out : ToolParserOutput) :
    (applyEvent p event out).parser.config = p.config := by
  cases event with
  | arguments len => cases hactive : p.activeToolIndex <;> simp [applyEvent, hactive]
  | text len | toolCallStart | toolCallHeader functionName | toolCallDelimiter | toolCallEnd => rfl

theorem turns_config {s t : JsonToolCallParser × ToolParserOutput}
    (h : Relation.ReflTransGen (events w decode).Turn s t) : t.1.config = s.1.config := by
  induction h with
  | refl => rfl
  | tail _ hturn ih =>
    cases hturn with
    | mk hnext hok =>
      rw [← ih]
      exact applyEvent_config _ _

theorem ends_config {s : JsonToolCallParser × ToolParserOutput} {call : Call JsonToolCallParser}
    (h : (events w decode).Ends s call) : call.parser.config = s.1.config := by
  cases h with
  | wait hnext | parseFailed hnext => rfl
  | applyFailed hnext hok => exact applyEvent_config _ _

theorem parseInto_config (chunk : List Char) (out : ToolParserOutput) :
    ((events w decode).parseInto chunk p out).parser.config = p.config := by
  rcases @parseInto_spec _ _ (events w decode) chunk p out with ⟨q, hreach, hends⟩
  rw [ends_config hends, turns_config hreach]
  rfl

theorem wait_of_ends {q : JsonToolCallParser} {out : ToolParserOutput}
    {call : Call JsonToolCallParser} (h : (events w decode).Ends (q, out) call)
    (hok : call.ok = true) (htext : call.parser.mode = .text) :
    (events w decode).next q = .ok none ∧ q.mode = .text ∧ call.parser = q := by
  cases h with
  | wait hnext =>
    have hq := text_of_parseNext htext
    exact ⟨hnext, hq, parseNext_text hq⟩
  | parseFailed hnext => cases hok
  | applyFailed hnext hfailed =>
    rw [hfailed] at hok
    cases hok

/-- A turn that starts in plain text with a stray start marker. -/
def Stray (q : JsonToolCallParser) : Prop := q.mode = .text ∧ q.config.Stray q.buffer

/-- What a successful call is to leave in plain text. -/
def LeavesRetained (call : Call JsonToolCallParser) : Prop :=
  call.ok = true → call.parser.mode = .text → call.parser.config.Retained call.parser.buffer

theorem leavesRetained_iff (hmarker : p.config.startMarker ≠ []) (chunk : List Char)
    (out : ToolParserOutput) : LeavesRetained ((events w decode).parseInto chunk p out) ↔
      ∀ q out', Relation.ReflTransGen (events w decode).Turn
        ((events w decode).pushStr chunk p, out) (q, out') → ¬q.Stray := by
  rcases @parseInto_spec _ _ (events w decode) chunk p out with
    ⟨⟨q, out'⟩, hreach, hends⟩
  generalize (events w decode).parseInto chunk p out = call at hends ⊢
  have hconfig : ∀ {r out''}, Relation.ReflTransGen (events w decode).Turn
      ((events w decode).pushStr chunk p, out) (r, out'') → r.config.startMarker ≠ [] := by
    intro r out'' hr
    have heq : r.config = p.config := turns_config hr
    rwa [heq]
  constructor
  · intro hleaves r out'' hr hstray
    have hwait := @next_of_stray w decode r hstray.1 (hconfig hr) hstray.2
    have heq := eq_of_wait hwait hr hreach hends
    cases heq
    -- the call waits with the stray marker
    cases hends with
    | wait hnext =>
      have hretained := hleaves rfl (by rw [parseNext_text hstray.1, hstray.1])
      rw [parseNext_text hstray.1] at hretained
      exact hretained.not_stray hstray.2
    | parseFailed hnext | applyFailed hnext hok =>
      rw [hwait] at hnext
      cases hnext
  · intro hturns hok htext
    rcases wait_of_ends hends hok htext with ⟨hwait, hq, heq⟩
    rw [heq]
    rcases retained_or_stray hq (hconfig hreach) hwait with hretained | hstray
    · exact hretained
    · exact absurd ⟨hq, hstray⟩ (hturns q out' hreach)

/-- Whatever is fed to a parser and in whatever chunks: every successful call that leaves it in
plain text leaves a text that may still begin a call, if and only if no turn starts in plain text
with a start marker that the whitespace it needs cannot follow. -/
theorem retained_iff (w : Winnow) (decode : List Char → Option (List Char))
    (p : JsonToolCallParser) (hmarker : p.config.startMarker ≠ []) (out : ToolParserOutput)
    (chunks : List (List Char)) :
    (∀ call ∈ (events w decode).feed p out chunks, LeavesRetained call) ↔
      ∀ q, (events w decode).StartsTurn p out q chunks → ¬q.Stray := by
  induction chunks generalizing p out with
  | nil => simp [feed, StartsTurn]
  | cons chunk chunks ih =>
    have hrest := ih ((events w decode).parseInto chunk p out).parser
      (by rwa [parseInto_config]) ((events w decode).parseInto chunk p out).output
    simp only [feed, List.forall_mem_cons, hrest, StartsTurn, or_imp,
      forall_and, leavesRetained_iff hmarker, forall_exists_index]

def qwenXmlConfig : JsonToolCallConfig where
  parserName := "Qwen XML".toList
  startMarker := "<tool_call>".toList
  endMarker := "</tool_call>".toList
  markerWhitespace := .exact ['\n']
  delimiter := none
  nameKey := "name".toList
  argumentsKey := ["arguments".toList]

/-- A JSON string without escapes. -/
def plainString (s : List Char) : Option (List Char) := some s.tail.dropLast

/-- A start marker in two chunks, without the line break it needs. -/
theorem retained_iff_marker :
    (∀ call ∈ (events .reference plainString).feed { config := qwenXmlConfig } {}
      ["a<tool_c".toList, "all>".toList], LeavesRetained call) ∧
    ∀ q, (events .reference plainString).StartsTurn { config := qwenXmlConfig } {} q
      ["a<tool_c".toList, "all>".toList] → ¬q.Stray := by
  have hbuffers : ∀ call ∈ (events .reference plainString).feed { config := qwenXmlConfig } {}
      ["a<tool_c".toList, "all>".toList], call.parser.config = qwenXmlConfig ∧
        (call.parser.buffer = "<tool_c".toList ∨ call.parser.buffer = "<tool_call>".toList) := by
    decide
  have hleaves : ∀ call ∈ (events .reference plainString).feed { config := qwenXmlConfig } {}
      ["a<tool_c".toList, "all>".toList], LeavesRetained call := by
    intro call hcall _ _
    obtain ⟨hconfig, hbuffer | hbuffer⟩ := hbuffers call hcall
    · rw [hconfig, hbuffer]
      exact .marker (by decide) (by decide)
    · rw [hconfig, hbuffer]
      have hneeds : qwenXmlConfig.StillNeeds [] := ⟨List.nil_prefix, by decide⟩
      exact .whitespace hneeds
  exact ⟨hleaves, (retained_iff .reference plainString { config := qwenXmlConfig } (by decide) {}
    _).mp hleaves⟩

def wellFormedCall : List Char :=
  "<tool_call>\n\x7b\"name\": \"f\", \"arguments\": \x7b\x7d\x7d\n</tool_call>".toList

example : ((parseInto .reference plainString { config := qwenXmlConfig } wellFormedCall
    {}).output.calls.map (·.name)) = [some ['f'], none] := by decide

/-- After `<tool_call>!` nothing is emitted any more, not even a well-formed call. -/
theorem exists_not_leavesRetained :
    (∃ call ∈ (events .reference plainString).feed { config := qwenXmlConfig } {}
      ["<tool_call>!".toList, wellFormedCall], ¬LeavesRetained call) ∧
    ∀ call ∈ (events .reference plainString).feed { config := qwenXmlConfig } {}
      ["<tool_call>!".toList, wellFormedCall], call.ok = true ∧ call.output = {} := by
  refine ⟨⟨⟨{ config := qwenXmlConfig, buffer := "<tool_call>!".toList }, {}, true⟩, by decide, ?_⟩,
    by decide⟩
  intro hleaves
  have hretained := hleaves rfl rfl
  apply hretained.not_stray
  exact ⟨['\n'], ['!'], rfl, rfl, by decide, by decide⟩

end JsonToolCallParser
end Retained

end Vllm.ToolParser
