import Vllm.Text.StopSearch

/-! The events of the decoded text stream carry the text up to the last occurrence that the stopping
token completes, so stream and detokenizer agree exactly when there is one. -/
namespace Vllm.Text
open Occurrences Utf8 TextDelta DecodeStream List

variable {options : TextDecodeOptions} {intermediate : Bool} {minTokens count idx : ℕ}
  {text new e : List Char} {tokens : List Token} {d : DecodeStream}

/-- What a stop string at its last occurrence `i` leaves of the text. -/
def LastEnd (ss text : List Char) (old i : ℕ) : Prop :=
  EndsAfter ss text old i ∧ ∀ j, i < j → ¬EndsAfter ss text old j

theorem stopMatch_eq (hne : ∀ ss ∈ options.stopStrings.getD [], ss ≠ []) (count idx : ℕ)
    (text new : List Char) :
    match if count + idx + 1 > options.minTokens then
      reported (options.stopStrings.getD []) (text ++ new) text.length else none with
    | none => stopMatch options count idx (size new) (text ++ new) = none
    | some ss => ∃ i, LastEnd ss (text ++ new) text.length i ∧
        stopMatch options count idx (size new) (text ++ new) = some
          ⟨ss, size ((text ++ new).take (cutAt options.includeStopStrInOutput ss i)), idx + 1⟩ := by
  unfold stopMatch
  by_cases hmin : count + idx + 1 > options.minTokens
  swap
  · rw [if_neg hmin, if_neg hmin]
  rw [if_pos hmin, if_pos hmin]
  cases hstops : options.stopStrings with
  | none => rfl
  | some stops =>
    rw [hstops] at hne
    have hmatch := matchesStopString_eq hne text new
    rw [Option.getD_some]
    rw [Option.getD_some] at hmatch hne
    cases hreported : reported stops (text ++ new) text.length with
    | none =>
      rw [hreported] at hmatch
      dsimp only at hmatch ⊢
      rw [Option.bind_some, hmatch, Option.bind_none]
    | some ss =>
      rw [hreported] at hmatch
      obtain ⟨i, ssIdx, hlast, hget, hmatch⟩ := hmatch
      refine ⟨i, hlast, ?_⟩
      rw [Option.bind_some, hmatch, Option.bind_some]
      dsimp only
      rw [hget, Option.map_some, cutAt]
      split
      · rw [take_cutAt hlast.1.1, size_append]
      · rfl

/-- The part `e` of the text has been sent, and the last bytes are held back. -/
structure Shown (d : DecodeStream) (e : List Char) : Prop where
  start : e <+: d.cumulativeOutput
  index : d.outputIndex = size e
  held : size e ≤ size d.cumulativeOutput - d.minBytesToBuffer

theorem Shown.push (h : Shown d e) (token : Token) : Shown (d.pushToken token).1 e where
  start := h.start.trans (prefix_append _ _)
  index := h.index
  held := by
    have hheld := h.held
    simp only [pushToken, size_append]
    omega

theorem Shown.nextChunk (h : Shown d e) : ∃ part, Shown d.nextChunk.1 (e ++ part) ∧
    d.nextChunk.2.getD [] = part ∧
    d.nextChunk.1.cumulativeOutput = d.cumulativeOutput ∧
    d.nextChunk.1.minBytesToBuffer = d.minBytesToBuffer := by
  unfold DecodeStream.nextChunk
  dsimp only
  split
  · next hcut =>
    set cut := takeBytes d.cumulativeOutput (size d.cumulativeOutput - d.minBytesToBuffer)
      with hcutdef
    have hprefix : cut <+: d.cumulativeOutput := prefix_of_takeBytes _ _
    have hcutsize : size cut ≤ size d.cumulativeOutput - d.minBytesToBuffer :=
      floorCharBoundary_le _ _
    have hlt : size e < size cut := by
      rw [← h.index]
      exact hcut
    have hsub := prefix_of_size_le h.start hprefix hlt.le
    have hslice : Utf8.slice d.cumulativeOutput d.outputIndex (floorCharBoundary d.cumulativeOutput
        (size d.cumulativeOutput - d.minBytesToBuffer)) = cut.drop e.length := by
      rw [h.index, slice_of_prefix h.start]
      congr 1
      obtain ⟨t, ht⟩ := hprefix
      rw [← ht]
      change takeBytes (cut ++ t) (size (takeBytes (cut ++ t) _)) = cut
      rw [ht]
      change takeBytes d.cumulativeOutput (size cut) = cut
      rw [← ht, takeBytes_size]
    have happend : e ++ cut.drop e.length = cut := by
      obtain ⟨t, ht⟩ := hsub
      rw [← ht, drop_left]
    refine ⟨cut.drop e.length, ⟨?_, ?_, ?_⟩, ?_, rfl, rfl⟩
    · rw [happend]
      exact hprefix
    · rw [happend]
      rfl
    · rw [happend]
      exact hcutsize
    · rw [hslice, Option.getD_some]
  · exact ⟨[], by rwa [append_nil], rfl, rfl, rfl⟩

theorem pushChunk_getD (delta chunk : Option (List Char)) :
    (pushChunk delta chunk).getD [] = delta.getD [] ++ chunk.getD [] := by
  cases chunk with
  | none => simp [pushChunk]
  | some chunk => rfl

theorem flush_getD (he : e <+: d.cumulativeOutput) (hindex : d.outputIndex = size e) {n : ℕ}
    (hn : size e ≤ size (takeBytes d.cumulativeOutput n)) :
    e ++ (d.flush (some n)).1.getD [] = (d.flush (some n)).2 ∧
      (d.flush (some n)).2 = takeBytes d.cumulativeOutput n := by
  refine ⟨?_, rfl⟩
  set t := takeBytes d.cumulativeOutput n with ht
  have hsub : e <+: t := prefix_of_size_le he (prefix_of_takeBytes _ _) hn
  have hwhole : takeBytes t (size t) = t := by
    have h := takeBytes_size t []
    rwa [append_nil] at h
  unfold flush
  dsimp only
  rw [← ht]
  split
  · rw [Option.getD_some, hindex, slice_of_prefix hsub, hwhole]
    obtain ⟨r, hr⟩ := hsub
    rw [← hr, drop_left]
  · next hlt =>
    obtain ⟨r, hr⟩ := hsub
    rw [hindex, ← hr, size_append] at hlt
    have hnil : r = [] := by
      by_contra hne
      have hpos := size_pos hne
      omega
    rw [← hr, hnil]
    simp

theorem flush_none : d.flush none = d.flush (some (size d.cumulativeOutput)) := by
  have hwhole : takeBytes d.cumulativeOutput (size d.cumulativeOutput) = d.cumulativeOutput := by
    have h := takeBytes_size d.cumulativeOutput []
    rwa [append_nil] at h
  unfold flush
  dsimp only
  rw [hwhole]

variable {ss : List Char} {includeStop : Bool} {output : GenerateOutput}

theorem minBytesToBuffer_le (hss : ss ∈ options.stopStrings.getD [])
    (hinclude : options.includeStopStrInOutput = false) :
    size ss - 1 ≤ options.minBytesToBuffer := by
  unfold TextDecodeOptions.minBytesToBuffer
  rw [hinclude]
  cases hstops : options.stopStrings with
  | none =>
    rw [hstops] at hss
    cases hss
  | some stops =>
    rw [hstops, Option.getD_some] at hss
    have hmax : size ss ≤ (stops.map size).max?.getD 1 := le_max?_getD_of_mem (mem_map_of_mem hss)
    simp only [Bool.false_eq_true, if_false, Option.bind_some]
    omega

/-- What was sent before is never more than what a stop string leaves. -/
theorem size_le_cut {i : ℕ} (hss : ss ∈ options.stopStrings.getD []) (hne : ss ≠ [])
    (hbuffer : d.minBytesToBuffer = options.minBytesToBuffer) (h : Shown d e)
    (hends : EndsAfter ss (d.cumulativeOutput ++ new) d.cumulativeOutput.length i) :
    size e ≤ size ((d.cumulativeOutput ++ new).take
      (cutAt options.includeStopStrInOutput ss i)) := by
  have hheld := h.held
  have hend := (endsAfter_bytes hne (by simp) hends.1).mpr hends.2
  rw [take_left] at hend
  unfold cutAt
  cases hinclude : options.includeStopStrInOutput with
  | true =>
    rw [if_pos rfl, take_cutAt hends.1, size_append]
    omega
  | false =>
    have hle := minBytesToBuffer_le hss hinclude
    rw [if_neg (by simp)]
    omega

/-- The loop over one output's tokens: either all of them are pushed, or a stop string is found at
its last occurrence. What was sent grows by what the loop adds to the delta. -/
theorem decodeTokens_spec (hne : ∀ ss ∈ options.stopStrings.getD [], ss ≠ [])
    (hbuffer : d.minBytesToBuffer = options.minBytesToBuffer) (h : Shown d e)
    (delta : Option (List Char)) : ∃ d' delta' found part,
      decodeTokens options intermediate count tokens idx d delta = (d', delta', found) ∧
      delta'.getD [] = delta.getD [] ++ part ∧ (intermediate = false → part = []) ∧
      d'.minBytesToBuffer = options.minBytesToBuffer ∧
      match firstStop (options.stopStrings.getD []) options.minTokens (count + idx)
        d.cumulativeOutput tokens with
      | none => found = none ∧ d'.cumulativeOutput = d.cumulativeOutput ++ texts tokens ∧
          Shown d' (e ++ part)
      | some stopped => ∃ i k, LastEnd stopped.ss stopped.text stopped.old i ∧
          d'.cumulativeOutput = stopped.text ∧ e ++ part <+: stopped.text ∧
          d'.outputIndex = size (e ++ part) ∧
          found = some ⟨stopped.ss, size (stopped.text.take
            (cutAt options.includeStopStrInOutput stopped.ss i)), k⟩ ∧
          size (e ++ part) ≤
            size (stopped.text.take (cutAt options.includeStopStrInOutput stopped.ss i)) := by
  induction tokens generalizing idx d e delta with
  | nil =>
    refine ⟨d, delta, none, [], rfl, by simp, fun _ => rfl, hbuffer, ?_⟩
    simpa [firstStop, texts] using h
  | cons token tokens ih =>
    have hpush := h.push token
    have hmatch := stopMatch_eq hne count idx d.cumulativeOutput token.text
    rw [firstStop]
    cases hreported : (if count + idx + 1 > options.minTokens then
        reported (options.stopStrings.getD []) (d.cumulativeOutput ++ token.text)
          d.cumulativeOutput.length else none) with
    | some ss =>
      rw [hreported] at hmatch
      obtain ⟨i, hlast, hmatch⟩ := hmatch
      have hss : ss ∈ options.stopStrings.getD [] := by
        split at hreported
        · exact (reported_mem hreported).1
        · cases hreported
      refine ⟨(d.pushToken token).1, delta, some ⟨ss, size ((d.cumulativeOutput ++ token.text).take
        (cutAt options.includeStopStrInOutput ss i)), idx + 1⟩, [], ?_, by simp, fun _ => rfl,
        hbuffer, ?_⟩
      · rw [decodeTokens]
        simp only [pushToken, hmatch]
      · refine ⟨i, idx + 1, hlast, rfl, ?_, ?_, rfl, ?_⟩
        · rw [append_nil]
          exact hpush.start
        · rw [append_nil]
          exact hpush.index
        · rw [append_nil]
          exact size_le_cut hss (hne ss hss) hbuffer h hlast.1
    | none =>
      rw [hreported] at hmatch
      dsimp only at hmatch ⊢
      cases intermediate with
      | true =>
        obtain ⟨chunk, hnext, hchunk, hcumul, hmin⟩ := hpush.nextChunk
        obtain ⟨d', delta', found, part, hdecode, hdelta, -, hbuffer', hspec⟩ :=
          @ih (idx + 1) _ _ (hmin.trans hbuffer) hnext
            (pushChunk delta (d.pushToken token).1.nextChunk.2)
        refine ⟨d', delta', found, chunk ++ part, ?_, ?_, by simp, hbuffer', ?_⟩
        · rw [decodeTokens]
          simp only [pushToken, hmatch]
          exact hdecode
        · rw [hdelta, pushChunk_getD, hchunk, append_assoc]
        · rw [hcumul] at hspec
          rw [← append_assoc, texts, flatMap_cons, ← append_assoc]
          exact hspec
      | false =>
        obtain ⟨d', delta', found, part, hdecode, hdelta, hpart, hbuffer', hspec⟩ :=
          @ih (idx + 1) e (d.pushToken token).1 hbuffer hpush delta
        refine ⟨d', delta', found, part, ?_, hdelta, hpart, hbuffer', ?_⟩
        · rw [decodeTokens]
          simp only [pushToken, hmatch, Bool.false_eq_true, if_false]
          exact hdecode
        · rw [texts, flatMap_cons, ← append_assoc]
          exact hspec

/-- The text that the events carry, and the reason in the last one. -/
def StreamResult (includeStop : Bool) (text : List Char) (reason : FinishReason) :
    Option Stopped → List Char × Option FinishReason → Prop
  | none, result => result = (text, some reason)
  | some found, result => ∃ i, LastEnd found.ss found.text found.old i ∧
      result = (found.text.take (cutAt includeStop found.ss i),
        some (.stop (some (.text found.ss))))

theorem StreamResult.exists_last {reason : FinishReason} {stopped : Option Stopped}
    {result : List Char} {events : List TextDelta}
    (h : StreamResult includeStop text reason stopped (result, events.getLast?.bind finished)) :
    ∃ event, events.getLast? = some event := by
  have hsome : ∃ r, events.getLast?.bind finished = some r := by
    cases stopped with
    | none => exact ⟨_, congrArg Prod.snd h⟩
    | some found =>
      obtain ⟨i, -, heq⟩ := h
      exact ⟨_, congrArg Prod.snd heq⟩
  obtain ⟨r, hr⟩ := hsome
  obtain ⟨event, hevent, -⟩ := Option.bind_eq_some_iff.mp hr
  exact ⟨event, hevent⟩

theorem takeBytes_take (text : List Char) (n : ℕ) :
    takeBytes text (size (text.take n)) = text.take n := by
  conv_lhs => rw [← take_append_drop n text]
  rw [take_append_drop]
  have h := takeBytes_size (text.take n) (text.drop n)
  rwa [take_append_drop] at h

theorem terminal_delta {d' : DecodeStream} {delta : Option (List Char)} {part : List Char} {n : ℕ}
    (hdelta : delta.getD [] = part) (hpart : intermediate = false → part = [])
    (hmode : intermediate = false → e = []) (hstart : e ++ part <+: d'.cumulativeOutput)
    (hindex : d'.outputIndex = size (e ++ part))
    (hn : size (e ++ part) ≤ size (takeBytes d'.cumulativeOutput n)) (text : List Char)
    (htext : takeBytes d'.cumulativeOutput n = text) :
    e ++ (if intermediate then (pushChunk delta (d'.flush (some n)).1).getD []
      else (d'.flush (some n)).2) = text := by
  obtain ⟨hchunk, hflush⟩ := flush_getD hstart hindex hn
  cases intermediate with
  | true =>
    rw [if_pos rfl, pushChunk_getD, hdelta, ← append_assoc, hchunk, hflush, htext]
  | false => rw [if_neg (by simp), hflush, htext, hmode rfl, nil_append]

theorem textEvents_terminal {d' : DecodeStream}
    {delta : Option (List Char)} {found : Option StopMatch} {reason : FinishReason}
    (hreason : (match found with
      | some found => some (.stop (some (.text found.stopStr)))
      | none => output.finishReason) = some reason)
    (hdecode : decodeTokens options intermediate count (decodableTokens options output) 0 d none =
      (d', delta, found)) (rest : List GenerateOutput) (tokenIds : List ℕ) : ∃ ids,
        textEvents options intermediate d count tokenIds (output :: rest) =
      some [⟨if intermediate then
          (pushChunk delta (d'.flush (found.map StopMatch.truncateOutputTo)).1).getD []
        else (d'.flush (found.map StopMatch.truncateOutputTo)).2, ids, some reason⟩] := by
  rw [textEvents, hdecode]
  dsimp only
  cases found with
  | none =>
    dsimp only at hreason
    rw [hreason]
    cases intermediate with
    | true => exact ⟨_, rfl⟩
    | false => exact ⟨_, rfl⟩
  | some found =>
    cases hreason
    cases intermediate with
    | true => exact ⟨_, rfl⟩
    | false => exact ⟨_, rfl⟩

theorem textEvents_more {d' : DecodeStream}
    {delta : Option (List Char)} (hreason : output.finishReason = none)
    (hdecode : decodeTokens options intermediate count (decodableTokens options output) 0 d none =
      (d', delta, none)) (rest : List GenerateOutput) (tokenIds : List ℕ) :
    ∃ ids, textEvents options intermediate d count tokenIds (output :: rest) =
      (textEvents options intermediate d' (count + output.tokens.length) ids rest).map fun events =>
        if intermediate then ⟨delta.getD [], output.tokens.map Token.id, none⟩ :: events
        else events := by
  rw [textEvents, hdecode]
  dsimp only
  rw [hreason, length_map]
  exact ⟨_, rfl⟩

/-- The events from the state before the outputs `init ++ [last]`, of which only the last one ends
the request. -/
theorem textEvents_spec (hne : ∀ ss ∈ options.stopStrings.getD [], ss ≠ [])
    {init : List GenerateOutput} {last : GenerateOutput} {reason : FinishReason}
    (hinit : ∀ o ∈ init, o.finishReason = none) (hlast : last.finishReason = some reason)
    (hbuffer : d.minBytesToBuffer = options.minBytesToBuffer) (h : Shown d e)
    (hmode : intermediate = false → e = []) (count : ℕ) (tokenIds : List ℕ) :
    ∃ events, textEvents options intermediate d count tokenIds (init ++ [last]) = some events ∧
      StreamResult options.includeStopStrInOutput
        (d.cumulativeOutput ++ texts ((init ++ [last]).flatMap (decodableTokens options))) reason
        (firstStop (options.stopStrings.getD []) options.minTokens count d.cumulativeOutput
          ((init ++ [last]).flatMap (decodableTokens options)))
        (e ++ events.flatMap delta, events.getLast?.bind finished) := by
  have hstopped : ∀ {d : DecodeStream} {e : List Char} {count : ℕ} {output : GenerateOutput}
      {stopped : Stopped}, d.minBytesToBuffer = options.minBytesToBuffer → Shown d e →
      (intermediate = false → e = []) → firstStop (options.stopStrings.getD []) options.minTokens
        count d.cumulativeOutput (decodableTokens options output) = some stopped →
      ∀ rest tokenIds text, ∃ events,
        textEvents options intermediate d count tokenIds (output :: rest) = some events ∧
        StreamResult options.includeStopStrInOutput text reason (some stopped)
          (e ++ events.flatMap delta, events.getLast?.bind finished) := by
    intro d e count output stopped hbuffer h hmode hstop rest tokenIds text
    obtain ⟨d', delta, found, part, hdecode, hdelta, hpart, -, hspec⟩ :=
      decodeTokens_spec hne hbuffer h none
    rw [Nat.add_zero, hstop] at hspec
    obtain ⟨i, k, hlast, hcumul, hstart, hindex, rfl, hn⟩ := hspec
    have htext : takeBytes d'.cumulativeOutput
        (size (stopped.text.take (cutAt options.includeStopStrInOutput stopped.ss i))) =
        stopped.text.take (cutAt options.includeStopStrInOutput stopped.ss i) := by
      rw [hcumul, takeBytes_take]
    rw [← hcumul] at hstart
    obtain ⟨ids, hevents⟩ := textEvents_terminal rfl hdecode rest tokenIds
    have hfresh : delta.getD [] = part := hdelta
    have hterminal := terminal_delta hfresh hpart hmode hstart hindex
      (by rw [htext]; exact hn) _ htext
    refine ⟨_, hevents, i, hlast, Prod.ext ?_ rfl⟩
    rw [flatMap_cons, flatMap_nil, append_nil]
    exact hterminal
  induction init generalizing d e count tokenIds with
  | nil =>
    rw [nil_append, flatMap_cons, flatMap_nil, append_nil]
    cases hstop : firstStop (options.stopStrings.getD []) options.minTokens count
        d.cumulativeOutput (decodableTokens options last) with
    | some stopped => exact hstopped hbuffer h hmode hstop _ _ _
    | none =>
      obtain ⟨d', delta, found, part, hdecode, hdelta, hpart, -, hspec⟩ :=
        decodeTokens_spec hne hbuffer h none
      rw [Nat.add_zero, hstop] at hspec
      obtain ⟨rfl, hcumul, hshown⟩ := hspec
      have htext : takeBytes d'.cumulativeOutput (size d'.cumulativeOutput) =
          d'.cumulativeOutput := by
        have hwhole := takeBytes_size d'.cumulativeOutput []
        rwa [append_nil] at hwhole
      have hheld := hshown.held
      have hfresh : delta.getD [] = part := hdelta
      obtain ⟨ids, hevents⟩ := @textEvents_terminal options intermediate count d last d' delta
        none reason hlast hdecode [] tokenIds
      have hterminal := terminal_delta hfresh hpart hmode hshown.start hshown.index
        (by rw [htext]; omega) _ htext
      refine ⟨_, hevents, Prod.ext ?_ rfl⟩
      rw [flatMap_cons, flatMap_nil, append_nil, Option.map_none, flush_none, ← hcumul]
      exact hterminal
  | cons output init ih =>
    have hnone := hinit output mem_cons_self
    have hdecodable : decodableTokens options output = output.tokens := by
      rw [decodableTokens, hnone]
      rfl
    rw [cons_append, flatMap_cons, firstStop_append]
    cases hstop : firstStop (options.stopStrings.getD []) options.minTokens count
        d.cumulativeOutput (decodableTokens options output) with
    | some stopped => exact hstopped hbuffer h hmode hstop _ _ _
    | none =>
      obtain ⟨d', delta, found, part, hdecode, hdelta, hpart, hbuffer', hspec⟩ :=
        decodeTokens_spec hne hbuffer h none
      rw [Nat.add_zero, hstop] at hspec
      obtain ⟨rfl, hcumul, hshown⟩ := hspec
      obtain ⟨ids, hmore⟩ := textEvents_more hnone hdecode (init ++ [last]) tokenIds
      obtain ⟨events, hevents, hresult⟩ := ih (fun o ho => hinit o (mem_cons_of_mem _ ho))
        hbuffer' hshown (by
          intro hfalse
          rw [hmode hfalse, hpart hfalse]
          rfl) (count + output.tokens.length) ids
      rw [hcumul, hdecodable] at hresult
      rw [hmore, hevents, Option.map_some]
      refine ⟨_, rfl, ?_⟩
      dsimp only
      have hevents' : e ++ (if intermediate then
            (⟨delta.getD [], output.tokens.map Token.id, none⟩ : TextDelta) :: events
          else events).flatMap TextDelta.delta = e ++ part ++ events.flatMap TextDelta.delta := by
        cases intermediate with
        | true =>
          rw [if_pos rfl, flatMap_cons, ← append_assoc]
          dsimp only
          rw [hdelta]
          rfl
        | false => rw [if_neg (by simp), hpart rfl, append_nil]
      have hlast' : (if intermediate then
            (⟨delta.getD [], output.tokens.map Token.id, none⟩ : TextDelta) :: events
          else events).getLast?.bind finished =
          events.getLast?.bind finished := by
        obtain ⟨event, hevent⟩ := hresult.exists_last
        cases intermediate with
        | true => rw [if_pos rfl, List.getLast?_cons, hevent, Option.getD_some]
        | false => rw [if_neg (by simp)]
      rw [hevents', hlast', hdecodable, texts, flatMap_append]
      simp only [texts, append_assoc] at hresult ⊢
      exact hresult

/-- The outputs of a request whose tokens come in the groups `init` and `last`. -/
def grouped (init : List (List Token)) (last : List Token) (reason : FinishReason) :
    List GenerateOutput :=
  init.map (fun tokens => ⟨tokens, none⟩) ++ [⟨last, some reason⟩]

/-- The calls of `update` for an output; the last token may be a stop token. -/
def updateCalls (output : GenerateOutput) : List (Token × Bool) :=
  if output.finishReason.any FinishReason.isStop then
    output.tokens.dropLast.map (·, false) ++ (output.tokens.getLast?.map (·, true)).toList
  else output.tokens.map (·, false)

theorem feed_include {d : BaseIncrementalDetokenizer}
    (hinclude : d.params.includeStopStrInOutput = true) (calls : List (Token × Bool)) :
    feed d calls = feed d (calls.map fun call => (call.1, false)) := by
  induction calls generalizing d with
  | nil => rfl
  | cons call calls ih =>
    obtain ⟨token, flag⟩ := call
    have hsame : d.update [token] flag = d.update [token] false := by
      unfold BaseIncrementalDetokenizer.update
      rw [hinclude]
      simp
    have hstep := update_singleton d token
    rw [map_cons, feed, feed, hsame]
    split at hstep
    · rw [hstep]
      exact ih hinclude
    · obtain ⟨i, -, hstep⟩ := hstep
      rw [hstep]

theorem feed_grouped (params : StopParams) (options : TextDecodeOptions)
    (hinclude : options.includeStopStrInOutput = params.includeStopStrInOutput)
    (init : List (List Token)) (last : List Token) (reason : FinishReason) :
    FeedResult params.includeStopStrInOutput
      (texts ((grouped init last reason).flatMap (decodableTokens options)))
      (firstStop params.stop params.minTokens 0 []
        ((grouped init last reason).flatMap (decodableTokens options)))
      ((feed { params := params } ((grouped init last reason).flatMap updateCalls)).1.outputText,
        (feed { params := params } ((grouped init last reason).flatMap updateCalls)).2) := by
  have hinit : (init.map fun tokens => (⟨tokens, none⟩ : GenerateOutput)).flatMap updateCalls =
      (init.flatMap id).map (·, false) := by
    rw [flatMap_map, map_flatMap]
    rfl
  have hdecodable : (init.map fun tokens => (⟨tokens, none⟩ : GenerateOutput)).flatMap
      (decodableTokens options) = init.flatMap id := by
    rw [flatMap_map]
    rfl
  simp only [grouped, flatMap_append, flatMap_cons, flatMap_nil, append_nil, hinit, hdecodable]
  have hnil : ∀ d' : BaseIncrementalDetokenizer, d'.params = params →
      (feed d' []).1.outputText = d'.outputText ∧ (feed d' []).2 = none := fun _ _ => ⟨rfl, rfl⟩
  by_cases hstop : reason.isStop = true ∧ params.includeStopStrInOutput = false
  · have hlast : decodableTokens options ⟨last, some reason⟩ = last.dropLast := by
      simp [decodableTokens, hstop.1, hinclude, hstop.2]
    have hcalls : updateCalls ⟨last, some reason⟩ =
        last.dropLast.map (·, false) ++ (last.getLast?.map (·, true)).toList := by
      simp [updateCalls, hstop.1]
    rw [hlast, hcalls, ← append_assoc, ← map_append]
    refine feed_spec { params := params } _ _ fun d' hparams => ?_
    cases last.getLast? with
    | none => exact hnil d' hparams
    | some token =>
      have hupdate := update_stop_token d' token (by rw [hparams]; exact hstop.2)
      simp [feed, hupdate]
  · have hlast : decodableTokens options ⟨last, some reason⟩ = last := by
      rw [decodableTokens, hinclude]
      refine if_neg fun h => hstop ?_
      simpa using h
    have hfeed : feed { params := params } ((init.flatMap id).map (·, false) ++
        updateCalls ⟨last, some reason⟩) =
        feed { params := params } ((init.flatMap id ++ last).map (·, false) ++ []) := by
      by_cases hreason : reason.isStop = true
      · have hinc : params.includeStopStrInOutput = true := by
          by_contra hno
          exact hstop ⟨hreason, by simpa using hno⟩
        rw [feed_include hinc]
        congr 1
        have hcalls : (updateCalls ⟨last, some reason⟩).map (fun call => (call.1, false)) =
            last.map (·, false) := by
          obtain rfl | ⟨front, token, rfl⟩ := last.eq_nil_or_concat
          · simp [updateCalls]
          · simp [updateCalls, hreason, Function.comp_def]
        rw [map_append, hcalls, map_append, append_nil, map_map]
        rfl
      · have hcalls : updateCalls ⟨last, some reason⟩ = last.map (·, false) := by
          rw [updateCalls]
          exact if_neg hreason
        rw [hcalls, map_append, append_nil]
    rw [hlast, hfeed]
    exact feed_spec { params := params } _ _ hnil

theorem take_cutAt_inj {old i j : ℕ} (hne : ss ≠ []) (hi : EndsAfter ss text old i)
    (hj : EndsAfter ss text old j)
    (h : text.take (cutAt includeStop ss i) = text.take (cutAt includeStop ss j)) : i = j := by
  have hlei := hi.le hne
  have hlej := hj.le hne
  have hlength := congrArg List.length h
  rw [length_take, length_take] at hlength
  unfold cutAt at hlength
  split at hlength <;> omega

theorem unique_of_first_last {stopped : Stopped} {i : ℕ}
    (hfirst : ∀ j < i, ¬EndsAfter stopped.ss stopped.text stopped.old j)
    (hlast : ∀ j, i < j → ¬EndsAfter stopped.ss stopped.text stopped.old j) : stopped.Unique := by
  have hsame : ∀ j, EndsAfter stopped.ss stopped.text stopped.old j → j = i := by
    intro j hj
    obtain hlt | heq | hgt := lt_trichotomy j i
    · exact absurd hj (hfirst j hlt)
    · exact heq
    · exact absurd hj (hlast j hgt)
  exact fun j k hj hk => (hsame j hj).trans (hsame k hk).symm

/-- What the decoded text stream ends with is what the detokenizer ends with, in both modes, if
and only if the token that completes a stop string completes only one occurrence of it. -/
theorem front_ends_agree_iff (options : TextDecodeOptions)
    (hne : ∀ ss ∈ options.stopStrings.getD [], ss ≠ []) (init : List (List Token))
    (last : List Token) (reason : FinishReason) :
    let outputs := grouped init last reason
    let python := feed { params := ⟨options.stopStrings.getD [], options.minTokens,
      options.includeStopStrInOutput, hne⟩ } (outputs.flatMap updateCalls)
    (∀ intermediate, ∃ events, decodedTextEventStream options intermediate outputs = some events ∧
      events.flatMap delta = python.1.outputText ∧
      events.getLast?.bind finished = some (match python.2 with
        | some stop => .stop (some (.text stop))
        | none => reason)) ↔
    ∀ stopped, firstStop (options.stopStrings.getD []) options.minTokens 0 []
      (outputs.flatMap (decodableTokens options)) = some stopped → stopped.Unique := by
  intro outputs python
  have hfeed := feed_grouped ⟨options.stopStrings.getD [], options.minTokens,
    options.includeStopStrInOutput, hne⟩ options rfl init last reason
  have hstream : ∀ intermediate, ∃ events,
      decodedTextEventStream options intermediate outputs = some events ∧
      StreamResult options.includeStopStrInOutput
        (texts (outputs.flatMap (decodableTokens options))) reason
        (firstStop (options.stopStrings.getD []) options.minTokens 0 []
          (outputs.flatMap (decodableTokens options)))
        (events.flatMap delta, events.getLast?.bind finished) := by
    intro intermediate
    refine textEvents_spec (d := { minBytesToBuffer := options.minBytesToBuffer })
      (e := []) hne ?_ rfl rfl ⟨ nil_prefix, rfl, Nat.zero_le _⟩ (fun _ => rfl) 0 []
    intro o ho
    obtain ⟨tokens, -, rfl⟩ := mem_map.mp ho
    rfl
  change FeedResult _ _ _ (python.1.outputText, python.2) at hfeed
  cases hstop : firstStop (options.stopStrings.getD []) options.minTokens 0 []
      (outputs.flatMap (decodableTokens options)) with
  | none =>
    rw [show firstStop _ _ 0 [] ((grouped init last reason).flatMap (decodableTokens options)) =
      none from hstop] at hfeed
    obtain ⟨htext, hnone⟩ := Prod.ext_iff.mp hfeed
    dsimp only at htext hnone
    refine ⟨fun _ => nofun, fun _ intermediate => ?_⟩
    obtain ⟨events, hevents, hresult⟩ := hstream intermediate
    rw [hstop] at hresult
    obtain ⟨hdeltas, hreason⟩ := Prod.ext_iff.mp hresult
    dsimp only at hreason
    exact ⟨events, hevents, hdeltas.trans htext.symm, by rw [hreason, hnone]⟩
  | some stopped =>
    rw [show firstStop _ _ 0 [] ((grouped init last reason).flatMap (decodableTokens options)) =
      some stopped from hstop] at hfeed
    obtain ⟨i, hfirst, hfeed⟩ := hfeed
    obtain ⟨htext, hsome⟩ := Prod.ext_iff.mp hfeed
    dsimp only at htext hsome
    have hss := hne stopped.ss (firstStop_spec hstop).1
    constructor
    · intro hagree
      obtain ⟨events, hevents, hdeltas, -⟩ := hagree true
      obtain ⟨events', hevents', hresult⟩ := hstream true
      obtain rfl := Option.some.inj (hevents.symm.trans hevents')
      rw [hstop] at hresult
      obtain ⟨j, hlast, hresult⟩ := hresult
      have hsame : i = j := take_cutAt_inj hss hfirst.1 hlast.1
        (htext.symm.trans (hdeltas.symm.trans (Prod.ext_iff.mp hresult).1))
      subst hsame
      rintro found hfound
      cases hfound
      exact unique_of_first_last hfirst.2 hlast.2
    · intro hunique intermediate
      obtain ⟨events, hevents, hresult⟩ := hstream intermediate
      rw [hstop] at hresult
      obtain ⟨j, hlast, hresult⟩ := hresult
      obtain ⟨hdeltas, hreason⟩ := Prod.ext_iff.mp hresult
      dsimp only at hreason
      obtain rfl := hunique stopped rfl i j hfirst.1 hlast.1
      exact ⟨events, hevents, hdeltas.trans htext.symm, by rw [hreason, hsome]⟩

/-- The stop string `e` and one token `ee`: the detokenizer cuts the text at the first `e`, the
stream at the second. -/
theorem front_ends_disagree :
    (feed { params := ⟨[['e']], 0, false, by decide⟩ }
      ((grouped [] [⟨0, ['e', 'e']⟩] .length).flatMap updateCalls)).1.outputText = [] ∧
    ∀ intermediate, decodedTextEventStream ⟨false, some [['e']], 0⟩ intermediate
      (grouped [] [⟨0, ['e', 'e']⟩] .length) =
        some [⟨['e'], [0], some (.stop (some (.text ['e'])))⟩] := by
  decide +kernel

/-- One token that completes the stop string once, after a token that is held back. -/
theorem front_ends_agree_once :
    let options : TextDecodeOptions := ⟨false, some [['e', 'n', 'd']], 0⟩
    let outputs := grouped [[⟨0, ['a', 'e']⟩]] [⟨1, ['n', 'd', 'e']⟩] .length
    let python := feed { params := ⟨[['e', 'n', 'd']], 0, false, by decide⟩ }
      (outputs.flatMap updateCalls)
    python.1.outputText = ['a'] ∧ ∀ intermediate, ∃ events,
      decodedTextEventStream options intermediate outputs = some events ∧
      events.flatMap delta = python.1.outputText ∧
      events.getLast?.bind finished = some (match python.2 with
        | some stop => .stop (some (.text stop))
        | none => .length) := by
  refine ⟨by decide +kernel, ?_⟩
  refine (front_ends_agree_iff ⟨false, some [['e', 'n', 'd']], 0⟩ (by decide)
    [[⟨0, ['a', 'e']⟩]] [⟨1, ['n', 'd', 'e']⟩] .length).mpr ?_
  intro stopped hstopped
  have hfound : firstStop [['e', 'n', 'd']] 0 0 [] [⟨0, ['a', 'e']⟩, ⟨1, ['n', 'd', 'e']⟩] =
      some ⟨['e', 'n', 'd'], ['a', 'e', 'n', 'd', 'e'], 2⟩ := by decide +kernel
  obtain rfl := Option.some.inj (hfound.symm.trans hstopped)
  have hone : ∀ i, EndsAfter ['e', 'n', 'd'] ['a', 'e', 'n', 'd', 'e'] 2 i → i = 1 := by
    intro i hi
    have hle := hi.le (cons_ne_nil _ _)
    have hcases : ∀ k < 3, EndsAfter ['e', 'n', 'd'] ['a', 'e', 'n', 'd', 'e'] 2 k → k = 1 := by
      decide
    exact hcases i (by simp at hle; omega) hi
  exact fun i j hi hj => (hone i hi).trans (hone j hj).symm

end Vllm.Text
