import Vllm.Text.DeltaStream

/-! Runs of one delta stream: outputs, an abort and the consumer's calls in any order. -/
namespace Vllm.Text
open IncrementalDetokenizer List

variable {α : Type} {withLogprobs : Bool}

namespace RequestOutput

def tokenIds (o : RequestOutput α) : List ℕ := o.outputs.flatMap CompletionOutput.tokenIds

def rows (o : RequestOutput α) : List α := o.outputs.flatMap fun c => c.logprobs.getD []

def text (o : RequestOutput α) : List Char := o.outputs.flatMap CompletionOutput.text

/-- One completion of a request of its own, with logprobs if they were asked for. -/
def Single (withLogprobs : Bool) (o : RequestOutput α) : Prop :=
  ∃ c, o.outputs = [c] ∧ c.index = 0 ∧ c.logprobs.isSome = withLogprobs

theorem Single.add {o next : RequestOutput α} (ho : o.Single withLogprobs)
    (hnext : next.Single withLogprobs) : ∃ merged, o.add next true = .ok merged ∧
      merged.Single withLogprobs ∧ merged.tokenIds = o.tokenIds ++ next.tokenIds ∧
      merged.rows = o.rows ++ next.rows ∧ merged.text = o.text ++ next.text := by
  rcases o with ⟨outputs, finished⟩
  rcases next with ⟨outputs', finished'⟩
  rcases ho with ⟨c, rfl, hindex, hsome⟩
  rcases hnext with ⟨c', rfl, hindex', hsome'⟩
  have hmerge : ∃ merged, c.merge c' = .ok merged ∧ merged.index = 0 ∧
      merged.logprobs.isSome = withLogprobs ∧ merged.tokenIds = c.tokenIds ++ c'.tokenIds ∧
      merged.logprobs.getD [] = c.logprobs.getD [] ++ c'.logprobs.getD [] ∧
      merged.text = c.text ++ c'.text := by
    unfold CompletionOutput.merge
    cases hrows' : c'.logprobs with
    | none => exact ⟨_, rfl, hindex, hsome, rfl, by simp, rfl⟩
    | some rows' =>
      cases rows' with
      | nil => exact ⟨_, rfl, hindex, hsome, rfl, by simp, rfl⟩
      | cons row rows' =>
        cases hrows : c.logprobs with
        | none =>
          rw [hrows] at hsome
          rw [hrows', ← hsome] at hsome'
          cases hsome'
        | some rows =>
          rw [hrows] at hsome
          exact ⟨_, rfl, hindex, hsome, rfl, rfl, rfl⟩
  rcases hmerge with ⟨merged, hmerge, hidx, hlog, htokens, hrows, htext⟩
  refine ⟨⟨[merged], finished || finished'⟩, ?_, ⟨merged, rfl, hidx, hlog⟩, ?_, ?_, ?_⟩
  · have hadd : addCompletion true c' [c] = .ok [merged] := by
      rw [addCompletion, if_pos (hindex.trans hindex'.symm), if_pos rfl, hmerge]
      rfl
    rw [RequestOutput.add, foldlM_cons, hadd]
    rfl
  · simpa [RequestOutput.tokenIds] using htokens
  · simpa [RequestOutput.rows] using hrows
  · simpa [RequestOutput.text] using htext

end RequestOutput

namespace Session
variable {s s' : Session α} {t : List ℕ} {r : List α} {x : List Char}

/-- What the consumer has received, and what waits for it. -/
def outputs (s : Session α) : List (RequestOutput α) := s.received ++ s.queue.output.toList

theorem outputs_get (s : Session α) : s.get.outputs = s.outputs := by
  unfold Session.get outputs
  cases hqueue : s.queue.output with
  | none => simp [hqueue]
  | some o => simp

structure Delivered (withLogprobs : Bool) (s : Session α) (t : List ℕ) (r : List α)
    (x : List Char) : Prop where
  aggregate : s.queue.aggregate = true
  single : ∀ o ∈ s.outputs, o.Single withLogprobs
  tokenIds : s.outputs.flatMap RequestOutput.tokenIds = t
  rows : s.outputs.flatMap RequestOutput.rows = r
  text : s.outputs.flatMap RequestOutput.text = x

theorem Delivered.congr (h : s.Delivered withLogprobs t r x) (houtputs : s'.outputs = s.outputs)
    (haggregate : s'.queue.aggregate = s.queue.aggregate) : s'.Delivered withLogprobs t r x := by
  constructor
  · rw [haggregate]
    exact h.aggregate
  · rw [houtputs]
    exact h.single
  · rw [houtputs]
    exact h.tokenIds
  · rw [houtputs]
    exact h.rows
  · rw [houtputs]
    exact h.text

theorem Delivered.put (h : s.Delivered withLogprobs t r x) {o : RequestOutput α}
    (ho : o.Single withLogprobs) (request : RequestState α) (live : Bool) :
    ∃ queue, s.queue.put o = .ok queue ∧
      ({ s with request := request, queue := queue, live := live } : Session α).Delivered
        withLogprobs (t ++ o.tokenIds) (r ++ o.rows) (x ++ o.text) := by
  have hsingle := h.single
  have htokens := h.tokenIds
  have hrows := h.rows
  have htext := h.text
  have haggregate := h.aggregate
  unfold RequestOutputCollector.put
  unfold outputs at hsingle htokens hrows htext
  cases hqueue : s.queue.output with
  | none =>
    rw [hqueue] at hsingle htokens hrows htext
    simp only [Option.toList_none, append_nil] at hsingle htokens hrows htext
    refine ⟨_, rfl, haggregate, ?_, ?_, ?_, ?_⟩
    · intro o' ho'
      rcases mem_append.mp ho' with hmem | hmem
      · exact hsingle o' hmem
      · rw [mem_singleton.mp hmem]
        exact ho
    · simp [outputs, htokens]
    · simp [outputs, hrows]
    · simp [outputs, htext]
  | some waiting =>
    rw [hqueue] at hsingle htokens hrows htext
    have hwaiting := hsingle waiting (mem_append_right _ (mem_singleton.mpr rfl))
    rcases hwaiting.add ho with ⟨merged, hmerged, hone, htokens', hrows', htext'⟩
    refine ⟨{ s.queue with output := some merged }, ?_, haggregate, ?_, ?_, ?_, ?_⟩
    · dsimp only
      rw [haggregate, hmerged]
      rfl
    · intro o' ho'
      rcases mem_append.mp ho' with hmem | hmem
      · exact hsingle o' (mem_append_left _ hmem)
      · rw [mem_singleton.mp hmem]
        exact hone
    · simp [outputs, ← htokens, htokens']
    · simp [outputs, ← hrows, hrows']
    · simp [outputs, ← htext, htext']

end Session

namespace RequestState

/-- The number of tokens that were sent before the last `n` ones came. -/
def sent (st : RequestState α) (n : ℕ) : ℕ :=
  if st.streamInterval > 1 then st.sentTokensOffset else st.detokenizer.numOutputTokens - n

/-- The tokens of the request, its logprobs, and a count of tokens that have been sent. -/
structure Holds (withLogprobs : Bool) (st : RequestState α) (t : List ℕ) (r : List α) : Prop where
  kind : st.outputKind = .delta
  index : st.requestIndex = 0
  tokens : st.detokenizer.outputTokenIds = t
  logprobs : st.logprobs = if withLogprobs then some r else none
  aligned : r.length = if withLogprobs then t.length else 0
  offset : st.sentTokensOffset ≤ t.length

variable {st : RequestState α} {t : List ℕ} {r : List α}

theorem Holds.sent_le (h : st.Holds withLogprobs t r) (n : ℕ) : st.sent n ≤ t.length := by
  unfold sent numOutputTokens
  rw [h.tokens]
  split
  · exact h.offset
  · exact Nat.sub_le _ _

theorem lastRows_drop (haligned : r.length = if withLogprobs then t.length else 0) {n : ℕ}
    (hn : n ≤ t.length) : lastRows (t.drop n).length r = if n = t.length then r else r.drop n := by
  unfold lastRows
  rw [length_drop]
  by_cases hall : n = t.length
  · rw [if_pos (by omega), if_pos hall]
  · rw [if_neg (by omega), if_neg hall]
    cases withLogprobs with
    | true =>
      rw [if_pos rfl] at haligned
      congr 1
      omega
    | false =>
      rw [if_neg (by simp)] at haligned
      rw [eq_nil_of_length_eq_zero haligned]
      simp

/-- The unsent tokens are sent, unless the stream waits. -/
theorem streamTokens_spec (h : st.Holds withLogprobs t r) {new : List ℕ} (hnew : new <:+ t)
    (finished : Bool) :
    match st.streamTokens new finished with
    | none => finished = false ∧ ∀ n, st.sent n = st.sentTokensOffset
    | some (st', toks) => toks = t.drop (st.sent new.length) ∧ st'.sent 0 = t.length ∧
        st'.detokenizer = st.detokenizer ∧ st'.streamInterval = st.streamInterval ∧
        st'.Holds withLogprobs t r ∧
        (finished = false → new ≠ [] → st.sent new.length < t.length) := by
  have hnum : st.detokenizer.numOutputTokens = t.length := congrArg List.length h.tokens
  have hlength := hnew.length_le
  unfold streamTokens
  by_cases hinterval : st.streamInterval > 1
  · have hsent : ∀ n, st.sent n = st.sentTokensOffset := fun n => if_pos hinterval
    rw [if_pos hinterval]
    dsimp only
    rw [hnum, h.tokens]
    by_cases hwait : finished = true ∨ st.sentTokensOffset = 0 ∨
        t.length - st.sentTokensOffset ≥ st.streamInterval
    · rw [if_neg (not_not.mpr hwait), if_pos h.kind]
      refine ⟨by rw [hsent], ?_, rfl, rfl, ?_, ?_⟩
      · exact if_pos hinterval
      · exact ⟨h.kind, h.index, h.tokens, h.logprobs, h.aligned, le_rfl⟩
      · intro hfinished hne
        have hpos := length_pos_iff.mpr hne
        rw [hsent]
        rcases hwait with hfin | hzero | hmany
        · rw [hfinished] at hfin
          cases hfin
        · omega
        · omega
    · rw [if_pos hwait]
      refine ⟨?_, hsent⟩
      by_contra hfinished
      exact hwait (.inl (by simpa using hfinished))
  · rw [if_neg hinterval]
    have hsent : ∀ n, st.sent n = t.length - n := fun n => (if_neg hinterval).trans (by rw [hnum])
    refine ⟨?_, ?_, rfl, rfl, h, fun _ hne => ?_⟩
    · rw [hsent]
      rcases hnew with ⟨init, rfl⟩
      rw [length_append, Nat.add_sub_cancel, drop_left]
    · rw [hsent, Nat.sub_zero]
    · have hpos := length_pos_iff.mpr hne
      rw [hsent]
      omega

/-- An output for the consumer holds the unsent tokens, their rows and the unsent text; only when
there are no such tokens are its rows those of all tokens. -/
theorem makeRequestOutput_spec (h : st.Holds withLogprobs t r) {new : List ℕ} (hnew : new <:+ t)
    (reason : Option Engine.FinishReason) (stopReason : Option StopReason)
    (hheld : reason = none → st.detokenizer.Held) (hsend : st.detokenizer.Sendable) :
    match st.makeRequestOutput new reason stopReason with
    | (st', none) => reason = none ∧ st' = st ∧ ∀ n, st.sent n = st.sentTokensOffset
    | (st', some o) => o.Single withLogprobs ∧ o.tokenIds = t.drop (st.sent new.length) ∧
        o.rows = (if st.sent new.length = t.length then r else r.drop (st.sent new.length)) ∧
        st.detokenizer.sentText ++ o.text = st'.detokenizer.sentText ∧
        st'.Holds withLogprobs t r ∧ st'.sent 0 = t.length ∧
        (reason = none → st'.detokenizer.Held ∧ (new ≠ [] → st.sent new.length < t.length)) ∧
        (reason.isSome → st'.detokenizer.sentText = st'.detokenizer.outputText) := by
  have hstream := streamTokens_spec h hnew reason.isSome
  unfold makeRequestOutput
  have hkind : (!reason.isSome && decide (st.outputKind = .finalOnly)) = false := by
    rw [h.kind]
    simp
  dsimp only
  rw [hkind, if_neg (by simp)]
  cases htokens : st.streamTokens new reason.isSome with
  | none =>
    rw [htokens] at hstream
    exact ⟨by simpa using hstream.1, rfl, hstream.2⟩
  | some pair =>
    rcases pair with ⟨st', toks⟩
    rw [htokens] at hstream
    rcases hstream with ⟨rfl, hsent, hdetok, hinterval, hholds, hmore⟩
    rcases getNextOutputText_spec (d := st'.detokenizer) reason.isSome
      (by
        rw [hdetok]
        exact fun hfinished => hheld (by simpa using hfinished))
      (by
        rw [hdetok]
        exact hsend) with ⟨hids, htext, hnext, hheld', hlast⟩
    have hdelta : decide (st'.outputKind = .delta) = true := by simp [hholds.kind]
    dsimp only [newCompletionOutput]
    rw [hdelta, if_pos hholds.kind, if_pos hholds.kind, hholds.logprobs]
    refine ⟨⟨_, rfl, hholds.index, ?_⟩, ?_, ?_, ?_, ?_, ?_, ?_, ?_⟩
    · cases withLogprobs with
      | true => rfl
      | false => rfl
    · simp [RequestOutput.tokenIds]
    · have hrows := lastRows_drop h.aligned (h.sent_le new.length)
      cases hwith : withLogprobs with
      | true => simpa [RequestOutput.rows] using hrows
      | false =>
        have hnil : r = [] := by
          have haligned := h.aligned
          rw [hwith] at haligned
          exact eq_nil_of_length_eq_zero haligned
        simp [RequestOutput.rows, hnil]
    · rw [← hnext, hdetok]
      simp [RequestOutput.text]
    · exact ⟨hholds.kind, hholds.index, hids.trans hholds.tokens, rfl, h.aligned, hholds.offset⟩
    · have hsame : (st'.detokenizer.getNextOutputText reason.isSome true).1.numOutputTokens =
          st'.detokenizer.numOutputTokens := congrArg List.length hids
      unfold sent at hsent ⊢
      dsimp only
      rw [hsame]
      exact hsent
    · intro hreason
      exact ⟨hheld' (by rw [hreason]; rfl), hmore (by rw [hreason]; rfl)⟩
    · intro hreason
      rw [htext]
      exact hlast hreason

end RequestState

namespace Session
variable {s s' : Session α} {t : List ℕ} {r : List α}

/-- A live request with its tokens and rows; the consumer gets all but the unsent ones. -/
structure Streaming (withLogprobs : Bool) (t : List ℕ) (r : List α) (s : Session α) : Prop where
  live : s.live = true
  holds : s.request.Holds withLogprobs t r
  held : s.request.detokenizer.Held
  delivered : s.Delivered withLogprobs (t.take (s.request.sent 0)) (r.take (s.request.sent 0))
    s.request.detokenizer.sentText

/-- A request that has ended; the consumer gets the rows `r`. -/
structure Ended (withLogprobs : Bool) (t : List ℕ) (r : List α) (s : Session α) : Prop where
  live : s.live = false
  delivered : s.Delivered withLogprobs t r s.request.detokenizer.outputText

section Put
variable {new : List ℕ} (h : s.request.Holds withLogprobs t r) (hnew : new <:+ t)
  (hdelivered : s.Delivered withLogprobs (t.take (s.request.sent new.length))
    (r.take (s.request.sent new.length)) s.request.detokenizer.sentText)

include h hnew hdelivered

theorem putOutput_streaming (hheld : s.request.detokenizer.Held) (hne : new ≠ [])
    (stopReason : Option StopReason) : ∃ s', s.putOutput new none stopReason = .ok s' ∧
      s'.Streaming withLogprobs t r := by
  have hmake := RequestState.makeRequestOutput_spec h hnew none stopReason
    (fun _ => hheld) hheld.sendable
  unfold putOutput
  cases houtput : s.request.makeRequestOutput new none stopReason with
  | mk st' output =>
    rw [houtput] at hmake
    cases output with
    | none =>
      rcases hmake with ⟨-, rfl, hsent⟩
      refine ⟨_, rfl, rfl, h, hheld, ?_⟩
      rw [hsent, ← hsent 0] at hdelivered
      exact hdelivered.congr rfl rfl
    | some o =>
      rcases hmake with ⟨hsingle, htokens, hrows, htext, hholds, hsent, hmore, -⟩
      rcases hdelivered.put hsingle st' true with ⟨queue, hput, hdelivered'⟩
      rcases hmore rfl with ⟨hheld', hlt⟩
      refine ⟨{ s with request := st', queue := queue, live := true }, ?_, rfl, hholds, hheld', ?_⟩
      · dsimp only
        rw [hput]
        rfl
      · have hall : r.length ≤ t.length := by
          rw [h.aligned]
          split
          · exact le_rfl
          · exact Nat.zero_le _
        rw [htokens, hrows, htext, if_neg (hlt hne).ne, take_append_drop,
          take_append_drop] at hdelivered'
        dsimp only
        rw [hsent, take_length, take_of_length_le hall]
        exact hdelivered'

theorem putOutput_ended (hsend : s.request.detokenizer.Sendable) (reason : Engine.FinishReason)
    (stopReason : Option StopReason) : ∃ s', s.putOutput new (some reason) stopReason = .ok s' ∧
      s'.Ended withLogprobs t (if s.request.sent new.length = t.length then r ++ r else r) := by
  have hmake := RequestState.makeRequestOutput_spec h hnew (some reason) stopReason nofun hsend
  unfold putOutput
  cases houtput : s.request.makeRequestOutput new (some reason) stopReason with
  | mk st' output =>
    rw [houtput] at hmake
    cases output with
    | none => cases hmake.1
    | some o =>
      rcases hmake with ⟨hsingle, htokens, hrows, htext, -, -, -, hlast⟩
      rcases hdelivered.put hsingle st' false with ⟨queue, hput, hdelivered'⟩
      refine ⟨{ s with request := st', queue := queue, live := false }, ?_, rfl, ?_⟩
      · dsimp only
        rw [hput]
        rfl
      · rw [htokens, hrows, htext, take_append_drop, hlast rfl] at hdelivered'
        dsimp only
        by_cases hall : s.request.sent new.length = t.length
        · have hle : r.length ≤ t.length := by
            rw [h.aligned]
            split
            · exact le_rfl
            · exact Nat.zero_le _
          rw [if_pos hall, hall, take_of_length_le hle] at hdelivered'
          rw [if_pos hall]
          exact hdelivered'
        · rw [if_neg hall, take_append_drop] at hdelivered'
          rw [if_neg hall]
          exact hdelivered'

end Put

end Session

namespace Event

def tokens : Event α → List Token
  | output o => o.newTokens
  | abort | get => []

def rows : Event α → List α
  | output o => o.newLogprobs.getD []
  | abort | get => []

def WellFormed (withLogprobs : Bool) : Event α → Prop
  | output o => o.WellFormed withLogprobs
  | abort | get => True

/-- An event that ends a request sends tokens: its own, or tokens that waited for the interval. -/
def SendsTokens (s : Session α) (e : Event α) : Prop :=
  e.tokens ≠ [] ∨ s.request.streamInterval > 1 ∧
    s.request.sentTokensOffset < s.request.detokenizer.numOutputTokens

instance (s : Session α) (e : Event α) : Decidable (e.SendsTokens s) :=
  inferInstanceAs (Decidable (_ ∨ _))

end Event

namespace Session
variable {s s' : Session α} {t : List ℕ} {r : List α}

theorem sends_iff {ids : List ℕ} {e : Event α} {st' : RequestState α}
    (h : s.request.Holds withLogprobs t r) (hids : ids.length = e.tokens.length)
    (hoffset : st'.sentTokensOffset = s.request.sentTokensOffset)
    (hinterval : st'.streamInterval = s.request.streamInterval)
    (hnum : st'.detokenizer.numOutputTokens = (t ++ ids).length) :
    st'.sent ids.length = (t ++ ids).length ↔ ¬e.SendsTokens s := by
  have hle := h.offset
  have hsame : s.request.detokenizer.numOutputTokens = t.length := congrArg List.length h.tokens
  unfold RequestState.sent Event.SendsTokens
  rw [hnum, hoffset, hinterval, hsame, ← length_pos_iff, ← hids, length_append]
  split
  · next hmany =>
    constructor
    · intro hall hsends
      rcases hsends with hpos | ⟨-, hlt⟩
      · omega
      · omega
    · intro hno
      have hnone : ¬0 < ids.length := fun hpos => hno (.inl hpos)
      have hsent : ¬s.request.sentTokensOffset < t.length := fun hlt => hno (.inr ⟨hmany, hlt⟩)
      omega
  · next hone =>
    constructor
    · intro hall hsends
      rcases hsends with hpos | ⟨hmany, -⟩
      · omega
      · exact hone hmany
    · intro hno
      have hnone : ¬0 < ids.length := fun hpos => hno (.inl hpos)
      omega

/-- What the consumer gets after a step that ends the request. -/
def finalRows (s : Session α) (e : Event α) (r : List α) : List α :=
  if e.SendsTokens s then r else r ++ r

theorem ended_rows {ids : List ℕ} {e : Event α} {n : ℕ}
    (hiff : n = (t ++ ids).length ↔ ¬e.SendsTokens s)
    (h : s'.Ended withLogprobs (t ++ ids) (if n = (t ++ ids).length then r ++ r else r)) :
    s'.Ended withLogprobs (t ++ ids) (s.finalRows e r) := by
  unfold finalRows
  by_cases hsends : e.SendsTokens s
  · rw [if_neg fun hn => hiff.mp hn hsends] at h
    rwa [if_pos hsends]
  · rw [if_pos (hiff.mpr hsends)] at h
    rwa [if_neg hsends]

theorem Streaming.abort (h : s.Streaming withLogprobs t r) : ∃ s', s.step .abort = .ok s' ∧
    s'.Ended withLogprobs t (s.finalRows .abort r) := by
  rcases putOutput_ended h.holds nil_suffix h.delivered h.held.sendable .abort none with
    ⟨s', hput, hended⟩
  refine ⟨s', ?_, ?_⟩
  · rw [step, Session.abort, h.live]
    exact hput
  · have hiff := @sends_iff _ withLogprobs s t r [] .abort s.request h.holds rfl rfl rfl
      (by
        rw [append_nil]
        exact congrArg List.length h.holds.tokens)
    rw [append_nil] at hiff
    have hrows := @ended_rows _ withLogprobs s s' t r [] .abort (s.request.sent 0)
    rw [append_nil] at hrows
    exact hrows hiff hended

theorem Streaming.get (h : s.Streaming withLogprobs t r) : s.get.Streaming withLogprobs t r := by
  have hkept : s.get.live = s.live ∧ s.get.request = s.request ∧
      s.get.queue.aggregate = s.queue.aggregate := by
    unfold Session.get
    split
    · exact ⟨rfl, rfl, rfl⟩
    · exact ⟨rfl, rfl, rfl⟩
  rcases hkept with ⟨hlive, hrequest, haggregate⟩
  constructor
  · rw [hlive]
    exact h.live
  · rw [hrequest]
    exact h.holds
  · rw [hrequest]
    exact h.held
  · rw [hrequest]
    exact h.delivered.congr (outputs_get s) haggregate

theorem updateLogprobs_eq {o : EngineCoreOutput α} (h : s.request.Holds withLogprobs t r)
    (hwf : o.WellFormed withLogprobs) : updateLogprobs s.request.logprobs o.newLogprobs =
      .ok (if withLogprobs then some (r ++ o.newLogprobs.getD []) else none) := by
  rw [h.logprobs]
  unfold updateLogprobs
  cases hrows : o.newLogprobs with
  | none => simp [pure, Except.pure]
  | some rows =>
    cases hwith : withLogprobs with
    | true => rfl
    | false =>
      have hnone := hwf.requested hwith
      rw [hrows] at hnone
      cases hnone

theorem Streaming.processOutput (h : s.Streaming withLogprobs t r) {o : EngineCoreOutput α}
    (hwf : o.WellFormed withLogprobs) : ∃ s', s.step (.output o) = .ok s' ∧
      (s'.Streaming withLogprobs (t ++ o.newTokens.map Token.id) (r ++ o.newLogprobs.getD []) ∨
        s'.Ended withLogprobs (t ++ o.newTokens.map Token.id)
          (s.finalRows (.output o) (r ++ o.newLogprobs.getD []))) := by
  set ids := o.newTokens.map Token.id with hids
  set flag : Bool := decide (o.finishReason = some .stop) with hflag
  set updated := s.request.detokenizer.update o.newTokens flag with hupdated
  set request : RequestState α := { s.request with
    detokenizer := updated.1
    logprobs := if withLogprobs then some (r ++ o.newLogprobs.getD []) else none } with hrequest
  have hlogprobs := updateLogprobs_eq h.holds hwf
  rcases update_text h.held o.newTokens flag with ⟨hsent, hsend, hheld⟩
  have htokens : updated.1.outputTokenIds = t ++ ids := by
    rw [hupdated, update_tokens, h.holds.tokens]
  have hholds : request.Holds withLogprobs (t ++ ids) (r ++ o.newLogprobs.getD []) := by
    constructor
    · exact h.holds.kind
    · exact h.holds.index
    · exact htokens
    · rfl
    · rw [length_append, length_append, h.holds.aligned, hwf.rows, hids, length_map]
      split
      · rfl
      · rfl
    · rw [length_append]
      exact le_trans h.holds.offset (Nat.le_add_right _ _)
  have hbefore : request.sent ids.length = s.request.sent 0 := by
    unfold RequestState.sent numOutputTokens
    rw [h.holds.tokens, htokens, length_append, Nat.add_sub_cancel, Nat.sub_zero]
  have hle := h.holds.sent_le 0
  have hdelivered : ({ s with request := request } : Session α).Delivered withLogprobs
      ((t ++ ids).take (request.sent ids.length))
      ((r ++ o.newLogprobs.getD []).take (request.sent ids.length)) updated.1.sentText := by
    have hrows : (r ++ o.newLogprobs.getD []).take (s.request.sent 0) =
        r.take (s.request.sent 0) := by
      have haligned := h.holds.aligned
      have hnew := hwf.rows
      cases hwith : withLogprobs with
      | true =>
        rw [hwith, if_pos rfl] at haligned
        exact take_append_of_le_length (by omega)
      | false =>
        rw [hwith, if_neg (by simp)] at hnew
        rw [eq_nil_of_length_eq_zero hnew, append_nil]
    rw [hbefore, take_append_of_le_length hle, hrows, hsent]
    exact h.delivered.congr rfl rfl
  have hsuffix : ids <:+ t ++ ids := suffix_append _ _
  have hstep : s.step (.output o) = ({ s with request := request } : Session α).putOutput ids
      (o.reasons updated.2).1 (o.reasons updated.2).2 := by
    rw [step, Session.processOutput, h.live]
    dsimp only
    rw [hlogprobs]
    rfl
  have hiff : request.sent ids.length = (t ++ ids).length ↔ ¬(Event.output o).SendsTokens s :=
    sends_iff h.holds (by rw [hids, length_map]; rfl) rfl rfl (congrArg List.length htokens)
  rw [hstep]
  cases hstop : updated.2 with
  | some stop =>
    rcases putOutput_ended hholds hsuffix hdelivered hsend .stop (some (.text stop)) with
      ⟨s', hput, hended⟩
    exact ⟨s', hput, .inr (ended_rows hiff hended)⟩
  | none =>
    unfold EngineCoreOutput.reasons
    cases hreason : o.finishReason with
    | some reason =>
      rcases putOutput_ended hholds hsuffix hdelivered hsend reason o.stopReason with
        ⟨s', hput, hended⟩
      exact ⟨s', hput, .inr (ended_rows hiff hended)⟩
    | none =>
      have hne : ids ≠ [] := by
        rw [hids]
        exact fun hnil => hwf.tokens hreason (map_eq_nil_iff.mp hnil)
      rcases putOutput_streaming hholds hsuffix hdelivered (hheld hstop) hne o.stopReason with
        ⟨s', hput, hstreaming⟩
      exact ⟨s', hput, .inl hstreaming⟩

theorem Streaming.step (h : s.Streaming withLogprobs t r) {e : Event α}
    (hwf : e.WellFormed withLogprobs) : ∃ s', s.step e = .ok s' ∧
      (s'.Streaming withLogprobs (t ++ e.tokens.map Token.id) (r ++ e.rows) ∨
        s'.Ended withLogprobs (t ++ e.tokens.map Token.id) (s.finalRows e (r ++ e.rows))) := by
  cases e with
  | output o => exact h.processOutput hwf
  | abort =>
    rcases h.abort with ⟨s', hstep, hended⟩
    simp only [Event.tokens, Event.rows, map_nil, append_nil]
    exact ⟨s', hstep, .inr hended⟩
  | get =>
    simp only [Event.tokens, Event.rows, map_nil, append_nil]
    exact ⟨s.get, rfl, .inl h.get⟩

theorem Ended.step (h : s.Ended withLogprobs t r) (e : Event α) :
    ∃ s', s.step e = .ok s' ∧ s'.Ended withLogprobs t r := by
  cases e with
  | output o =>
    refine ⟨s, ?_, h⟩
    rw [Session.step, Session.processOutput, h.live]
    rfl
  | abort =>
    refine ⟨s, ?_, h⟩
    rw [Session.step, Session.abort, h.live]
    rfl
  | get =>
    refine ⟨s.get, rfl, ?_, ?_⟩
    · unfold Session.get
      split
      · exact h.live
      · exact h.live
    · have hrequest : s.get.request = s.request ∧ s.get.queue.aggregate = s.queue.aggregate := by
        unfold Session.get
        split
        · exact ⟨rfl, rfl⟩
        · exact ⟨rfl, rfl⟩
      rw [hrequest.1]
      exact h.delivered.congr (outputs_get s) hrequest.2

theorem Ended.run (h : s.Ended withLogprobs t r) (es : List (Event α)) :
    ∃ s', s.run es = .ok s' ∧ s'.Ended withLogprobs t r := by
  induction es generalizing s with
  | nil => exact ⟨s, rfl, h⟩
  | cons e es ih =>
    rcases h.step e with ⟨s₁, hstep, hended⟩
    rcases ih hended with ⟨s', hrun, hended'⟩
    refine ⟨s', ?_, hended'⟩
    rw [Session.run, foldlM_cons, hstep]
    exact hrun

theorem Streaming.run (h : s.Streaming withLogprobs t r) {es : List (Event α)}
    (hwf : ∀ e ∈ es, e.WellFormed withLogprobs) : ∃ s', s.run es = .ok s' ∧
      (s'.Streaming withLogprobs (t ++ (es.flatMap Event.tokens).map Token.id)
          (r ++ es.flatMap Event.rows) ∨ ∃ t' r', s'.Ended withLogprobs t' r') := by
  induction es generalizing s t r with
  | nil =>
    refine ⟨s, rfl, .inl ?_⟩
    simpa using h
  | cons e es ih =>
    rcases h.step (hwf e mem_cons_self) with ⟨s₁, hstep, hstreaming | hended⟩
    · rcases ih hstreaming fun e he => hwf e (mem_cons_of_mem _ he) with ⟨s', hrun, hcases⟩
      refine ⟨s', ?_, ?_⟩
      · rw [Session.run, foldlM_cons, hstep]
        exact hrun
      · simpa only [flatMap_cons, map_append, append_assoc] using hcases
    · rcases hended.run es with ⟨s', hrun, hended'⟩
      refine ⟨s', ?_, .inr ⟨_, _, hended'⟩⟩
      rw [Session.run, foldlM_cons, hstep]
      exact hrun

theorem init_streaming (params : Option StopParams) (withLogprobs : Bool) (streamInterval : ℕ) :
    (init .delta params withLogprobs streamInterval : Session α).Streaming withLogprobs [] [] := by
  constructor
  · rfl
  · constructor
    · rfl
    · rfl
    · cases params with
      | none | some params => rfl
    · rfl
    · cases withLogprobs with
      | true | false => rfl
    · exact Nat.zero_le _
  · cases params with
    | none => trivial
    | some params => exact Nat.zero_le _
  · constructor
    · rfl
    · intro o ho
      cases ho
    · exact take_nil.symm
    · exact take_nil.symm
    · cases params with
      | none | some params => rfl

/-- The consumer has received the tokens and the rows of the events, and the final text. -/
structure Faithful (events : List (Event α)) (s : Session α) : Prop where
  tokenIds : s.received.flatMap RequestOutput.tokenIds =
    (events.flatMap Event.tokens).map Token.id
  rows : s.received.flatMap RequestOutput.rows = events.flatMap Event.rows
  text : s.received.flatMap RequestOutput.text = s.request.detokenizer.outputText

theorem Ended.faithful_iff (h : s.Ended withLogprobs t r) (hqueue : s.queue.output = none)
    (events : List (Event α)) (ht : t = (events.flatMap Event.tokens).map Token.id) :
    s.Faithful events ↔ r = events.flatMap Event.rows := by
  have houtputs : s.outputs = s.received := by
    rw [outputs, hqueue]
    exact append_nil _
  have htokens := h.delivered.tokenIds
  have hrows := h.delivered.rows
  have htext := h.delivered.text
  rw [houtputs] at htokens hrows htext
  constructor
  · intro hfaithful
    exact hrows.symm.trans hfaithful.rows
  · intro hsame
    exact ⟨htokens.trans ht, hrows.trans hsame, htext⟩

theorem rows_length {es : List (Event α)} (hwf : ∀ e ∈ es, e.WellFormed withLogprobs) :
    (es.flatMap Event.rows).length = if withLogprobs then (es.flatMap Event.tokens).length
      else 0 := by
  induction es with
  | nil => simp
  | cons e es ih =>
    have hrest := ih fun e he => hwf e (mem_cons_of_mem _ he)
    have hhead : e.rows.length = if withLogprobs then e.tokens.length else 0 := by
      have he := hwf e mem_cons_self
      cases e with
      | output o => exact he.rows
      | abort => simp [Event.rows, Event.tokens]
      | get => simp [Event.rows, Event.tokens]
    rw [flatMap_cons, flatMap_cons, length_append, length_append, hhead, hrest]
    split
    · rfl
    · rfl

theorem finalRows_eq_iff {tokens : List Token} {e : Event α}
    (haligned : r.length = if withLogprobs then tokens.length else 0) :
    s.finalRows e r = r ↔ withLogprobs = false ∨ tokens = [] ∨ e.SendsTokens s := by
  have hnil : r = [] ↔ withLogprobs = false ∨ tokens = [] := by
    rw [← length_eq_zero_iff, haligned]
    cases withLogprobs with
    | true | false => simp
  unfold finalRows
  by_cases hsends : e.SendsTokens s
  · rw [if_pos hsends]
    exact ⟨fun _ => .inr (.inr hsends), fun _ => rfl⟩
  · rw [if_neg hsends, append_right_eq_self, hnil]
    constructor
    · exact fun h => h.imp id .inl
    · exact fun h => h.imp id fun h => h.resolve_right hsends

/-- A delta stream, ended by its event `last` and read to its end in any way, gives the consumer
all tokens, their rows and the final text, if and only if the last output sends tokens or there
are no rows. -/
theorem delta_stream_faithful_iff (params : Option StopParams) (withLogprobs : Bool)
    (streamInterval : ℕ) (before : List (Event α)) (last : Event α) (after : List (Event α))
    (hwf : ∀ e ∈ before ++ [last] ++ after, e.WellFormed withLogprobs) :
    ∃ s₁ s₂ s₃, (init .delta params withLogprobs streamInterval).run before = .ok s₁ ∧
      s₁.step last = .ok s₂ ∧ s₂.run after = .ok s₃ ∧
      (s₁.live = true → s₂.live = false → s₃.queue.output = none →
        (s₃.Faithful (before ++ [last]) ↔ withLogprobs = false ∨
          (before ++ [last]).flatMap Event.tokens = [] ∨ last.SendsTokens s₁)) := by
  have hwf₁ : ∀ e ∈ before ++ [last], e.WellFormed withLogprobs :=
    fun e he => hwf e (mem_append_left _ he)
  have hwf₂ : ∀ e ∈ after, e.WellFormed withLogprobs := fun e he => hwf e (mem_append_right _ he)
  rcases (init_streaming params withLogprobs streamInterval).run
    (fun e he => hwf₁ e (mem_append_left _ he)) with
    ⟨s₁, hrun₁, hstreaming | ⟨t, r, hended⟩⟩
  · rcases hstreaming.step (hwf₁ last (by simp)) with ⟨s₂, hstep, hstreaming₂ | hended₂⟩
    · rcases hstreaming₂.run hwf₂ with ⟨s₃, hrun₃, -⟩
      refine ⟨s₁, s₂, s₃, hrun₁, hstep, hrun₃, fun _ hdead => ?_⟩
      rw [hstreaming₂.live] at hdead
      cases hdead
    · rcases hended₂.run after with ⟨s₃, hrun₃, hended₃⟩
      refine ⟨s₁, s₂, s₃, hrun₁, hstep, hrun₃, fun _ _ hqueue => ?_⟩
      have hall : [] ++ before.flatMap Event.rows ++ last.rows =
          (before ++ [last]).flatMap Event.rows := by simp
      rw [hended₃.faithful_iff hqueue (before ++ [last]) (by simp), hall]
      exact finalRows_eq_iff (rows_length hwf₁)
  · rcases hended.step last with ⟨s₂, hstep, hended₂⟩
    rcases hended₂.run after with ⟨s₃, hrun₃, -⟩
    refine ⟨s₁, s₂, s₃, hrun₁, hstep, hrun₃, fun hlive => ?_⟩
    rw [hended.live] at hlive
    cases hlive

/-- An output of one token without text. -/
def tokenOutput (id row : ℕ) (finishReason : Option Engine.FinishReason) : Event ℕ :=
  .output ⟨[⟨id, []⟩], some [row], finishReason, none⟩

/-- A request is aborted when its only token has been sent: the row of the token comes twice. -/
theorem delta_stream_unfaithful :
    ∃ s, (init .delta none true 1).run [tokenOutput 5 50 none, .abort, .get] = .ok s ∧
      s.live = false ∧ s.queue.output = none ∧ s.received.flatMap RequestOutput.tokenIds = [5] ∧
      s.received.flatMap RequestOutput.rows = [50, 50] :=
  ⟨_, rfl, rfl, rfl, rfl, rfl⟩

/-- The last output of the request brings a second token. -/
theorem delta_stream_faithful_stop : ∃ s₁ s₂ s₃,
    (init .delta none true 1).run [tokenOutput 5 50 none] = .ok s₁ ∧
      s₁.step (tokenOutput 6 60 (some .stop)) = .ok s₂ ∧ s₂.run [.get] = .ok s₃ ∧
      (s₁.live = true → s₂.live = false → s₃.queue.output = none →
        (s₃.Faithful ([tokenOutput 5 50 none] ++ [tokenOutput 6 60 (some .stop)]) ↔
          true = false ∨ ([tokenOutput 5 50 none] ++ [tokenOutput 6 60 (some .stop)]).flatMap
            Event.tokens = [] ∨ (tokenOutput 6 60 (some .stop)).SendsTokens s₁)) := by
  refine delta_stream_faithful_iff none true 1 [tokenOutput 5 50 none]
    (tokenOutput 6 60 (some .stop)) [.get] ?_
  intro e he
  simp only [cons_append, nil_append, mem_cons, not_mem_nil, or_false] at he
  rcases he with rfl | rfl | rfl
  · exact ⟨rfl, nofun, fun _ => cons_ne_nil _ _⟩
  · exact ⟨rfl, nofun, nofun⟩
  · trivial

end Session

end Vllm.Text
