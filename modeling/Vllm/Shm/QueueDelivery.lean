import Vllm.Shm.QueueInvariant

/-! The queue delivers the stream: without a timeout on the socket, what a reader's calls returned
is the beginning of what was sent, and its own steps give it all the rest. -/
namespace Vllm.Shm
open Function List
variable {b : ShmRingBuffer}

/-- A large message whose slot is written and which is not sent yet. -/
def WriterPhase.pending : WriterPhase → List (List (List UInt8))
  | .send m => [m.allBuffers]
  | _ => []

/-- Slots that a call has taken without having returned. -/
def ReaderPhase.held : ReaderPhase → ℕ
  | .leave _ | .recv => 1
  | _ => 0

namespace MessageQueue
variable {q q' : MessageQueue b} {e : Event b} {r : Fin b.nReader}

/-- How many calls of a reader have returned something. -/
def returns (q : MessageQueue b) (r : Fin b.nReader) : ℕ := (q.readers r).returned.length

/-- The large messages that a reader has not received. -/
def owed (q : MessageQueue b) (r : Fin b.nReader) : List (List (List UInt8)) :=
  ((q.sent.drop (q.returns r)).filter (b.overflows ·)).map (·.allBuffers)

structure Delivered (q : MessageQueue b) : Prop where
  count : ∀ r, q.taken r = q.returns r + (q.readers r).phase.held
  returned : ∀ r, (q.readers r).returned.map (·.buffers) =
    (q.sent.take (q.returns r)).map (·.allBuffers)
  sockets : ∀ r, q.inbox r ++ q.flight r ++ q.writer.phase.pending = q.owed r

theorem returns_setPhase (q : MessageQueue b) (r r' : Fin b.nReader) (phase : ReaderPhase) :
    ((q.setPhase r phase).readers r').returned = (q.readers r').returned := by
  by_cases hr : r' = r
  · subst hr
    simp
  · simp [hr]

namespace Delivered

theorem init : Delivered ({} : MessageQueue b) where
  count _ := rfl
  returned _ := rfl
  sockets _ := rfl

variable (h : Delivered q)
include h

theorem setWriter {phase : WriterPhase} (hold : q.writer.phase.pending = [])
    (hnew : phase.pending = []) : Delivered (q.setWriter phase) where
  count := h.count
  returned := h.returned
  sockets r := by
    rw [setWriter_phase, hnew, ← hold]
    exact h.sockets r

theorem setMem (mem : Memory) : Delivered { q with mem } :=
  ⟨h.count, h.returned, h.sockets⟩

theorem setPhase {phase : ReaderPhase} (hheld : phase.held = (q.readers r).phase.held) :
    Delivered (q.setPhase r phase) where
  count r' := by
    rw [taken_setPhase, h.count r', returns, returns, returns_setPhase, phase_setPhase]
    split
    · rename_i hr
      rw [hr, hheld]
    · rfl
  returned r' := by
    rw [returns, returns_setPhase]
    exact h.returned r'
  sockets r' := by
    rw [owed, returns, returns_setPhase]
    exact h.sockets r'

theorem returns_le (hinv : RingInv q) (r : Fin b.nReader) : q.returns r ≤ q.sent.length := by
  have := h.count r
  have := hinv.slots.taken_le r
  omega

theorem publish (hinv : RingInv q) {m : Message} {next : ℕ}
    (hphase : q.writer.phase = .clear m next) (mem : Memory) (idx : ℕ) :
    Delivered { q with
      mem := mem
      writer := ⟨idx, if b.overflows m then .send m else .idle⟩
      sent := q.sent ++ [m] } where
  count := h.count
  returned r := by
    change _ = ((q.sent ++ [m]).take (q.returns r)).map _
    rw [take_append_of_le_length (h.returns_le hinv r)]
    exact h.returned r
  sockets r := by
    have hsockets := h.sockets r
    rw [hphase] at hsockets
    change q.inbox r ++ q.flight r ++ [] = _ at hsockets
    rw [append_nil] at hsockets
    change q.inbox r ++ q.flight r ++ _ =
      (((q.sent ++ [m]).drop (q.returns r)).filter (b.overflows ·)).map _
    rw [hsockets, drop_append_of_le_length (h.returns_le hinv r), filter_append, map_append, owed]
    cases hover : b.overflows m <;> simp [hover, WriterPhase.pending]

theorem take {reader : Reader} {mem : Memory} (hfree : (q.readers r).phase.held = 0)
    (hheld : reader.phase.held = 1) (htaken : reader.taken = q.taken r + 1)
    (hreturned : reader.returned = (q.readers r).returned) :
    Delivered { q.setReader r reader with mem } := by
  have hreturns : ∀ r', (update q.readers r reader r').returned =
      (q.readers r').returned := by
    intro r'
    by_cases hr : r' = r
    · subst hr
      rw [update_self, hreturned]
    · rw [update_of_ne hr]
  refine ⟨?_, ?_, ?_⟩
  · intro r'
    simp only [taken, returns, setReader_readers, hreturns]
    by_cases hr : r' = r
    · subst hr
      have hcount := h.count r'
      rw [update_self, htaken, hheld, hcount, hfree]
      rfl
    · rw [update_of_ne hr]
      exact h.count r'
  · intro r'
    simp only [returns, setReader_readers, hreturns]
    exact h.returned r'
  · intro r'
    simp only [owed, returns, setReader_readers, hreturns]
    exact h.sockets r'

theorem next {reader : Reader} {m : Message} {d : Delivery} {inbox : List (List (List UInt8))}
    (hheld : (q.readers r).phase.held = 1) (hfree : reader.phase.held = 0)
    (htaken : reader.taken = q.taken r)
    (hreturned : reader.returned = (q.readers r).returned ++ [d])
    (hm : q.sent[q.returns r]? = some m) (hd : d.buffers = m.allBuffers)
    (hinbox : q.inbox r = if b.overflows m then m.allBuffers :: inbox else inbox) :
    Delivered { q.setReader r reader with inbox := update q.inbox r inbox } := by
  obtain ⟨hlt, hget⟩ := List.getElem?_eq_some_iff.mp hm
  have hother : ∀ r', r' ≠ r →
      (update q.readers r reader r') = q.readers r' := fun r' hr =>
    update_of_ne hr _ _
  refine ⟨?_, ?_, ?_⟩
  · intro r'
    by_cases hr : r' = r
    · subst hr
      have hcount := h.count r'
      simp only [taken, returns, setReader_readers, update_self, hfree, hreturned,
        length_append, length_singleton] at hcount ⊢
      rw [htaken, taken, hcount, hheld]
    · simp only [taken, returns, setReader_readers, hother r' hr]
      exact h.count r'
  · intro r'
    by_cases hr : r' = r
    · subst hr
      have htake := take_succ_eq_append_getElem hlt
      rw [hget] at htake
      simp only [returns, setReader_readers, update_self, hreturned, map_append,
        length_append, length_singleton, setReader_sent]
      change _ = (q.sent.take (q.returns r' + 1)).map _
      rw [h.returned r', htake, map_append, map_singleton, map_singleton, hd]
    · simp only [returns, setReader_readers, hother r' hr]
      exact h.returned r'
  · intro r'
    by_cases hr : r' = r
    · subst hr
      have hsockets := h.sockets r'
      rw [owed, drop_eq_getElem_cons hlt, hget, hinbox] at hsockets
      simp only [owed, returns, setReader_readers, update_self, hreturned,
        length_append, length_singleton, setReader_sent]
      cases hover : b.overflows m with
      | true =>
        rw [hover, if_pos rfl, filter_cons_of_pos hover, map_cons] at hsockets
        exact (List.cons.inj hsockets).2
      | false =>
        rw [hover, if_neg (by simp), filter_cons_of_neg (by simp [hover])] at hsockets
        exact hsockets
    · simp only [owed, returns, setReader_readers, hother r' hr, update_of_ne hr]
      exact h.sockets r'

theorem owed_eq_cons (hinv : RingInv q) (hphase : (q.readers r).phase = .recv) :
    ∃ m rest, q.sent[q.returns r]? = some m ∧ b.overflows m = true ∧
      q.inbox r ++ q.flight r ++ q.writer.phase.pending = m.allBuffers :: rest := by
  have hok := hinv.readers r
  rw [hphase] at hok
  obtain ⟨-, m, hm, hover⟩ := hok
  have hcount := h.count r
  rw [hphase, ReaderPhase.held] at hcount
  rw [hcount, Nat.add_sub_cancel] at hm
  obtain ⟨hlt, hget⟩ := List.getElem?_eq_some_iff.mp hm
  refine ⟨m, ((q.sent.drop (q.returns r + 1)).filter (b.overflows ·)).map (·.allBuffers), hm,
    hover, ?_⟩
  rw [h.sockets r, owed, drop_eq_getElem_cons hlt, hget, filter_cons_of_pos hover, map_cons]

theorem moves (hinv : RingInv q) (hok : ∀ r, e ≠ .recvTimeout r) (hm : Moves q e q') :
    Delivered q' := by
  cases hm with
  | enqueue hphase | count hphase hnext | occupied hphase hnext hwritten hcount
  | vacant hphase hnext hfree | retryWrite hphase => exact h.setWriter (by rw [hphase]; rfl) rfl
  | acquire hphase => exact (h.setWriter (by rw [hphase]; rfl) rfl).setMem _
  | copied hphase => exact h.setWriter (by rw [hphase]; rfl) rfl
  | store hphase hoffset => exact (h.setWriter (by rw [hphase]; rfl) rfl).setMem _
  | indexError hphase hoffset | overflowError hphase => exact h.setWriter (by rw [hphase]; rfl) rfl
  | clear hphase hnext => exact (h.setWriter (by rw [hphase]; rfl) rfl).setMem _
  | publish hphase hnext => exact h.publish hinv hphase _ _
  | @send m hphase =>
    refine ⟨h.count, h.returned, ?_⟩
    intro r
    have hsockets := h.sockets r
    rw [hphase, WriterPhase.pending, append_assoc] at hsockets
    change q.inbox r ++ (q.flight r ++ [m.allBuffers]) ++ [] = _
    rw [append_nil]
    exact hsockets
  | writeTimeout hphase => exact h.setWriter (by rw [hphase]; rfl) rfl
  | dequeue hphase | readFlag hphase | unreadable hphase hflags | readable hphase hwritten hread
  | retryRead hphase | load hphase | loadFails hphase | loaded hphase =>
    exact h.setPhase (by rw [hphase]; rfl)
  | markOverflow hphase | markObject hphase => exact h.take (by rw [hphase]; rfl) rfl rfl rfl
  | @leave r d hphase =>
    have hok := hinv.readers r
    rw [hphase] at hok
    obtain ⟨hseq, hshown, idx, main, oob, hobject⟩ := hok
    rw [Delivery.Shown, hobject] at hshown
    obtain ⟨-, m, hm, hl, hd⟩ := hshown
    have hcount := h.count r
    rw [hphase, ReaderPhase.held, ← hseq] at hcount
    have hreturns : q.returns r = d.seq := by omega
    have hover : b.overflows m = false := by
      by_contra hne
      rw [ShmRingBuffer.loaded, if_pos (by simpa using hne)] at hl
      simp at hl
    have hnext : Delivered { q.setReader r { q.readers r with
        phase := .idle
        returned := (q.readers r).returned ++ [d] } with
      inbox := update q.inbox r (q.inbox r) } :=
      h.next (by rw [hphase]; rfl) rfl rfl rfl (hreturns ▸ hm) hd (by rw [hover]; rfl)
    rwa [update_eq_self] at hnext
  | @recv r allBuffers rest hphase hinbox =>
    obtain ⟨m, rest', hm, hover, howed⟩ := h.owed_eq_cons hinv hphase
    rw [hinbox, cons_append, cons_append] at howed
    obtain rfl := (List.cons.inj howed).1
    exact h.next (by rw [hphase]; rfl) rfl rfl rfl hm rfl (by rw [hover, if_pos rfl, hinbox])
  | readTimeout hphase => exact h.setPhase (by rw [hphase]; rfl)
  | recvTimeout hphase hinbox => exact absurd rfl (hok _)
  | @deliver r allBuffers rest hflight =>
    refine ⟨h.count, h.returned, ?_⟩
    intro r'
    by_cases hr : r' = r
    · subst hr
      have hsockets := h.sockets r'
      rw [hflight] at hsockets
      simp only [update_self]
      rw [append_assoc (q.inbox r') [allBuffers]]
      exact hsockets
    · simp only [update_of_ne hr]
      exact h.sockets r'

end Delivered

end MessageQueue

end Vllm.Shm
