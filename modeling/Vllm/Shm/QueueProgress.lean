import Vllm.Shm.QueueDelivery

/-! Nothing is lost: the steps of one reader return everything that was sent, and when all readers
have read the next chunk, the writer's own steps send the next message. Over whole runs a timeout on
the ring leaves no trace, one on the socket has taken a slot, and an object reads the same until the
writer comes back. -/
namespace Vllm.Shm
open Interleaving
variable {b : ShmRingBuffer}

namespace Event

/-- A reader's calls and their steps, and what arrives for it. -/
def Own (r : Fin b.nReader) (e : Event b) : Prop := e = .dequeue r ∨ e = .read r ∨ e = .deliver r

/-- The writer's calls and their steps. -/
def Writes (e : Event b) : Prop := e = .write ∨ ∃ m, e = .enqueue m

end Event

namespace MessageQueue
variable {q q' : MessageQueue b} {e : Event b} {r : Fin b.nReader}

/-- A reader can still get something, and the writer rests. -/
structure Behind (q : MessageQueue b) (r : Fin b.nReader) : Prop where
  ring : RingInv q
  delivered : Delivered q
  idle : q.writer.phase = .idle
  lt : q.returns r < q.sent.length

theorem Moves.own (hm : Moves q e q') (he : e.Own r) : q'.writer = q.writer ∧ q'.sent = q.sent := by
  obtain rfl | rfl | rfl := he <;> cases hm <;> exact ⟨rfl, rfl⟩

/-- Own steps lead to one more return. -/
def LeadsToReturn (q : MessageQueue b) (r : Fin b.nReader) : Prop :=
  ∃ q', Leads step (Event.Own r) q q' ∧ q'.returns r = q.returns r + 1

theorem LeadsToReturn.head (hm : Moves q e q') (he : e.Own r)
    (hreturns : q'.returns r = q.returns r) (h : LeadsToReturn q' r) : LeadsToReturn q r := by
  obtain ⟨u, hleads, hu⟩ := h
  exact ⟨u, .head he hm.step_eq hleads, by rw [hu, hreturns]⟩

theorem returns_setReader (q : MessageQueue b) (reader : Reader) :
    (q.setReader r reader).returns r = reader.returned.length := by
  rw [returns, setReader_readers, Function.update_self]

namespace Behind
variable (h : Behind q r)

include h

theorem moves (hm : Moves q e q') (he : e.Own r) (hreturns : q'.returns r = q.returns r) :
    Behind q' r where
  ring := h.ring.moves hm
  delivered := by
    refine h.delivered.moves h.ring ?_ hm
    rintro r' rfl
    simp [Event.Own] at he
  idle := by
    rw [(hm.own he).1]
    exact h.idle
  lt := by
    rw [(hm.own he).2, hreturns]
    exact h.lt

theorem read (hm : Moves q (.read r) q') (hreturns : q'.returns r = q.returns r)
    (hnext : Behind q' r → LeadsToReturn q' r) : LeadsToReturn q r :=
  (hnext (h.moves hm (.inr (.inl rfl)) hreturns)).head hm (.inr (.inl rfl)) hreturns

theorem taken_lt (hheld : (q.readers r).phase.held = 0) : q.taken r < q.sent.length := by
  rw [h.delivered.count r, hheld]
  exact h.lt

theorem full (hheld : (q.readers r).phase.held = 0) :
    ∃ m, q.sent[q.taken r]? = some m ∧ b.Full q.mem q.taken (q.taken r) m :=
  have hget := List.getElem?_eq_getElem (h.taken_lt hheld)
  ⟨_, hget, h.ring.slots.full_of_not_taken le_rfl hget⟩

omit h in
theorem of_leave (hphase : ∃ d, (q.readers r).phase = .leave d) : LeadsToReturn q r := by
  obtain ⟨d, hphase⟩ := hphase
  refine ⟨_, .single (.inr (.inl rfl)) (Moves.leave hphase).step_eq, ?_⟩
  rw [returns_setReader, List.length_append, List.length_singleton]
  rfl

theorem of_recv (hphase : (q.readers r).phase = .recv) : LeadsToReturn q r := by
  have hrecv : ∀ {q : MessageQueue b}, (q.readers r).phase = .recv →
      (∃ allBuffers rest, q.inbox r = allBuffers :: rest) → LeadsToReturn q r := by
    rintro q hphase ⟨allBuffers, rest, hinbox⟩
    refine ⟨_, .single (.inr (.inl rfl)) (Moves.recv hphase hinbox).step_eq, ?_⟩
    simp [returns]
  obtain ⟨m, rest, -, -, howed⟩ := h.delivered.owed_eq_cons h.ring hphase
  rw [h.idle] at howed
  change q.inbox r ++ q.flight r ++ [] = _ at howed
  rw [List.append_nil] at howed
  cases hinbox : q.inbox r with
  | cons allBuffers rest => exact hrecv hphase ⟨_, _, hinbox⟩
  | nil =>
    rw [hinbox, List.nil_append] at howed
    refine LeadsToReturn.head (.deliver howed) (.inr (.inr rfl)) rfl
      (hrecv hphase ⟨m.allBuffers, [], ?_⟩)
    simp [hinbox]

theorem of_mark (loaded : Loaded) (hphase : (q.readers r).phase = .mark loaded) :
    LeadsToReturn q r := by
  cases loaded with
  | overflow =>
    refine h.read (.markOverflow hphase) ?_ fun h' => h'.of_recv ?_
    · exact returns_setReader q _
    · simp
  | object main oob =>
    refine h.read (.markObject hphase) ?_ fun _ => of_leave ?_
    · exact returns_setReader q _
    · simp

omit h in
theorem of_load (reads : ByteReads (Option Loaded)) (h : Behind q r)
    (hphase : (q.readers r).phase = .load reads) : LeadsToReturn q r := by
  induction reads generalizing q with
  | done result =>
    cases result with
    | none =>
      have hok := h.ring.readers r
      rw [hphase] at hok
      have hnone := hok.2 _ (List.getElem?_eq_getElem hok.1)
      simp [ByteReads.eval] at hnone
    | some loaded =>
      refine h.read (.loaded hphase) ?_ fun h' => h'.of_mark loaded ?_
      · exact returns_setReader q _
      · simp
  | read offset next ih =>
    refine h.read (.load hphase) ?_ fun h' =>
      ih (b.getData q.mem (q.readers r).currentIdx offset) h' ?_
    · exact returns_setReader q _
    · simp

theorem of_checkWritten {readFlag : UInt8} (hphase : (q.readers r).phase = .checkWritten readFlag)
    (hread : readFlag = 0) : LeadsToReturn q r := by
  obtain ⟨m, -, hfull⟩ := h.full (by rw [hphase]; rfl)
  have hwritten : b.getMetadata q.mem (q.readers r).currentIdx 0 ≠ 0 := by
    rw [h.ring.readerIdx, hfull.written]
    decide
  refine h.read (.readable hphase hwritten hread) ?_ fun h' => of_load readChunk h' ?_
  · exact returns_setReader q _
  · simp

theorem of_check (hphase : (q.readers r).phase = .check) : LeadsToReturn q r := by
  obtain ⟨m, -, hfull⟩ := h.full (by rw [hphase]; rfl)
  have hread : b.getMetadata q.mem (q.readers r).currentIdx (r + 1) = 0 := by
    rw [h.ring.readerIdx]
    exact (hfull.read r).trans (if_neg (lt_irrefl _))
  refine h.read (.readFlag hphase) ?_ fun h' => h'.of_checkWritten ?_ hread
  · exact returns_setReader q _
  · simp

theorem of_waiting (hphase : (q.readers r).phase = .waiting) : LeadsToReturn q r := by
  refine h.read (.retryRead hphase) ?_ fun h' => h'.of_check ?_
  · exact returns_setReader q _
  · simp

theorem leadsToReturn : LeadsToReturn q r := by
  cases hphase : (q.readers r).phase with
  | idle =>
    have hcheck : Behind (q.setPhase r .check) r :=
      h.moves (.dequeue hphase) (.inl rfl) (returns_setReader q _)
    exact (hcheck.of_check (by simp)).head (.dequeue hphase) (.inl rfl) (returns_setReader q _)
  | check => exact h.of_check hphase
  | checkWritten readFlag =>
    by_cases hread : readFlag = 0
    · exact h.of_checkWritten hphase hread
    · refine h.read (.unreadable hphase (.inr hread)) ?_ fun h' => h'.of_waiting ?_
      · exact returns_setReader q _
      · simp
  | waiting => exact h.of_waiting hphase
  | load reads => exact of_load reads h hphase
  | mark loaded => exact h.of_mark loaded hphase
  | leave d => exact of_leave ⟨d, hphase⟩
  | recv => exact h.of_recv hphase

end Behind

theorem leads_own {s t : MessageQueue b} (hleads : Leads step (Event.Own r) s t)
    (hring : RingInv s) (hdelivered : Delivered s) :
    RingInv t ∧ Delivered t ∧ t.writer = s.writer ∧ t.sent = s.sent := by
  obtain ⟨es, hes, hrun⟩ := hleads
  refine run_rule (P := fun t => RingInv t ∧ Delivered t ∧ t.writer = s.writer ∧ t.sent = s.sent)
    ?_ hes ⟨hring, hdelivered, rfl, rfl⟩ hrun
  rintro u e u' ⟨hu, hd, hw, hs⟩ he hstep
  have hm := step_moves hstep
  refine ⟨hu.moves hm, hd.moves hu ?_ hm, (hm.own he).1.trans hw, (hm.own he).2.trans hs⟩
  rintro r' rfl
  simp [Event.Own] at he

theorem RingInv.leads_to_all (hring : RingInv q) (hdelivered : Delivered q)
    (hidle : q.writer.phase = .idle) (r : Fin b.nReader) :
    ∃ q', Leads step (Event.Own r) q q' ∧ q'.sent = q.sent ∧
      (q'.readers r).returned.map (·.buffers) = q.sent.map (·.allBuffers) := by
  induction hn : q.sent.length - q.returns r generalizing q with
  | zero =>
    refine ⟨q, .refl, rfl, ?_⟩
    rw [hdelivered.returned r, List.take_of_length_le (by omega)]
  | succ n ih =>
    have hbehind : Behind q r := ⟨hring, hdelivered, hidle, by omega⟩
    obtain ⟨u, hleads, hreturns⟩ := hbehind.leadsToReturn
    obtain ⟨hu, hd, hw, hs⟩ := leads_own hleads hring hdelivered
    obtain ⟨t, hleads', hsent, hall⟩ := ih hu hd (by rw [hw]; exact hidle) (by rw [hs]; omega)
    exact ⟨t, hleads.trans hleads', hsent.trans hs, by rw [hall, hs]⟩

/-- The writer's steps lead to one more message. -/
def LeadsToSent (q : MessageQueue b) (m : Message) : Prop :=
  ∃ q', Leads step Event.Writes q q' ∧ q'.sent = q.sent ++ [m] ∧ q'.readers = q.readers ∧
    q'.writer.phase = .idle

section Writing
variable {m : Message}

theorem LeadsToSent.head (hm : Moves q e q') (he : e.Writes) (hsent : q'.sent = q.sent)
    (hreaders : q'.readers = q.readers) (h : LeadsToSent q' m) : LeadsToSent q m := by
  obtain ⟨u, hleads, hs, hr, hw⟩ := h
  exact ⟨u, .head he hm.step_eq hleads, by rw [hs, hsent], hr.trans hreaders, hw⟩

theorem leadsToSent_of_clear {next : ℕ} (hphase : q.writer.phase = .clear m next) :
    LeadsToSent q m := by
  induction hn : b.nReader + 1 - next generalizing q next with
  | zero =>
    have hpublish := (Moves.publish hphase (by omega)).step_eq
    cases hover : b.overflows m with
    | true =>
      rw [hover, if_pos rfl] at hpublish
      exact ⟨_, .head (.inl rfl) hpublish (.single (.inl rfl) (Moves.send rfl).step_eq), rfl, rfl,
        rfl⟩
    | false =>
      rw [hover, if_neg (by simp)] at hpublish
      exact ⟨_, .single (.inl rfl) hpublish, rfl, rfl, rfl⟩
  | succ n ih =>
    exact (ih rfl (by omega)).head (.clear hphase (by omega)) (.inl rfl) rfl rfl

theorem leadsToSent_of_copy {writes : List ChunkWrite} (hring : RingInv q)
    (hroom : 0 < b.maxChunkBytes) (hphase : q.writer.phase = .copy m writes) :
    LeadsToSent q m := by
  induction writes generalizing q with
  | nil => exact (leadsToSent_of_clear rfl).head (.copied hphase) (.inl rfl) rfl rfl
  | cons w rest ih =>
    obtain ⟨i, hi, rfl, -, -, hlt⟩ := hring.writes hphase
    have hm := Moves.store hphase (hlt hroom)
    exact (ih (hring.moves hm) rfl).head hm (.inl rfl) rfl rfl

theorem leadsToSent_of_count {next readCount : ℕ} (hring : RingInv q)
    (hroom : 0 < b.maxChunkBytes) (hfree : ∀ r, q.sent.length < q.taken r + b.maxChunks)
    (hcount : b.getMetadata q.mem (q.sent.length % b.maxChunks) 0 ≠ 0 → readCount = next)
    (hphase : q.writer.phase = .count m next readCount) : LeadsToSent q m := by
  have hok := hring.writer
  rw [hphase] at hok
  induction hn : b.nReader - next generalizing q next readCount with
  | zero =>
    have hnext : next = b.nReader := by
      have := hok.1
      omega
    have hm : Moves q .write (q.setWriter (.acquire m)) := by
      refine .vacant hphase (by omega) ?_
      rw [hring.writerIdx]
      intro hwritten
      rw [hcount hwritten, hnext]
    have hacquire := Moves.acquire (q := q.setWriter (.acquire m)) (m := m) rfl
    exact ((leadsToSent_of_copy ((hring.moves hm).moves hacquire) hroom rfl).head hacquire
      (.inl rfl) rfl rfl).head hm (.inl rfl) rfl rfl
  | succ n ih =>
    have hlt : next < b.nReader := by omega
    have hm := Moves.count hphase hlt
    have hring' := hring.moves hm
    refine (ih hring' hfree ?_ rfl hring'.writer (by omega)).head hm (.inl rfl) rfl rfl
    intro hwritten
    change b.getMetadata q.mem (q.sent.length % b.maxChunks) 0 ≠ 0 at hwritten
    obtain ⟨k, m', hk, hm'⟩ | hfresh := ShmRingBuffer.Slots.old_or_fresh b q.sent
    · obtain hfull | ⟨-, hvac⟩ := hring.slots.full k m' hm' (by omega)
      · have hread := hfull.read ⟨next, hlt⟩
        have hahead := hfree ⟨next, hlt⟩
        rw [← Nat.add_mod_right k, hk, if_pos (by omega)] at hread
        rw [hring.writerIdx, hread, hcount hwritten]
        rfl
      · exact absurd hvac.unwritten hwritten
    · rw [Nat.mod_eq_of_lt hfresh] at hwritten
      exact absurd (hring.slots.fresh hfresh _ le_rfl hfresh) hwritten

theorem RingInv.leads_to_sent (hring : RingInv q) (hidle : q.writer.phase = .idle)
    (hroom : 0 < b.maxChunkBytes) (hfree : ∀ r, q.sent.length < q.taken r + b.maxChunks)
    (m : Message) : LeadsToSent q m := by
  have hm := Moves.enqueue (m := m) hidle
  exact (leadsToSent_of_count (hring.moves hm) hroom hfree (fun _ => rfl) rfl).head hm
    (.inr ⟨m, rfl⟩) rfl rfl

end Writing

end MessageQueue

/-- The reader has seen its chunk readable and has not marked it as read. -/
def ReaderPhase.Reading : ReaderPhase → Prop
  | .load _ | .mark _ => True
  | _ => False

namespace MessageQueue
variable {q q' : MessageQueue b}

theorem reachable_ringInv {ok : MessageQueue b → Event b → Prop}
    (h : Reachable step ok {} q) : RingInv q :=
  h.rule RingInv.init fun _ _ _ hs _ hstep => hs.moves (step_moves hstep)

theorem reachable_delivered
    (h : Reachable step (fun _ e => ∀ r, e ≠ .recvTimeout r) ({} : MessageQueue b) q) :
    Delivered q := by
  refine (h.rule (P := fun q => RingInv q ∧ Delivered q) ⟨RingInv.init, Delivered.init⟩ ?_).2
  rintro s e s' ⟨hring, hdelivered⟩ hok hstep
  have hm := step_moves hstep
  exact ⟨hring.moves hm, hdelivered.moves hring hok hm⟩

/-- The writer never works on a chunk that a reader is reading. -/
theorem RingInv.idx_ne (h : RingInv q) {r : Fin b.nReader}
    (hreading : (q.readers r).phase.Reading) (hover : q.writer.phase.Overwriting) :
    q.writer.currentIdx ≠ (q.readers r).currentIdx := by
  have hlt : q.taken r < q.sent.length := by
    have hok := h.readers r
    cases hphase : (q.readers r).phase with
    | load reads | mark loaded =>
      rw [hphase] at hok
      exact hok.1
    | _ => simp [hphase, ReaderPhase.Reading] at hreading
  have hahead : q.sent.length < q.taken r + b.maxChunks := by
    have hok := h.writer
    cases hphase : q.writer.phase with
    | copy m writes | clear m next =>
      rw [hphase] at hok
      exact hok.1.taken r
    | _ => simp [hphase, WriterPhase.Overwriting] at hover
  rw [h.writerIdx, h.readerIdx]
  exact (mod_ne_of_lt hlt hahead).symm

/-- Every reader gets the stream that was sent; nothing is written into a chunk that is being
read, or beyond a chunk; and neither readers nor the writer can get stuck. -/
theorem delivers_stream
    (h : Reachable step (fun _ e => ∀ r, e ≠ .recvTimeout r) ({} : MessageQueue b) q) :
    (∀ r, (q.readers r).returned.map (·.buffers) <+: q.sent.map (·.allBuffers)) ∧
    (∀ r, (q.readers r).phase.Reading → q.writer.phase.Overwriting →
      q.writer.currentIdx ≠ (q.readers r).currentIdx) ∧
    (∀ m w rest, q.writer.phase = .copy m (w :: rest) → 0 < b.maxChunkBytes →
      ∃ offset value, w = .store offset value ∧ offset < b.maxChunkBytes) ∧
    (q.writer.phase = .idle → ∀ r, ∃ q', Leads step (Event.Own r) q q' ∧ q'.sent = q.sent ∧
      (q'.readers r).returned.map (·.buffers) = q.sent.map (·.allBuffers)) ∧
    (q.writer.phase = .idle → 0 < b.maxChunkBytes →
      (∀ r, q.sent.length < q.taken r + b.maxChunks) →
      ∀ m, ∃ q', Leads step Event.Writes q q' ∧ q'.sent = q.sent ++ [m] ∧
        q'.readers = q.readers ∧ q'.writer.phase = .idle) := by
  have hring := reachable_ringInv h
  have hdelivered := reachable_delivered h
  refine ⟨?_, fun r => hring.idx_ne, ?_, hring.leads_to_all hdelivered, hring.leads_to_sent⟩
  · intro r
    rw [hdelivered.returned r, List.map_take]
    exact List.take_prefix _ _
  · intro m w rest hphase hroom
    obtain ⟨i, hi, hw, -, -, hlt⟩ := hring.writes hphase
    exact ⟨_, _, hw, hlt hroom⟩

/-- Two readers, two chunks of sixteen bytes. -/
def twoReaders : ShmRingBuffer := ⟨2, 16, 2, Nat.two_pos, by decide⟩

/-- A small and a large message; the first reader has got both, the second is reading. -/
theorem delivers_stream_twoReaders : ∃ q : MessageQueue twoReaders,
    (q.readers ⟨0, by decide⟩).returned.map (·.buffers) = [[[7]], [List.replicate 12 0]] ∧
    (q.readers ⟨1, by decide⟩).phase.held = 0 ∧
    ∀ r, (q.readers r).returned.map (·.buffers) <+: q.sent.map (·.allBuffers) := by
  have hrun := show (run step ({} : MessageQueue twoReaders)
      (.enqueue ⟨[7], [], by simp⟩ :: List.replicate 16 .write ++
        .enqueue ⟨List.replicate 12 0, [], by simp⟩ :: List.replicate 10 .write ++
        .dequeue ⟨0, by decide⟩ :: List.replicate 13 (.read ⟨0, by decide⟩) ++
        .dequeue ⟨1, by decide⟩ :: List.replicate 4 (.read ⟨1, by decide⟩) ++
        .deliver ⟨0, by decide⟩ :: .dequeue ⟨0, by decide⟩ ::
          List.replicate 6 (.read ⟨0, by decide⟩))).map
      (fun q => ((q.readers ⟨0, by decide⟩).returned.map (·.buffers),
        (q.readers ⟨1, by decide⟩).phase.held)) =
        some ([[[7]], [List.replicate 12 0]], 0) by
    decide +kernel
  obtain ⟨q, hq, hreturned⟩ := Option.map_eq_some_iff.mp hrun
  obtain ⟨hreturned, hheld⟩ := Prod.mk.inj hreturned
  refine ⟨q, hreturned, hheld, (delivers_stream (Reachable.init.run ?_ hq)).1⟩
  intro s e he r
  simp only [List.mem_append, List.mem_cons, List.mem_replicate] at he
  rintro rfl
  simp at he

/-- A step writes inside the shared memory segment. -/
theorem RingInv.writes_inside {e : Event b} (h : RingInv q) (hm : Moves q e q') {a : ℕ}
    (ha : b.totalBytesOfBuffer ≤ a) : q'.mem a = q.mem a := by
  have hflag : ∀ {idx flag value}, idx < b.maxChunks → flag ≤ b.nReader →
      b.setMetadata q.mem idx flag value a = q.mem a := by
    intro idx flag value hidx hf
    have hlt := ShmRingBuffer.metadataAddr_lt_total hidx hf
    exact Function.update_of_ne (by omega) _ _
  have hwriter : q.writer.currentIdx < b.maxChunks := h.writerIdx ▸ b.idx_lt _
  have hreader : ∀ r, (q.readers r).currentIdx < b.maxChunks :=
    fun r => h.readerIdx r ▸ b.idx_lt _
  cases hm with
  | acquire hphase | publish hphase hnext => exact hflag hwriter (Nat.zero_le _)
  | store hphase hoffset =>
    have hlt := ShmRingBuffer.dataAddr_lt_total hwriter hoffset
    exact Function.update_of_ne (by omega) _ _
  | clear hphase hnext => exact hflag hwriter (Nat.le_of_lt_succ hnext)
  | @markOverflow r hphase | @markObject r main oob hphase => exact hflag (hreader r) r.isLt
  | _ => rfl

/-- Whatever times out, the writer is at most a ring ahead of each reader, what a reader has not
taken yet lies unread in its chunk as it was sent, and nothing is written past the segment. -/
theorem flow_controlled {ok : MessageQueue b → Event b → Prop}
    (h : Reachable step ok ({} : MessageQueue b) q) :
    (∀ r, q.taken r ≤ q.sent.length ∧ q.sent.length ≤ q.taken r + b.maxChunks) ∧
    (∀ r k m, q.taken r ≤ k → q.sent[k]? = some m →
      b.getMetadata q.mem (k % b.maxChunks) 0 = 1 ∧
      b.getMetadata q.mem (k % b.maxChunks) (r + 1) = 0 ∧
      readChunk.eval (b.getData q.mem (k % b.maxChunks)) = some (b.loaded m)) ∧
    ∀ a, b.totalBytesOfBuffer ≤ a → q.mem a = 0 := by
  have hring := reachable_ringInv h
  refine ⟨fun r => ⟨hring.slots.taken_le r, hring.slots.ahead r⟩, ?_, ?_⟩
  · intro r k m hk hm
    have hfull := hring.slots.full_of_not_taken hk hm
    refine ⟨hfull.written, ?_, eval_readChunk hfull.bytes⟩
    rw [hfull.read r, if_neg (Nat.not_lt.mpr hk)]
  · intro a ha
    refine (h.rule (P := fun q => RingInv q ∧ q.mem a = 0) ⟨RingInv.init, rfl⟩ ?_).2
    rintro s e s' ⟨hring, hzero⟩ - hstep
    have hm := step_moves hstep
    exact ⟨hring.moves hm, (hring.writes_inside hm ha).trans hzero⟩

/-- The first message is in the ring, and nobody has taken it. -/
theorem flow_controlled_twoReaders : ∃ (q : MessageQueue twoReaders) (m : Message),
    q.sent = [m] ∧ (∀ a, 38 ≤ a → q.mem a = 0) ∧ ∀ r, q.taken r = 0 ∧
      readChunk.eval (twoReaders.getData q.mem 0) = some (twoReaders.loaded m) := by
  have hrun := show (run step ({} : MessageQueue twoReaders)
      (.enqueue ⟨[7], [], by simp⟩ :: List.replicate 16 .write)).map (fun q =>
        (q.sent.length, decide (∀ r, q.taken r = 0))) = some (1, true) by
    decide +kernel
  obtain ⟨q, hq, hfacts⟩ := Option.map_eq_some_iff.mp hrun
  obtain ⟨hlength, htaken⟩ := Prod.mk.inj hfacts
  obtain ⟨m, hm⟩ := List.length_eq_one_iff.mp hlength
  have hreach : Reachable step (fun _ _ => True) ({} : MessageQueue twoReaders) q :=
    Reachable.init.run (fun _ _ _ => trivial) hq
  obtain ⟨-, hfull, hsegment⟩ := flow_controlled hreach
  have hzero := of_decide_eq_true htaken
  exact ⟨q, m, hm, hsegment, fun r => ⟨hzero r, (hfull r 0 m (hzero r).le (by rw [hm]; rfl)).2.2⟩⟩

end MessageQueue

end Vllm.Shm
