import Vllm.Lib.Interleaving
import Vllm.Shm.RingBuffer

/-! The broadcast queue of one writer and its local readers, one access or socket operation at a
time. What does not fit into a chunk goes to the readers' sockets. -/
namespace Vllm.Shm

variable {b : ShmRingBuffer}

/-- An object that a reader has: a stream and buffers in a chunk that it only points to, or
buffers of its own. -/
inductive Received where
  | inChunk (idx : ℕ) (main : List UInt8) (oob : List Slice)
  | owned (allBuffers : List (List UInt8))
  deriving DecidableEq

/-- The bytes of an object as the memory is. -/
def Received.buffers (b : ShmRingBuffer) (mem : Memory) : Received → List (List UInt8)
  | inChunk idx main oob => main :: oob.map (·.read (b.getData mem idx))
  | owned allBuffers => allBuffers

/-- What a call of `dequeue` returned: the number of its slot, the object, and the bytes of the
object when the slot was read. -/
structure Delivery where
  seq : ℕ
  object : Received
  buffers : List (List UInt8)
  deriving DecidableEq

/-- Where the writer is in `enqueue`. -/
inductive WriterPhase where
  | idle
  | count (m : Message) (next readCount : ℕ)
  | waiting (m : Message)
  | acquire (m : Message)
  | copy (m : Message) (writes : List ChunkWrite)
  | clear (m : Message) (next : ℕ)
  | send (m : Message)

/-- Where a reader is in `dequeue`. -/
inductive ReaderPhase where
  | idle
  | check
  | checkWritten (readFlag : UInt8)
  | waiting
  | load (reads : ByteReads (Option Loaded))
  | mark (loaded : Loaded)
  | leave (delivery : Delivery)
  | recv

structure Writer where
  currentIdx : ℕ := 0
  phase : WriterPhase := .idle

/-- A reader, with the number of slots it has taken and what its calls returned. -/
structure Reader where
  currentIdx : ℕ := 0
  phase : ReaderPhase := .idle
  taken : ℕ := 0
  returned : List Delivery := []

/-- The queue, with the messages whose slots are written. -/
structure MessageQueue (b : ShmRingBuffer) where
  mem : Memory := fun _ => 0
  writer : Writer := {}
  readers : Fin b.nReader → Reader := fun _ => {}
  flight : Fin b.nReader → List (List (List UInt8)) := fun _ => []
  inbox : Fin b.nReader → List (List (List UInt8)) := fun _ => []
  sent : List Message := []

/-- What can happen: calls, the next step of a call, its timeout, and an arrival on a socket. -/
inductive Event (b : ShmRingBuffer) where
  | enqueue (m : Message)
  | write
  | writeTimeout
  | dequeue (r : Fin b.nReader)
  | read (r : Fin b.nReader)
  | readTimeout (r : Fin b.nReader)
  | recvTimeout (r : Fin b.nReader)
  | deliver (r : Fin b.nReader)

/-- The event is a call of a reader or a step of one. -/
def Event.isBy (r : Fin b.nReader) : Event b → Bool
  | .dequeue r' | .read r' | .readTimeout r' | .recvTimeout r' => r' = r
  | _ => false

namespace MessageQueue

def setWriter (q : MessageQueue b) (phase : WriterPhase) : MessageQueue b :=
  { q with writer := { q.writer with phase } }

def setReader (q : MessageQueue b) (r : Fin b.nReader) (reader : Reader) : MessageQueue b :=
  { q with readers := Function.update q.readers r reader }

def setPhase (q : MessageQueue b) (r : Fin b.nReader) (phase : ReaderPhase) : MessageQueue b :=
  q.setReader r { q.readers r with phase }

/-- The next step of `enqueue`. -/
def writeStep (q : MessageQueue b) : Option (MessageQueue b) :=
  let idx := q.writer.currentIdx
  match q.writer.phase with
  | .idle => none
  | .count m next readCount =>
    if next < b.nReader then
      some (q.setWriter
        (.count m (next + 1) (readCount + (b.getMetadata q.mem idx (next + 1)).toNat)))
    else if b.getMetadata q.mem idx 0 ≠ 0 ∧ readCount ≠ b.nReader then
      some (q.setWriter (.waiting m))
    else some (q.setWriter (.acquire m))
  | .waiting m => some (q.setWriter (.count m 0 0))
  | .acquire m =>
    some { q.setWriter (.copy m (b.chunkWrites m)) with mem := b.setMetadata q.mem idx 0 0 }
  | .copy m [] => some (q.setWriter (.clear m 1))
  | .copy m (.store offset value :: rest) =>
    if offset < b.maxChunkBytes then
      some { q.setWriter (.copy m rest) with mem := b.setData q.mem idx offset value }
    else some (q.setWriter .idle)
  | .copy _ (.overflowError :: _) => some (q.setWriter .idle)
  | .clear m next =>
    if next < b.nReader + 1 then
      some { q.setWriter (.clear m (next + 1)) with mem := b.setMetadata q.mem idx next 0 }
    else
      some { q with
        mem := b.setMetadata q.mem idx 0 1
        writer := ⟨(idx + 1) % b.maxChunks, if b.overflows m then .send m else .idle⟩
        sent := q.sent ++ [m] }
  | .send m =>
    some { q.setWriter .idle with flight := fun r => q.flight r ++ [m.allBuffers] }

/-- The next step of `dequeue`. -/
def readStep (q : MessageQueue b) (r : Fin b.nReader) : Option (MessageQueue b) :=
  let reader := q.readers r
  let idx := reader.currentIdx
  match reader.phase with
  | .idle => none
  | .check => some (q.setPhase r (.checkWritten (b.getMetadata q.mem idx (r + 1))))
  | .checkWritten readFlag =>
    if b.getMetadata q.mem idx 0 = 0 ∨ readFlag ≠ 0 then some (q.setPhase r .waiting)
    else some (q.setPhase r (.load readChunk))
  | .waiting => some (q.setPhase r .check)
  | .load (.read offset next) => some (q.setPhase r (.load (next (b.getData q.mem idx offset))))
  | .load (.done none) => some (q.setPhase r .idle)
  | .load (.done (some loaded)) => some (q.setPhase r (.mark loaded))
  | .mark loaded =>
    let phase := match loaded with
      | .overflow => ReaderPhase.recv
      | .object main oob =>
        let object := Received.inChunk idx main oob
        .leave ⟨reader.taken, object, object.buffers b q.mem⟩
    some { q.setReader r { reader with
        currentIdx := (idx + 1) % b.maxChunks
        phase := phase
        taken := reader.taken + 1 } with
      mem := b.setMetadata q.mem idx (r + 1) 1 }
  | .leave delivery =>
    some (q.setReader r { reader with
      phase := .idle
      returned := reader.returned ++ [delivery] })
  | .recv =>
    match q.inbox r with
    | [] => none
    | allBuffers :: rest =>
      some { q.setReader r { reader with
          phase := .idle
          returned := reader.returned ++ [⟨reader.taken - 1, .owned allBuffers, allBuffers⟩] } with
        inbox := Function.update q.inbox r rest }

def step (q : MessageQueue b) : Event b → Option (MessageQueue b)
  | .enqueue m =>
    match q.writer.phase with
    | .idle => some (q.setWriter (.count m 0 0))
    | _ => none
  | .write => q.writeStep
  | .writeTimeout =>
    match q.writer.phase with
    | .waiting _ => some (q.setWriter .idle)
    | _ => none
  | .dequeue r =>
    match (q.readers r).phase with
    | .idle => some (q.setPhase r .check)
    | _ => none
  | .read r => q.readStep r
  | .readTimeout r =>
    match (q.readers r).phase with
    | .waiting => some (q.setPhase r .idle)
    | _ => none
  | .recvTimeout r =>
    match (q.readers r).phase with
    | .recv => if q.inbox r = [] then some (q.setPhase r .idle) else none
    | _ => none
  | .deliver r =>
    match q.flight r with
    | [] => none
    | allBuffers :: rest =>
      some { q with
        flight := Function.update q.flight r rest
        inbox := Function.update q.inbox r (q.inbox r ++ [allBuffers]) }

section
variable (q : MessageQueue b)
include q

@[simp] theorem setWriter_phase (phase : WriterPhase) :
    (q.setWriter phase).writer.phase = phase := rfl

@[simp] theorem setReader_readers (r : Fin b.nReader) (reader : Reader) :
    (q.setReader r reader).readers = Function.update q.readers r reader := rfl

@[simp] theorem setPhase_readers (r : Fin b.nReader) (phase : ReaderPhase) :
    (q.setPhase r phase).readers = Function.update q.readers r { q.readers r with phase } := rfl

@[simp] theorem setReader_sent (r : Fin b.nReader) (reader : Reader) :
    (q.setReader r reader).sent = q.sent := rfl

@[simp] theorem setReader_mem (r : Fin b.nReader) (reader : Reader) :
    (q.setReader r reader).mem = q.mem := rfl

@[simp] theorem setPhase_sent (r : Fin b.nReader) (phase : ReaderPhase) :
    (q.setPhase r phase).sent = q.sent := rfl

end

/-- The number of slots each reader has taken. -/
def taken (q : MessageQueue b) (r : Fin b.nReader) : ℕ := (q.readers r).taken

/-- What one event does. -/
inductive Moves (q : MessageQueue b) : Event b → MessageQueue b → Prop
  | enqueue {m} (hphase : q.writer.phase = .idle) :
    Moves q (.enqueue m) (q.setWriter (.count m 0 0))
  | count {m next readCount} (hphase : q.writer.phase = .count m next readCount)
    (hnext : next < b.nReader) :
    Moves q .write (q.setWriter (.count m (next + 1)
      (readCount + (b.getMetadata q.mem q.writer.currentIdx (next + 1)).toNat)))
  | occupied {m next readCount} (hphase : q.writer.phase = .count m next readCount)
    (hnext : b.nReader ≤ next) (hwritten : b.getMetadata q.mem q.writer.currentIdx 0 ≠ 0)
    (hcount : readCount ≠ b.nReader) : Moves q .write (q.setWriter (.waiting m))
  | vacant {m next readCount} (hphase : q.writer.phase = .count m next readCount)
    (hnext : b.nReader ≤ next)
    (hfree : b.getMetadata q.mem q.writer.currentIdx 0 ≠ 0 → readCount = b.nReader) :
    Moves q .write (q.setWriter (.acquire m))
  | retryWrite {m} (hphase : q.writer.phase = .waiting m) :
    Moves q .write (q.setWriter (.count m 0 0))
  | acquire {m} (hphase : q.writer.phase = .acquire m) :
    Moves q .write { q.setWriter (.copy m (b.chunkWrites m)) with
      mem := b.setMetadata q.mem q.writer.currentIdx 0 0 }
  | copied {m} (hphase : q.writer.phase = .copy m []) :
    Moves q .write (q.setWriter (.clear m 1))
  | store {m offset value rest} (hphase : q.writer.phase = .copy m (.store offset value :: rest))
    (hoffset : offset < b.maxChunkBytes) :
    Moves q .write { q.setWriter (.copy m rest) with
      mem := b.setData q.mem q.writer.currentIdx offset value }
  | indexError {m offset value rest}
    (hphase : q.writer.phase = .copy m (.store offset value :: rest))
    (hoffset : b.maxChunkBytes ≤ offset) : Moves q .write (q.setWriter .idle)
  | overflowError {m rest} (hphase : q.writer.phase = .copy m (.overflowError :: rest)) :
    Moves q .write (q.setWriter .idle)
  | clear {m next} (hphase : q.writer.phase = .clear m next) (hnext : next < b.nReader + 1) :
    Moves q .write { q.setWriter (.clear m (next + 1)) with
      mem := b.setMetadata q.mem q.writer.currentIdx next 0 }
  | publish {m next} (hphase : q.writer.phase = .clear m next) (hnext : b.nReader + 1 ≤ next) :
    Moves q .write { q with
      mem := b.setMetadata q.mem q.writer.currentIdx 0 1
      writer := ⟨(q.writer.currentIdx + 1) % b.maxChunks,
        if b.overflows m then .send m else .idle⟩
      sent := q.sent ++ [m] }
  | send {m} (hphase : q.writer.phase = .send m) :
    Moves q .write { q.setWriter .idle with flight := fun r => q.flight r ++ [m.allBuffers] }
  | writeTimeout {m} (hphase : q.writer.phase = .waiting m) :
    Moves q .writeTimeout (q.setWriter .idle)
  | dequeue {r} (hphase : (q.readers r).phase = .idle) :
    Moves q (.dequeue r) (q.setPhase r .check)
  | readFlag {r} (hphase : (q.readers r).phase = .check) :
    Moves q (.read r) (q.setPhase r
      (.checkWritten (b.getMetadata q.mem (q.readers r).currentIdx (r + 1))))
  | unreadable {r readFlag} (hphase : (q.readers r).phase = .checkWritten readFlag)
    (hflags : b.getMetadata q.mem (q.readers r).currentIdx 0 = 0 ∨ readFlag ≠ 0) :
    Moves q (.read r) (q.setPhase r .waiting)
  | readable {r readFlag} (hphase : (q.readers r).phase = .checkWritten readFlag)
    (hwritten : b.getMetadata q.mem (q.readers r).currentIdx 0 ≠ 0) (hread : readFlag = 0) :
    Moves q (.read r) (q.setPhase r (.load readChunk))
  | retryRead {r} (hphase : (q.readers r).phase = .waiting) :
    Moves q (.read r) (q.setPhase r .check)
  | load {r offset next} (hphase : (q.readers r).phase = .load (.read offset next)) :
    Moves q (.read r) (q.setPhase r
      (.load (next (b.getData q.mem (q.readers r).currentIdx offset))))
  | loadFails {r} (hphase : (q.readers r).phase = .load (.done none)) :
    Moves q (.read r) (q.setPhase r .idle)
  | loaded {r loaded} (hphase : (q.readers r).phase = .load (.done (some loaded))) :
    Moves q (.read r) (q.setPhase r (.mark loaded))
  | markOverflow {r} (hphase : (q.readers r).phase = .mark .overflow) :
    Moves q (.read r) { q.setReader r { q.readers r with
        currentIdx := ((q.readers r).currentIdx + 1) % b.maxChunks
        phase := .recv
        taken := q.taken r + 1 } with
      mem := b.setMetadata q.mem (q.readers r).currentIdx (r + 1) 1 }
  | markObject {r main oob} (hphase : (q.readers r).phase = .mark (.object main oob)) :
    Moves q (.read r) { q.setReader r { q.readers r with
        currentIdx := ((q.readers r).currentIdx + 1) % b.maxChunks
        phase := .leave ⟨q.taken r, .inChunk (q.readers r).currentIdx main oob,
          (Received.inChunk (q.readers r).currentIdx main oob).buffers b q.mem⟩
        taken := q.taken r + 1 } with
      mem := b.setMetadata q.mem (q.readers r).currentIdx (r + 1) 1 }
  | leave {r delivery} (hphase : (q.readers r).phase = .leave delivery) :
    Moves q (.read r) (q.setReader r { q.readers r with
      phase := .idle
      returned := (q.readers r).returned ++ [delivery] })
  | recv {r allBuffers rest} (hphase : (q.readers r).phase = .recv)
    (hinbox : q.inbox r = allBuffers :: rest) :
    Moves q (.read r) { q.setReader r { q.readers r with
        phase := .idle
        returned := (q.readers r).returned ++
          [⟨q.taken r - 1, .owned allBuffers, allBuffers⟩] } with
      inbox := Function.update q.inbox r rest }
  | readTimeout {r} (hphase : (q.readers r).phase = .waiting) :
    Moves q (.readTimeout r) (q.setPhase r .idle)
  | recvTimeout {r} (hphase : (q.readers r).phase = .recv) (hinbox : q.inbox r = []) :
    Moves q (.recvTimeout r) (q.setPhase r .idle)
  | deliver {r allBuffers rest} (hflight : q.flight r = allBuffers :: rest) :
    Moves q (.deliver r) { q with
      flight := Function.update q.flight r rest
      inbox := Function.update q.inbox r (q.inbox r ++ [allBuffers]) }

variable {q q' : MessageQueue b}

theorem writeStep_moves (h : q.writeStep = some q') : Moves q .write q' := by
  unfold writeStep at h
  dsimp only at h
  split at h
  · simp at h
  · rename_i m next readCount hphase
    split at h
    · rename_i hnext
      cases h
      exact .count hphase hnext
    · rename_i hnext
      split at h
      · rename_i hfull
        cases h
        exact .occupied hphase (by omega) hfull.1 hfull.2
      · rename_i hfree
        cases h
        exact .vacant hphase (by omega) fun hw => by_contra fun hc => hfree ⟨hw, hc⟩
  · rename_i hphase
    cases h
    exact .retryWrite hphase
  · rename_i hphase
    cases h
    exact .acquire hphase
  · rename_i hphase
    cases h
    exact .copied hphase
  · rename_i hphase
    split at h
    · rename_i hoffset
      cases h
      exact .store hphase hoffset
    · rename_i hoffset
      cases h
      exact .indexError hphase (by omega)
  · rename_i hphase
    cases h
    exact .overflowError hphase
  · rename_i hphase
    split at h
    · rename_i hnext
      cases h
      exact .clear hphase hnext
    · rename_i hnext
      cases h
      exact .publish hphase (by omega)
  · rename_i hphase
    cases h
    exact .send hphase

theorem readStep_moves {r : Fin b.nReader} (h : q.readStep r = some q') : Moves q (.read r) q' := by
  unfold readStep at h
  dsimp only at h
  split at h
  · simp at h
  · rename_i hphase
    cases h
    exact .readFlag hphase
  · rename_i readFlag hphase
    split at h
    · rename_i hflags
      cases h
      exact .unreadable hphase hflags
    · rename_i hflags
      cases h
      rw [not_or, not_not] at hflags
      exact .readable hphase hflags.1 hflags.2
  · rename_i hphase
    cases h
    exact .retryRead hphase
  · rename_i hphase
    cases h
    exact .load hphase
  · rename_i hphase
    cases h
    exact .loadFails hphase
  · rename_i hphase
    cases h
    exact .loaded hphase
  · rename_i loaded hphase
    cases loaded with
    | overflow =>
      cases h
      exact .markOverflow hphase
    | object main oob =>
      cases h
      exact .markObject hphase
  · rename_i hphase
    cases h
    exact .leave hphase
  · rename_i hphase
    split at h
    · simp at h
    · rename_i hinbox
      cases h
      exact .recv hphase hinbox

theorem step_moves {e : Event b} (h : q.step e = some q') : Moves q e q' := by
  cases e with
  | write => exact writeStep_moves h
  | read r => exact readStep_moves h
  | enqueue m =>
    simp only [step] at h
    split at h
    · rename_i hphase
      cases h
      exact .enqueue hphase
    · simp at h
  | writeTimeout =>
    simp only [step] at h
    split at h
    · rename_i hphase
      cases h
      exact .writeTimeout hphase
    · simp at h
  | dequeue r =>
    simp only [step] at h
    split at h
    · rename_i hphase
      cases h
      exact .dequeue hphase
    · simp at h
  | readTimeout r =>
    simp only [step] at h
    split at h
    · rename_i hphase
      cases h
      exact .readTimeout hphase
    · simp at h
  | recvTimeout r =>
    simp only [step] at h
    split at h
    · rename_i hphase
      split at h
      · rename_i hinbox
        cases h
        exact .recvTimeout hphase hinbox
      · simp at h
    · simp at h
  | deliver r =>
    simp only [step] at h
    split at h
    · simp at h
    · rename_i hflight
      cases h
      exact .deliver hflight

theorem Moves.step_eq {e : Event b} (h : Moves q e q') : q.step e = some q' := by
  cases h with
  | enqueue hphase => simp only [step, hphase]
  | count hphase hnext => simp only [step, writeStep, hphase, if_pos hnext]
  | occupied hphase hnext hwritten hcount =>
    simp only [step, writeStep, hphase, if_neg (Nat.not_lt.mpr hnext),
      if_pos (And.intro hwritten hcount)]
  | vacant hphase hnext hfree =>
    simp only [step, writeStep, hphase, if_neg (Nat.not_lt.mpr hnext)]
    exact if_neg fun h => h.2 (hfree h.1)
  | retryWrite hphase | acquire hphase | copied hphase => simp only [step, writeStep, hphase]
  | store hphase hoffset => simp only [step, writeStep, hphase, if_pos hoffset]
  | indexError hphase hoffset =>
    simp only [step, writeStep, hphase, if_neg (Nat.not_lt.mpr hoffset)]
  | overflowError hphase => simp only [step, writeStep, hphase]
  | clear hphase hnext => simp only [step, writeStep, hphase, if_pos hnext]
  | publish hphase hnext => simp only [step, writeStep, hphase, if_neg (Nat.not_lt.mpr hnext)]
  | send hphase => simp only [step, writeStep, hphase]
  | writeTimeout hphase | dequeue hphase => simp only [step, hphase]
  | readFlag hphase => simp only [step, readStep, hphase]
  | unreadable hphase hflags => simp only [step, readStep, hphase, if_pos hflags]
  | readable hphase hwritten hread =>
    simp only [step, readStep, hphase, if_neg (not_or.mpr ⟨hwritten, not_not.mpr hread⟩)]
  | retryRead hphase | load hphase | loadFails hphase | loaded hphase =>
    simp only [step, readStep, hphase]
  | markOverflow hphase | markObject hphase =>
    simp only [step, readStep, hphase]
    rfl
  | leave hphase => simp only [step, readStep, hphase]
  | recv hphase hinbox =>
    simp only [step, readStep, hphase, hinbox]
    rfl
  | readTimeout hphase => simp only [step, hphase]
  | recvTimeout hphase hinbox => simp only [step, hphase, if_pos hinbox]
  | deliver hflight => simp only [step, hflight]

end MessageQueue

end Vllm.Shm
