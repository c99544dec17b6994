import Vllm.Shm.RingSlots

/-! What holds in every state of the queue, whatever the order of the accesses and whatever calls
time out: what writer and readers know at each point of their calls, and what the readers have. -/
namespace Vllm.Shm
open ShmRingBuffer Function List Nat
variable {b : ShmRingBuffer}

/-- The writer has marked its chunk as not written. -/
def WriterPhase.Overwriting : WriterPhase → Prop
  | .copy _ _ | .clear _ _ => True
  | _ => False

/-- What the writer of slot `k` knows. -/
def WriterOk (b : ShmRingBuffer) (mem : Memory) (taken : Fin b.nReader → ℕ) (k : ℕ) :
    WriterPhase → Prop
  | .count _ next readCount => next ≤ b.nReader ∧
    (b.getMetadata mem (k % b.maxChunks) 0 ≠ 0 → readCount ≤ next ∧
      (readCount = next → ∀ r : Fin b.nReader, r < next → k < taken r + b.maxChunks))
  | .acquire _ => ∀ r, k < taken r + b.maxChunks
  | .copy m writes => b.Vacant mem taken k ∧ ∃ i, i ≤ (b.encode m).length ∧
    writes = storeBytes i ((b.encode m).drop i) ∧
    Shows (b.getData mem (k % b.maxChunks)) 0 ((b.encode m).take i) ∧
    (0 < i → 0 < b.maxChunkBytes)
  | .clear m next => b.Vacant mem taken k ∧ 0 < next ∧
    (∀ r : Fin b.nReader, r + 1 < next → b.getMetadata mem (k % b.maxChunks) (r + 1) = 0) ∧
    Shows (b.getData mem (k % b.maxChunks)) 0 (b.encode m) ∧ 0 < b.maxChunkBytes
  | _ => True

/-- The object was made from its slot, or came over the socket. -/
def Delivery.Shown (b : ShmRingBuffer) (sent : List Message) (d : Delivery) : Prop :=
  match d.object with
  | .inChunk idx main oob => idx = d.seq % b.maxChunks ∧ ∃ m, sent[d.seq]? = some m ∧
    b.loaded m = .object main oob ∧ d.buffers = m.allBuffers
  | .owned allBuffers => d.buffers = allBuffers ∧
    ∃ m, sent[d.seq]? = some m ∧ b.overflows m = true

/-- What a reader that has taken `k` slots knows. -/
def ReaderOk (b : ShmRingBuffer) (mem : Memory) (sent : List Message) (r : Fin b.nReader)
    (k : ℕ) : ReaderPhase → Prop
  | .checkWritten readFlag =>
    readFlag = 0 → b.getMetadata mem (k % b.maxChunks) (r + 1) = 0
  | .load reads => k < sent.length ∧ ∀ m, sent[k]? = some m →
    reads.eval (b.getData mem (k % b.maxChunks)) = some (b.loaded m)
  | .mark loaded => k < sent.length ∧ ∀ m, sent[k]? = some m → loaded = b.loaded m
  | .leave d => d.seq + 1 = k ∧ d.Shown b sent ∧ ∃ idx main oob, d.object = .inChunk idx main oob
  | .recv => 0 < k ∧ ∃ m, sent[k - 1]? = some m ∧ b.overflows m
  | _ => True

theorem Delivery.Shown.append {sent : List Message} {d : Delivery} (h : d.Shown b sent)
    (m : Message) : d.Shown b (sent ++ [m]) := by
  have hold : ∀ {m'}, sent[d.seq]? = some m' → (sent ++ [m])[d.seq]? = some m' := by
    intro m' hm'
    rw [List.getElem?_append_left (List.getElem?_eq_some_iff.mp hm').1]
    exact hm'
  unfold Delivery.Shown at h ⊢
  split at h
  · obtain ⟨hidx, m', hm', hl, hd⟩ := h
    exact ⟨hidx, m', hold hm', hl, hd⟩
  · obtain ⟨hd, m', hm', hover⟩ := h
    exact ⟨hd, m', hold hm', hover⟩

section Stable
variable {mem mem' : Memory} {sent : List Message} {taken taken' : Fin b.nReader → ℕ}
  {r : Fin b.nReader} {k : ℕ} {phase : ReaderPhase} {m : Message}

section
variable (h : ReaderOk b mem sent r k phase)
include h

theorem ReaderOk.rewrite (hvac : sent.length < k + b.maxChunks)
    (hflags : ∀ i, b.getMetadata mem i (r + 1) = 0 → b.getMetadata mem' i (r + 1) = 0)
    (hdata : ∀ i, i ≠ sent.length % b.maxChunks → i < b.maxChunks →
      b.getData mem' i = b.getData mem i) : ReaderOk b mem' sent r k phase := by
  cases phase with
  | checkWritten readFlag => exact fun hread => hflags _ (h hread)
  | load reads =>
    refine ⟨h.1, ?_⟩
    intro m hm
    rw [hdata _ (mod_ne_of_lt h.1 hvac) (idx_lt k)]
    exact h.2 m hm
  | _ => exact h

theorem ReaderOk.congr (hflags : ∀ i, b.getMetadata mem' i (r + 1) = b.getMetadata mem i (r + 1))
    (hdata : ∀ i, i < b.maxChunks → b.getData mem' i = b.getData mem i) :
    ReaderOk b mem' sent r k phase := by
  cases phase with
  | checkWritten readFlag => exact fun hread => (hflags _).trans (h hread)
  | load reads =>
    refine ⟨h.1, ?_⟩
    rw [hdata _ (idx_lt k)]
    exact h.2
  | _ => exact h

theorem ReaderOk.append (m : Message) : ReaderOk b mem (sent ++ [m]) r k phase := by
  have hlen : (sent ++ [m]).length = sent.length + 1 := by
    rw [length_append, length_singleton]
  cases phase with
  | load reads | mark loaded =>
    refine ⟨by have := h.1; omega, ?_⟩
    rw [List.getElem?_append_left h.1]
    exact h.2
  | leave d => exact ⟨h.1, h.2.1.append m, h.2.2⟩
  | recv =>
    obtain ⟨hpos, m', hm', hover⟩ := h
    refine ⟨hpos, m', ?_, hover⟩
    rw [List.getElem?_append_left (List.getElem?_eq_some_iff.mp hm').1]
    exact hm'
  | _ => exact h

end

theorem WriterOk.start (b : ShmRingBuffer) (mem : Memory) (taken : Fin b.nReader → ℕ) (k : ℕ)
    (m : Message) : WriterOk b mem taken k (.count m 0 0) :=
  ⟨zero_le _, fun _ => ⟨le_rfl, fun _ _ hr => absurd hr (not_lt_zero _)⟩⟩

theorem WriterOk.take {wphase : WriterPhase} (h : WriterOk b mem taken k wphase)
    (hmono : ∀ r, taken r ≤ taken' r)
    (hunwritten : b.getMetadata mem' (k % b.maxChunks) 0 = b.getMetadata mem (k % b.maxChunks) 0)
    (hflags : (∀ r, k < taken r + b.maxChunks) → ∀ r : Fin b.nReader,
      b.getMetadata mem' (k % b.maxChunks) (r + 1) = b.getMetadata mem (k % b.maxChunks) (r + 1))
    (hdata : b.getData mem' (k % b.maxChunks) = b.getData mem (k % b.maxChunks)) :
    WriterOk b mem' taken' k wphase := by
  have hahead : ∀ r, k < taken r + b.maxChunks → k < taken' r + b.maxChunks := by
    intro r hr
    have := hmono r
    omega
  have hvacant : b.Vacant mem taken k → b.Vacant mem' taken' k := fun hvac =>
    ⟨hunwritten.trans hvac.unwritten, fun r => hahead r (hvac.taken r)⟩
  cases wphase with
  | count m next readCount =>
    refine ⟨h.1, ?_⟩
    rw [hunwritten]
    intro hne
    obtain ⟨hle, hall⟩ := h.2 hne
    exact ⟨hle, fun heq r hr => hahead r (hall heq r hr)⟩
  | acquire m => exact fun r => hahead r (h r)
  | copy m writes =>
    obtain ⟨hvac, hwrites⟩ := h
    refine ⟨hvacant hvac, ?_⟩
    rw [hdata]
    exact hwrites
  | clear m next =>
    obtain ⟨hvac, hpos, hclear, hshows, hroom⟩ := h
    refine ⟨hvacant hvac, hpos, ?_, ?_, hroom⟩
    · intro r hr
      rw [hflags hvac.taken r]
      exact hclear r hr
    · rw [hdata]
      exact hshows
  | _ => exact h

end Stable

theorem storeBytes_drop {bs : List UInt8} {i : ℕ} {w : ChunkWrite} {rest : List ChunkWrite}
    (h : w :: rest = storeBytes i (bs.drop i)) :
    ∃ hi : i < bs.length, w = .store i bs[i] ∧ rest = storeBytes (i + 1) (bs.drop (i + 1)) := by
  obtain hi | hi := lt_or_ge i bs.length
  · rw [drop_eq_getElem_cons hi, storeBytes, List.cons.injEq] at h
    exact ⟨hi, h⟩
  · rw [drop_eq_nil_of_le hi] at h
    simp [storeBytes] at h

namespace MessageQueue
variable {q q' : MessageQueue b} {e : Event b}

structure RingInv (q : MessageQueue b) : Prop where
  slots : b.Slots q.mem q.sent q.taken
  writerIdx : q.writer.currentIdx = q.sent.length % b.maxChunks
  writer : WriterOk b q.mem q.taken q.sent.length q.writer.phase
  readerIdx : ∀ r, (q.readers r).currentIdx = q.taken r % b.maxChunks
  readers : ∀ r, ReaderOk b q.mem q.sent r (q.taken r) (q.readers r).phase
  returned : ∀ r, ∀ d ∈ (q.readers r).returned, d.seq < q.taken r ∧ d.Shown b q.sent
  room : q.sent ≠ [] → 0 < b.maxChunkBytes
  busy : b.maxChunks ≤ q.sent.length →
    b.getMetadata q.mem (q.sent.length % b.maxChunks) 0 = 0 → q.writer.phase.Overwriting

@[simp] theorem taken_setPhase (q : MessageQueue b) (r : Fin b.nReader) (phase : ReaderPhase) :
    (q.setPhase r phase).taken = q.taken := by
  funext r'
  by_cases hr : r' = r
  · subst hr
    simp [taken]
  · simp [taken, update_of_ne hr]

theorem phase_setPhase (q : MessageQueue b) (r r' : Fin b.nReader) (phase : ReaderPhase) :
    ((q.setPhase r phase).readers r').phase =
      if r' = r then phase else (q.readers r').phase := by
  by_cases hr : r' = r
  · subst hr
    simp
  · simp [hr]

namespace RingInv

theorem init : RingInv ({} : MessageQueue b) where
  slots := Slots.init
  writerIdx := (zero_mod _).symm
  writer := trivial
  readerIdx _ := (zero_mod _).symm
  readers _ := trivial
  returned _ _ hd := absurd hd not_mem_nil
  room h := absurd rfl h
  busy h := absurd h (not_le.mpr b.maxChunks_pos)

variable (h : RingInv q)
include h

theorem setWriter {phase : WriterPhase}
    (hwriter : WriterOk b q.mem q.taken q.sent.length phase)
    (hbusy : q.sent ≠ [] → q.writer.phase.Overwriting → phase.Overwriting) :
    RingInv (q.setWriter phase) where
  slots := h.slots
  writerIdx := h.writerIdx
  writer := hwriter
  readerIdx := h.readerIdx
  readers := h.readers
  returned := h.returned
  room := h.room
  busy hle hflag := hbusy (by
    rintro hnil
    have hsent : q.sent.length = 0 := by rw [hnil, length_nil]
    have hpos := b.maxChunks_pos
    change b.maxChunks ≤ q.sent.length at hle
    omega) (h.busy hle hflag)

theorem setPhase {r : Fin b.nReader} {phase : ReaderPhase}
    (hreader : ReaderOk b q.mem q.sent r (q.taken r) phase) : RingInv (q.setPhase r phase) where
  slots := by
    rw [taken_setPhase]
    exact h.slots
  writerIdx := h.writerIdx
  writer := by
    rw [taken_setPhase]
    exact h.writer
  readerIdx r' := by
    rw [taken_setPhase]
    by_cases hr : r' = r
    · subst hr
      simpa using h.readerIdx r'
    · simpa [hr] using h.readerIdx r'
  readers r' := by
    rw [taken_setPhase, phase_setPhase]
    split
    · rename_i hr
      rw [hr]
      exact hreader
    · exact h.readers r'
  returned r' := by
    rw [taken_setPhase]
    by_cases hr : r' = r
    · subst hr
      simpa using h.returned r'
    · simpa [hr] using h.returned r'
  room := h.room
  busy := h.busy

/-- The vacant chunk is written. -/
theorem rewrite {mem' : Memory} {phase : WriterPhase}
    (hwriter : WriterOk b mem' q.taken q.sent.length phase) (hover : phase.Overwriting)
    (hvac : b.Vacant mem' q.taken q.sent.length)
    (hflags : ∀ i, i ≠ q.sent.length % b.maxChunks → ∀ f ≤ b.nReader,
      b.getMetadata mem' i f = b.getMetadata q.mem i f)
    (hread : ∀ r : Fin b.nReader, ∀ i,
      b.getMetadata q.mem i (r + 1) = 0 → b.getMetadata mem' i (r + 1) = 0)
    (hdata : ∀ i, i ≠ q.sent.length % b.maxChunks → i < b.maxChunks →
      b.getData mem' i = b.getData q.mem i) :
    RingInv { q.setWriter phase with mem := mem' } where
  slots := h.slots.rewrite hvac hflags hdata
  writerIdx := h.writerIdx
  writer := hwriter
  readerIdx := h.readerIdx
  readers r := (h.readers r).rewrite (hvac.taken r) (hread r) hdata
  returned := h.returned
  room := h.room
  busy _ _ := hover

theorem publish {m : Message} {next : ℕ} (hphase : q.writer.phase = .clear m next)
    (hnext : b.nReader + 1 ≤ next) {phase : WriterPhase}
    (hwriter : ∀ mem taken k, WriterOk b mem taken k phase) :
    RingInv { q with
      mem := b.setMetadata q.mem q.writer.currentIdx 0 1
      writer := ⟨(q.writer.currentIdx + 1) % b.maxChunks, phase⟩
      sent := q.sent ++ [m] } := by
  have hok := h.writer
  rw [hphase] at hok
  obtain ⟨hvac, -, hclear, hshows, hroom⟩ := hok
  rw [h.writerIdx]
  have hread : ∀ r : Fin b.nReader,
      b.getMetadata q.mem (q.sent.length % b.maxChunks) (r + 1) = 0 := fun r =>
    hclear r (by omega)
  refine ⟨h.slots.publish hvac hread hshows, ?_, hwriter _ _ _, h.readerIdx, ?_, ?_,
    fun _ => hroom, ?_⟩
  · rw [length_append, length_singleton, mod_add_mod]
  · intro r
    refine ((h.readers r).congr ?_ ?_).append m
    · intro i
      rw [getMetadata_setMetadata_of_ne (by omega) (by omega) (by omega)]
    · intro i hi
      rw [getData_setMetadata hi]
  · intro r d hd
    obtain ⟨hlt, hshown⟩ := h.returned r d hd
    exact ⟨hlt, hshown.append m⟩
  · intro hle hflag
    rw [length_append, length_singleton] at hle hflag
    have hpos := b.maxChunks_pos
    have hk : q.sent.length + 1 - b.maxChunks < (q.sent ++ [m]).length := by
      rw [length_append, length_singleton]
      omega
    have hfull := h.slots.publish_full hread hshows (List.getElem?_eq_getElem hk) (by omega)
    have hwritten := hfull.written
    rw [← Nat.add_mod_right (q.sent.length + 1 - b.maxChunks), Nat.sub_add_cancel hle,
      hflag] at hwritten
    simp at hwritten

/-- A reader takes its slot. -/
theorem take {r : Fin b.nReader} {phase : ReaderPhase} (hr : q.taken r < q.sent.length)
    (hreader : ∀ mem, ReaderOk b mem q.sent r (q.taken r + 1) phase) :
    RingInv { q.setReader r { q.readers r with
        currentIdx := ((q.readers r).currentIdx + 1) % b.maxChunks
        phase := phase
        taken := q.taken r + 1 } with
      mem := b.setMetadata q.mem (q.readers r).currentIdx (r + 1) 1 } := by
  have htaken : MessageQueue.taken { q.setReader r { q.readers r with
        currentIdx := ((q.readers r).currentIdx + 1) % b.maxChunks
        phase := phase
        taken := q.taken r + 1 } with
      mem := b.setMetadata q.mem (q.readers r).currentIdx (r + 1) 1 } =
      update q.taken r (q.taken r + 1) := by
    funext r'
    by_cases hr' : r' = r
    · subst hr'
      simp [MessageQueue.taken]
    · simp [MessageQueue.taken, hr']
  have hmono : ∀ r', q.taken r' ≤ update q.taken r (q.taken r + 1) r' := by
    intro r'
    by_cases hr' : r' = r
    · subst hr'
      simp
    · simp [hr']
  have hzero : ∀ i, b.getMetadata (b.setMetadata q.mem (q.taken r % b.maxChunks) (r + 1) 1) i 0 =
      b.getMetadata q.mem i 0 := fun i =>
    getMetadata_setMetadata_of_ne (by omega) (by omega) (by omega)
  rw [h.readerIdx] at htaken ⊢
  refine ⟨?_, h.writerIdx, ?_, ?_, ?_, ?_, h.room, ?_⟩
  · rw [htaken]
    exact h.slots.take hr
  · rw [htaken]
    refine h.writer.take hmono (hzero _) ?_ (getData_setMetadata (idx_lt _))
    intro hahead r'
    exact getMetadata_setMetadata_of_ne_idx (by omega) (by omega) (mod_ne_of_lt hr (hahead r)).symm
  · intro r'
    rw [htaken]
    by_cases hr' : r' = r
    · subst hr'
      simp
    · simpa [hr'] using h.readerIdx r'
  · intro r'
    rw [htaken]
    by_cases hr' : r' = r
    · subst hr'
      simpa using hreader _
    · simp only [setReader_readers, update_of_ne hr']
      refine (h.readers r').congr ?_ ?_
      · intro i
        exact getMetadata_setMetadata_of_ne (by omega) (by omega)
          fun heq => hr' (Fin.ext (by omega))
      · intro i hi
        exact getData_setMetadata hi
  · intro r' d hd
    rw [htaken]
    by_cases hr' : r' = r
    · subst hr'
      obtain ⟨hlt, hshown⟩ := h.returned r' d (by simpa using hd)
      exact ⟨by rw [update_self]; omega, hshown⟩
    · rw [update_of_ne hr']
      exact h.returned r' d (by simpa [hr'] using hd)
  · intro hle hflag
    rw [hzero] at hflag
    exact h.busy hle hflag

/-- A call is over with what it returns. -/
theorem returns {r : Fin b.nReader} {d : Delivery} (hseq : d.seq < q.taken r)
    (hshown : d.Shown b q.sent) :
    RingInv (q.setReader r { q.readers r with
      phase := .idle
      returned := (q.readers r).returned ++ [d] }) := by
  have htaken : (q.setReader r { q.readers r with
      phase := .idle
      returned := (q.readers r).returned ++ [d] }).taken = q.taken := by
    funext r'
    by_cases hr : r' = r
    · subst hr
      simp [MessageQueue.taken]
    · simp [MessageQueue.taken, hr]
  refine ⟨?_, h.writerIdx, ?_, ?_, ?_, ?_, h.room, h.busy⟩
  · rw [htaken]
    exact h.slots
  · rw [htaken]
    exact h.writer
  · intro r'
    rw [htaken]
    by_cases hr : r' = r
    · subst hr
      simpa using h.readerIdx r'
    · simpa [hr] using h.readerIdx r'
  · intro r'
    rw [htaken]
    by_cases hr : r' = r
    · subst hr
      simp [ReaderOk]
    · simpa [hr] using h.readers r'
  · intro r' d' hd'
    rw [htaken]
    by_cases hr : r' = r
    · subst hr
      obtain hd' | rfl : d' ∈ (q.readers r').returned ∨ d' = d := by simpa using hd'
      · exact h.returned r' d' hd'
      · exact ⟨hseq, hshown⟩
    · exact h.returned r' d' (by simpa [hr] using hd')

theorem count {m : Message} {next readCount : ℕ}
    (hphase : q.writer.phase = .count m next readCount) (hnext : next < b.nReader) :
    WriterOk b q.mem q.taken q.sent.length (.count m (next + 1)
      (readCount + (b.getMetadata q.mem q.writer.currentIdx (next + 1)).toNat)) := by
  have hok := h.writer
  rw [hphase] at hok
  refine ⟨hnext, ?_⟩
  intro hwritten
  obtain ⟨hle, hall⟩ := hok.2 hwritten
  rw [h.writerIdx]
  obtain ⟨k, m', hk, hm'⟩ | hlt := Slots.old_or_fresh b q.sent
  · obtain hfull | ⟨-, hvac⟩ := h.slots.full k m' hm' (by omega)
    · have hread := hfull.read ⟨next, hnext⟩
      rw [← add_mod_right k, hk] at hread
      by_cases htaken : k < q.taken ⟨next, hnext⟩
      · rw [if_pos htaken] at hread
        rw [hread]
        refine ⟨by simp; omega, ?_⟩
        intro heq r hr
        have hcount : readCount = next := by
          rw [UInt8.toNat_one] at heq
          omega
        obtain hr | hr := Nat.lt_succ_iff_lt_or_eq.mp hr
        · exact hall hcount r hr
        · obtain rfl : r = ⟨next, hnext⟩ := Fin.ext hr
          omega
      · rw [if_neg htaken] at hread
        rw [hread]
        refine ⟨by simp; omega, ?_⟩
        intro heq
        rw [UInt8.toNat_zero] at heq
        omega
    · exact absurd hvac.unwritten hwritten
  · rw [mod_eq_of_lt hlt] at hwritten
    exact absurd (h.slots.fresh hlt _ le_rfl hlt) hwritten

/-- The writer goes on only if nobody needs the old content of its chunk. -/
theorem acquire {m : Message} {next readCount : ℕ}
    (hphase : q.writer.phase = .count m next readCount) (hnext : b.nReader ≤ next)
    (hfree : b.getMetadata q.mem q.writer.currentIdx 0 ≠ 0 → readCount = b.nReader) :
    ∀ r, q.sent.length < q.taken r + b.maxChunks := by
  have hok := h.writer
  rw [hphase] at hok
  obtain ⟨hle, hflags⟩ := hok
  rw [h.writerIdx] at hfree
  by_cases hwritten : b.getMetadata q.mem (q.sent.length % b.maxChunks) 0 = 0
  · obtain ⟨k, m', hk, hm'⟩ | hlt := Slots.old_or_fresh b q.sent
    · obtain hfull | ⟨-, hvac⟩ := h.slots.full k m' hm' (by omega)
      · have hone := hfull.written
        rw [← add_mod_right k, hk, hwritten] at hone
        simp at hone
      · exact hvac.taken
    · intro r
      omega
  · intro r
    exact (hflags hwritten).2 (by rw [hfree hwritten]; omega) r (by omega)

theorem writes {m : Message} {w : ChunkWrite} {rest : List ChunkWrite}
    (hphase : q.writer.phase = .copy m (w :: rest)) :
    ∃ i, ∃ hi : i < (b.encode m).length, w = .store i (b.encode m)[i] ∧
      rest = storeBytes (i + 1) ((b.encode m).drop (i + 1)) ∧
      Shows (b.getData q.mem (q.sent.length % b.maxChunks)) 0 ((b.encode m).take i) ∧
      (0 < b.maxChunkBytes → i < b.maxChunkBytes) := by
  have hok := h.writer
  rw [hphase] at hok
  obtain ⟨-, i, -, hwrites, hshows, -⟩ := hok
  obtain ⟨hi, hw, hrest⟩ := storeBytes_drop hwrites
  refine ⟨i, hi, hw, hrest, hshows, ?_⟩
  intro hroom
  cases hover : b.overflows m with
  | true =>
    rw [encode, if_pos hover, length_singleton] at hi
    omega
  | false => exact hi.trans_le (length_encode_le hover)

theorem begins {m : Message} (hphase : q.writer.phase = .acquire m) :
    RingInv { q.setWriter (.copy m (b.chunkWrites m)) with
      mem := b.setMetadata q.mem q.writer.currentIdx 0 0 } := by
  have hok := h.writer
  rw [hphase] at hok
  have hvac : b.Vacant (b.setMetadata q.mem q.writer.currentIdx 0 0) q.taken q.sent.length := by
    rw [h.writerIdx]
    exact ⟨getMetadata_setMetadata_self, hok⟩
  refine h.rewrite ⟨hvac, 0, zero_le _, ?_, Shows.nil, fun h0 => absurd h0 (lt_irrefl 0)⟩
    trivial hvac ?_ ?_ ?_
  · rw [chunkWrites_eq, drop_zero]
  · rw [h.writerIdx]
    exact fun i hi f hf =>
      getMetadata_setMetadata_of_ne_idx (zero_le _) hf hi
  · intro r i hr
    rw [getMetadata_setMetadata_of_ne (by omega) (by omega) (by omega)]
    exact hr
  · exact fun i _ hi => getData_setMetadata hi

theorem copied {m : Message} (hphase : q.writer.phase = .copy m []) :
    RingInv (q.setWriter (.clear m 1)) := by
  have hok := h.writer
  rw [hphase] at hok
  obtain ⟨hvac, i, hi, hwrites, hshows, hroom⟩ := hok
  have hall : i = (b.encode m).length := by
    by_contra hne
    rw [drop_eq_getElem_cons (by omega), storeBytes] at hwrites
    simp at hwrites
  rw [hall, take_length] at hshows
  have hpos : 0 < (b.encode m).length := by
    unfold encode
    split <;> simp
  refine h.setWriter ⟨hvac, by omega, ?_, hshows, hroom (by omega)⟩ fun _ _ => trivial
  exact fun r hr => absurd hr (by omega)

theorem stores {m : Message} {offset : ℕ} {value : UInt8} {rest : List ChunkWrite}
    (hphase : q.writer.phase = .copy m (.store offset value :: rest))
    (hoffset : offset < b.maxChunkBytes) : RingInv { q.setWriter (.copy m rest) with
      mem := b.setData q.mem q.writer.currentIdx offset value } := by
  obtain ⟨i, hi, hw, hrest, hshows, -⟩ := h.writes hphase
  obtain ⟨rfl, rfl⟩ := ChunkWrite.store.inj hw
  have hok := h.writer
  rw [hphase] at hok
  have hvac : b.Vacant (b.setData q.mem q.writer.currentIdx offset (b.encode m)[offset]) q.taken
      q.sent.length := by
    rw [h.writerIdx]
    refine ⟨?_, hok.1.taken⟩
    rw [getMetadata_setData (idx_lt _) hoffset]
    exact hok.1.unwritten
  refine h.rewrite ⟨hvac, _, hi, hrest, ?_, fun _ => by omega⟩ trivial hvac ?_ ?_ ?_
  · rw [h.writerIdx, getData_setData_self hoffset]
    exact hshows.store hi
  · rw [h.writerIdx]
    exact fun i _ f _ => getMetadata_setData (idx_lt _) hoffset
  · rw [h.writerIdx]
    intro r i hr
    rw [getMetadata_setData (idx_lt _) hoffset]
    exact hr
  · rw [h.writerIdx]
    exact fun i hne _ => getData_setData_of_ne hoffset hne

theorem clears {m : Message} {next : ℕ} (hphase : q.writer.phase = .clear m next)
    (hnext : next < b.nReader + 1) : RingInv { q.setWriter (.clear m (next + 1)) with
      mem := b.setMetadata q.mem q.writer.currentIdx next 0 } := by
  have hok := h.writer
  rw [hphase] at hok
  obtain ⟨hvac, hpos, hclear, hshows, hroom⟩ := hok
  rw [h.writerIdx]
  have hvac' : b.Vacant (b.setMetadata q.mem (q.sent.length % b.maxChunks) next 0) q.taken
      q.sent.length := by
    refine ⟨?_, hvac.taken⟩
    rw [getMetadata_setMetadata_of_ne (Nat.lt_succ_iff.mp hnext) (by omega) (by omega)]
    exact hvac.unwritten
  have hstays : ∀ r : Fin b.nReader, ∀ i, b.getMetadata q.mem i (r + 1) = 0 →
      b.getMetadata (b.setMetadata q.mem (q.sent.length % b.maxChunks) next 0) i (r + 1) = 0 := by
    intro r i hr
    rw [getMetadata, setMetadata, update_apply]
    split
    · rfl
    · exact hr
  refine h.rewrite ⟨hvac', by omega, ?_, ?_, hroom⟩ trivial hvac' ?_ hstays ?_
  · intro r hr
    obtain hr | hr := Nat.lt_succ_iff_lt_or_eq.mp hr
    · exact hstays r _ (hclear r hr)
    · rw [hr, getMetadata_setMetadata_self]
  · rw [getData_setMetadata (idx_lt _)]
    exact hshows
  · exact fun i hi f hf =>
      getMetadata_setMetadata_of_ne_idx (Nat.lt_succ_iff.mp hnext) hf hi
  · exact fun i _ hi => getData_setMetadata hi

/-- What every event preserves. -/
theorem moves (hm : Moves q e q') : RingInv q' := by
  cases hm with
  | enqueue hphase | retryWrite hphase =>
    refine h.setWriter (WriterOk.start b q.mem q.taken _ _) ?_
    rw [hphase]
    exact fun _ => id
  | count hphase hnext =>
    refine h.setWriter (h.count hphase hnext) ?_
    rw [hphase]
    exact fun _ => id
  | occupied hphase hnext hwritten hcount | writeTimeout hphase =>
    refine h.setWriter trivial ?_
    rw [hphase]
    exact fun _ => id
  | vacant hphase hnext hfree =>
    refine h.setWriter (h.acquire hphase hnext hfree) ?_
    rw [hphase]
    exact fun _ => id
  | acquire hphase => exact h.begins hphase
  | copied hphase => exact h.copied hphase
  | store hphase hoffset => exact h.stores hphase hoffset
  | indexError hphase hoffset =>
    refine h.setWriter trivial ?_
    intro hsent
    obtain ⟨i, hi, hw, -, -, hlt⟩ := h.writes hphase
    obtain ⟨rfl, -⟩ := ChunkWrite.store.inj hw
    have := hlt (h.room hsent)
    omega
  | overflowError hphase =>
    obtain ⟨i, hi, hw, -⟩ := h.writes hphase
    simp at hw
  | clear hphase hnext => exact h.clears hphase hnext
  | publish hphase hnext =>
    refine h.publish hphase hnext ?_
    intro mem taken k
    split <;> trivial
  | send hphase =>
    have hnext : RingInv (q.setWriter .idle) := h.setWriter trivial (by
      rw [hphase]
      exact fun _ => id)
    exact ⟨hnext.slots, hnext.writerIdx, hnext.writer, hnext.readerIdx, hnext.readers,
      hnext.returned, hnext.room, hnext.busy⟩
  | dequeue hphase | unreadable hphase hflags | retryRead hphase | loadFails hphase =>
    exact h.setPhase trivial
  | @readFlag r hphase =>
    refine h.setPhase ?_
    rw [h.readerIdx]
    exact id
  | @readable r readFlag hphase hwritten hread =>
    have hok := h.readers r
    rw [hphase] at hok
    rw [h.readerIdx] at hwritten
    have hlt := h.slots.readable (hok hread) hwritten
    refine h.setPhase ⟨hlt, ?_⟩
    intro m hm
    exact eval_readChunk (h.slots.full_of_not_taken le_rfl hm).bytes
  | @load r offset next hphase =>
    have hok := h.readers r
    rw [hphase] at hok
    refine h.setPhase ⟨hok.1, ?_⟩
    intro m hm
    rw [h.readerIdx]
    exact hok.2 m hm
  | @loaded r loaded hphase =>
    have hok := h.readers r
    rw [hphase] at hok
    refine h.setPhase ⟨hok.1, ?_⟩
    intro m hm
    exact Option.some.inj (hok.2 m hm)
  | @markOverflow r hphase =>
    have hok := h.readers r
    rw [hphase] at hok
    refine h.take hok.1 fun mem => ⟨succ_pos _, _, List.getElem?_eq_getElem hok.1, ?_⟩
    have hover := hok.2 _ (List.getElem?_eq_getElem hok.1)
    by_contra hne
    rw [loaded, if_neg hne] at hover
    simp at hover
  | @markObject r main oob hphase =>
    have hok := h.readers r
    rw [hphase] at hok
    have hm := List.getElem?_eq_getElem hok.1
    have hl := hok.2 _ hm
    have hfull := h.slots.full_of_not_taken le_rfl hm
    refine h.take hok.1 fun mem => ⟨rfl, ⟨h.readerIdx r, _, hm, hl.symm, ?_⟩, _, _, _, rfl⟩
    rw [h.readerIdx]
    exact read_loaded hfull.bytes hl.symm
  | @leave r delivery hphase =>
    have hok := h.readers r
    rw [hphase] at hok
    exact h.returns (by have := hok.1; omega) hok.2.1
  | @recv r allBuffers rest hphase hinbox =>
    have hok := h.readers r
    rw [hphase] at hok
    have hnext : RingInv (q.setReader r { q.readers r with
        phase := .idle
        returned := (q.readers r).returned ++
          [⟨q.taken r - 1, .owned allBuffers, allBuffers⟩] }) :=
      h.returns (by have := hok.1; dsimp only; omega) ⟨rfl, hok.2⟩
    exact ⟨hnext.slots, hnext.writerIdx, hnext.writer, hnext.readerIdx, hnext.readers,
      hnext.returned, hnext.room, hnext.busy⟩
  | readTimeout hphase | recvTimeout hphase hinbox => exact h.setPhase trivial
  | deliver hflight =>
    exact ⟨h.slots, h.writerIdx, h.writer, h.readerIdx, h.readers, h.returned, h.room, h.busy⟩

end RingInv

end MessageQueue

end Vllm.Shm
