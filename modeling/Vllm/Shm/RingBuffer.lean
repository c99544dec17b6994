import Vllm.Lib.ByteReads

/-! The shared memory of a broadcast queue: chunks of data, and for each chunk a flag that it is
written and one flag per reader that it is read. How a message lies in a chunk: an overflow byte,
the number of buffers, and each buffer after its length. What is written stays inside the chunk, and
reading it gives the buffers back. -/
namespace Vllm.Shm
open Function Nat

abbrev Memory := ℕ → UInt8

/-- The sizes of a ring, with what a queue needs of them. -/
structure ShmRingBuffer where
  nReader : ℕ
  maxChunkBytes : ℕ
  maxChunks : ℕ
  maxChunks_pos : 0 < maxChunks
  maxChunkBytes_le : maxChunkBytes ≤ 2 ^ 32

namespace ShmRingBuffer
variable (b : ShmRingBuffer)

def metadataSize : ℕ := 1 + b.nReader

def totalBytesOfBuffer : ℕ := (b.maxChunkBytes + b.metadataSize) * b.maxChunks

def dataOffset : ℕ := 0

def metadataOffset : ℕ := b.maxChunkBytes * b.maxChunks

def dataAddr (idx offset : ℕ) : ℕ := dataOffset + idx * b.maxChunkBytes + offset

def metadataAddr (idx flag : ℕ) : ℕ := b.metadataOffset + idx * b.metadataSize + flag

/-- The bytes of a chunk. -/
def getData (mem : Memory) (idx : ℕ) : ℕ → UInt8 := fun offset =>
  if offset < b.maxChunkBytes then mem (b.dataAddr idx offset) else 0

/-- The flags of a chunk: flag 0 says that it is written, flag `r + 1` that reader `r` has read
it. -/
def getMetadata (mem : Memory) (idx flag : ℕ) : UInt8 := mem (b.metadataAddr idx flag)

def setData (mem : Memory) (idx offset : ℕ) (value : UInt8) : Memory :=
  Function.update mem (b.dataAddr idx offset) value

def setMetadata (mem : Memory) (idx flag : ℕ) (value : UInt8) : Memory :=
  Function.update mem (b.metadataAddr idx flag) value

variable {b}

theorem mul_add_inj {w i i' j j' : ℕ} (hj : j < w) (hj' : j' < w)
    (h : i * w + j = i' * w + j') : i = i' ∧ j = j' := by
  have hi := congrArg (· / w) h
  have hm := congrArg (· % w) h
  simp only [mul_comm _ w, mul_add_div (by omega : 0 < w), mul_add_mod,
    div_eq_of_lt hj, div_eq_of_lt hj', mod_eq_of_lt hj, mod_eq_of_lt hj'] at hi hm
  exact ⟨by omega, hm⟩

theorem dataAddr_lt {idx offset : ℕ} (hidx : idx < b.maxChunks) (ho : offset < b.maxChunkBytes) :
    b.dataAddr idx offset < b.metadataOffset := by
  have h := mul_le_mul_right b.maxChunkBytes (succ_le_of_lt hidx)
  rw [succ_mul] at h
  rw [dataAddr, dataOffset, metadataOffset, mul_comm b.maxChunkBytes]
  omega

theorem dataAddr_ne_metadataAddr {idx offset idx' flag : ℕ} (hidx : idx < b.maxChunks)
    (ho : offset < b.maxChunkBytes) : b.dataAddr idx offset ≠ b.metadataAddr idx' flag := by
  have h := dataAddr_lt hidx ho
  rw [metadataAddr]
  omega

theorem dataAddr_inj {idx offset idx' offset' : ℕ} (ho : offset < b.maxChunkBytes)
    (ho' : offset' < b.maxChunkBytes) (h : b.dataAddr idx offset = b.dataAddr idx' offset') :
    idx = idx' ∧ offset = offset' := by
  simp only [dataAddr, dataOffset, zero_add] at h
  exact mul_add_inj ho ho' h

theorem metadataAddr_inj {idx flag idx' flag' : ℕ} (hf : flag ≤ b.nReader)
    (hf' : flag' ≤ b.nReader) (h : b.metadataAddr idx flag = b.metadataAddr idx' flag') :
    idx = idx' ∧ flag = flag' := by
  simp only [metadataAddr, add_assoc, add_left_cancel_iff] at h
  exact mul_add_inj (by rw [metadataSize]; omega) (by rw [metadataSize]; omega) h

theorem dataAddr_lt_total {idx offset : ℕ} (hidx : idx < b.maxChunks)
    (ho : offset < b.maxChunkBytes) : b.dataAddr idx offset < b.totalBytesOfBuffer := by
  have h := dataAddr_lt hidx ho
  have htotal : b.metadataOffset ≤ b.totalBytesOfBuffer := by
    rw [metadataOffset, totalBytesOfBuffer]
    exact mul_le_mul_right _ (le_add_right _ _)
  omega

theorem metadataAddr_lt_total {idx flag : ℕ} (hidx : idx < b.maxChunks)
    (hf : flag ≤ b.nReader) : b.metadataAddr idx flag < b.totalBytesOfBuffer := by
  have h := mul_le_mul_right b.metadataSize (succ_le_of_lt hidx)
  rw [succ_mul] at h
  have hsize : flag < b.metadataSize := by
    rw [metadataSize]
    omega
  rw [metadataAddr, totalBytesOfBuffer, add_mul, metadataOffset,
    mul_comm b.metadataSize b.maxChunks]
  omega

section Writes
variable {mem : Memory} {idx idx' offset flag flag' : ℕ} {value : UInt8}

theorem getData_setData_self (ho : offset < b.maxChunkBytes) :
    b.getData (b.setData mem idx offset value) idx =
      update (b.getData mem idx) offset value := by
  funext k
  by_cases hk : k = offset
  · subst hk
    simp [getData, setData, ho]
  · rw [update_of_ne hk]
    simp only [getData, setData]
    split
    · rename_i hlt
      rw [update_of_ne fun h => hk (dataAddr_inj hlt ho h).2]
    · rfl

theorem getData_setData_of_ne (ho : offset < b.maxChunkBytes) (hne : idx' ≠ idx) :
    b.getData (b.setData mem idx offset value) idx' = b.getData mem idx' := by
  funext k
  simp only [getData, setData]
  split
  · rename_i hlt
    rw [update_of_ne fun h => hne (dataAddr_inj hlt ho h).1]
  · rfl

theorem getData_setMetadata (hidx : idx' < b.maxChunks) :
    b.getData (b.setMetadata mem idx flag value) idx' = b.getData mem idx' := by
  funext k
  simp only [getData, setMetadata]
  split
  · rename_i hlt
    rw [update_of_ne (dataAddr_ne_metadataAddr hidx hlt)]
  · rfl

theorem getMetadata_setData (hidx : idx < b.maxChunks) (ho : offset < b.maxChunkBytes) :
    b.getMetadata (b.setData mem idx offset value) idx' flag = b.getMetadata mem idx' flag := by
  rw [getMetadata, setData, update_of_ne (dataAddr_ne_metadataAddr hidx ho).symm]
  rfl

@[simp] theorem getMetadata_setMetadata_self :
    b.getMetadata (b.setMetadata mem idx flag value) idx flag = value := by
  rw [getMetadata, setMetadata, update_self]

theorem getMetadata_setMetadata_of_ne_idx (hf : flag ≤ b.nReader) (hf' : flag' ≤ b.nReader)
    (hne : idx' ≠ idx) :
    b.getMetadata (b.setMetadata mem idx flag value) idx' flag' = b.getMetadata mem idx' flag' := by
  rw [getMetadata, setMetadata, update_of_ne fun h => hne (metadataAddr_inj hf' hf h).1]
  rfl

theorem getMetadata_setMetadata_of_ne (hf : flag ≤ b.nReader) (hf' : flag' ≤ b.nReader)
    (hne : flag' ≠ flag) :
    b.getMetadata (b.setMetadata mem idx flag value) idx' flag' = b.getMetadata mem idx' flag' := by
  rw [getMetadata, setMetadata, update_of_ne fun h => hne (metadataAddr_inj hf' hf h).2]
  rfl

end Writes

end ShmRingBuffer

open ByteReads

/-- Buffers below 1 MiB stay in the pickled stream. -/
def oobCallback (rawBuf : List UInt8) : Bool := rawBuf.length < 1024 * 1024

/-- A pickled object: the stream, and the buffers that were left out of it. -/
structure Message where
  main : List UInt8
  oob : List (List UInt8)
  outOfBand : ∀ rawBuf ∈ oob, oobCallback rawBuf = false

namespace Message

def allBuffers (m : Message) : List (List UInt8) := m.main :: m.oob

def totalBytes (m : Message) : ℕ := 6 + (m.oob.map fun rawBuf => rawBuf.length + 4).sum

end Message

/-- What the copy into a chunk does next: one byte, or an overflow error of `to_bytes`. -/
inductive ChunkWrite where
  | store (offset : ℕ) (value : UInt8)
  | overflowError
  deriving DecidableEq

def storeBytes (offset : ℕ) : List UInt8 → List ChunkWrite
  | [] => []
  | value :: rest => .store offset value :: storeBytes (offset + 1) rest

def storeNumber (offset value size : ℕ) : List ChunkWrite :=
  match toBytesBig value size with
  | some bs => storeBytes offset bs
  | none => [.overflowError]

/-- Each buffer, preceded by its length. -/
def storeBuffers (offset : ℕ) : List (List UInt8) → List ChunkWrite
  | [] => []
  | buffer :: rest =>
    storeNumber offset buffer.length 4 ++ storeBytes (offset + 4) buffer ++
      storeBuffers (offset + 4 + buffer.length) rest

/-- A buffer that lies in a chunk. -/
structure Slice where
  offset : ℕ
  length : ℕ
  deriving DecidableEq

def Slice.read (s : Slice) (d : ℕ → UInt8) : List UInt8 := (List.range' s.offset s.length).map d

/-- What a reader takes from a chunk: that the message comes over the socket, or the copied stream
and the places of the other buffers. -/
inductive Loaded where
  | overflow
  | object (main : List UInt8) (oob : List Slice)
  deriving DecidableEq

def readBuffers : ℕ → ℕ → ByteReads (List Slice)
  | 0, _ => pure []
  | bufCount + 1, offset => do
    let bufLen := fromBytesBig (← ByteReads.bytes offset 4)
    let rest ← readBuffers bufCount (offset + 4 + bufLen)
    pure (⟨offset + 4, bufLen⟩ :: rest)

/-- What `dequeue` reads of a chunk, with `pickle.loads` reading the first buffer. -/
def readChunk : ByteReads (Option Loaded) := do
  let first ← ByteReads.byte 0
  if first = 1 then pure (some .overflow)
  else do
    let bufCount := fromBytesBig (← ByteReads.bytes 1 2)
    match ← readBuffers bufCount 3 with
    | [] => pure none
    | main :: oob => do
      let content ← ByteReads.bytes main.offset main.length
      pure (some (.object content oob))

namespace ShmRingBuffer
variable (b : ShmRingBuffer)

def overflows (m : Message) : Bool := b.maxChunkBytes ≤ m.totalBytes + m.main.length

/-- The writes of `enqueue` into a chunk. -/
def chunkWrites (m : Message) : List ChunkWrite :=
  if b.overflows m then [.store 0 1]
  else .store 0 0 :: storeNumber 1 m.allBuffers.length 2 ++ storeBuffers 3 m.allBuffers

end ShmRingBuffer

/-- Buffers with their lengths, one after the other. -/
def encodeBuffers (buffers : List (List UInt8)) : List UInt8 :=
  buffers.flatMap fun buffer => bigEndian buffer.length 4 ++ buffer

theorem encodeBuffers_cons (buffer : List UInt8) (rest : List (List UInt8)) :
    encodeBuffers (buffer :: rest) = bigEndian buffer.length 4 ++ buffer ++ encodeBuffers rest :=
  rfl

/-- The bytes of a message in a chunk. -/
def ShmRingBuffer.encode (b : ShmRingBuffer) (m : Message) : List UInt8 :=
  if b.overflows m then [1]
  else 0 :: bigEndian m.allBuffers.length 2 ++ encodeBuffers m.allBuffers

def slicesAt (offset : ℕ) : List (List UInt8) → List Slice
  | [] => []
  | buffer :: rest => ⟨offset + 4, buffer.length⟩ :: slicesAt (offset + 4 + buffer.length) rest

/-- What a reader is to take from the chunk of a message. -/
def ShmRingBuffer.loaded (b : ShmRingBuffer) (m : Message) : Loaded :=
  if b.overflows m then .overflow else .object m.main (slicesAt (7 + m.main.length) m.oob)

theorem storeBytes_append (offset : ℕ) (xs ys : List UInt8) :
    storeBytes offset (xs ++ ys) = storeBytes offset xs ++ storeBytes (offset + xs.length) ys := by
  induction xs generalizing offset with
  | nil => rfl
  | cons x xs ih =>
    rw [List.cons_append, storeBytes, ih, storeBytes, List.length_cons, List.cons_append,
      add_assoc, add_comm 1]

theorem storeNumber_eq {value size : ℕ} (h : value < 256 ^ size) (offset : ℕ) :
    storeNumber offset value size = storeBytes offset (bigEndian value size) := by
  rw [storeNumber, toBytesBig, if_pos h]

variable {buffers : List (List UInt8)}

theorem storeBuffers_eq (h : ∀ buffer ∈ buffers, buffer.length < 256 ^ 4) (offset : ℕ) :
    storeBuffers offset buffers = storeBytes offset (encodeBuffers buffers) := by
  induction buffers generalizing offset with
  | nil => rfl
  | cons buffer rest ih =>
    rw [storeBuffers, storeNumber_eq (h buffer List.mem_cons_self),
      ih fun b hb => h b (List.mem_cons_of_mem _ hb), encodeBuffers_cons, storeBytes_append,
      storeBytes_append, List.length_append, length_bigEndian, add_assoc]

theorem length_encodeBuffers (buffers : List (List UInt8)) :
    (encodeBuffers buffers).length = (buffers.map fun buffer => buffer.length + 4).sum := by
  induction buffers with
  | nil => rfl
  | cons buffer rest ih =>
    rw [encodeBuffers_cons, List.length_append, List.map_cons, List.sum_cons, ih,
      List.length_append, length_bigEndian, add_comm 4]

section Fits
variable {b : ShmRingBuffer} {m : Message}

section
variable (h : b.overflows m = false)
include h

theorem length_encode : (b.encode m).length = m.totalBytes + m.main.length + 1 := by
  rw [ShmRingBuffer.encode, if_neg (by simp [h])]
  simp only [List.cons_append, List.length_cons, List.length_append, length_bigEndian,
    length_encodeBuffers, Message.allBuffers, List.map_cons, List.sum_cons, Message.totalBytes]
  omega

theorem length_encode_le : (b.encode m).length ≤ b.maxChunkBytes := by
  have hlen := length_encode h
  rw [ShmRingBuffer.overflows, decide_eq_false_iff_not] at h
  omega

theorem length_lt_of_mem {buffer : List UInt8} (hb : buffer ∈ m.allBuffers) :
    buffer.length < 256 ^ 4 := by
  rw [ShmRingBuffer.overflows, decide_eq_false_iff_not] at h
  have hmax := b.maxChunkBytes_le
  have hle : buffer.length ≤ m.totalBytes + m.main.length := by
    obtain rfl | hb := List.mem_cons.mp hb
    · omega
    · have hsum := List.single_le_sum (by simp) _
        (List.mem_map_of_mem (f := fun rawBuf : List UInt8 => rawBuf.length + 4) hb)
      rw [Message.totalBytes]
      omega
  omega

theorem length_allBuffers_lt : m.allBuffers.length < 256 ^ 2 := by
  rw [ShmRingBuffer.overflows, decide_eq_false_iff_not] at h
  have hmax := b.maxChunkBytes_le
  have hsum : m.oob.length * (1024 * 1024) ≤
      (m.oob.map fun rawBuf => rawBuf.length + 4).sum := by
    have hle := List.card_nsmul_le_sum (m.oob.map fun rawBuf => rawBuf.length + 4) (1024 * 1024) (by
      intro x hx
      obtain ⟨rawBuf, hraw, rfl⟩ := List.mem_map.mp hx
      have hlen := m.outOfBand rawBuf hraw
      simp only [oobCallback, decide_eq_false_iff_not] at hlen
      omega)
    simpa using hle
  simp only [Message.totalBytes, Message.allBuffers, List.length_cons] at h ⊢
  omega

end

theorem chunkWrites_eq : b.chunkWrites m = storeBytes 0 (b.encode m) := by
  cases h : b.overflows m with
  | true => simp [ShmRingBuffer.chunkWrites, ShmRingBuffer.encode, h, storeBytes]
  | false =>
    rw [ShmRingBuffer.chunkWrites, ShmRingBuffer.encode, if_neg (by simp [h]),
      if_neg (by simp [h]), storeNumber_eq (length_allBuffers_lt h),
      storeBuffers_eq fun buffer hb => length_lt_of_mem h hb]
    have happ := storeBytes_append 1 (bigEndian m.allBuffers.length 2) (encodeBuffers m.allBuffers)
    rw [length_bigEndian] at happ
    exact congrArg (ChunkWrite.store 0 0 :: ·) happ.symm

end Fits

/-- The store holds these bytes from an offset on. -/
def Shows (d : ℕ → UInt8) (offset : ℕ) (bs : List UInt8) : Prop :=
  (List.range' offset bs.length).map d = bs

section Shows
variable {d : ℕ → UInt8} {offset : ℕ} {xs ys : List UInt8}

theorem Shows.nil : Shows d offset [] := rfl

theorem shows_cons {x : UInt8} :
    Shows d offset (x :: xs) ↔ d offset = x ∧ Shows d (offset + 1) xs := by
  rw [Shows, List.length_cons, List.range'_succ, List.map_cons, List.cons.injEq]
  rfl

theorem shows_append :
    Shows d offset (xs ++ ys) ↔ Shows d offset xs ∧ Shows d (offset + xs.length) ys := by
  induction xs generalizing offset with
  | nil => simp [Shows.nil]
  | cons x xs ih =>
    rw [List.cons_append, shows_cons, shows_cons, ih, List.length_cons, and_assoc,
      add_comm xs.length 1, add_assoc]

variable {k : ℕ}

theorem Shows.update (h : Shows d offset xs) (hk : offset + xs.length ≤ k) (v : UInt8) :
    Shows (Function.update d k v) offset xs := by
  refine Eq.trans (List.map_congr_left ?_) h
  intro i hi
  rw [List.mem_range'_1] at hi
  rw [Function.update_of_ne (by omega)]

theorem Shows.store (h : Shows d 0 (xs.take k)) (hk : k < xs.length) :
    Shows (Function.update d k xs[k]) 0 (xs.take (k + 1)) := by
  have hlen : (xs.take k).length = k := by
    rw [List.length_take]
    omega
  rw [List.take_succ_eq_append_getElem hk]
  refine shows_append.mpr ⟨h.update (by omega) _, ?_⟩
  rw [hlen, zero_add]
  exact shows_cons.mpr ⟨Function.update_self .., Shows.nil⟩

theorem Shows.eval_bytes (h : Shows d offset xs) (hk : xs.length = k) :
    (ByteReads.bytes offset k).eval d = xs := by
  rw [ByteReads.eval_bytes, ← hk]
  exact h

theorem Shows.eval_number {size : ℕ} (h : Shows d offset (bigEndian k size)) (hk : k < 256 ^ size) :
    fromBytesBig ((bytes offset size).eval d) = k := by
  rw [h.eval_bytes (length_bigEndian k size), fromBytesBig_bigEndian, Nat.mod_eq_of_lt hk]

end Shows

theorem eval_readBuffers {d : ℕ → UInt8} (hlt : ∀ buffer ∈ buffers, buffer.length < 256 ^ 4)
    {offset : ℕ} (h : Shows d offset (encodeBuffers buffers)) :
    (readBuffers buffers.length offset).eval d = slicesAt offset buffers := by
  induction buffers generalizing offset with
  | nil => rfl
  | cons buffer rest ih =>
    rw [encodeBuffers_cons, shows_append, shows_append] at h
    have hlen := h.1.1.eval_number (hlt buffer List.mem_cons_self)
    have hrest := h.2
    rw [List.length_append, length_bigEndian, ← add_assoc] at hrest
    rw [List.length_cons, readBuffers, eval_bind, hlen, eval_bind,
      ih (fun b hb => hlt b (List.mem_cons_of_mem _ hb)) hrest, eval_pure, slicesAt]

theorem read_slicesAt {d : ℕ → UInt8} {offset : ℕ} (h : Shows d offset (encodeBuffers buffers)) :
    (slicesAt offset buffers).map (·.read d) = buffers := by
  induction buffers generalizing offset with
  | nil => rfl
  | cons buffer rest ih =>
    rw [encodeBuffers_cons, shows_append, shows_append] at h
    have hrest := h.2
    rw [List.length_append, length_bigEndian, ← add_assoc] at hrest
    have hbuffer := h.1.2
    rw [length_bigEndian] at hbuffer
    rw [slicesAt, List.map_cons, ih hrest]
    exact congrArg (· :: rest) hbuffer

section Decoding
variable {b : ShmRingBuffer} {m : Message} {d : ℕ → UInt8}

theorem shows_buffers (hover : b.overflows m = false) (h : Shows d 0 (b.encode m)) :
    Shows d 3 (encodeBuffers m.allBuffers) := by
  rw [ShmRingBuffer.encode, if_neg (by simp [hover]), List.cons_append, shows_cons,
    shows_append, length_bigEndian] at h
  exact h.2.2

theorem eval_readChunk (h : Shows d 0 (b.encode m)) : readChunk.eval d = some (b.loaded m) := by
  rw [readChunk, eval_bind, eval_byte]
  cases hover : b.overflows m with
  | true =>
    rw [ShmRingBuffer.encode, if_pos hover, shows_cons] at h
    rw [if_pos h.1, ShmRingBuffer.loaded, if_pos hover]
    rfl
  | false =>
    have hbuffers := shows_buffers hover h
    rw [ShmRingBuffer.encode, if_neg (by simp [hover]), List.cons_append, shows_cons,
      shows_append] at h
    have hcount := h.2.1.eval_number (length_allBuffers_lt hover)
    have hread := eval_readBuffers (fun buffer hb => length_lt_of_mem hover hb) hbuffers
    rw [if_neg (by rw [h.1]; decide), eval_bind, hcount, eval_bind, hread,
      ShmRingBuffer.loaded, if_neg (by simp [hover])]
    simp only [Message.allBuffers, slicesAt]
    rw [Message.allBuffers, encodeBuffers_cons, shows_append, shows_append,
      length_bigEndian] at hbuffers
    rw [eval_bind, hbuffers.1.2.eval_bytes rfl, eval_pure]

theorem read_loaded {main : List UInt8} {oob : List Slice} (h : Shows d 0 (b.encode m))
    (hl : b.loaded m = .object main oob) : main :: oob.map (·.read d) = m.allBuffers := by
  unfold ShmRingBuffer.loaded at hl
  cases hover : b.overflows m with
  | true => simp [hover] at hl
  | false =>
    rw [if_neg (by simp [hover])] at hl
    obtain ⟨rfl, rfl⟩ := Loaded.object.inj hl
    have hread := read_slicesAt (shows_buffers hover h)
    simp only [Message.allBuffers, slicesAt, List.map_cons, List.cons.injEq] at hread
    rw [Message.allBuffers, hread.2]

end Decoding

end Vllm.Shm
