import Vllm.Shm.QueueProgress

/-! The large buffers of an object stay in their chunk, which is given back before `dequeue`
returns: the object changes when the writer comes back to it, `maxChunks` messages later. -/
namespace Vllm.Shm
open Interleaving List
variable {b : ShmRingBuffer}

/-- The object has buffers that lie in a chunk. -/
def Received.Borrows : Received → Prop
  | .inChunk _ _ oob => oob ≠ []
  | .owned _ => False

namespace MessageQueue
variable {q q' : MessageQueue b} {e : Event b} {r : Fin b.nReader} {d : Delivery}

/-- The number of messages whose chunk the writer has started to overwrite. -/
def begun (q : MessageQueue b) : ℕ :=
  match q.writer.phase with
  | .copy _ _ | .clear _ _ => q.sent.length + 1
  | _ => q.sent.length

theorem begun_of_overwriting (h : q.writer.phase.Overwriting) : q.begun = q.sent.length + 1 := by
  unfold begun
  cases hphase : q.writer.phase <;> simp_all [WriterPhase.Overwriting]

theorem sent_le_begun : q.sent.length ≤ q.begun := by
  unfold begun
  split <;> omega

theorem RingInv.shows (h : RingInv q) {k : ℕ} {m : Message} (hk : q.sent[k]? = some m)
    (hbegun : q.begun ≤ k + b.maxChunks) :
    Shows (b.getData q.mem (k % b.maxChunks)) 0 (b.encode m) := by
  have hle := hbegun.trans' sent_le_begun
  obtain hfull | ⟨heq, hvac⟩ := h.slots.full k m hk hle
  · exact hfull.bytes
  · have hover := h.busy (by omega) hvac.unwritten
    rw [begun_of_overwriting hover] at hbegun
    omega

theorem Moves.sent_prefix (hm : Moves q e q') : q.sent <+: q'.sent := by
  cases hm with
  | publish hphase hnext => exact prefix_append _ _
  | _ => exact prefix_rfl

theorem Moves.begun_le (h : RingInv q) (hsent : q.sent ≠ []) (hm : Moves q e q') :
    q.begun ≤ q'.begun := by
  cases hm with
  | indexError hphase hoffset =>
    obtain ⟨i, hi, hw, -, -, hlt⟩ := h.writes hphase
    obtain ⟨rfl, -⟩ := ChunkWrite.store.inj hw
    have := hlt (h.room hsent)
    omega
  | overflowError hphase =>
    obtain ⟨i, hi, hw, -⟩ := h.writes hphase
    simp at hw
  | publish hphase hnext =>
    rw [begun_of_overwriting (by rw [hphase]; trivial)]
    refine le_trans ?_ sent_le_begun
    rw [length_append, length_singleton]
  | acquire hphase =>
    simp only [begun, hphase]
    exact Nat.le_succ _
  | enqueue hphase | count hphase | occupied hphase | vacant hphase | retryWrite hphase
  | copied hphase | store hphase | clear hphase | send hphase | writeTimeout hphase =>
    simp [begun, hphase, MessageQueue.setWriter]
  | _ => exact le_rfl

theorem run_keeps {es : List (Event b)} (h : RingInv q) (hsent : q.sent ≠ [])
    (hrun : run step q es = some q') : RingInv q' ∧ q.sent <+: q'.sent ∧ q.begun ≤ q'.begun := by
  have hkeeps : ∀ (s : MessageQueue b) e s', (RingInv s ∧ q.sent <+: s.sent ∧ q.begun ≤ s.begun) →
    True →
      step s e = some s' → RingInv s' ∧ q.sent <+: s'.sent ∧ q.begun ≤ s'.begun := by
    rintro s e s' ⟨hs, hpre, hle⟩ - hstep
    have hm := step_moves hstep
    refine ⟨hs.moves hm, hpre.trans hm.sent_prefix, hle.trans (hm.begun_le hs ?_)⟩
    intro hnil
    rw [hnil, prefix_nil] at hpre
    exact hsent hpre
  exact run_rule (P := fun t => RingInv t ∧ q.sent <+: t.sent ∧ q.begun ≤ t.begun) hkeeps
    (fun _ _ => trivial) ⟨h, prefix_rfl, le_rfl⟩ hrun

/-- An object that a call returned reads the same, as long as the writer has begun at most
`maxChunks - 1` messages after it, or the object has no buffers in the chunk. -/
theorem held_object_stable {es : List (Event b)}
    (h : Reachable step (fun _ _ => True) ({} : MessageQueue b) q)
    (hd : d ∈ (q.readers r).returned) (hrun : run step q es = some q')
    (hbegun : d.object.Borrows → q'.begun ≤ d.seq + b.maxChunks) :
    d.object.buffers b q'.mem = d.object.buffers b q.mem := by
  have hring := reachable_ringInv h
  obtain ⟨-, hshown⟩ := hring.returned r d hd
  cases hobject : d.object with
  | owned allBuffers => rfl
  | inChunk idx main oob =>
    rw [Delivery.Shown, hobject] at hshown
    obtain ⟨rfl, m, hm, hl, -⟩ := hshown
    by_cases hoob : oob = []
    · simp [Received.buffers, hoob]
    · have hsent : q.sent ≠ [] := by
        intro hnil
        rw [hnil] at hm
        simp at hm
      obtain ⟨hring', hpre, hle⟩ := run_keeps hring hsent hrun
      have hbegun' := hbegun (by
        rw [hobject]
        exact hoob)
      have hm' : q'.sent[d.seq]? = some m := by
        obtain ⟨t, ht⟩ := hpre
        rw [← ht, List.getElem?_append_left (List.getElem?_eq_some_iff.mp hm).1]
        exact hm
      exact (read_loaded (hring'.shows hm' hbegun') hl).trans
        (read_loaded (hring.shows hm (hle.trans hbegun')) hl).symm

theorem leads_writes {s t : MessageQueue b} (hleads : Leads step Event.Writes s t)
    (hring : RingInv s) (hdelivered : Delivered s) : RingInv t ∧ Delivered t := by
  obtain ⟨es, hes, hrun⟩ := hleads
  refine run_rule (P := fun t => RingInv t ∧ Delivered t) ?_ hes ⟨hring, hdelivered⟩ hrun
  rintro u e u' ⟨hu, hd⟩ he hstep
  have hm := step_moves hstep
  refine ⟨hu.moves hm, hd.moves hu ?_ hm⟩
  rintro r rfl
  simp [Event.Writes] at he

theorem exists_first_return (r : Fin b.nReader) (hall : ∀ r', r' = r) {m : Message}
    (hover : b.overflows m = false) :
    ∃ (q : MessageQueue b) (d : Delivery), Reachable step (fun _ _ => True) {} q ∧
      q.sent = [m] ∧ q.writer.phase = .idle ∧ (∀ r', q.taken r' = 1) ∧
      d ∈ (q.readers r).returned ∧ d.seq = 0 ∧
      ∃ main oob, d.object = .inChunk 0 main oob ∧ b.loaded m = .object main oob := by
  have hroom : 0 < b.maxChunkBytes := by
    have := length_encode hover
    have := length_encode_le hover
    omega
  obtain ⟨q1, hleads1, hsent1, hreaders1, hidle1⟩ :=
    RingInv.init.leads_to_sent (b := b) rfl hroom
      (fun _ => Nat.lt_add_left 0 b.maxChunks_pos) m
  obtain ⟨hring1, hdelivered1⟩ := leads_writes hleads1 RingInv.init Delivered.init
  have hreturns1 : q1.returns r = 0 := by
    rw [returns, hreaders1]
    rfl
  have hlen1 : q1.sent.length = 1 := by rw [hsent1]; rfl
  obtain ⟨q2, hleads2, hreturns2⟩ :=
    Behind.leadsToReturn ⟨hring1, hdelivered1, hidle1, by omega⟩ (r := r)
  obtain ⟨hring2, hdelivered2, hwriter2, hsent2⟩ := leads_own hleads2 hring1 hdelivered1
  have hreach : Reachable step (fun _ _ => True) ({} : MessageQueue b) q2 :=
    (Reachable.init.leads (fun _ _ _ => trivial) hleads1).leads (fun _ _ _ => trivial) hleads2
  have hlen2 : (q2.readers r).returned.length = 1 := by
    change q2.returns r = 1
    omega
  have htaken2 : ∀ r', q2.taken r' = 1 := by
    intro r'
    rw [hall r']
    have hcount := hdelivered2.count r
    have hle := hring2.slots.taken_le r
    rw [hsent2, hlen1] at hle
    omega
  obtain ⟨d, hd⟩ := length_eq_one_iff.mp hlen2
  have hmem : d ∈ (q2.readers r).returned := by
    rw [hd]
    exact mem_singleton_self d
  obtain ⟨hseq, hshown⟩ := hring2.returned r d hmem
  rw [htaken2] at hseq
  have hseq0 : d.seq = 0 := by omega
  have hsent : q2.sent = [m] := by
    rw [hsent2, hsent1]
    rfl
  refine ⟨q2, d, hreach, hsent, by rw [hwriter2, hidle1], htaken2, hmem, hseq0, ?_⟩
  rw [Delivery.Shown, hsent, hseq0] at hshown
  cases hobject : d.object with
  | inChunk idx main oob =>
    rw [hobject] at hshown
    obtain ⟨hidx, m', hm', hl, -⟩ := hshown
    obtain rfl : m = m' := by simpa using hm'
    rw [Nat.zero_mod] at hidx
    exact ⟨main, oob, by rw [hidx], hl⟩
  | owned allBuffers =>
    rw [hobject] at hshown
    obtain ⟨-, m', hm', hover'⟩ := hshown
    obtain rfl : m = m' := by simpa using hm'
    rw [hover] at hover'
    simp at hover'

/-- `n + 1` chunks of 2 MiB, and one reader. -/
def twoMiB (n : ℕ) : ShmRingBuffer := ⟨1, 2 * 1024 * 1024, n + 1, n.succ_pos, by decide⟩

def soleReader (n : ℕ) : Fin (twoMiB n).nReader := ⟨0, Nat.one_pos⟩

theorem eq_soleReader (n : ℕ) (r : Fin (twoMiB n).nReader) : r = soleReader n :=
  Fin.ext (Nat.lt_one_iff.mp r.isLt)

def oneMiB : ℕ := 1024 * 1024

/-- The pickled stream of a `PickleBuffer` that is left out of it. -/
def bufferStream : List UInt8 := [0x80, 5, 0x97, 0x2e]

/-- A buffer of 1 MiB, all of whose bytes are the same. -/
def filled (value : UInt8) : Message where
  main := bufferStream
  oob := [List.replicate oneMiB value]
  outOfBand rawBuf h := by
    obtain rfl := List.mem_singleton.mp h
    rw [oobCallback, List.length_replicate]
    decide

theorem overflows_filled (n : ℕ) (value : UInt8) : (twoMiB n).overflows (filled value) = false := by
  rw [ShmRingBuffer.overflows, Message.totalBytes, filled, map_singleton,
    sum_singleton, length_replicate, decide_eq_false_iff_not]
  change ¬2 * 1024 * 1024 ≤ 6 + (oneMiB + 4) + 4
  decide

theorem loaded_filled (n : ℕ) (value : UInt8) :
    (twoMiB n).loaded (filled value) = .object bufferStream [⟨15, oneMiB⟩] := by
  rw [ShmRingBuffer.loaded, overflows_filled, if_neg (by simp), filled]
  simp only [slicesAt, length_replicate]
  rfl

/-- With two chunks, the object outlives the next message. -/
theorem held_object_stable_filled :
    ∃ (q q' : MessageQueue (twoMiB 1)) (d : Delivery),
      d ∈ (q.readers (soleReader 1)).returned ∧ d.object.Borrows ∧ q'.sent.length = 2 ∧
      d.object.buffers (twoMiB 1) q'.mem = d.object.buffers (twoMiB 1) q.mem := by
  obtain ⟨q, d, hreach, hsent, hidle, htaken, hmem, hseq, main, oob, hobject, hl⟩ :=
    exists_first_return (soleReader 1) (eq_soleReader 1) (overflows_filled 1 0)
  obtain ⟨q', ⟨es, -, hrun⟩, hsent', -, hidle'⟩ := (reachable_ringInv hreach).leads_to_sent hidle
    (by decide) (fun r => by rw [hsent, htaken]; decide) (filled 1)
  have hlen : q'.sent.length = 2 := by
    rw [hsent', hsent]
    rfl
  rw [loaded_filled] at hl
  obtain ⟨-, rfl⟩ := Loaded.object.inj hl
  refine ⟨q, q', d, hmem, by simp [hobject, Received.Borrows], hlen,
    held_object_stable hreach hmem hrun fun _ => ?_⟩
  simp only [begun, hidle', hlen, hseq]
  decide

/-- With one chunk, the next message overwrites the object. -/
theorem exists_held_object_changes :
    ∃ (q q' : MessageQueue (twoMiB 0)) (d : Delivery) (es : List (Event (twoMiB 0))),
      Reachable step (fun _ _ => True) {} q ∧ d ∈ (q.readers (soleReader 0)).returned ∧
      run step q es = some q' ∧ .dequeue (soleReader 0) ∉ es ∧
      d.object.buffers (twoMiB 0) q'.mem ≠ d.object.buffers (twoMiB 0) q.mem := by
  obtain ⟨q, d, hreach, hsent, hidle, htaken, hmem, hseq, main, oob, hobject, hl⟩ :=
    exists_first_return (soleReader 0) (eq_soleReader 0) (overflows_filled 0 0)
  have hring := reachable_ringInv hreach
  obtain ⟨q', ⟨es, hes, hrun⟩, hsent', -, hidle'⟩ := hring.leads_to_sent hidle
    (by decide) (fun r => by rw [hsent, htaken]; decide) (filled 1)
  have hring' : RingInv q' := reachable_ringInv (hreach.run (fun _ _ _ => trivial) hrun)
  refine ⟨q, q', d, es, hreach, hmem, hrun, ?_, ?_⟩
  · intro he
    simpa [Event.Writes] using hes _ he
  · have hold := hring.shows (k := 0) (m := filled 0) (by rw [hsent]; rfl)
      (by simp only [begun, hidle, hsent]; decide)
    have hnew := hring'.shows (k := 1) (m := filled 1) (by rw [hsent', hsent]; rfl)
      (by simp only [begun, hidle', hsent', hsent]; decide)
    have hl' := hl
    rw [loaded_filled, ← loaded_filled 0 1] at hl'
    rw [hobject]
    intro hsame
    have heq : (filled 1).allBuffers = (filled 0).allBuffers :=
      (read_loaded hnew hl').symm.trans (hsame.trans (read_loaded hold hl))
    rw [Message.allBuffers, Message.allBuffers, filled, filled] at heq
    have hreplicate := (List.cons.inj (List.cons.inj heq).2).1
    have hhead := congrArg (·[0]?) hreplicate
    rw [List.getElem?_replicate_of_lt (by decide), List.getElem?_replicate_of_lt (by decide)]
      at hhead
    simp at hhead

end MessageQueue

end Vllm.Shm
