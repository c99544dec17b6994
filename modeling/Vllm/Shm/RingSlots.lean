import Vllm.Shm.MessageQueue

/-! What the chunks of a ring hold: each of the last `maxChunks` messages lies in its chunk, with
the flags of the readers that have taken it, unless the writer is about to reuse it. -/
namespace Vllm.Shm
open Nat
variable {b : ShmRingBuffer} {mem mem' : Memory} {sent : List Message} {taken : Fin b.nReader → ℕ}
  {k : ℕ} {m : Message}

theorem mod_ne_of_lt {i j n : ℕ} (hlt : i < j) (hj : j < i + n) : i % n ≠ j % n := by
  intro h
  have hdvd := (modEq_iff_dvd' hlt.le).mp h
  have hle := le_of_dvd (by omega) hdvd
  omega

namespace ShmRingBuffer

/-- Slot `k` holds a message, and its flags say who has taken it. -/
structure Full (b : ShmRingBuffer) (mem : Memory) (taken : Fin b.nReader → ℕ) (k : ℕ)
    (m : Message) : Prop where
  written : b.getMetadata mem (k % b.maxChunks) 0 = 1
  read : ∀ r : Fin b.nReader, b.getMetadata mem (k % b.maxChunks)
    (r + 1) = if k < taken r then 1 else 0
  bytes : Shows (b.getData mem (k % b.maxChunks)) 0 (b.encode m)

/-- Slot `k` is not written, and nobody needs what was in its chunk. -/
structure Vacant (b : ShmRingBuffer) (mem : Memory) (taken : Fin b.nReader → ℕ) (k : ℕ) :
    Prop where
  unwritten : b.getMetadata mem (k % b.maxChunks) 0 = 0
  taken : ∀ r, k < taken r + b.maxChunks

structure Slots (b : ShmRingBuffer) (mem : Memory) (sent : List Message)
    (taken : Fin b.nReader → ℕ) : Prop where
  taken_le : ∀ r, taken r ≤ sent.length
  ahead : ∀ r, sent.length ≤ taken r + b.maxChunks
  full : ∀ k m, sent[k]? = some m → sent.length ≤ k + b.maxChunks →
    b.Full mem taken k m ∨ k + b.maxChunks = sent.length ∧ b.Vacant mem taken sent.length
  fresh : sent.length < b.maxChunks → ∀ i, sent.length ≤ i → i < b.maxChunks →
    b.getMetadata mem i 0 = 0

theorem idx_lt (k : ℕ) : k % b.maxChunks < b.maxChunks := mod_lt _ b.maxChunks_pos

theorem Full.congr (h : b.Full mem taken k m)
    (hflags : ∀ f ≤ b.nReader,
      b.getMetadata mem' (k % b.maxChunks) f = b.getMetadata mem (k % b.maxChunks) f)
    (hdata : b.getData mem' (k % b.maxChunks) = b.getData mem (k % b.maxChunks)) :
    b.Full mem' taken k m where
  written := (hflags 0 (by omega)).trans h.written
  read r := (hflags (r + 1) (by omega)).trans (h.read r)
  bytes := by
    rw [hdata]
    exact h.bytes

namespace Slots

theorem init : b.Slots (fun _ => 0) [] (fun _ => 0) where
  taken_le _ := le_rfl
  ahead _ := zero_le _
  full k m hk _ := by simp at hk
  fresh _ _ _ _ := rfl

variable (h : b.Slots mem sent taken)
include h

variable {r : Fin b.nReader}

theorem full_of_not_taken (hr : taken r ≤ k) (hk : sent[k]? = some m) : b.Full mem taken k m := by
  have hahead := h.ahead r
  obtain hfull | ⟨heq, hvac⟩ := h.full k m hk (by omega)
  · exact hfull
  · have := hvac.taken r
    omega

omit h in
theorem old_or_fresh (b : ShmRingBuffer) (sent : List Message) :
    (∃ k m, k + b.maxChunks = sent.length ∧ sent[k]? = some m) ∨ sent.length < b.maxChunks := by
  by_cases hlt : sent.length < b.maxChunks
  · exact .inr hlt
  · have hpos := b.maxChunks_pos
    have hk : sent.length - b.maxChunks < sent.length := by omega
    exact .inl ⟨_, _, by omega, List.getElem?_eq_getElem hk⟩

theorem readable (hread : b.getMetadata mem (taken r % b.maxChunks) (r + 1) = 0)
    (hwritten : b.getMetadata mem (taken r % b.maxChunks) 0 ≠ 0) : taken r < sent.length := by
  by_contra hge
  have heq : taken r = sent.length := le_antisymm (h.taken_le r) (by omega)
  rw [heq] at hread hwritten
  obtain ⟨k, m, hk, hm⟩ | hlt := old_or_fresh b sent
  · obtain hfull | ⟨-, hvac⟩ := h.full k m hm (by omega)
    · have hflag := hfull.read r
      rw [if_pos (by have := b.maxChunks_pos; omega), ← add_mod_right, hk, hread] at hflag
      simp at hflag
    · exact hwritten hvac.unwritten
  · rw [mod_eq_of_lt hlt] at hwritten
    exact hwritten (h.fresh hlt _ le_rfl hlt)

theorem rewrite (hvac : b.Vacant mem' taken sent.length)
    (hflags : ∀ i, i ≠ sent.length % b.maxChunks → ∀ f ≤ b.nReader,
      b.getMetadata mem' i f = b.getMetadata mem i f)
    (hdata : ∀ i, i ≠ sent.length % b.maxChunks → i < b.maxChunks →
      b.getData mem' i = b.getData mem i) : b.Slots mem' sent taken where
  taken_le := h.taken_le
  ahead := h.ahead
  full k m hk hge := by
    have hlen := (List.getElem?_eq_some_iff.mp hk).1
    obtain hfull | ⟨heq, -⟩ := h.full k m hk hge
    · by_cases heq : k + b.maxChunks = sent.length
      · exact .inr ⟨heq, hvac⟩
      · have hne := mod_ne_of_lt hlen (by omega : sent.length < k + b.maxChunks)
        exact .inl (hfull.congr (hflags _ hne) (hdata _ hne (idx_lt k)))
    · exact .inr ⟨heq, hvac⟩
  fresh hlt i hi hlt' := by
    by_cases heq : i = sent.length
    · rw [heq, ← mod_eq_of_lt hlt]
      exact hvac.unwritten
    · rw [hflags i (by rw [mod_eq_of_lt hlt]; exact heq) 0 (by omega)]
      exact h.fresh hlt i hi hlt'

theorem publish_full (hread : ∀ r : Fin b.nReader,
      b.getMetadata mem (sent.length % b.maxChunks) (r + 1) = 0)
    (hbytes : Shows (b.getData mem (sent.length % b.maxChunks)) 0 (b.encode m))
    {m' : Message} (hk : (sent ++ [m])[k]? = some m') (hge : sent.length < k + b.maxChunks) :
    b.Full (b.setMetadata mem (sent.length % b.maxChunks) 0 1) taken k m' := by
  obtain hlt | hle := lt_or_ge k sent.length
  · rw [List.getElem?_append_left hlt] at hk
    have hne := mod_ne_of_lt hlt hge
    obtain hfull | ⟨heq, -⟩ := h.full k m' hk hge.le
    · exact hfull.congr
        (fun f hf => getMetadata_setMetadata_of_ne_idx (zero_le _) hf hne)
        (getData_setMetadata (idx_lt k))
    · omega
  · have hk0 := (List.getElem?_eq_some_iff.mp hk).1
    rw [List.length_append, List.length_singleton] at hk0
    obtain rfl : k = sent.length := by omega
    obtain rfl : m = m' := by simpa using hk
    refine ⟨getMetadata_setMetadata_self, ?_, ?_⟩
    · intro r
      rw [getMetadata_setMetadata_of_ne (zero_le _) (by omega) (by omega), hread r,
        if_neg (not_lt.mpr (h.taken_le r))]
    · rw [getData_setMetadata (idx_lt _)]
      exact hbytes

theorem publish (hvac : b.Vacant mem taken sent.length)
    (hread : ∀ r : Fin b.nReader, b.getMetadata mem (sent.length % b.maxChunks) (r + 1) = 0)
    (hbytes : Shows (b.getData mem (sent.length % b.maxChunks)) 0 (b.encode m)) :
    b.Slots (b.setMetadata mem (sent.length % b.maxChunks) 0 1) (sent ++ [m]) taken where
  taken_le r := by
    rw [List.length_append, List.length_singleton]
    have := h.taken_le r
    omega
  ahead r := by
    rw [List.length_append, List.length_singleton]
    have := hvac.taken r
    omega
  full k m' hk hge := by
    rw [List.length_append, List.length_singleton] at hge
    exact .inl (h.publish_full hread hbytes hk (by omega))
  fresh hlt i hi hlt' := by
    rw [List.length_append, List.length_singleton] at hlt hi
    rw [getMetadata_setMetadata_of_ne_idx (zero_le _) (zero_le _)
      (by rw [mod_eq_of_lt (by omega)]; omega)]
    exact h.fresh (by omega) i (by omega) hlt'

theorem take (hr : taken r < sent.length) :
    b.Slots (b.setMetadata mem (taken r % b.maxChunks) (r + 1) 1) sent
      (Function.update taken r (taken r + 1)) := by
  have hmono : ∀ r', taken r' ≤ Function.update taken r (taken r + 1) r' := by
    intro r'
    rw [Function.update_apply]
    split
    · rename_i heq
      rw [heq]
      omega
    · exact le_rfl
  refine ⟨?_, ?_, ?_, ?_⟩
  · intro r'
    rw [Function.update_apply]
    split
    · omega
    · exact h.taken_le r'
  · intro r'
    have := h.ahead r'
    have := hmono r'
    omega
  · intro k m hk hge
    obtain hfull | ⟨heq, hvac⟩ := h.full k m hk hge
    · refine .inl ⟨?_, ?_, ?_⟩
      · rw [getMetadata_setMetadata_of_ne (by omega) (zero_le _) (by omega)]
        exact hfull.written
      · intro r'
        have hread := hfull.read r'
        have hlen := (List.getElem?_eq_some_iff.mp hk).1
        have hahead := h.ahead r
        by_cases heq : r' = r
        · subst heq
          rw [Function.update_self]
          by_cases hk' : k = taken r'
          · rw [hk', getMetadata_setMetadata_self, if_pos (lt_succ_self _)]
          · have hne : k % b.maxChunks ≠ taken r' % b.maxChunks := by
              obtain hlt | hgt := lt_or_gt_of_ne hk'
              · exact mod_ne_of_lt hlt (by omega)
              · exact (mod_ne_of_lt hgt (by omega)).symm
            rw [getMetadata_setMetadata_of_ne_idx (by omega) (by omega) hne, hread]
            have hiff : k < taken r' ↔ k < taken r' + 1 := by omega
            simp only [hiff]
        · rw [Function.update_of_ne heq, getMetadata_setMetadata_of_ne (by omega) (by omega)
            fun hf => heq (Fin.ext (by omega))]
          exact hread
      · rw [getData_setMetadata (idx_lt k)]
        exact hfull.bytes
    · refine .inr ⟨heq, ?_, ?_⟩
      · rw [getMetadata_setMetadata_of_ne (by omega) (zero_le _) (by omega)]
        exact hvac.unwritten
      · intro r'
        have := hvac.taken r'
        have := hmono r'
        omega
  · intro hlt i hi hlt'
    rw [getMetadata_setMetadata_of_ne (by omega) (zero_le _) (by omega)]
    exact h.fresh hlt i hi hlt'

end Slots

end ShmRingBuffer

end Vllm.Shm
