import Vllm.Offload.PoolAccounting

/-! Each call of the CPU manager, if it completes a transfer that is outstanding or starts a new
one, passes its assertions and keeps the books. -/
namespace Vllm
open Multiset Raises List
namespace CPUOffloadingManager
variable {P : Type} {c : CachePolicy P} {held : P → Multiset CacheEntry}
  {m m' : CPUOffloadingManager P} {pending loads : Multiset OffloadKey} {hand : Multiset ℕ}
  {k : OffloadKey} {keys : List OffloadKey}

/-- The blocks of two states are those of the same keys, in the same places. -/
def SameBlocks (c : CachePolicy P) (m m' : CPUOffloadingManager P) : Prop :=
  ∀ k, m'.idOf c k = m.idOf c k

/-- The block at a place belongs to a key, for keys and places in turn. -/
def Located (c : CachePolicy P) (m : CPUOffloadingManager P) (keys : List OffloadKey)
    (ids : List ℕ) : Prop :=
  List.Forall₂ (fun k id => m.idOf c k = some id) keys ids

theorem Located.mono {ids : List ℕ} (h : Located c m keys ids)
    (hsame : ∀ k ∈ keys, ∀ id, m.idOf c k = some id → m'.idOf c k = some id) :
    Located c m' keys ids := by
  induction h with
  | nil => exact .nil
  | cons hid _ ih =>
    refine .cons (hsame _ mem_cons_self _ hid) (ih fun k hk => ?_)
    exact hsame k (mem_cons_of_mem _ hk)

theorem idOf_eq_some {id : ℕ} :
    m.idOf c k = some id ↔ ∃ b, c.get m.policy k = some b ∧ b.blockId = id := by
  unfold idOf
  exact Option.map_eq_some_iff

namespace PoolInv

section SetRefCnt
variable (h : PoolInv held m pending loads hand) (hc : c.Lawful held)
include h hc

theorem sameBlocks_setRefCnt {b : BlockStatus} {n : ℤ} (hb : c.get m.policy k = some b) :
    SameBlocks c m { m with policy := c.setRefCnt m.policy k n } := by
  intro k'
  show (c.get (c.setRefCnt m.policy k n) k').map _ = _
  rw [hc.get_setRefCnt h.distinct ((h.get_iff hc).mp hb)]
  by_cases hk : k' = k
  · rw [if_pos hk, hk]
    unfold idOf
    rw [hb]
    rfl
  · rw [if_neg hk]
    rfl

theorem answer_setRefCnt {b : BlockStatus} {n : ℤ} (hb : c.get m.policy k = some b)
    (hready : b.isReady ↔ 0 ≤ n) (k' : OffloadKey) :
    answer c { m with policy := c.setRefCnt m.policy k n } k' = m.answer c k' := by
  unfold answer
  rw [hc.get_setRefCnt h.distinct ((h.get_iff hc).mp hb)]
  by_cases hk : k' = k
  · rw [if_pos hk, hk, hb]
    exact if_congr hready.symm rfl rfl
  · rw [if_neg hk]

end SetRefCnt

/-- A lookup counts and answers. -/
theorem lookup_eq_ok {answer : Option Bool} (hrun : m.lookup c k = .ok (answer, m')) :
    answer = m.answer c k ∧ m'.policy = m.policy ∧
      (PoolInv held m pending loads hand → PoolInv held m' pending loads hand) := by
  rcases of_bind hrun with ⟨m1, hcount, hpure⟩
  cases hpure
  unfold countKey at hcount
  cases hcounts : m.counts with
  | none =>
    rw [hcounts] at hcount
    cases hcount
    exact ⟨rfl, rfl, id⟩
  | some counts =>
    rw [hcounts] at hcount
    rcases of_bind hcount with ⟨counts', -, hpure⟩
    cases hpure
    exact ⟨rfl, rfl, fun h => h.congr rfl rfl rfl rfl⟩

theorem touch (h : PoolInv held m pending loads hand) (hc : c.Lawful held)
    (keys : List OffloadKey) :
    PoolInv held (m.touch c keys) pending loads hand ∧
      ∀ k, c.get (m.touch c keys).policy k = c.get m.policy k := by
  have hheld : held (m.touch c keys).policy = held m.policy := hc.touch h.distinct
  have hdistinct : DistinctKeys (held (m.touch c keys).policy) := hheld ▸ h.distinct
  constructor
  · refine ⟨hdistinct, ?_, h.allocated_le, ?_, ?_, ?_, h.nodup⟩
    · unfold heldIds
      rw [hheld]
      exact h.partition
    · rw [hheld]
      exact h.refCnt
    · unfold heldKeys
      rw [hheld]
      exact h.pendingHeld
    · unfold heldKeys
      rw [hheld]
      exact h.loadsHeld
  · intro k
    apply Option.ext
    intro b
    rw [hc.get hdistinct, hheld, hc.get h.distinct]

theorem loadBlock_eq_ok {b : BlockStatus} {done : List ℕ} (hb : c.get m.policy k = some b)
    (hready : b.isReady) : loadBlock c (done, m) k = .ok (done ++ [b.blockId],
      { m with policy := c.setRefCnt m.policy k (b.refCnt + 1) }) := by
  have hrequire : require b.isReady = .ok () := if_pos hready
  unfold loadBlock
  rw [requireBlock_eq_ok.mpr hb, ok_bind, hrequire]
  rfl

theorem unloadBlock_eq_ok {b : BlockStatus} (hb : c.get m.policy k = some b)
    (hpos : 0 < b.refCnt) : unloadBlock c m k =
      .ok { m with policy := c.setRefCnt m.policy k (b.refCnt - 1) } := by
  have hrequire : require (0 < b.refCnt) = .ok () := if_pos hpos
  unfold unloadBlock
  rw [requireBlock_eq_ok.mpr hb, ok_bind, hrequire]
  rfl

section
variable (h : PoolInv held m pending loads hand) (hc : c.Lawful held)
include h hc

theorem ready_of_prepareLoad {done : List ℕ} {r : List ℕ × CPUOffloadingManager P}
    (hrun : keys.foldlM (loadBlock c) (done, m) = .ok r) :
    ∀ k ∈ keys, m.answer c k = some true := by
  induction keys generalizing m loads done with
  | nil => exact fun k hk => absurd hk not_mem_nil
  | cons k keys ih =>
    rw [foldlM_cons, bind_eq_ok] at hrun
    rcases hrun with ⟨r', hload, hrest⟩
    rcases of_bind hload with ⟨b, hblock, hrequire⟩
    rcases of_bind hrequire with ⟨_, hready, hpure⟩
    have hready := require_eq_ok.mp hready
    have hb := requireBlock_eq_ok.mp hblock
    cases hpure
    have hnonneg : 0 ≤ b.refCnt + 1 := by
      unfold BlockStatus.isReady at hready
      omega
    have hanswer := h.answer_setRefCnt (n := b.refCnt + 1) hc hb (iff_of_true hready hnonneg)
    have hrestReady := ih (h.load hc ((h.get_iff hc).mp hb) hready) hrest
    intro k' hk'
    rcases mem_cons.mp hk' with rfl | hk'
    · exact answer_eq_true_iff.mpr ⟨b, hb, hready⟩
    · rw [← hanswer]
      exact hrestReady k' hk'

theorem prepareLoad_foldlM (hready : ∀ k ∈ keys, m.answer c k = some true) (done : List ℕ) :
    ∃ ids m', keys.foldlM (loadBlock c) (done, m) = .ok (done ++ ids, m') ∧
      PoolInv held m' pending (keys + loads) hand ∧ Located c m' keys ids ∧ SameBlocks c m m' ∧
      (∀ k, m'.answer c k = m.answer c k) ∧ m'.counts = m.counts := by
  induction keys generalizing m loads done with
  | nil =>
    refine ⟨[], m, ?_, ?_, .nil, fun _ => rfl, fun _ => rfl, rfl⟩
    · rw [append_nil]
      rfl
    · rw [coe_nil, zero_add]
      exact h
  | cons k keys ih =>
    rcases answer_eq_true_iff.mp (hready k mem_cons_self) with ⟨b, hb, hbready⟩
    have hmem := (h.get_iff hc).mp hb
    have hnonneg : 0 ≤ b.refCnt + 1 := by
      unfold BlockStatus.isReady at hbready
      omega
    have hload := h.load hc hmem hbready
    have hanswer := h.answer_setRefCnt (n := b.refCnt + 1) hc hb (iff_of_true hbready hnonneg)
    have hsame := h.sameBlocks_setRefCnt (n := b.refCnt + 1) hc hb
    rcases ih hload (fun k' hk' => (hanswer k').trans (hready k' (mem_cons_of_mem k hk')))
      (done ++ [b.blockId]) with ⟨ids, m', hrun, hinv, hloc, hsame', hanswer', hcounts⟩
    refine ⟨b.blockId :: ids, m', ?_, ?_, ?_, ?_, ?_, hcounts⟩
    · rw [foldlM_cons, loadBlock_eq_ok hb hbready]
      exact hrun.trans (by rw [append_assoc]; rfl)
    · rw [← cons_coe, cons_add, ← add_cons]
      exact hinv
    · refine .cons ?_ hloc
      rw [hsame' k, hsame k]
      exact idOf_eq_some.mpr ⟨b, hb, rfl⟩
    · exact fun k' => (hsame' k').trans (hsame k')
    · exact fun k' => (hanswer' k').trans (hanswer k')

theorem prepareLoad (hready : ∀ k ∈ keys, m.answer c k = some true) :
    ∃ ids m', m.prepareLoad c keys = .ok (ids, m') ∧
      PoolInv held m' pending (keys + loads) hand ∧ Located c m' keys ids ∧ SameBlocks c m m' ∧
      (∀ k, m'.answer c k = m.answer c k) ∧ m'.counts = m.counts :=
  h.prepareLoad_foldlM hc hready []

end

/-- The end of outstanding loads. -/
theorem completeLoad (h : PoolInv held m pending (keys + loads) hand) (hc : c.Lawful held) :
    ∃ m', m.completeLoad c keys = .ok m' ∧ PoolInv held m' pending loads hand ∧
      SameBlocks c m m' ∧ (∀ k, m'.answer c k = m.answer c k) ∧ m'.counts = m.counts := by
  unfold CPUOffloadingManager.completeLoad
  induction keys generalizing m with
  | nil =>
    rw [coe_nil, zero_add] at h
    exact ⟨m, rfl, h, fun _ => rfl, fun _ => rfl, rfl⟩
  | cons k keys ih =>
    rw [← cons_coe, cons_add] at h
    rcases h.unload hc with ⟨b, hb, hpos, hunload⟩
    have hready : b.isReady ↔ 0 ≤ b.refCnt - 1 := iff_of_true hpos.le (by omega)
    have hanswer := h.answer_setRefCnt hc hb hready
    have hsame := h.sameBlocks_setRefCnt (n := b.refCnt - 1) hc hb
    rcases ih hunload with ⟨m', hrun, hinv, hsame', hanswer', hcounts⟩
    refine ⟨m', ?_, hinv, ?_, ?_, hcounts⟩
    · rw [foldlM_cons, unloadBlock_eq_ok hb hpos]
      exact hrun
    · exact fun k' => (hsame' k').trans (hsame k')
    · exact fun k' => (hanswer' k').trans (hanswer k')

theorem markStored_foldl (h : PoolInv held m (keys + pending) loads hand) (hc : c.Lawful held)
    (done : List OffloadKey) :
    let r := keys.foldl (markStored c) (m, done)
    PoolInv held r.1 pending loads hand ∧ SameBlocks c m r.1 ∧
      (∀ k, r.1.answer c k = if k ∈ keys then some true else m.answer c k) ∧
      r.1.counts = m.counts := by
  induction keys generalizing m done with
  | nil =>
    rw [coe_nil, zero_add] at h
    exact ⟨h, fun _ => rfl, fun _ => rfl, rfl⟩
  | cons k keys ih =>
    rw [← cons_coe, cons_add] at h
    rcases h.pending_block hc with ⟨b, hb, hmem, hready, -⟩
    have hmark : markStored c (m, done) k =
        ({ m with policy := c.setRefCnt m.policy k 0 }, done ++ [k]) := by
      unfold markStored
      rw [hb]
      exact if_neg hready
    rw [List.foldl_cons, hmark]
    rcases ih (h.stored hc) (done ++ [k]) with ⟨hinv, hsame, hanswer, hcounts⟩
    refine ⟨hinv, fun k' => ?_, fun k' => ?_, hcounts⟩
    · exact (hsame k').trans (h.sameBlocks_setRefCnt hc hb k')
    · refine (hanswer k').trans ?_
      by_cases hk' : k' ∈ keys
      · rw [if_pos hk', if_pos (mem_cons_of_mem k hk')]
      · rw [if_neg hk']
        by_cases heq : k' = k
        · rw [if_pos (heq ▸ mem_cons_self), answer_eq_true_iff]
          refine ⟨{ b with refCnt := 0 }, ?_, le_refl (0 : ℤ)⟩
          show c.get (c.setRefCnt m.policy k 0) k' = _
          rw [hc.get_setRefCnt h.distinct hmem, if_pos heq]
        · rw [if_neg (fun hin => (mem_cons.mp hin).elim heq hk')]
          unfold answer
          rw [hc.get_setRefCnt h.distinct hmem, if_neg heq]

theorem addEvent (h : PoolInv held m pending loads hand) (ks : List OffloadKey) (removed : Bool) :
    PoolInv held (m.addEvent ks removed) pending loads hand := by
  unfold CPUOffloadingManager.addEvent
  split_ifs
  · exact h
  · exact h.congr rfl rfl rfl rfl

theorem addEvent_fields (m : CPUOffloadingManager P) (ks : List OffloadKey) (removed : Bool) :
    (m.addEvent ks removed).policy = m.policy ∧ (m.addEvent ks removed).counts = m.counts ∧
      (m.addEvent ks removed).getNumFreeBlocks = m.getNumFreeBlocks := by
  unfold CPUOffloadingManager.addEvent
  split_ifs
  · exact ⟨rfl, rfl, rfl⟩
  · exact ⟨rfl, rfl, rfl⟩

section
variable (h : PoolInv held m (keys + pending) loads hand) (hc : c.Lawful held)
include h hc

theorem completeStore_success :
    ∃ m', m.completeStore c keys true = .ok m' ∧ PoolInv held m' pending loads hand ∧
      SameBlocks c m m' ∧
      (∀ k, m'.answer c k = if k ∈ keys then some true else m.answer c k) ∧
      m'.counts = m.counts := by
  rcases h.markStored_foldl hc [] with ⟨hinv, hsame, hanswer, hcounts⟩
  refine ⟨_, rfl, hinv.addEvent _ _, ?_, ?_, ?_⟩
  · intro k
    unfold idOf
    rw [(addEvent_fields _ _ _).1]
    exact hsame k
  · intro k
    unfold answer
    rw [(addEvent_fields _ _ _).1]
    exact hanswer k
  · exact (addEvent_fields _ _ _).2.1.trans hcounts

theorem completeStore_failure :
    ∃ m', m.completeStore c keys false = .ok m' ∧ PoolInv held m' pending loads hand ∧
      (∀ k, c.get m'.policy k = if k ∈ keys then none else c.get m.policy k) ∧
      m'.counts = m.counts := by
  show ∃ m', keys.foldlM (dropStore c) m = .ok m' ∧ _
  induction keys generalizing m with
  | nil =>
    rw [coe_nil, zero_add] at h
    exact ⟨m, rfl, h, fun _ => rfl, rfl⟩
  | cons k keys ih =>
    rw [← cons_coe, cons_add] at h
    rcases h.dropped hc with ⟨b, p, hb, hready, hremove, hget, hinv⟩
    have hdrop : dropStore c m k = .ok ({ m with policy := p }.freeBlock b) := by
      unfold dropStore
      rw [hb]
      dsimp only
      rw [if_neg hready, hremove]
      rfl
    rcases ih hinv with ⟨m', hrun, hinv', hget', hcounts⟩
    refine ⟨m', ?_, hinv', fun k' => ?_, hcounts⟩
    · rw [foldlM_cons, hdrop]
      exact hrun
    · refine (hget' k').trans ?_
      by_cases hk' : k' ∈ keys
      · rw [if_pos hk', if_pos (mem_cons_of_mem k hk')]
      · rw [if_neg hk']
        refine (hget k').trans ?_
        by_cases heq : k' = k
        · rw [if_pos heq, if_pos (heq ▸ mem_cons_self)]
        · rw [if_neg heq, if_neg (fun hin => (mem_cons.mp hin).elim heq hk')]

end

end PoolInv
end CPUOffloadingManager
end Vllm
