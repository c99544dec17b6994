import Vllm.Offload.PoolAccounting
import Vllm.Offload.Tiering

/-! Which keys a manager can answer for: no call makes a key readable except the completion of its
store. -/
namespace Vllm
open Raises List
variable {P : Type} {c : CachePolicy P} {held : P → Multiset CacheEntry}
  {R R' : OffloadKey → Prop} {p p' : P} {k : OffloadKey} {b : BlockStatus}

/-- Every readable key of a policy is in `R`. -/
structure Within (c : CachePolicy P) (held : P → Multiset CacheEntry) (R : OffloadKey → Prop)
    (p : P) : Prop where
  distinct : DistinctKeys (held p)
  readable : ∀ k b, c.get p k = some b → b.isReady → R k

namespace Within

section
variable (h : Within c held R p)
include h

theorem mono (hR : ∀ k, R k → R' k) : Within c held R' p :=
  ⟨h.distinct, fun k b hb hready => hR k (h.readable k b hb hready)⟩

theorem setRefCnt (hc : c.Lawful held) {n : ℤ} (hb : c.get p k = some b) (hn : 0 ≤ n → R k) :
    Within c held R (c.setRefCnt p k n) := by
  have hmem : (k, b) ∈ held p := (hc.get h.distinct).mp hb
  constructor
  · exact hc.distinct_setRefCnt h.distinct hmem
  · intro k' b' hb' hready
    rw [hc.get_setRefCnt h.distinct hmem] at hb'
    split_ifs at hb' with hk
    · cases hb'
      exact hk ▸ hn hready
    · exact h.readable k' b' hb' hready

theorem insert (hc : c.Lawful held) (hk : c.get p k = none) (hb : ¬b.isReady) :
    Within c held R (c.insert p k b) := by
  constructor
  · exact hc.distinct_insert h.distinct hk
  · intro k' b' hb' hready
    rw [hc.get_insert h.distinct hk] at hb'
    split_ifs at hb'
    · cases hb'
      exact absurd hready hb
    · exact h.readable k' b' hb' hready

/-- Fewer blocks. -/
theorem of_add (hc : c.Lawful held) {gone : Multiset CacheEntry} (hp' : held p = gone + held p') :
    Within c held R p' := by
  have hdistinct : DistinctKeys (held p') := (hp' ▸ h.distinct).of_add.2.1
  refine ⟨hdistinct, fun k b hb hready => h.readable k b ?_ hready⟩
  apply (hc.get h.distinct).mpr
  rw [hp']
  exact Multiset.mem_add.mpr (Or.inr ((hc.get hdistinct).mp hb))

theorem remove (hc : c.Lawful held) (hb : c.get p k = some b) (hrun : c.remove p k = .ok p') :
    Within c held R p' := by
  rcases hc.remove h.distinct ((hc.get h.distinct).mp hb) with ⟨p1, hp1, hheld⟩
  rw [hrun] at hp1
  cases hp1
  apply h.of_add hc
  rw [hheld]
  exact (Multiset.singleton_add _ _).symm

theorem touch (hc : c.Lawful held) (keys : List OffloadKey) : Within c held R (c.touch p keys) := by
  apply h.of_add hc
  rw [hc.touch h.distinct]
  exact (zero_add _).symm

theorem evict (hc : c.Lawful held) (n : ℕ) (isProtected : List OffloadKey) :
    Within c held R (c.evict p n isProtected).2 := by
  cases hevict : (c.evict p n isProtected).1 with
  | none =>
    rw [hc.evict_none hevict]
    exact h
  | some victims => exact h.of_add hc (hc.evict h.distinct hevict).2.2

end

theorem clear (hc : c.Lawful held) : Within c held R (c.clear p) := by
  have hdistinct : DistinctKeys (held (c.clear p)) := by
    rw [hc.clear]
    exact Multiset.nodup_zero
  refine ⟨hdistinct, fun k b hb => ?_⟩
  have hmem := (hc.get hdistinct).mp hb
  rw [hc.clear] at hmem
  exact absurd hmem (Multiset.notMem_zero _)

end Within

namespace CPUOffloadingManager
variable {m m' : CPUOffloadingManager P} {keys : List OffloadKey}

theorem policy_countKey (hrun : m.countKey k = .ok m') : m'.policy = m.policy := by
  unfold countKey at hrun
  split at hrun
  · cases hrun
    rfl
  · rcases of_bind hrun with ⟨counts, -, hpure⟩
    cases hpure
    rfl

theorem policy_lookup {answer : Option Bool} (hrun : m.lookup c k = .ok (answer, m')) :
    m'.policy = m.policy ∧ answer = m'.answer c k := by
  rcases of_bind hrun with ⟨m1, hcount, hpure⟩
  cases hpure
  exact ⟨policy_countKey hcount, rfl⟩

theorem within_prepareLoad {ids : List ℕ} (h : Within c held R m.policy) (hc : c.Lawful held)
    (hrun : m.prepareLoad c keys = .ok (ids, m')) : Within c held R m'.policy := by
  suffices hfold : ∀ r : List ℕ × CPUOffloadingManager P,
      keys.foldlM (loadBlock c) ([], m) = .ok r → Within c held R r.2.policy from
    hfold (ids, m') hrun
  intro r hr
  apply foldlM_invariant (P := fun r => Within c held R r.2.policy) _ h hr
  intro k _ r1 r2 h1 hstep
  rcases of_bind hstep with ⟨b, hb, hstep⟩
  rcases of_bind hstep with ⟨_, hready, hpure⟩
  cases hpure
  have hget := requireBlock_eq_ok.mp hb
  exact h1.setRefCnt hc hget fun _ => h1.readable k b hget (require_eq_ok.mp hready)

theorem within_completeLoad (h : Within c held R m.policy) (hc : c.Lawful held)
    (hrun : m.completeLoad c keys = .ok m') : Within c held R m'.policy := by
  apply foldlM_invariant (P := fun m => Within c held R m.policy) _ h hrun
  intro k _ m1 m2 h1 hstep
  rcases of_bind hstep with ⟨b, hb, hstep⟩
  rcases of_bind hstep with ⟨_, hpos, hpure⟩
  cases hpure
  have hget := requireBlock_eq_ok.mp hb
  exact h1.setRefCnt hc hget fun _ =>
    h1.readable k b hget (le_of_lt (require_eq_ok.mp hpos))

theorem within_markStored (r : CPUOffloadingManager P × List OffloadKey)
    (h : Within c held R r.1.policy) (hc : c.Lawful held) (hk : R k) :
    Within c held R (markStored c r k).1.policy := by
  unfold markStored
  cases hget : c.get r.1.policy k with
  | none => exact h
  | some b =>
    by_cases hready : b.isReady
    · dsimp only
      rw [if_pos hready]
      exact h
    · dsimp only
      rw [if_neg hready]
      exact h.setRefCnt hc hget fun _ => hk

/-- Only a store that succeeds makes its keys readable. -/
theorem within_completeStore (h : Within c held R m.policy) (hc : c.Lawful held) {success : Bool}
    (hkeys : success = true → ∀ k ∈ keys, R k)
    (hrun : m.completeStore c keys success = .ok m') : Within c held R m'.policy := by
  cases success with
  | false =>
    apply foldlM_invariant (P := fun m => Within c held R m.policy) _ h hrun
    intro k _ m1 m2 h1 hstep
    unfold dropStore at hstep
    cases hget : c.get m1.policy k with
    | none =>
      rw [hget] at hstep
      cases hstep
      exact h1
    | some b =>
      rw [hget] at hstep
      dsimp only at hstep
      split_ifs at hstep
      · cases hstep
        exact h1
      · rcases of_bind hstep with ⟨p', hremove, hpure⟩
        cases hpure
        exact h1.remove hc hget hremove
  | true =>
    have hfold : ∀ (keys : List OffloadKey) (r : CPUOffloadingManager P × List OffloadKey),
        (∀ k ∈ keys, R k) → Within c held R r.1.policy →
          Within c held R (keys.foldl (markStored c) r).1.policy := by
      intro keys
      induction keys with
      | nil => exact fun r _ hr => hr
      | cons k keys ih =>
        intro r hkeys hr
        have hrest : ∀ k ∈ keys, R k := fun k hk => hkeys k (mem_cons_of_mem _ hk)
        exact ih _ hrest (within_markStored r hr hc (hkeys k mem_cons_self))
    cases hrun
    have hpolicy := hfold keys (m, []) (hkeys rfl) h
    unfold addEvent
    split_ifs
    · exact hpolicy
    · exact hpolicy

theorem policy_freeAll (victims : List CacheEntry) (m : CPUOffloadingManager P) :
    (victims.foldl (fun m e => m.freeBlock e.2) m).policy = m.policy := by
  induction victims generalizing m with
  | nil => rfl
  | cons e victims ih => exact ih _

theorem within_makeRoom (h : Within c held R m.policy) (hc : c.Lawful held) (n : ℕ) :
    Within c held R (m.makeRoom c keys n).2.policy ∧
      ∀ k, c.get m.policy k = none → c.get (m.makeRoom c keys n).2.policy k = none := by
  have hevict := h.evict hc (n - m.getNumFreeBlocks).toNat keys
  have hnone : ∀ k, c.get m.policy k = none →
      c.get (c.evict m.policy (n - m.getNumFreeBlocks).toNat keys).2 k = none := by
    intro k hk
    cases hvictims : (c.evict m.policy (n - m.getNumFreeBlocks).toNat keys).1 with
    | none => rwa [hc.evict_none hvictims]
    | some victims =>
      apply Option.eq_none_iff_forall_not_mem.mpr
      intro b hb
      have hmem := (hc.get hevict.distinct).mp hb
      have hold : (k, b) ∈ held m.policy := by
        rw [(hc.evict h.distinct hvictims).2.2]
        exact Multiset.mem_add.mpr (Or.inr hmem)
      rw [(hc.get h.distinct).mpr hold] at hk
      cases hk
  unfold makeRoom
  dsimp only
  split_ifs
  · cases (c.evict m.policy (n - m.getNumFreeBlocks).toNat keys).1 with
    | none => exact ⟨hevict, hnone⟩
    | some victims =>
      rw [policy_freeAll]
      exact ⟨hevict, hnone⟩
  · exact ⟨h, fun _ hk => hk⟩

variable {blocks : List BlockStatus}

theorem within_insertBlocks (hc : c.Lawful held) (hnew : ∀ b ∈ blocks, ¬b.isReady)
    (hnodup : keys.Nodup) (h : Within c held R p) (habsent : ∀ k ∈ keys, c.get p k = none) :
    Within c held R ((keys.zip blocks).foldl (fun p e => c.insert p e.1 e.2) p) := by
  induction keys generalizing p blocks with
  | nil => exact h
  | cons k keys ih =>
    cases blocks with
    | nil => exact h
    | cons b blocks =>
      rcases nodup_cons.mp hnodup with ⟨hnot, hrest⟩
      have hk := habsent k mem_cons_self
      apply ih (fun b' hb' => hnew b' (mem_cons_of_mem b hb')) hrest
      · exact h.insert hc hk (hnew b mem_cons_self)
      · intro k' hk'
        have hne : k' ≠ k := fun heq => hnot (heq ▸ hk')
        rw [hc.get_insert h.distinct hk, if_neg hne]
        exact habsent k' (mem_cons_of_mem k hk')

theorem allocateBlocks_spec {n : ℕ} (hrun : m.allocateBlocks n = .ok (blocks, m')) :
    m'.policy = m.policy ∧ ∀ b ∈ blocks, ¬b.isReady := by
  rcases of_bind hrun with ⟨-, -, hpure⟩
  cases hpure
  refine ⟨rfl, fun b hb => ?_⟩
  rcases mem_map.mp hb with ⟨id, -, rfl⟩
  exact Int.not_le.mpr (Int.negSucc_lt_zero 0)

theorem policy_addEvent (m : CPUOffloadingManager P) (keys : List OffloadKey) (removed : Bool) :
    (m.addEvent keys removed).policy = m.policy := by
  unfold addEvent
  split_ifs
  · rfl
  · rfl

/-- A prepared store makes nothing readable. -/
theorem within_prepareStore {out : Option CPUPrepareStoreOutput} (h : Within c held R m.policy)
    (hc : c.Lawful held) (hnodup : keys.Nodup) (hrun : m.prepareStore c keys = .ok (out, m')) :
    Within c held R m'.policy := by
  unfold prepareStore at hrun
  dsimp only at hrun
  split_ifs at hrun
  · cases hrun
    exact h
  · unfold storeKeys at hrun
    generalize hm0 : ({ m with storesSkippedInCurrentBatch := _ } : CPUOffloadingManager P) = m0
      at hrun
    generalize hnew : List.filter _ _ = keysToStore at hrun
    have h0 : Within c held R m0.policy := by rwa [← hm0]
    have hsub : keysToStore.Sublist keys := by
      rw [← hnew]
      apply filter_sublist.trans
      unfold countedKeys
      split
      · exact List.Sublist.refl _
      · exact filter_sublist
    have habsent : ∀ k ∈ keysToStore, c.get m0.policy k = none := by
      intro k hk
      rw [← hnew] at hk
      rw [← hm0]
      exact Option.isNone_iff_eq_none.mp (mem_filter.mp hk).2
    have hmake : Within c held R
        (m0.makeRoom c (m.countedKeys keys) keysToStore.length).2.policy ∧ _ :=
      within_makeRoom h0 hc keysToStore.length
    rcases hmake with ⟨hroom, hnone⟩
    rcases hmade : m0.makeRoom c (m.countedKeys keys) keysToStore.length with ⟨toEvict, m1⟩
    rw [hmade] at hrun hroom hnone
    cases toEvict with
    | none =>
      cases hrun
      exact hroom
    | some toEvict =>
      rcases of_bind hrun with ⟨⟨blocks, m2⟩, halloc, hrun⟩
      rcases of_bind hrun with ⟨-, -, hpure⟩
      cases hpure
      rcases allocateBlocks_spec halloc with ⟨hpolicy, hblocks⟩
      rw [policy_addEvent] at hpolicy
      show Within c held R (List.foldl _ m2.policy _)
      rw [hpolicy]
      exact within_insertBlocks hc hblocks (hnodup.sublist hsub) hroom
        fun k hk => hnone k (habsent k hk)

end CPUOffloadingManager

namespace TieringOffloadingManager
open CPUOffloadingManager
variable {m m' : TieringOffloadingManager P} {keys : List OffloadKey} {finished : List JobResult}
  {reqId : RequestId}

/-- A report that a tier has copied keys into the primary tier is about keys of `R`. -/
def PromotesOnly (m : TieringOffloadingManager P) (finished : List JobResult)
    (R : OffloadKey → Prop) : Prop :=
  m.processedJobsThisStep = false → ∀ r ∈ finished, r.success = true → ∀ job,
    m.transferJobs.get? r.jobId = some job → job.isPromotion = true → ∀ k ∈ job.keys, R k

section
variable (h : Within c held R m.primaryTier.policy) (hc : c.Lawful held)
include h hc

theorem within_maybeProcess (honly : m.PromotesOnly finished R)
    (hrun : m.maybeProcessFinishedJobs c finished = .ok m') :
    Within c held R m'.primaryTier.policy := by
  unfold maybeProcessFinishedJobs at hrun
  split_ifs at hrun with hprocessed
  · cases hrun
    exact h
  · have hreports := honly (Bool.eq_false_iff.mpr hprocessed)
    refine (foldlM_invariant (P := fun m1 : TieringOffloadingManager P =>
      Within c held R m1.primaryTier.policy ∧ ∀ id job, m1.transferJobs.get? id = some job →
        m.transferJobs.get? id = some job) ?_ ⟨?_, ?_⟩ hrun).1
    rotate_left
    · exact h
    · exact fun _ _ hjob => hjob
    intro r hr m1 m2 h1 hstep
    rcases h1 with ⟨hwithin, hjobs⟩
    unfold processJob at hstep
    cases hjob : m1.transferJobs.get? r.jobId with
    | none =>
      rw [hjob] at hstep
      cases hstep
    | some job =>
      rw [hjob] at hstep
      have hrest : ∀ id job', (m1.transferJobs.erase r.jobId).get? id = some job' →
          m.transferJobs.get? id = some job' := by
        intro id job' hjob'
        rw [Dict.get?_erase] at hjob'
        split_ifs at hjob'
        exact hjobs id job' hjob'
      dsimp only at hstep
      split_ifs at hstep with hpromotion
      · rcases of_bind hstep with ⟨primary, hprimary, hpure⟩
        cases hpure
        refine ⟨within_completeStore hwithin hc (fun hsuccess => ?_) hprimary, hrest⟩
        exact hreports r hr hsuccess job (hjobs _ _ hjob) hpromotion
      · rcases of_bind hstep with ⟨primary, hprimary, hpure⟩
        cases hpure
        exact ⟨within_completeLoad hwithin hc hprimary, hrest⟩

theorem within_initiatePromotion {k : OffloadKey} {tier : ℕ} {room : Bool}
    (hrun : m.initiatePromotion c tier k reqId = .ok (room, m')) :
    Within c held R m'.primaryTier.policy := by
  rcases of_bind hrun with ⟨⟨out, primary⟩, hprimary, hrest⟩
  have hwithin := within_prepareStore h hc (nodup_singleton k) hprimary
  cases out with
  | none | some out =>
    cases hrest
    exact hwithin

variable {answer : Option Bool} {answers : ℕ → Option Bool}

theorem within_lookupTiers {k : OffloadKey} {anyNone : Bool} {tiers : List ℕ}
    (hrun : m.lookupTiers c answers k reqId anyNone tiers = .ok (answer, m')) :
    Within c held R m'.primaryTier.policy ∧ answer ≠ some true := by
  induction tiers generalizing anyNone with
  | nil =>
    cases hrun
    refine ⟨h, ?_⟩
    cases anyNone
    · exact fun heq => nomatch heq
    · exact fun heq => nomatch heq
  | cons tier tiers ih =>
    unfold lookupTiers at hrun
    cases htier : answers tier with
    | none =>
      rw [htier] at hrun
      exact ih hrun
    | some found =>
      rw [htier] at hrun
      cases found with
      | false => exact ih hrun
      | true =>
        rcases of_bind hrun with ⟨⟨room, m1⟩, hpromote, hpure⟩
        cases hpure
        refine ⟨within_initiatePromotion h hc hpromote, ?_⟩
        cases room
        · exact fun heq => nomatch heq
        · exact fun heq => nomatch heq

/-- A lookup answers true for keys of the primary tier alone. -/
theorem within_lookup {k : OffloadKey} (honly : m.PromotesOnly finished R)
    (hrun : m.lookup c finished answers k reqId = .ok (answer, m')) :
    Within c held R m'.primaryTier.policy ∧ (answer = some true → R k) := by
  rcases of_bind hrun with ⟨m1, hprocess, hrun⟩
  rcases of_bind hrun with ⟨⟨found, primary⟩, hlookup, hrest⟩
  have h1 := within_maybeProcess h hc honly hprocess
  rcases policy_lookup hlookup with ⟨hpolicy, hfound⟩
  have h2 : Within c held R primary.policy := by
    rw [hpolicy]
    exact h1
  cases found with
  | none =>
    cases hrest
    exact ⟨h2, fun heq => nomatch heq⟩
  | some found =>
    cases found with
    | true =>
      cases hrest
      refine ⟨h2, fun _ => ?_⟩
      rcases answer_eq_true_iff.mp hfound.symm with ⟨b, hb, hready⟩
      exact h2.readable k b hb hready
    | false =>
      have htiers := within_lookupTiers (m := { m1 with primaryTier := primary }) h2 hc hrest
      exact ⟨htiers.1, fun heq => absurd heq htiers.2⟩

theorem within_prepareLoad {ids : List ℕ} (honly : m.PromotesOnly finished R)
    (hrun : m.prepareLoad c finished keys = .ok (ids, m')) :
    Within c held R m'.primaryTier.policy := by
  rcases of_bind hrun with ⟨m1, hprocess, hrun⟩
  rcases of_bind hrun with ⟨⟨found, primary⟩, hload, hpure⟩
  cases hpure
  exact CPUOffloadingManager.within_prepareLoad (within_maybeProcess h hc honly hprocess) hc hload

theorem within_completeLoad (hrun : m.completeLoad c keys = .ok m') :
    Within c held R m'.primaryTier.policy := by
  rcases of_bind hrun with ⟨primary, hload, hpure⟩
  cases hpure
  exact CPUOffloadingManager.within_completeLoad h hc hload

theorem within_cascades {tiers : List ℕ} (hrun : tiers.foldlM (cascade c keys reqId) m = .ok m') :
    Within c held R m'.primaryTier.policy := by
  apply foldlM_invariant (P := fun m => Within c held R m.primaryTier.policy) _ h hrun
  intro tier _ m1 m2 h1 hstep
  rcases of_bind hstep with ⟨⟨ids, primary⟩, hload, hpure⟩
  cases hpure
  exact CPUOffloadingManager.within_prepareLoad h1 hc hload

end

theorem policy_readyKeys {r r' : List OffloadKey × CPUOffloadingManager P}
    (hrun : keys.foldlM (readyKeys c) r = .ok r') : r'.2.policy = r.2.policy := by
  apply foldlM_invariant (P := fun r' => r'.2.policy = r.2.policy) _ rfl hrun
  intro k _ r1 r2 h1 hstep
  rcases of_bind hstep with ⟨⟨answer, primary⟩, hlookup, hpure⟩
  cases hpure
  exact (policy_lookup hlookup).1.trans h1

section
variable (h : Within c held R m.primaryTier.policy) (hc : c.Lawful held)
include h hc

theorem within_prepareStore {out : Option CPUPrepareStoreOutput} (hnodup : keys.Nodup)
    (honly : m.PromotesOnly finished R)
    (hrun : m.prepareStore c finished keys reqId = .ok (out, m')) :
    Within c held R m'.primaryTier.policy := by
  rcases of_bind hrun with ⟨m1, hprocess, hrun⟩
  rcases of_bind hrun with ⟨⟨found, primary⟩, hstore, hrest⟩
  have h2 := CPUOffloadingManager.within_prepareStore
    (within_maybeProcess h hc honly hprocess) hc hnodup hstore
  cases found with
  | none =>
    cases hrest
    exact h2
  | some o =>
    rcases of_bind hrest with ⟨m3, hcascade, hpure⟩
    cases hpure
    unfold cascadeStored at hcascade
    split at hcascade
    · cases hcascade
      exact h2
    · dsimp only at hcascade
      split_ifs at hcascade
      · cases hcascade
        exact h2
      · rcases of_bind hcascade with ⟨r, hready, hcascade⟩
        have h3 : Within c held R r.2.policy := by
          rw [policy_readyKeys hready]
          exact h2
        split_ifs at hcascade
        · cases hcascade
          exact h3
        · exact within_cascades h3 hc hcascade

theorem within_completeStore {success : Bool} (hkeys : ∀ k ∈ keys, R k)
    (hrun : m.completeStore c keys reqId success = .ok m') :
    Within c held R m'.primaryTier.policy := by
  rcases of_bind hrun with ⟨primary, hstore, hrest⟩
  have h1 := CPUOffloadingManager.within_completeStore h hc (fun _ => hkeys) hstore
  split_ifs at hrest
  · exact within_cascades h1 hc hrest
  · cases hrest
    exact h1

end

theorem policy_submitAll (entries : List PendingPromotion) (m : TieringOffloadingManager P) :
    (entries.foldl submitPending m).primaryTier = m.primaryTier := by
  induction entries generalizing m with
  | nil => rfl
  | cons e entries ih => exact ih _

theorem within_onScheduleEnd (h : Within c held R m.primaryTier.policy) (hc : c.Lawful held)
    (honly : m.PromotesOnly finished R) (hrun : m.onScheduleEnd c finished = .ok m') :
    Within c held R m'.primaryTier.policy := by
  rcases of_bind hrun with ⟨m1, hprocess, hpure⟩
  cases hpure
  have h1 := within_maybeProcess h hc honly hprocess
  show Within c held R (List.foldl submitPending _ _).primaryTier.policy
  rw [policy_submitAll]
  exact h1

end TieringOffloadingManager

end Vllm
