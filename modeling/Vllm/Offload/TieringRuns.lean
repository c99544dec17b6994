import Vllm.Offload.CpuRuns
import Vllm.Offload.TieringSteps

/-! Any calls of the tiering manager in any order, with any answers and reports of its secondary
tiers: the primary blocks of a job stay where they are until its report. -/
namespace Vllm
open CPUOffloadingManager TieringOffloadingManager LRUCachePolicy
variable {P : Type}

/-- The manager, the stores and loads that the GPU has prepared and not completed, and the keys that
have answered true since a lookup without answer or a preparation of stores, which may evict. -/
structure TieringRun (P : Type) where
  manager : TieringOffloadingManager P
  stores : List (List OffloadKey) := []
  loads : List (List OffloadKey) := []
  readable : List OffloadKey := []

/-- A call, with what the secondary tiers report and answer during it. The job that a completion is
about is named by its place. -/
inductive TierCall where
  | lookup (finished : List JobResult) (answers : ℕ → Option Bool) (key : OffloadKey)
      (reqId : RequestId)
  | prepareLoad (finished : List JobResult) (keys : List OffloadKey)
  | completeLoad (place : ℕ)
  | prepareStore (finished : List JobResult) (keys : List OffloadKey) (reqId : RequestId)
  | completeStore (place : ℕ) (reqId : RequestId) (success : Bool)
  | touch (keys : List OffloadKey)
  | onNewRequest (policies : ℕ → OffloadPolicy) (reqId : RequestId)
  | onRequestFinished (reqId : RequestId)
  | onScheduleEnd (finished : List JobResult)

namespace TieringRun

/-- The protocol of the callers: the keys of a call are distinct, a request loads what its lookups
have just found, a lookup without answer puts the request off, and what has been prepared is
completed once. A tier reports a job that it has, once. -/
def Allowed (s : TieringRun P) : TierCall → Prop
  | .lookup finished _ _ _ => s.manager.Reports finished
  | .prepareLoad finished keys =>
    s.manager.Reports finished ∧ keys.Nodup ∧ ∀ k ∈ keys, k ∈ s.readable
  | .completeLoad place => place < s.loads.length
  | .prepareStore finished keys _ => s.manager.Reports finished ∧ keys.Nodup
  | .completeStore place _ _ => place < s.stores.length
  | .touch _ | .onNewRequest _ _ | .onRequestFinished _ => True
  | .onScheduleEnd finished => s.manager.Reports finished

/-- The keys to load after a lookup. -/
def readableAfter (s : TieringRun P) (key : OffloadKey) : Option Bool → List OffloadKey
  | some true => key :: s.readable
  | some false => s.readable
  | none => []

def perform (c : CachePolicy P) (s : TieringRun P) : TierCall → Raises (TieringRun P)
  | .lookup finished answers key reqId => do
    let r ← s.manager.lookup c finished answers key reqId
    pure { s with manager := r.2, readable := s.readableAfter key r.1 }
  | .prepareLoad finished keys => do
    let r ← s.manager.prepareLoad c finished keys
    pure { s with manager := r.2, loads := keys :: s.loads }
  | .completeLoad place => do
    let manager ← s.manager.completeLoad c (s.loads[place]?.getD [])
    pure { s with manager, loads := s.loads.eraseIdx place }
  | .prepareStore finished keys reqId => do
    let r ← s.manager.prepareStore c finished keys reqId
    pure { s with
      manager := r.2
      stores := (r.1.map fun o => o.keysToStore).toList ++ s.stores
      readable := [] }
  | .completeStore place reqId success => do
    let manager ← s.manager.completeStore c (s.stores[place]?.getD []) reqId success
    pure { s with manager, stores := s.stores.eraseIdx place }
  | .touch keys => pure { s with manager := s.manager.touch c keys }
  | .onNewRequest policies reqId =>
    pure { s with manager := (s.manager.onNewRequest policies reqId).2 }
  | .onRequestFinished reqId => pure { s with manager := s.manager.onRequestFinished reqId }
  | .onScheduleEnd finished => do
    let manager ← s.manager.onScheduleEnd c finished
    pure { s with manager }

inductive Reachable (c : CachePolicy P) (start : TieringRun P) : TieringRun P → Prop
  | start : Reachable c start start
  | step {s s'} (call : TierCall) : Reachable c start s → s.Allowed call →
      s.perform c call = .ok s' → Reachable c start s'

/-- Nothing is in flight, waiting or prepared. -/
def Idle (s : TieringRun P) : Prop :=
  s.manager.transferJobs.isEmpty = true ∧ s.manager.pendingLoadSubmissions.isEmpty = true ∧
    s.stores.flatten = [] ∧ s.loads.flatten = []

/-- The blocks of the jobs are pinned, and no assertion fails. -/
structure Safe (c : CachePolicy P) (s : TieringRun P) : Prop where
  inPlace : ∀ id job, s.manager.transferJobs.get? id = some job →
    List.Forall₂ (fun k i => s.manager.primaryTier.idOf c k = some i) job.keys job.blockIds
  unreadable : ∀ id job, s.manager.transferJobs.get? id = some job → job.isPromotion = true →
    ∀ k ∈ job.keys, s.manager.primaryTier.answer c k = none
  passes : ∀ call, s.Allowed call → ∃ s', s.perform c call = .ok s'
  unpinned : s.Idle → ∀ k b, c.get s.manager.primaryTier.policy k = some b → b.refCnt = 0

variable {c : CachePolicy P} {held : P → Multiset CacheEntry} {s s' start : TieringRun P}

structure Inv (c : CachePolicy P) (held : P → Multiset CacheEntry) (s : TieringRun P) :
    Prop where
  tiers : TierInv c held s.manager (s.stores.flatten : List OffloadKey)
    (s.loads.flatten : List OffloadKey)
  readable : ∀ k ∈ s.readable, s.manager.primaryTier.answer c k = some true

theorem Inv.perform (h : Inv c held s) (hc : c.Lawful held) {call : TierCall}
    (hcall : s.Allowed call) : ∃ s', s.perform c call = .ok s' ∧ Inv c held s' := by
  cases call with
  | lookup finished answers key reqId =>
    rcases h.tiers.lookup hc hcall answers key reqId with ⟨answer, m, hrun, hinv, htrue, hstays⟩
    refine ⟨{ s with manager := m, readable := s.readableAfter key answer }, ?_, hinv, ?_⟩
    · unfold TieringRun.perform
      dsimp only
      rw [hrun]
      rfl
    · cases answer with
      | none => exact fun k hk => absurd hk List.not_mem_nil
      | some found =>
        have hready := hstays (Option.some_ne_none found)
        cases found with
        | false => exact fun k hk => hready k (h.readable k hk)
        | true =>
          exact List.forall_mem_cons.mpr ⟨htrue rfl, fun k hk => hready k (h.readable k hk)⟩
  | prepareLoad finished keys =>
    rcases hcall with ⟨hreports, -, hreadable⟩
    rcases h.tiers.prepareLoad hc hreports (fun k hk => h.readable k (hreadable k hk)) with
      ⟨ids, m, hrun, hinv, hstays⟩
    refine ⟨{ s with manager := m, loads := keys :: s.loads }, ?_, ?_,
      fun k hk => hstays k (h.readable k hk)⟩
    · unfold TieringRun.perform
      dsimp only
      rw [hrun]
      rfl
    · show TierInv c held m _ ((keys :: s.loads).flatten : List OffloadKey)
      rw [List.flatten_cons, ← Multiset.coe_add]
      exact hinv
  | completeLoad place =>
    have hjob : s.loads[place]? = some (s.loads[place]?.getD []) := by
      rw [List.getElem?_eq_getElem hcall]
      rfl
    have htiers := h.tiers
    rw [CpuRun.flatten_eraseIdx hjob] at htiers
    rcases htiers.completeLoad hc with ⟨m, hrun, hinv, hstays⟩
    refine ⟨{ s with manager := m, loads := s.loads.eraseIdx place }, ?_, hinv,
      fun k hk => hstays k (h.readable k hk)⟩
    unfold TieringRun.perform
    dsimp only
    rw [hrun]
    rfl
  | prepareStore finished keys reqId =>
    rcases h.tiers.prepareStore hc hcall.1 hcall.2 reqId with ⟨out, m, hrun, hinv⟩
    refine ⟨{ s with
      manager := m
      stores := (out.map fun o => o.keysToStore).toList ++ s.stores
      readable := [] }, ?_, ?_, fun k hk => absurd hk List.not_mem_nil⟩
    · unfold TieringRun.perform
      dsimp only
      rw [hrun]
      rfl
    · have hstores : ((out.map fun o => o.keysToStore).toList ++ s.stores).flatten =
          (out.map fun o => o.keysToStore).getD [] ++ s.stores.flatten := by
        cases out <;> rfl
      show TierInv c held m (((out.map fun o => o.keysToStore).toList ++ s.stores).flatten :
        List OffloadKey) _
      rw [hstores, ← Multiset.coe_add]
      exact hinv
  | completeStore place reqId success =>
    have hjob : s.stores[place]? = some (s.stores[place]?.getD []) := by
      rw [List.getElem?_eq_getElem hcall]
      rfl
    have htiers := h.tiers
    rw [CpuRun.flatten_eraseIdx hjob] at htiers
    rcases htiers.completeStore hc reqId success with ⟨m, hrun, hinv, hstays⟩
    refine ⟨{ s with manager := m, stores := s.stores.eraseIdx place }, ?_, hinv,
      fun k hk => hstays k (h.readable k hk)⟩
    unfold TieringRun.perform
    dsimp only
    rw [hrun]
    rfl
  | touch keys =>
    rcases h.tiers.touch hc keys with ⟨hinv, hstays⟩
    exact ⟨_, rfl, hinv, fun k hk => hstays k (h.readable k hk)⟩
  | onNewRequest policies reqId =>
    rcases h.tiers.onNewRequest policies reqId with ⟨hinv, hprimary⟩
    refine ⟨_, rfl, hinv, ?_⟩
    rw [hprimary]
    exact h.readable
  | onRequestFinished reqId =>
    exact ⟨_, rfl, h.tiers.onRequestFinished reqId, h.readable⟩
  | onScheduleEnd finished =>
    rcases h.tiers.onScheduleEnd hc hcall with ⟨m, hrun, hinv, hstays⟩
    refine ⟨{ s with manager := m }, ?_, hinv, fun k hk => hstays k (h.readable k hk)⟩
    unfold TieringRun.perform
    dsimp only
    rw [hrun]
    rfl

theorem inv_of_reachable (hc : c.Lawful held) (hstart : Inv c held start)
    (hs : Reachable c start s) : Inv c held s := by
  induction hs with
  | start => exact hstart
  | step call _ hcall hrun ih =>
    rcases ih.perform hc hcall with ⟨s', hrun', hinv⟩
    rw [hrun'] at hrun
    cases hrun
    exact hinv

theorem sumValues_of_isEmpty {κ ν : Type} {d : Dict κ ν} (h : d.isEmpty = true)
    (f : ν → Multiset OffloadKey) : d.sumValues f = 0 := by
  unfold Dict.isEmpty at h
  unfold Dict.sumValues Dict.values
  rw [List.isEmpty_iff.mp h]
  rfl

theorem Inv.safe (h : Inv c held s) (hc : c.Lawful held) : Safe c s := by
  constructor
  · exact h.tiers.jobs.located
  · intro id job hjob hkind k hk
    have hmem := mem_jobKeys hjob hk
    rw [hkind] at hmem
    have hpending : k ∈ (s.stores.flatten : List OffloadKey) + s.manager.queuedKeys +
        s.manager.jobKeys true := Multiset.mem_add.mpr (Or.inr hmem)
    have hpool := h.tiers.jobs.pool
    rcases mem_heldKeys.mp (hpool.pendingHeld k hpending) with ⟨b, hb⟩
    unfold answer
    rw [(hpool.get_iff hc).mpr hb]
    exact if_neg ((hpool.refCnt_neg_iff hb).mpr hpending)
  · intro call hcall
    rcases h.perform hc hcall with ⟨s', hrun, -⟩
    exact ⟨s', hrun⟩
  · rintro ⟨hjobs, hpending, hstores, hloads⟩ k b hb
    have hpool := h.tiers.jobs.pool
    have hqueued : s.manager.queuedKeys = 0 := sumValues_of_isEmpty hpending _
    have hkeys : ∀ kind, s.manager.jobKeys kind = 0 := fun kind => sumValues_of_isEmpty hjobs _
    rw [hqueued, hkeys, hkeys, hstores, hloads] at hpool
    have href := hpool.refCnt k b ((hpool.get_iff hc).mp hb)
    simpa using href

theorem Inv.init (held : P → Multiset CacheEntry) (policy : P) (hempty : held policy = 0)
    (numBlocks numTiers : ℕ) (enableEvents : Bool) :
    Inv c held { manager := .init policy numBlocks numTiers enableEvents } := by
  have hpool := (CpuRun.Inv.init held policy hempty numBlocks enableEvents 1 64000).pool
  refine ⟨⟨⟨?_, ?_, ?_, rfl⟩, ?_⟩, fun k hk => absurd hk List.not_mem_nil⟩
  · exact hpool
  · exact fun id job hjob => nomatch hjob
  · exact fun id job hjob => nomatch hjob
  · exact fun tier d reqId e hd _ => nomatch hd

end TieringRun

section Policies
variable (numBlocks numTiers : ℕ) (enableEvents : Bool)

def lruTiers : TieringRun LRUCachePolicy where
  manager := .init {} numBlocks numTiers enableEvents

def arcTiers : TieringRun ARCCachePolicy where
  manager := .init { cacheCapacity := numBlocks } numBlocks numTiers enableEvents

/-- The primary blocks of the tiering manager, under either policy. -/
theorem tieredTransfers_pinned (round : ℚ → ℚ) :
    (∀ s, TieringRun.Reachable policy (lruTiers numBlocks numTiers enableEvents) s →
      s.Safe policy) ∧
    (∀ s, TieringRun.Reachable (ARCCachePolicy.policy round)
        (arcTiers numBlocks numTiers enableEvents) s →
      s.Safe (ARCCachePolicy.policy round)) := by
  constructor
  · intro s hs
    have hlawful := lawful
    have hstart := TieringRun.Inv.init (c := policy)
      (fun p : LRUCachePolicy => p.blocks.bag) {} rfl numBlocks numTiers enableEvents
    exact (TieringRun.inv_of_reachable hlawful hstart hs).safe hlawful
  · intro s hs
    have hlawful := ARCCachePolicy.lawful round
    have hstart := TieringRun.Inv.init (c := ARCCachePolicy.policy round) ARCCachePolicy.held
      { cacheCapacity := numBlocks } rfl numBlocks numTiers enableEvents
    exact (TieringRun.inv_of_reachable hlawful hstart hs).safe hlawful

end Policies

/-- A key that only the secondary tier has is promoted. -/
def promoting : TieringRun LRUCachePolicy where
  manager :=
    { primaryTier :=
        { numBlocks := 1
          policy := { blocks := Dict.empty.set (soloKey 1) ⟨0, -1⟩ }
          numAllocatedBlocks := 1 }
      secondaryTiers := [0]
      jobIdCounter := 1
      transferJobs := Dict.empty.set 0 ⟨[soloKey 1], [0], true, 7⟩ }

theorem promoting_reachable : TieringRun.Reachable policy (lruTiers 1 1 false) promoting := by
  have hnone : ∀ m : TieringOffloadingManager LRUCachePolicy, m.Reports [] :=
    fun m => ⟨List.nodup_nil, fun r hr => absurd hr List.not_mem_nil⟩
  have h0 : TieringRun.Reachable policy (lruTiers 1 1 false) (lruTiers 1 1 false) := .start
  have h1 := h0.step (.lookup [] (fun _ => some true) (soloKey 1) 7) (hnone _) rfl
  exact h1.step (.onScheduleEnd []) (hnone _) rfl

theorem tieredTransfers_pinned_promoting : promoting.Safe policy :=
  (tieredTransfers_pinned 1 1 false id).1 promoting promoting_reachable

end Vllm
