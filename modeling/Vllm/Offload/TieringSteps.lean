import Vllm.Offload.TieringJobs

/-! The calls of the tiering manager: each keeps the books of its jobs and of the promotions that
wait to be submitted. -/
namespace Vllm
open List Raises
namespace TieringOffloadingManager
open CPUOffloadingManager
variable {P : Type} {c : CachePolicy P} {held : P → Multiset CacheEntry}
  {m m' : TieringOffloadingManager P} {stores loads : Multiset OffloadKey}
  {keys : List OffloadKey} {k : OffloadKey}

/-- The keys of the promotions that wait for the end of the step. -/
def queuedKeys (m : TieringOffloadingManager P) : Multiset OffloadKey :=
  m.pendingLoadSubmissions.sumValues fun d => d.sumValues fun e => (e.keys : Multiset OffloadKey)

/-- The books: the GPU has prepared the stores of `stores` and the loads of `loads`. -/
structure TierInv (c : CachePolicy P) (held : P → Multiset CacheEntry)
    (m : TieringOffloadingManager P) (stores loads : Multiset OffloadKey) : Prop where
  jobs : JobsInv c held m (stores + m.queuedKeys) loads
  queued : ∀ tier d reqId e, m.pendingLoadSubmissions.get? tier = some d →
    d.get? reqId = some e → Located c m.primaryTier e.keys e.blockIds

/-- The tiers report jobs in flight, each once. -/
def Reports (m : TieringOffloadingManager P) (finished : List JobResult) : Prop :=
  (finished.map fun r => r.jobId).Nodup ∧
    ∀ r ∈ finished, m.transferJobs.contains r.jobId = true

theorem mem_queuedKeys {tier : ℕ} {d : Dict RequestId PendingPromotion} {reqId : RequestId}
    {e : PendingPromotion} (hd : m.pendingLoadSubmissions.get? tier = some d)
    (he : d.get? reqId = some e) (hk : k ∈ e.keys) : k ∈ m.queuedKeys := by
  have hinner := d.sumValues_erase (fun e => (e.keys : Multiset OffloadKey)) reqId
  have houter := m.pendingLoadSubmissions.sumValues_erase
    (fun d => d.sumValues fun e => (e.keys : Multiset OffloadKey)) tier
  rw [he] at hinner
  rw [hd] at houter
  unfold queuedKeys
  rw [← houter]
  refine Multiset.mem_add.mpr (Or.inr ?_)
  show k ∈ d.sumValues fun e => (e.keys : Multiset OffloadKey)
  rw [← hinner]
  exact Multiset.mem_add.mpr (Or.inr (Multiset.mem_coe.mpr hk))

theorem sumValues_extendPending (d : Dict RequestId PendingPromotion) (reqId : RequestId)
    (keys : List OffloadKey) (blockIds : List ℕ) :
    (extendPending d reqId keys blockIds).sumValues
        (fun e => (e.keys : Multiset OffloadKey)) =
      d.sumValues (fun e => (e.keys : Multiset OffloadKey)) + keys := by
  have hsum := d.sumValues_set (fun e => (e.keys : Multiset OffloadKey)) reqId
    { d.getD reqId { reqId } with
      keys := (d.getD reqId { reqId }).keys ++ keys
      blockIds := (d.getD reqId { reqId }).blockIds ++ blockIds }
  unfold extendPending
  rw [← Multiset.coe_add] at hsum
  unfold Dict.getD at hsum ⊢
  cases hget : d.get? reqId with
  | none =>
    rw [hget] at hsum
    simpa using hsum
  | some e =>
    rw [hget] at hsum
    simp only [Option.map_some, Option.getD_some] at hsum ⊢
    rw [add_left_comm, add_comm] at hsum
    exact add_left_cancel hsum

theorem queuedKeys_extend (m : TieringOffloadingManager P) (tier : ℕ) (reqId : RequestId)
    (keys : List OffloadKey) (blockIds : List ℕ) :
    (m.pendingLoadSubmissions.set tier
        (extendPending (m.pendingLoadSubmissions.getD tier .empty) reqId keys blockIds)).sumValues
          (fun d => d.sumValues fun e => (e.keys : Multiset OffloadKey)) =
      m.queuedKeys + keys := by
  have hsum := m.pendingLoadSubmissions.sumValues_set
    (fun d => d.sumValues fun e => (e.keys : Multiset OffloadKey)) tier
    (extendPending (m.pendingLoadSubmissions.getD tier .empty) reqId keys blockIds)
  rw [sumValues_extendPending] at hsum
  unfold queuedKeys
  unfold Dict.getD at hsum ⊢
  cases hget : m.pendingLoadSubmissions.get? tier with
  | none =>
    rw [hget] at hsum
    simpa [Dict.sumValues, Dict.values, Dict.empty] using hsum
  | some d =>
    rw [hget] at hsum
    simp only [Option.map_some, Option.getD_some] at hsum ⊢
    rw [add_left_comm, add_comm] at hsum
    exact add_left_cancel hsum

theorem located_extend {p : CPUOffloadingManager P}
    {pending : Dict ℕ (Dict RequestId PendingPromotion)} {tier : ℕ} {reqId : RequestId}
    {blockIds : List ℕ}
    (hold : ∀ tier d reqId e, pending.get? tier = some d → d.get? reqId = some e →
      Located c p e.keys e.blockIds) (hnew : Located c p keys blockIds) :
    ∀ tier' d' reqId' e', (pending.set tier
        (extendPending (pending.getD tier .empty) reqId keys blockIds)).get? tier' = some d' →
      d'.get? reqId' = some e' → Located c p e'.keys e'.blockIds := by
  have hdict : ∀ reqId' e', (pending.getD tier .empty).get? reqId' = some e' →
      Located c p e'.keys e'.blockIds := by
    intro reqId' e' he'
    unfold Dict.getD at he'
    cases hget : pending.get? tier with
    | none =>
      rw [hget] at he'
      cases he'
    | some d =>
      rw [hget] at he'
      exact hold tier d reqId' e' hget he'
  have hentry : Located c p ((pending.getD tier .empty).getD reqId { reqId }).keys
      ((pending.getD tier .empty).getD reqId { reqId }).blockIds := by
    cases hget : (pending.getD tier .empty).get? reqId with
    | none =>
      have hdefault : (pending.getD tier .empty).getD reqId { reqId } = { reqId } := by
        unfold Dict.getD at hget ⊢
        rw [hget]
        rfl
      rw [hdefault]
      exact .nil
    | some e =>
      have hsome : (pending.getD tier .empty).getD reqId { reqId } = e := by
        unfold Dict.getD at hget ⊢
        rw [hget]
        rfl
      rw [hsome]
      exact hdict reqId e hget
  intro tier' d' reqId' e' hd' he'
  rw [Dict.get?_set] at hd'
  split_ifs at hd' with htier
  · cases hd'
    unfold extendPending at he'
    rw [Dict.get?_set] at he'
    split_ifs at he' with hreq
    · cases he'
      exact rel_append hentry hnew
    · exact hdict reqId' e' he'
  · exact hold tier' d' reqId' e' hd' he'

theorem JobsInv.submitAll {entries : List PendingPromotion} {extra : Multiset OffloadKey}
    (h : JobsInv c held m
      ((entries.map fun e => (e.keys : Multiset OffloadKey)).sum + extra) loads)
    (hloc : ∀ e ∈ entries, Located c m.primaryTier e.keys e.blockIds) :
    JobsInv c held (entries.foldl submitPending m) extra loads ∧
      (entries.foldl submitPending m).primaryTier = m.primaryTier := by
  induction entries generalizing m with
  | nil =>
    rw [map_nil, sum_nil, zero_add] at h
    exact ⟨h, rfl⟩
  | cons e entries ih =>
    rw [map_cons, sum_cons, add_assoc] at h
    exact ih (h.addPromotion (hloc e mem_cons_self) e.reqId)
      fun e' he' => hloc e' (mem_cons_of_mem e he')

theorem sum_flatMap_values {es : List (Dict RequestId PendingPromotion)} :
    ((es.flatMap fun d => d.values).map fun e => (e.keys : Multiset OffloadKey)).sum =
      (es.map fun d => d.sumValues fun e => (e.keys : Multiset OffloadKey)).sum := by
  induction es with
  | nil => rfl
  | cons d es ih =>
    rw [flatMap_cons, map_append, sum_append, ih, map_cons, sum_cons]
    rfl

namespace TierInv

variable {p : CPUOffloadingManager P} {finished : List JobResult}

theorem setPrimary {stores' loads' : Multiset OffloadKey} (h : TierInv c held m stores loads)
    (hjobs : JobsInv c held { m with primaryTier := p } (stores' + m.queuedKeys) loads')
    (hkeep : ∀ k ∈ m.queuedKeys, p.idOf c k = m.primaryTier.idOf c k) :
    TierInv c held { m with primaryTier := p } stores' loads' := by
  refine ⟨hjobs, fun tier d reqId e hd he => ?_⟩
  exact (h.queued tier d reqId e hd he).mono fun k hk i hi =>
    (hkeep k (mem_queuedKeys hd he hk)).trans hi

theorem of_waiting (hk : k ∈ m.queuedKeys) (stores : Multiset OffloadKey) :
    k ∈ stores + m.queuedKeys := Multiset.mem_add.mpr (Or.inr hk)

section
variable (h : TierInv c held m stores loads) (hc : c.Lawful held)
include h hc

theorem processJobs (hreports : m.Reports finished) :
    ∃ m', finished.foldlM (processJob c) m = .ok m' ∧ TierInv c held m' stores loads ∧
      StaysReady c m.primaryTier m'.primaryTier := by
  induction finished generalizing m with
  | nil => exact ⟨m, rfl, h, fun _ => id⟩
  | cons r finished ih =>
    rcases hreports with ⟨hnodup, hall⟩
    rcases nodup_cons.mp hnodup with ⟨hnot, hrest⟩
    rcases Option.isSome_iff_exists.mp (hall r mem_cons_self) with ⟨job, hjob⟩
    rcases h.jobs.processJob hc hjob with ⟨p, hrun, hjobs, hkeep, hready⟩
    have hinv : TierInv c held
        { m with primaryTier := p, transferJobs := m.transferJobs.erase r.jobId } stores loads := by
      refine ⟨hjobs, fun tier d reqId e hd he => ?_⟩
      exact (h.queued tier d reqId e hd he).mono fun k hk i hi =>
        (hkeep k (of_waiting (mem_queuedKeys hd he hk) stores)).trans hi
    have hreports' : Reports
        { m with primaryTier := p, transferJobs := m.transferJobs.erase r.jobId } finished := by
      refine ⟨hrest, fun r' hr' => ?_⟩
      rw [Dict.contains_erase]
      refine ⟨fun heq => hnot ?_, hall r' (mem_cons_of_mem r hr')⟩
      exact mem_map.mpr ⟨r', hr', heq⟩
    rcases ih hinv hreports' with ⟨m', hrun', hinv', hready'⟩
    refine ⟨m', ?_, hinv', fun k hk => hready' k (hready k hk)⟩
    rw [foldlM_cons, hrun]
    exact hrun'

theorem maybeProcess (hreports : m.Reports finished) :
    ∃ m', m.maybeProcessFinishedJobs c finished = .ok m' ∧ TierInv c held m' stores loads ∧
      StaysReady c m.primaryTier m'.primaryTier := by
  unfold maybeProcessFinishedJobs
  by_cases hflag : m.processedJobsThisStep = true
  · rw [if_pos hflag]
    exact ⟨m, rfl, h, fun _ => id⟩
  · rw [if_neg hflag]
    have hinv : TierInv c held { m with processedJobsThisStep := true } stores loads :=
      ⟨⟨h.jobs.pool, h.jobs.located, h.jobs.counter, h.jobs.counts⟩, h.queued⟩
    exact hinv.processJobs hc hreports

/-- Keys that are ready are copied to a secondary tier. -/
theorem cascade (hready : ∀ k ∈ keys, m.primaryTier.answer c k = some true) (reqId : RequestId)
    (tier : ℕ) :
    ∃ m', TieringOffloadingManager.cascade c keys reqId m tier = .ok m' ∧
      TierInv c held m' stores loads ∧ StaysReady c m.primaryTier m'.primaryTier := by
  rcases h.jobs.prepareLoad hc hready with ⟨ids, p, hrun, hjobs, hloc, hsame, hanswer⟩
  have hprimary := h.setPrimary hjobs fun k _ => hsame k
  refine ⟨_, ?_, ⟨hjobs.addCascade hloc reqId, hprimary.queued⟩, fun k hk => (hanswer k).trans hk⟩
  unfold TieringOffloadingManager.cascade
  rw [hrun]
  rfl

theorem cascadeAll (hready : ∀ k ∈ keys, m.primaryTier.answer c k = some true) (reqId : RequestId)
    (tiers : List ℕ) :
    ∃ m', tiers.foldlM (TieringOffloadingManager.cascade c keys reqId) m = .ok m' ∧
      TierInv c held m' stores loads ∧ StaysReady c m.primaryTier m'.primaryTier := by
  induction tiers generalizing m with
  | nil => exact ⟨m, rfl, h, fun _ => id⟩
  | cons tier tiers ih =>
    rcases h.cascade hc hready reqId tier with ⟨m1, hrun, hinv, hstays⟩
    rcases ih hinv (fun k hk => hstays k (hready k hk)) with ⟨m', hrun', hinv', hstays'⟩
    refine ⟨m', ?_, hinv', fun k hk => hstays' k (hstays k hk)⟩
    rw [foldlM_cons, hrun]
    exact hrun'

end

/-- Without lookup counts a lookup changes nothing. -/
theorem lookup_eq (h : p.counts = none) (k : OffloadKey) :
    p.lookup c k = .ok (p.answer c k, p) := by
  unfold CPUOffloadingManager.lookup countKey
  rw [h]
  rfl

theorem readyKeys_foldlM (h : p.counts = none) (keys done : List OffloadKey)
    (hdone : ∀ k ∈ done, p.answer c k = some true) :
    ∃ ready, keys.foldlM (readyKeys c) (done, p) = .ok (ready, p) ∧
      ∀ k ∈ ready, p.answer c k = some true := by
  induction keys generalizing done with
  | nil => exact ⟨done, rfl, hdone⟩
  | cons k keys ih =>
    have hstep : readyKeys c (done, p) k =
        .ok (if p.answer c k = some true then done ++ [k] else done, p) := by
      unfold readyKeys
      rw [lookup_eq h]
      rfl
    rw [foldlM_cons, hstep]
    apply ih
    intro k' hk'
    split_ifs at hk' with hanswer
    · rcases mem_append.mp hk' with hk' | hk'
      · exact hdone k' hk'
      · exact mem_singleton.mp hk' ▸ hanswer
    · exact hdone k' hk'

theorem cascadeStored (h : TierInv c held m stores loads) (hc : c.Lawful held)
    (keys : List OffloadKey) (reqId : RequestId) (keysToStore : List OffloadKey) :
    ∃ m', m.cascadeStored c keys reqId keysToStore = .ok m' ∧ TierInv c held m' stores loads := by
  unfold TieringOffloadingManager.cascadeStored
  cases m.requestLevelTiers.get? reqId with
  | none => exact ⟨m, rfl, h⟩
  | some tiers =>
    dsimp only
    split_ifs
    · exact ⟨m, rfl, h⟩
    · unfold cascadeExisting
      rcases readyKeys_foldlM (c := c) h.jobs.counts (keys.filter fun k => k ∉ keysToStore) []
        (fun k hk => absurd hk not_mem_nil) with ⟨ready, hrun, hready⟩
      rw [hrun, ok_bind]
      split_ifs
      · exact ⟨m, rfl, h⟩
      · rcases h.cascadeAll hc hready reqId tiers with ⟨m', hrun', hinv, -⟩
        exact ⟨m', hrun', hinv⟩

theorem completeStore (h : TierInv c held m (keys + stores) loads) (hc : c.Lawful held)
    (reqId : RequestId) (success : Bool) :
    ∃ m', m.completeStore c keys reqId success = .ok m' ∧ TierInv c held m' stores loads ∧
      StaysReady c m.primaryTier m'.primaryTier := by
  have hjobs := h.jobs
  rw [add_assoc] at hjobs
  rcases hjobs.completeStore hc success with ⟨p, hrun, hinv, hkeep, hstays, hready⟩
  have hprimary := h.setPrimary hinv fun k hk => hkeep k (of_waiting hk stores)
  unfold TieringOffloadingManager.completeStore
  rw [hrun, ok_bind]
  cases success with
  | false => exact ⟨_, rfl, hprimary, hstays⟩
  | true =>
    rcases hprimary.cascadeAll hc (hready rfl) reqId m.secondaryTiers with
      ⟨m', hrun', hinv', hstays'⟩
    exact ⟨m', hrun', hinv', fun k hk => hstays' k (hstays k hk)⟩

theorem completeLoad (h : TierInv c held m stores (keys + loads)) (hc : c.Lawful held) :
    ∃ m', m.completeLoad c keys = .ok m' ∧ TierInv c held m' stores loads ∧
      StaysReady c m.primaryTier m'.primaryTier := by
  rcases h.jobs.completeLoad hc with ⟨p, hrun, hinv, hsame, hanswer⟩
  refine ⟨_, ?_, h.setPrimary hinv fun k _ => hsame k, fun k hk => (hanswer k).trans hk⟩
  unfold TieringOffloadingManager.completeLoad
  rw [hrun]
  rfl

section
variable (h : TierInv c held m stores loads)
include h

theorem prepareLoad (hc : c.Lawful held) (hreports : m.Reports finished)
    (hready : ∀ k ∈ keys, m.primaryTier.answer c k = some true) :
    ∃ ids m', m.prepareLoad c finished keys = .ok (ids, m') ∧
      TierInv c held m' stores (keys + loads) ∧ StaysReady c m.primaryTier m'.primaryTier := by
  rcases h.maybeProcess hc hreports with ⟨m1, hrun, hinv, hstays⟩
  rcases hinv.jobs.prepareLoad hc (fun k hk => hstays k (hready k hk)) with
    ⟨ids, p, hrun', hjobs, -, hsame, hanswer⟩
  refine ⟨ids, { m1 with primaryTier := p }, ?_, hinv.setPrimary hjobs fun k _ => hsame k,
    fun k hk => (hanswer k).trans (hstays k hk)⟩
  unfold TieringOffloadingManager.prepareLoad
  rw [hrun, ok_bind, hrun']
  rfl

theorem prepareStore (hc : c.Lawful held) (hreports : m.Reports finished) (hnodup : keys.Nodup)
    (reqId : RequestId) :
    ∃ out m', m.prepareStore c finished keys reqId = .ok (out, m') ∧
      TierInv c held m' (((out.map fun o => o.keysToStore).getD [] : List OffloadKey) + stores)
        loads := by
  rcases h.maybeProcess hc hreports with ⟨m1, hrun, hinv, -⟩
  rcases hinv.jobs.prepareStore hc hnodup with ⟨out, p, hrun', hkeep, hout⟩
  have hkeep' : ∀ k ∈ m1.queuedKeys, p.idOf c k = m1.primaryTier.idOf c k :=
    fun k hk => hkeep k (of_waiting hk stores)
  unfold TieringOffloadingManager.prepareStore
  rw [hrun, ok_bind, hrun', ok_bind]
  cases out with
  | none =>
    refine ⟨none, _, rfl, ?_⟩
    show TierInv c held { m1 with primaryTier := p } (([] : List OffloadKey) + stores) loads
    rw [Multiset.coe_nil, zero_add]
    exact hinv.setPrimary hout.2 hkeep'
  | some o =>
    have hjobs := hout.2
    rw [← add_assoc] at hjobs
    have hprimary := hinv.setPrimary hjobs hkeep'
    rcases hprimary.cascadeStored hc keys reqId o.keysToStore with ⟨m', hrun'', hinv'⟩
    refine ⟨some o, m', ?_, hinv'⟩
    dsimp only
    rw [hrun'']
    rfl

theorem touch (hc : c.Lawful held) (keys : List OffloadKey) :
    TierInv c held (m.touch c keys) stores loads ∧
      StaysReady c m.primaryTier (m.touch c keys).primaryTier := by
  rcases h.jobs.pool.touch hc keys with ⟨hpool, hget⟩
  have hsame : ∀ k, (m.primaryTier.touch c keys).idOf c k = m.primaryTier.idOf c k := by
    intro k
    unfold idOf
    rw [hget]
  refine ⟨h.setPrimary (h.jobs.setPrimary hpool (fun k _ => hsame k) rfl) fun k _ => hsame k, ?_⟩
  intro k hk
  rw [← hk]
  unfold answer
  rw [show c.get (m.touch c keys).primaryTier.policy k = _ from hget k]

theorem initiatePromotion (hc : c.Lawful held) (tier : ℕ) (key : OffloadKey) (reqId : RequestId) :
    ∃ started m', m.initiatePromotion c tier key reqId = .ok (started, m') ∧
      TierInv c held m' stores loads ∧
      (started = false → StaysReady c m.primaryTier m'.primaryTier) := by
  rcases h.jobs.prepareStore hc (nodup_singleton key) with ⟨out, p, hrun, hkeep, hout⟩
  have hkeep' : ∀ k ∈ m.queuedKeys, p.idOf c k = m.primaryTier.idOf c k :=
    fun k hk => hkeep k (of_waiting hk stores)
  unfold TieringOffloadingManager.initiatePromotion
  rw [hrun, ok_bind]
  cases out with
  | none =>
    refine ⟨false, _, rfl, h.setPrimary hout.2 hkeep', fun _ k hk => ?_⟩
    rw [← hk]
    unfold answer
    rw [hout.1.1]
  | some o =>
    refine ⟨true, _, rfl, ⟨?_, ?_⟩, fun hfalse => nomatch hfalse⟩
    · have hjobs := hout.2
      have hqueued : queuedKeys { m with
          primaryTier := p
          pendingLoadSubmissions := m.pendingLoadSubmissions.set tier
            (extendPending (m.pendingLoadSubmissions.getD tier .empty) reqId o.keysToStore
              o.storeSpec) } = m.queuedKeys + o.keysToStore :=
        queuedKeys_extend m tier reqId o.keysToStore o.storeSpec
      rw [add_comm, add_assoc, ← hqueued] at hjobs
      exact ⟨hjobs.pool, hjobs.located, hjobs.counter, hjobs.counts⟩
    · exact located_extend (fun tier d reqId e hd he => (h.queued tier d reqId e hd he).mono
        fun k hk i hi => (hkeep' k (mem_queuedKeys hd he hk)).trans hi) hout.1.located

theorem lookupTiers (hc : c.Lawful held) (answers : ℕ → Option Bool) (key : OffloadKey)
    (reqId : RequestId) (anyNone : Bool) (tiers : List ℕ) :
    ∃ answer m', m.lookupTiers c answers key reqId anyNone tiers = .ok (answer, m') ∧
      TierInv c held m' stores loads ∧ answer ≠ some true ∧
      (answer = some false → StaysReady c m.primaryTier m'.primaryTier) := by
  induction tiers generalizing anyNone with
  | nil =>
    refine ⟨if anyNone then none else some false, m, rfl, h, ?_, fun _ _ => id⟩
    cases anyNone <;> exact fun heq => nomatch heq
  | cons tier tiers ih =>
    unfold TieringOffloadingManager.lookupTiers
    cases answers tier with
    | none => exact ih true
    | some has =>
      cases has with
      | false => exact ih anyNone
      | true =>
        rcases h.initiatePromotion hc tier key reqId with ⟨started, m', hrun, hinv, hstays⟩
        rw [hrun]
        refine ⟨if started then none else some false, m', rfl, hinv, ?_, ?_⟩
        · cases started <;> exact fun heq => nomatch heq
        · intro heq
          cases started with
          | false => exact hstays rfl
          | true => cases heq

theorem lookup (hc : c.Lawful held) (hreports : m.Reports finished) (answers : ℕ → Option Bool)
    (key : OffloadKey) (reqId : RequestId) :
    ∃ answer m', m.lookup c finished answers key reqId = .ok (answer, m') ∧
      TierInv c held m' stores loads ∧
      (answer = some true → m'.primaryTier.answer c key = some true) ∧
      (answer ≠ none → StaysReady c m.primaryTier m'.primaryTier) := by
  rcases h.maybeProcess hc hreports with ⟨m1, hrun, hinv, hstays⟩
  unfold TieringOffloadingManager.lookup
  rw [hrun, ok_bind, lookup_eq hinv.jobs.counts, ok_bind]
  cases hanswer : m1.primaryTier.answer c key with
  | none => exact ⟨none, m1, rfl, hinv, (fun heq => nomatch heq), fun hne => absurd rfl hne⟩
  | some found =>
    cases found with
    | true => exact ⟨some true, m1, rfl, hinv, fun _ => hanswer, fun _ => hstays⟩
    | false =>
      rcases hinv.lookupTiers hc answers key reqId false m1.secondaryTiers with
        ⟨answer, m', hrun', hinv', hne, hstays'⟩
      refine ⟨answer, m', hrun', hinv', fun heq => absurd heq hne, fun hsome k hk => ?_⟩
      apply hstays' _ k (hstays k hk)
      cases answer with
      | none => exact absurd rfl hsome
      | some found =>
        cases found with
        | false => rfl
        | true => exact absurd rfl hne

/-- The requests of the tiers concern no block. -/
theorem onNewRequest (policies : ℕ → OffloadPolicy) (reqId : RequestId) :
    TierInv c held (m.onNewRequest policies reqId).2 stores loads ∧
      (m.onNewRequest policies reqId).2.primaryTier = m.primaryTier := by
  unfold TieringOffloadingManager.onNewRequest
  dsimp only
  split_ifs
  all_goals exact ⟨⟨⟨h.jobs.pool, h.jobs.located, h.jobs.counter, h.jobs.counts⟩, h.queued⟩, rfl⟩

theorem onRequestFinished (reqId : RequestId) :
    TierInv c held (m.onRequestFinished reqId) stores loads :=
  ⟨⟨h.jobs.pool, h.jobs.located, h.jobs.counter, h.jobs.counts⟩, h.queued⟩

theorem flush :
    TierInv c held m.flushPendingPromotions stores loads ∧
      m.flushPendingPromotions.primaryTier = m.primaryTier := by
  have hjobs := h.jobs
  have hqueued : m.queuedKeys = ((m.pendingLoadSubmissions.values.flatMap fun d => d.values).map
      fun e => (e.keys : Multiset OffloadKey)).sum := sum_flatMap_values.symm
  rw [hqueued, add_comm] at hjobs
  have hloc : ∀ e ∈ m.pendingLoadSubmissions.values.flatMap fun d => d.values,
      Located c m.primaryTier e.keys e.blockIds := by
    intro e he
    rcases mem_flatMap.mp he with ⟨d, hd, he⟩
    rcases mem_map.mp hd with ⟨⟨tier, d'⟩, hmem, rfl⟩
    rcases mem_map.mp he with ⟨⟨reqId, e'⟩, hmem', rfl⟩
    exact h.queued tier d' reqId e' (m.pendingLoadSubmissions.mem_entries_iff.mp hmem)
      (d'.mem_entries_iff.mp hmem')
  rcases hjobs.submitAll hloc with ⟨hinv, hprimary⟩
  refine ⟨⟨?_, fun tier d reqId e hd _ => nomatch hd⟩, hprimary⟩
  have hempty : queuedKeys m.flushPendingPromotions = 0 := rfl
  rw [hempty, add_zero]
  exact ⟨hinv.pool, hinv.located, hinv.counter, hinv.counts⟩

theorem onScheduleEnd (hc : c.Lawful held) (hreports : m.Reports finished) :
    ∃ m', m.onScheduleEnd c finished = .ok m' ∧ TierInv c held m' stores loads ∧
      StaysReady c m.primaryTier m'.primaryTier := by
  rcases h.maybeProcess hc hreports with ⟨m1, hrun, hinv, hstays⟩
  have hreset : TierInv c held { m1 with processedJobsThisStep := false } stores loads :=
    ⟨⟨hinv.jobs.pool, hinv.jobs.located, hinv.jobs.counter, hinv.jobs.counts⟩, hinv.queued⟩
  rcases hreset.flush with ⟨hflush, hprimary⟩
  refine ⟨_, ?_, hflush, ?_⟩
  · unfold TieringOffloadingManager.onScheduleEnd
    rw [hrun]
    rfl
  · rw [hprimary]
    exact hstays

end

end TierInv
end TieringOffloadingManager
end Vllm
