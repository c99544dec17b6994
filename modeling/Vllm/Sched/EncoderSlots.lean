import Vllm.Sched.EncoderInputs

/-! The slots of the encoder cache over whole runs. `can_allocate` grants the inputs of a pass one
after the other, and `allocate` takes them only when the pass is over. -/
namespace Vllm.EncoderCacheManager
open Raises List

/-- The hash of an input of a request. -/
def hashOf (x : Request × ℕ) : Option String :=
  x.1.mmFeatures[x.2]?.map fun f => f.identifier

def numEmbedsOf (x : Request × ℕ) : ℕ :=
  (x.1.mmFeatures[x.2]?.map fun f => f.mmPosition.getNumEmbeds).getD 0

/-- The calls in the order in which the scheduler makes them, for requests that `wf` allows.
`pending` lists the inputs that the pass has granted and not yet allocated; `mayFree` says which
inputs are released one by one. -/
inductive Run (wf : Request → Prop) (mayFree : EncoderCacheManager → Request → ℕ → Prop) :
    EncoderCacheManager → List (Request × ℕ) → Prop
  | init (cacheSize : ℕ) : Run wf mayFree (init cacheSize) []
  | check {m m' pending request inputId hit} (hm : Run wf mayFree m pending) (hwf : wf request)
      (h : m.checkAndUpdateCache request inputId = .ok (hit, m')) : Run wf mayFree m' pending
  /-- The input is not cached and there is room for it. -/
  | grant {m m₁ m' pending request inputId budget} (hm : Run wf mayFree m pending)
      (hwf : wf request) (hnew : hashOf (request, inputId) ∉ pending.map hashOf)
      (hmiss : m.checkAndUpdateCache request inputId = .ok (false, m₁))
      (h : m₁.canAllocate request inputId budget (pending.map numEmbedsOf).sum = .ok (true, m')) :
      Run wf mayFree m' (pending ++ [(request, inputId)])
  /-- The input is refused, or the step needs none of its embeddings. -/
  | probe {m m' pending request inputId budget granted} (hm : Run wf mayFree m pending)
      (hwf : wf request)
      (h : m.canAllocate request inputId budget (pending.map numEmbedsOf).sum =
        .ok (granted, m')) : Run wf mayFree m' pending
  | allocate {m m' pending rest request inputId} (hm : Run wf mayFree m pending)
      (hperm : pending.Perm ((request, inputId) :: rest))
      (h : m.allocate request inputId = .ok m') : Run wf mayFree m' rest
  /-- The request gets no slots, and its inputs are not allocated. -/
  | abandon {m pending} (hm : Run wf mayFree m pending) : Run wf mayFree m []
  | freeEncoderInput {m m' pending request inputId} (hm : Run wf mayFree m pending)
      (hwf : wf request) (hfree : mayFree m request inputId)
      (h : m.freeEncoderInput request inputId = .ok m') : Run wf mayFree m' pending
  | free {m m' pending request} (hm : Run wf mayFree m pending) (hwf : wf request)
      (h : m.free request = .ok m') : Run wf mayFree m' pending
  | getFreedMmHashes {m pending} (hm : Run wf mayFree m pending) :
      Run wf mayFree m.getFreedMmHashes.2 pending
  | reset {m pending} (hm : Run wf mayFree m pending) : Run wf mayFree m.reset []

/-- The granted inputs are not in the cache yet, and no two of them have the same hash. -/
structure Granted (m : EncoderCacheManager) (pending : List (Request × ℕ)) : Prop where
  consistent : m.Consistent
  inputs : ∀ x ∈ pending, ∃ f, x.1.mmFeatures[x.2]? = some f ∧ m.cached.get? f.identifier = none
  distinct : (pending.map hashOf).Nodup

/-- Every input of the request has as many embeddings as its hash says. -/
def Sized (sizeOf : String → ℕ) (request : Request) : Prop :=
  ∀ f ∈ request.mmFeatures, f.mmPosition.getNumEmbeds = sizeOf f.identifier

/-- The counters agree with the tables, and the granted inputs fit into the free slots. -/
structure Balanced (sizeOf : String → ℕ) (m : EncoderCacheManager)
    (pending : List (Request × ℕ)) : Prop extends Granted m pending where
  sized : ∀ x ∈ pending, Sized sizeOf x.1
  sizes : ∀ h n, m.freeable.get? h = some n → n = sizeOf h
  free : m.numFreeSlots + m.cached.sumKeys sizeOf = m.cacheSize
  freeable : m.numFreeableSlots = m.numFreeSlots + m.freeable.sumKeys sizeOf
  room : ((pending.map numEmbedsOf).sum : ℤ) ≤ m.numFreeSlots

section Operations
variable {sizeOf : String → ℕ} {m m' : EncoderCacheManager} {pending rest : List (Request × ℕ)}
  {request : Request} {inputId : ℕ}

variable {f : MultiModalFeatureSpec} {hit : Bool}

theorem Sized.feature (h : Sized sizeOf request) (hf : request.mmFeatures[inputId]? = some f) :
    f.mmPosition.getNumEmbeds = sizeOf f.identifier :=
  h f (mem_of_getElem? hf)

theorem contains_of_get? {ν : Type} {d : Dict String ν} {k : String} {v : ν}
    (h : d.get? k = some v) : d.contains k = true := by
  simp [Dict.contains, h]

theorem checkAndUpdateCache_cases (h : m.checkAndUpdateCache request inputId = .ok (hit, m')) :
    ∃ f, request.mmFeatures[inputId]? = some f ∧
      ((hit = false ∧ m' = m ∧ m.cached.get? f.identifier = none) ∨
      (∃ refs, hit = true ∧ m.cached.get? f.identifier = some refs ∧
        ((refs ≠ [] ∧ m' = { m with
            cached := m.cached.set f.identifier (setAdd refs request.requestId)
            requestCachedIds := m.addCachedId request.requestId inputId }) ∨
          (refs = [] ∧ ∃ n, m.freeable.get? f.identifier = some n ∧ m' = { m with
            cached := m.cached.set f.identifier (setAdd refs request.requestId)
            requestCachedIds := m.addCachedId request.requestId inputId
            freeable := m.freeable.erase f.identifier
            numFreeableSlots := m.numFreeableSlots - n })))) := by
  unfold checkAndUpdateCache at h
  obtain ⟨f, hf, h⟩ := of_bind h
  refine ⟨f, feature_eq_ok.mp hf, ?_⟩
  split at h
  · next hnone =>
    cases h
    exact .inl ⟨rfl, rfl, hnone⟩
  · next refs hrefs =>
    obtain ⟨m₁, hm₁, h⟩ := of_bind h
    cases h
    refine .inr ⟨refs, rfl, hrefs, ?_⟩
    split at hm₁
    · next hempty =>
      split at hm₁
      · simp at hm₁
      · next n hn =>
        cases hm₁
        exact .inr ⟨hempty, n, hn, rfl⟩
    · next hrefd =>
      cases hm₁
      exact .inl ⟨hrefd, rfl⟩

theorem Consistent.exists_check (hm : m.Consistent) (hf : request.mmFeatures[inputId]? = some f) :
    ∃ hit m', m.checkAndUpdateCache request inputId = .ok (hit, m') := by
  unfold EncoderCacheManager.checkAndUpdateCache
  rw [feature_eq_ok.mpr hf]
  simp only [bind, Except.bind]
  split
  · exact ⟨false, m, rfl⟩
  · next refs hrefs =>
    by_cases hempty : refs = []
    · rw [hempty] at hrefs
      obtain ⟨n, hn⟩ := Option.isSome_iff_exists.mp ((hm f.identifier).mpr hrefs)
      simp only [hempty, ↓reduceIte, hn]
      exact ⟨true, _, rfl⟩
    · simp only [hempty, ↓reduceIte]
      exact ⟨true, _, rfl⟩

theorem get?_set_eq_none {ν : Type} {d : Dict String ν} {k x : String} {v w : ν}
    (hk : d.get? k = some w) (hx : d.get? x = none) : (d.set k v).get? x = none := by
  rw [Dict.get?_set, if_neg]
  · exact hx
  · rintro rfl
    simp [hk] at hx

section
variable (hg : Granted m pending)
include hg

theorem Granted.of_subset (hconsistent : m'.Consistent)
    (hcached : ∀ h, m.cached.get? h = none → m'.cached.get? h = none) : Granted m' pending where
  consistent := hconsistent
  inputs := by
    intro x hx
    obtain ⟨f, hf, hnone⟩ := hg.inputs x hx
    exact ⟨f, hf, hcached _ hnone⟩
  distinct := hg.distinct

theorem Granted.checkAndUpdateCache (h : m.checkAndUpdateCache request inputId = .ok (hit, m')) :
    Granted m' pending := by
  refine hg.of_subset (hg.consistent.checkAndUpdateCache h) ?_
  obtain ⟨f, -, ⟨-, rfl, -⟩ | ⟨refs, -, hrefs, ⟨-, rfl⟩ | ⟨-, n, -, rfl⟩⟩⟩ :=
    checkAndUpdateCache_cases h
  · exact fun _ hx => hx
  · exact fun x hx => get?_set_eq_none hrefs hx
  · exact fun x hx => get?_set_eq_none hrefs hx

theorem Granted.evict (h : String) (n : ℕ) : Granted (m.evict h n) pending := by
  refine hg.of_subset (hg.consistent.evict h n) ?_
  intro x hx
  simp only [EncoderCacheManager.evict, Dict.get?_erase]
  split
  · rfl
  · exact hx

theorem Granted.canAllocate {budget toSchedule : ℕ} {granted : Bool}
    (h : m.canAllocate request inputId budget toSchedule = .ok (granted, m')) :
    Granted m' pending :=
  canAllocate_induction (Q := fun m => Granted m pending) (fun _ h n hg _ => hg.evict h n) hg h

theorem Granted.grant (hf : request.mmFeatures[inputId]? = some f)
    (hnone : m.cached.get? f.identifier = none)
    (hnew : hashOf (request, inputId) ∉ pending.map hashOf) :
    Granted m (pending ++ [(request, inputId)]) :=
  { hg with
    inputs := by
      intro x hx
      obtain hx | hx := mem_append.mp hx
      · exact hg.inputs x hx
      · rw [mem_singleton.mp hx]
        exact ⟨f, hf, hnone⟩
    distinct := by
      rw [map_append, nodup_append]
      refine ⟨hg.distinct, nodup_singleton _, ?_⟩
      intro a ha b hb heq
      rw [map_singleton, mem_singleton] at hb
      exact hnew (hb ▸ heq ▸ ha) }

theorem Granted.allocate (hperm : pending.Perm ((request, inputId) :: rest))
    (h : m.allocate request inputId = .ok m') : Granted m' rest := by
  obtain ⟨f, hf, hnone⟩ := hg.inputs _ (hperm.mem_iff.mpr mem_cons_self)
  have hconsistent : m'.Consistent := by
    refine hg.consistent.allocate ?_ h
    intro g hgf
    obtain rfl := Option.some.inj (hf.symm.trans hgf)
    exact hnone
  have hdistinct : (hashOf (request, inputId) :: rest.map hashOf).Nodup :=
    (hperm.map hashOf).nodup_iff.mp hg.distinct
  rw [nodup_cons] at hdistinct
  obtain ⟨f', hf', -, -, rfl⟩ := allocate_eq_ok.mp h
  obtain rfl := Option.some.inj (hf.symm.trans hf')
  refine ⟨hconsistent, ?_, hdistinct.2⟩
  intro x hx
  obtain ⟨g, hgx, hgnone⟩ := hg.inputs x (hperm.mem_iff.mpr (mem_cons_of_mem _ hx))
  refine ⟨g, hgx, ?_⟩
  rw [Dict.get?_set, if_neg]
  · exact hgnone
  · intro heq
    apply hdistinct.1
    refine mem_map.mpr ⟨x, hx, ?_⟩
    simp [hashOf, hf, hgx, heq]

end

theorem freeEncoderInput_cases (h : m.freeEncoderInput request inputId = .ok m') :
    ∃ f, request.mmFeatures[inputId]? = some f ∧
      ((m.cached.getD f.identifier [] = [] ∧ m' = { m with
          requestCachedIds := m.dropCachedId request.requestId inputId }) ∨
      (∃ refs, refs ≠ [] ∧ m.cached.get? f.identifier = some refs ∧
        ((setDiscard refs request.requestId ≠ [] ∧ m' = { m with
            requestCachedIds := m.dropCachedId request.requestId inputId
            cached := m.cached.set f.identifier (setDiscard refs request.requestId) }) ∨
          (setDiscard refs request.requestId = [] ∧ m' = { m with
            requestCachedIds := m.dropCachedId request.requestId inputId
            cached := m.cached.set f.identifier (setDiscard refs request.requestId)
            freeable := m.freeable.set f.identifier f.mmPosition.getNumEmbeds
            numFreeableSlots := m.numFreeableSlots + f.mmPosition.getNumEmbeds })))) := by
  unfold EncoderCacheManager.freeEncoderInput at h
  obtain ⟨f, hf, h⟩ := of_bind h
  refine ⟨f, feature_eq_ok.mp hf, ?_⟩
  simp only at h
  split at h
  · next hempty =>
    cases h
    exact .inl ⟨hempty, rfl⟩
  next hrefs =>
  obtain ⟨refs, hget⟩ : ∃ refs, m.cached.get? f.identifier = some refs := by
    cases hget : m.cached.get? f.identifier with
    | none => simp [Dict.getD, hget] at hrefs
    | some refs => exact ⟨refs, rfl⟩
  have hgetD : m.cached.getD f.identifier [] = refs := by simp [Dict.getD, hget]
  rw [hgetD] at hrefs h
  refine .inr ⟨refs, hrefs, hget, ?_⟩
  split at h
  · next hempty =>
    cases h
    exact .inr ⟨hempty, rfl⟩
  · next hrest =>
    cases h
    exact .inl ⟨hrest, rfl⟩

theorem Granted.freeEncoderInput (hg : Granted m pending)
    (h : m.freeEncoderInput request inputId = .ok m') : Granted m' pending := by
  refine hg.of_subset (hg.consistent.freeEncoderInput h) ?_
  obtain ⟨f, -, ⟨-, rfl⟩ | ⟨refs, -, hrefs, ⟨-, rfl⟩ | ⟨-, rfl⟩⟩⟩ := freeEncoderInput_cases h
  · exact fun _ hx => hx
  · exact fun x hx => get?_set_eq_none hrefs hx
  · exact fun x hx => get?_set_eq_none hrefs hx

theorem Granted.freeInputs {inputIds : List ℕ} (hg : Granted m pending)
    (h : freeInputs request inputIds m = .ok m') : Granted m' pending := by
  induction inputIds generalizing m with
  | nil =>
    cases h
    exact hg
  | cons inputId inputIds ih =>
    obtain ⟨m₁, hm₁, h⟩ := of_bind h
    exact ih (hg.freeEncoderInput hm₁) h

theorem Granted.init (cacheSize : ℕ) : Granted (init cacheSize) [] where
  consistent := consistent_init cacheSize
  inputs := by simp
  distinct := nodup_nil

theorem Granted.abandon (hg : Granted m pending) : Granted m [] where
  consistent := hg.consistent
  inputs := by simp
  distinct := nodup_nil

section
variable (hb : Balanced sizeOf m pending)
include hb

theorem Balanced.checkAndUpdateCache (h : m.checkAndUpdateCache request inputId = .ok (hit, m')) :
    Balanced sizeOf m' pending := by
  have hgranted := hb.toGranted.checkAndUpdateCache h
  obtain ⟨f, -, ⟨-, rfl, -⟩ | ⟨refs, -, hrefs, ⟨-, rfl⟩ | ⟨-, n, hn, rfl⟩⟩⟩ :=
    checkAndUpdateCache_cases h
  · exact hb
  · refine { hb with toGranted := hgranted, free := ?_ }
    rw [Dict.sumKeys_set, if_pos (contains_of_get? hrefs)]
    exact hb.free
  · refine { hb with toGranted := hgranted, free := ?_, freeable := ?_, sizes := ?_ }
    · intro x k hx
      rw [Dict.get?_erase] at hx
      split at hx
      · simp at hx
      · exact hb.sizes x k hx
    · simp only
      rw [Dict.sumKeys_set, if_pos (contains_of_get? hrefs)]
      exact hb.free
    · have hsum := m.freeable.sumKeys_erase sizeOf (contains_of_get? hn)
      have hsize := hb.sizes _ _ hn
      have hold := hb.freeable
      simp only
      omega

theorem Balanced.evict {h : String} {n : ℕ} (hn : m.freeable.get? h = some n) :
    Balanced sizeOf (m.evict h n) pending := by
  have hstored : m.cached.get? h = some [] := (hb.consistent h).mp (contains_of_get? hn)
  have hcached := m.cached.sumKeys_erase sizeOf (contains_of_get? hstored)
  have hfreeable := m.freeable.sumKeys_erase sizeOf (contains_of_get? hn)
  have hsize := hb.sizes h n hn
  have hfree := hb.free
  have hslots := hb.freeable
  have hroom := hb.room
  refine { hb.toGranted.evict h n with
    sized := hb.sized, sizes := ?_, free := ?_, freeable := ?_, room := ?_ }
  · intro x k hx
    simp only [EncoderCacheManager.evict, Dict.get?_erase] at hx
    split at hx
    · simp at hx
    · exact hb.sizes x k hx
  · simp only [EncoderCacheManager.evict]
    omega
  · simp only [EncoderCacheManager.evict]
    omega
  · simp only [EncoderCacheManager.evict]
    omega

theorem evictFreeable_balanced {numEmbeds : ℕ} {entries : List (String × ℕ)}
    (hentries : m.freeable.entries = entries) (henough : (numEmbeds : ℤ) ≤ m.numFreeableSlots) :
    ∃ m', evictFreeable numEmbeds entries m = .ok m' ∧ Balanced sizeOf m' pending ∧
      (numEmbeds : ℤ) ≤ m'.numFreeSlots ∧
      ∀ h, m.cached.get? h = none → m'.cached.get? h = none := by
  induction entries generalizing m with
  | nil =>
    have hsum : m.freeable.sumKeys sizeOf = 0 := by
      simp [Dict.sumKeys, Dict.keys, hentries]
    have hfree : (numEmbeds : ℤ) ≤ m.numFreeSlots := by
      have hslots := hb.freeable
      omega
    refine ⟨m, ?_, hb, hfree, fun _ h => h⟩
    rw [evictFreeable, if_pos hfree]
    rfl
  | cons e rest ih =>
    obtain ⟨mmHash, n⟩ := e
    by_cases hfree : (numEmbeds : ℤ) ≤ m.numFreeSlots
    · refine ⟨m, ?_, hb, hfree, fun _ h => h⟩
      rw [evictFreeable, if_pos hfree]
      rfl
    · have hn : m.freeable.get? mmHash = some n := by
        apply m.freeable.mem_entries_iff.mp
        rw [hentries]
        exact mem_cons_self
      have hstored : m.cached.get? mmHash = some [] :=
        (hb.consistent mmHash).mp (contains_of_get? hn)
      have hrest : (m.evict mmHash n).freeable.entries = rest := by
        have hkeys := m.freeable.nodupKeys
        rw [hentries, map_cons, nodup_cons] at hkeys
        simp only [EncoderCacheManager.evict, Dict.erase, hentries]
        rw [filter_cons_of_neg (by simp), filter_eq_self]
        intro e he
        apply decide_eq_true
        intro heq
        exact hkeys.1 (mem_map.mpr ⟨e, he, heq⟩)
      obtain ⟨m', hm', hb', hroom, hnone⟩ := ih (hb.evict hn) hrest henough
      refine ⟨m', ?_, hb', hroom, ?_⟩
      · rw [evictFreeable, if_neg hfree]
        simp only [contains_of_get? hstored, ↓reduceIte]
        exact hm'
      · intro h hh
        apply hnone
        simp only [EncoderCacheManager.evict, Dict.get?_erase]
        split
        · rfl
        · exact hh

/-- `can_allocate` never runs out of entries, and what it grants fits. -/
theorem Balanced.canAllocate (hf : request.mmFeatures[inputId]? = some f) (budget toSchedule : ℕ) :
    ∃ granted m',
      m.canAllocate request inputId budget toSchedule = .ok (granted, m') ∧
      Balanced sizeOf m' pending ∧
      (granted = true →
        ((f.mmPosition.getNumEmbeds + toSchedule : ℕ) : ℤ) ≤ m'.numFreeSlots) ∧
      ∀ h, m.cached.get? h = none → m'.cached.get? h = none := by
  unfold EncoderCacheManager.canAllocate
  rw [feature_eq_ok.mpr hf]
  simp only [bind, Except.bind]
  split
  · exact ⟨false, m, rfl, hb, by simp, fun _ h => h⟩
  split
  · next hfree => exact ⟨true, m, rfl, hb, fun _ => hfree, fun _ h => h⟩
  split
  · exact ⟨false, m, rfl, hb, by simp, fun _ h => h⟩
  · next henough =>
    obtain ⟨m', hm', hb', hroom, hnone⟩ := evictFreeable_balanced hb rfl (not_lt.mp henough)
    rw [hm']
    exact ⟨true, m', rfl, hb', fun _ => hroom, hnone⟩

theorem Balanced.grant (hf : request.mmFeatures[inputId]? = some f) (hsized : Sized sizeOf request)
    (hnone : m.cached.get? f.identifier = none)
    (hnew : hashOf (request, inputId) ∉ pending.map hashOf)
    (hroom : ((f.mmPosition.getNumEmbeds + (pending.map numEmbedsOf).sum : ℕ) : ℤ) ≤
      m.numFreeSlots) : Balanced sizeOf m (pending ++ [(request, inputId)]) := by
  refine { hb with toGranted := hb.toGranted.grant hf hnone hnew, sized := ?_, room := ?_ }
  · intro x hx
    obtain hx | hx := mem_append.mp hx
    · exact hb.sized x hx
    · rw [mem_singleton.mp hx]
      exact hsized
  · have hembeds : numEmbedsOf (request, inputId) = f.mmPosition.getNumEmbeds := by
      simp [numEmbedsOf, hf]
    rw [map_append, sum_append, map_singleton, sum_singleton, hembeds, Nat.add_comm]
    exact hroom

theorem Balanced.allocate (hperm : pending.Perm ((request, inputId) :: rest)) :
    ∃ m', m.allocate request inputId = .ok m' ∧ Balanced sizeOf m' rest := by
  have hmem : (request, inputId) ∈ pending := hperm.mem_iff.mpr mem_cons_self
  obtain ⟨f, hf, hnone⟩ := hb.inputs _ hmem
  have hsize := (hb.sized _ hmem).feature hf
  have hembeds : numEmbedsOf (request, inputId) = f.mmPosition.getNumEmbeds := by
    simp [numEmbedsOf, hf]
  have hsum : (pending.map numEmbedsOf).sum =
      f.mmPosition.getNumEmbeds + (rest.map numEmbedsOf).sum := by
    rw [(hperm.map numEmbedsOf).sum_eq, map_cons, sum_cons, hembeds]
  have hroom := hb.room
  have hfree := hb.free
  have hslots := hb.freeable
  have hallocate : m.allocate request inputId = .ok { m with
      cached := m.cached.set f.identifier (setAdd (m.cached.getD f.identifier []) request.requestId)
      requestCachedIds := m.addCachedId request.requestId inputId
      numFreeSlots := m.numFreeSlots - f.mmPosition.getNumEmbeds
      numFreeableSlots := m.numFreeableSlots - f.mmPosition.getNumEmbeds } :=
    allocate_eq_ok.mpr ⟨f, hf, by omega, by omega, rfl⟩
  have habsent : m.cached.contains f.identifier = false := by simp [Dict.contains, hnone]
  refine ⟨_, hallocate, { hb.toGranted.allocate hperm hallocate with
    sized := ?_, sizes := hb.sizes, free := ?_, freeable := ?_, room := ?_ }⟩
  · exact fun x hx => hb.sized x (hperm.mem_iff.mpr (mem_cons_of_mem _ hx))
  · simp only
    rw [Dict.sumKeys_set, habsent]
    simp only [Bool.false_eq_true, ↓reduceIte]
    push_cast
    omega
  · simp only
    omega
  · simp only
    omega

theorem Balanced.freeEncoderInput (hsized : Sized sizeOf request)
    (h : m.freeEncoderInput request inputId = .ok m') : Balanced sizeOf m' pending := by
  have hgranted := hb.toGranted.freeEncoderInput h
  obtain ⟨f, hf, ⟨-, rfl⟩ | ⟨refs, hne, hrefs, hplace⟩⟩ := freeEncoderInput_cases h
  · exact { hb with toGranted := hgranted }
  have hfree : ∀ refs' : List RequestId,
      m.numFreeSlots + (m.cached.set f.identifier refs').sumKeys sizeOf = m.cacheSize := by
    intro refs'
    rw [Dict.sumKeys_set, if_pos (contains_of_get? hrefs)]
    exact hb.free
  obtain ⟨-, rfl⟩ | ⟨-, rfl⟩ := hplace
  · exact { hb with toGranted := hgranted, free := hfree _ }
  · have hsize := hsized.feature hf
    have hnew : m.freeable.contains f.identifier = false := by
      rw [← Bool.not_eq_true, hb.consistent f.identifier, hrefs]
      exact fun hnil => hne (Option.some.inj hnil)
    refine { hb with toGranted := hgranted, sizes := ?_, free := hfree _, freeable := ?_ }
    · intro x n hx
      rw [Dict.get?_set] at hx
      split at hx
      · next hxf =>
        rw [← Option.some.inj hx, hxf]
        exact hsize
      · exact hb.sizes x n hx
    · have hslots := hb.freeable
      rw [Dict.sumKeys_set, hnew]
      simp only [Bool.false_eq_true, ↓reduceIte]
      push_cast
      omega

theorem Balanced.freeInputs {inputIds : List ℕ} (hsized : Sized sizeOf request)
    (h : freeInputs request inputIds m = .ok m') :
    Balanced sizeOf m' pending := by
  induction inputIds generalizing m with
  | nil =>
    cases h
    exact hb
  | cons inputId inputIds ih =>
    obtain ⟨m₁, hm₁, h⟩ := of_bind h
    exact ih (hb.freeEncoderInput hsized hm₁) h

end

theorem Balanced.init (cacheSize : ℕ) : Balanced sizeOf (init cacheSize) [] where
  toGranted := Granted.init cacheSize
  sized := by simp
  sizes := by simp [EncoderCacheManager.init]
  free := by simp [EncoderCacheManager.init]
  freeable := by simp [EncoderCacheManager.init]
  room := by simp [EncoderCacheManager.init]

theorem Balanced.abandon (hb : Balanced sizeOf m pending) : Balanced sizeOf m [] :=
  { hb with
    toGranted := hb.toGranted.abandon
    sized := by simp
    room := (Int.natCast_nonneg _).trans hb.room }

end Operations

theorem Run.granted {wf : Request → Prop} {mayFree : EncoderCacheManager → Request → ℕ → Prop}
    {m : EncoderCacheManager} {pending : List (Request × ℕ)} (hm : Run wf mayFree m pending) :
    Granted m pending := by
  induction hm with
  | init cacheSize => exact Granted.init cacheSize
  | check _ _ h ih => exact ih.checkAndUpdateCache h
  | grant _ _ hnew hmiss h ih =>
    obtain ⟨f, hf, ⟨-, rfl, hnone⟩ | ⟨refs, hhit, -⟩⟩ := checkAndUpdateCache_cases hmiss
    · refine (ih.canAllocate h).grant hf ?_ hnew
      exact canAllocate_induction (Q := fun m => m.cached.get? f.identifier = none)
        (fun m h n hnone _ => by
          simp only [EncoderCacheManager.evict, Dict.get?_erase]
          split
          · rfl
          · exact hnone) hnone h
    · simp at hhit
  | probe _ _ h ih => exact ih.canAllocate h
  | allocate _ hperm h ih => exact ih.allocate hperm h
  | abandon _ ih => exact ih.abandon
  | freeEncoderInput _ _ _ h ih => exact ih.freeEncoderInput h
  | free _ _ h ih => exact ih.freeInputs h
  | getFreedMmHashes _ ih => exact { ih with }
  | reset _ _ => exact Granted.init _

theorem Run.balanced {sizeOf : String → ℕ} {mayFree : EncoderCacheManager → Request → ℕ → Prop}
    {m : EncoderCacheManager} {pending : List (Request × ℕ)}
    (hm : Run (Sized sizeOf) mayFree m pending) : Balanced sizeOf m pending := by
  induction hm with
  | init cacheSize => exact Balanced.init cacheSize
  | check _ _ h ih => exact ih.checkAndUpdateCache h
  | grant _ hwf hnew hmiss h ih =>
    obtain ⟨f, hf, ⟨-, rfl, hnone⟩ | ⟨refs, hhit, -⟩⟩ := checkAndUpdateCache_cases hmiss
    · obtain ⟨granted, m₂, hcan, hb, hroom, hkeep⟩ := ih.canAllocate hf _ _
      obtain ⟨rfl, rfl⟩ := Prod.mk.inj (Except.ok.inj (h.symm.trans hcan))
      exact hb.grant hf hwf (hkeep _ hnone) hnew (hroom rfl)
    · simp at hhit
  | probe _ _ h ih =>
    have ⟨f, hf, _⟩ := of_bind h
    obtain ⟨granted, m₂, hcan, hb, -⟩ := ih.canAllocate (feature_eq_ok.mp hf) _ _
    obtain ⟨-, rfl⟩ := Prod.mk.inj (Except.ok.inj (h.symm.trans hcan))
    exact hb
  | allocate _ hperm h ih =>
    obtain ⟨m₂, hallocate, hb⟩ := ih.allocate hperm
    obtain rfl := Except.ok.inj (h.symm.trans hallocate)
    exact hb
  | abandon _ ih => exact ih.abandon
  | freeEncoderInput _ hwf _ h ih => exact ih.freeEncoderInput hwf h
  | free _ hwf h ih => exact ih.freeInputs hwf h
  | getFreedMmHashes _ ih => exact { ih with }
  | reset _ _ => exact Balanced.init _

section Pass
variable {wf : Request → Prop} {mayFree : EncoderCacheManager → Request → ℕ → Prop}
  {config : EncoderConfig} {request : Request} {numComputedTokens shiftComputedTokens i : ℕ}
  {s s' : EncoderScan}

/-- The pass so far is a run, and its variables are those of the granted inputs. -/
def PassRun (wf : Request → Prop) (mayFree : EncoderCacheManager → Request → ℕ → Prop)
    (request : Request) (s : EncoderScan) : Prop :=
  ∃ pending, Run wf mayFree s.manager pending ∧
    pending.Perm ((s.encoderInputsToSchedule ++ s.externalLoadEncoderInput).map (request, ·)) ∧
    s.numEmbedsToSchedule = (pending.map numEmbedsOf).sum ∧
    ∀ h, some h ∈ pending.map hashOf → h ∈ s.mmHashesToSchedule

theorem PassRun.placeEncoderInput {stop : Bool} {f : MultiModalFeatureSpec}
    (hs : PassRun wf mayFree request s) (hwf : wf request)
    (hf : request.mmFeatures[i]? = some f) (hnew : f.identifier ∉ s.mmHashesToSchedule)
    (hmiss : s.manager.checkAndUpdateCache request i = .ok (false, s.manager))
    (h : config.placeEncoderInput request numComputedTokens shiftComputedTokens i f s =
      .ok (stop, s')) : PassRun wf mayFree request s' := by
  obtain ⟨pending, hrun, hperm, hsum, hhashes⟩ := hs
  unfold EncoderConfig.placeEncoderInput at h
  split at h
  · cases h
    exact ⟨pending, hrun, hperm, hsum, hhashes⟩
  obtain ⟨⟨granted, m⟩, hcan, h⟩ := of_bind h
  rw [hsum] at hcan
  simp only at h
  split at h
  · have hprobe : PassRun wf mayFree request { s with manager := m } :=
      ⟨pending, .probe hrun hwf hcan, hperm, hsum, hhashes⟩
    split at h
    · cases h
      exact hprobe
    · cases h
      exact hprobe
  next hgranted =>
  obtain rfl : granted = true := by simpa using hgranted
  have hhash : hashOf (request, i) = some f.identifier := by simp [hashOf, hf]
  have hembeds : numEmbedsOf (request, i) = f.mmPosition.getNumEmbeds := by simp [numEmbedsOf, hf]
  have hgrant : Run wf mayFree m (pending ++ [(request, i)]) := by
    refine .grant hrun hwf ?_ hmiss hcan
    rw [hhash]
    exact fun hmem => hnew (hhashes _ hmem)
  have hsum' : s.numEmbedsToSchedule + f.mmPosition.getNumEmbeds =
      ((pending ++ [(request, i)]).map numEmbedsOf).sum := by
    simp [hsum, hembeds]
  have hhashes' : ∀ h, some h ∈ (pending ++ [(request, i)]).map hashOf →
      h ∈ setAdd s.mmHashesToSchedule f.identifier := by
    intro h hmem
    rw [map_append, map_singleton, mem_append, mem_singleton, hhash, Option.some.injEq] at hmem
    exact mem_setAdd.mpr (hmem.imp (hhashes h) id)
  split at h
  · cases h
    exact ⟨pending, .probe hrun hwf hcan, hperm, hsum, hhashes⟩
  split at h
  · cases h
    refine ⟨pending ++ [(request, i)], hgrant, ?_, hsum', hhashes'⟩
    simp only [map_append, map_cons, map_nil, ← append_assoc]
    rw [← map_append]
    exact hperm.append_right _
  · cases h
    refine ⟨pending ++ [(request, i)], hgrant, ?_, hsum', hhashes'⟩
    refine (hperm.append_right _).trans ?_
    simp only [map_append, map_cons, map_nil, append_assoc]
    exact perm_append_comm.append_left _

section
variable (hconfig : config.isEncoderDecoder = false) (hs : PassRun wf mayFree request s)
  (hwf : wf request)
include hconfig hs hwf

theorem PassRun.scanEncoderInput {stop : Bool}
    (h : config.scanEncoderInput request numComputedTokens shiftComputedTokens i s =
      .ok (stop, s')) : PassRun wf mayFree request s' := by
  unfold EncoderConfig.scanEncoderInput at h
  obtain ⟨f, hf, h⟩ := of_bind h
  rw [hconfig] at h
  simp only [Bool.false_eq_true, ↓reduceIte] at h
  split at h
  · cases h
    exact hs
  next hnew =>
  obtain ⟨⟨hit, m⟩, hcheck, h⟩ := of_bind h
  obtain ⟨g, -, ⟨rfl, rfl, -⟩ | ⟨refs, rfl, -⟩⟩ := checkAndUpdateCache_cases hcheck
  · exact hs.placeEncoderInput hwf (feature_eq_ok.mp hf) hnew hcheck h
  · obtain ⟨pending, hrun, hrest⟩ := hs
    cases h
    exact ⟨pending, .check hrun hwf hcheck, hrest⟩

/-- The loop of `_try_schedule_encoder_inputs` makes its calls in the order of a run. -/
theorem PassRun.scanEncoderInputs {ids : List ℕ}
    (h : config.scanEncoderInputs request numComputedTokens shiftComputedTokens ids s = .ok s') :
    PassRun wf mayFree request s' := by
  induction ids generalizing s with
  | nil =>
    cases h
    exact hs
  | cons i ids ih =>
    obtain ⟨⟨stop, s₁⟩, hstep, h⟩ := of_bind h
    have hs₁ := hs.scanEncoderInput hconfig hwf hstep
    simp only at h
    split at h
    · cases h
      exact hs₁
    · exact ih hs₁ h

end

theorem Run.tryScheduleEncoderInputs {m : EncoderCacheManager} {numNewTokens : ℤ} {budget : ℕ}
    (hconfig : config.isEncoderDecoder = false) (hm : Run wf mayFree m []) (hwf : wf request)
    (h : config.tryScheduleEncoderInputs m request numComputedTokens numNewTokens budget
      shiftComputedTokens = .ok s) :
    ∃ pending, Run wf mayFree s.manager pending ∧
      pending.Perm ((s.encoderInputsToSchedule ++ s.externalLoadEncoderInput).map (request, ·)) := by
  have hstart : PassRun wf mayFree request {
      manager := m
      numNewTokens
      encoderComputeBudget := budget } := ⟨[], hm, .refl _, rfl, by simp⟩
  have hpass : PassRun wf mayFree request s := by
    unfold EncoderConfig.tryScheduleEncoderInputs at h
    split at h
    · cases h
      exact hstart
    · exact hstart.scanEncoderInputs hconfig hwf h
  obtain ⟨pending, hrun, hperm, -⟩ := hpass
  exact ⟨pending, hrun, hperm⟩

/-- The loop of `schedule` that allocates what the pass has returned. -/
theorem Run.allocateInputs {sizeOf : String → ℕ} {m : EncoderCacheManager} {inputs : List ℕ}
    {pending : List (Request × ℕ)} (hm : Run (Sized sizeOf) mayFree m pending)
    (hperm : pending.Perm (inputs.map (request, ·))) :
    ∃ m', inputs.foldlM (fun m i => EncoderCacheManager.allocate m request i) m = .ok m' ∧
      Run (Sized sizeOf) mayFree m' [] := by
  induction inputs generalizing m pending with
  | nil =>
    obtain rfl := hperm.eq_nil
    exact ⟨m, rfl, hm⟩
  | cons i inputs ih =>
    obtain ⟨m₁, hm₁, -⟩ := hm.balanced.allocate hperm
    obtain ⟨m', hm', hrun⟩ := ih (.allocate hm hperm hm₁) (.refl _)
    exact ⟨m', by rw [foldlM_cons, hm₁]; exact hm', hrun⟩

/-- After a pass over the inputs of a request, `schedule` can allocate all that it has granted, and
the slots are accounted for again. -/
theorem Run.encoderPass_allocates {sizeOf : String → ℕ} {m : EncoderCacheManager}
    {numNewTokens : ℤ} {budget : ℕ} (hconfig : config.isEncoderDecoder = false)
    (hm : Run (Sized sizeOf) mayFree m []) (hsized : Sized sizeOf request)
    (h : config.tryScheduleEncoderInputs m request numComputedTokens numNewTokens budget
      shiftComputedTokens = .ok s) :
    ∃ m', (s.encoderInputsToSchedule ++ s.externalLoadEncoderInput).foldlM
        (fun m i => EncoderCacheManager.allocate m request i) s.manager = .ok m' ∧
      Run (Sized sizeOf) mayFree m' [] ∧
      m'.numFreeSlots + (m'.cached.keys.map sizeOf).sum = m'.cacheSize := by
  obtain ⟨pending, hrun, hperm⟩ := hm.tryScheduleEncoderInputs hconfig hsized h
  obtain ⟨m', hallocate, hrun'⟩ := hrun.allocateInputs hperm
  exact ⟨m', hallocate, hrun', hrun'.balanced.free⟩

end Pass

/-- In every run the two counters are what the tables say, the evictable entries are those that no
request refers to, and neither the assertions of `allocate` nor the evictions of `can_allocate`
fail. -/
theorem Run.slots_accounted {sizeOf : String → ℕ}
    {mayFree : EncoderCacheManager → Request → ℕ → Prop} {m : EncoderCacheManager}
    {pending : List (Request × ℕ)} (hm : Run (Sized sizeOf) mayFree m pending) :
    m.numFreeSlots + (m.cached.keys.map sizeOf).sum = m.cacheSize ∧
    m.numFreeableSlots = m.numFreeSlots + (m.freeable.keys.map sizeOf).sum ∧
    (∀ h, h ∈ m.freeable.keys ↔ m.cached.get? h = some []) ∧
    (∀ request inputId rest, pending.Perm ((request, inputId) :: rest) →
      ∃ m', m.allocate request inputId = .ok m') ∧
    (∀ (request : Request) (inputId budget : ℕ), inputId < request.mmFeatures.length →
      (∃ hit m', m.checkAndUpdateCache request inputId = .ok (hit, m')) ∧
      ∃ granted m', m.canAllocate request inputId budget (pending.map numEmbedsOf).sum =
        .ok (granted, m')) := by
  have hb := hm.balanced
  refine ⟨hb.free, hb.freeable, ?_, ?_, ?_⟩
  · intro h
    rw [Dict.mem_keys_iff]
    exact hb.consistent h
  · intro request inputId rest hperm
    obtain ⟨m', hallocate, -⟩ := hb.allocate hperm
    exact ⟨m', hallocate⟩
  · intro request inputId budget hlt
    have hf : request.mmFeatures[inputId]? = some request.mmFeatures[inputId] :=
      List.getElem?_eq_getElem hlt
    obtain ⟨granted, m', hcan, -⟩ := hb.canAllocate hf budget _
    exact ⟨hb.consistent.exists_check hf, granted, m', hcan⟩

/-- A request with two pictures that are the same. -/
def twinPictures : Request where
  requestId := 1
  promptTokenIds := some [7, 7, 8, 7, 7]
  numPromptTokens := 5
  allTokenIds := [7, 7, 8, 7, 7]
  mmFeatures := [
    { identifier := "picture", mmPosition := { offset := 0, length := 2 } },
    { identifier := "picture", mmPosition := { offset := 3, length := 2 } }]

theorem twinPictures_sized : Sized (fun _ => 2) twinPictures := by
  intro f hf
  simp only [twinPictures, mem_cons, not_mem_nil, or_false] at hf
  obtain rfl | rfl := hf <;> rfl

/-- The picture is allocated, and half of the cache is left. -/
theorem slots_accounted_picture : ∃ m, Run (Sized fun _ => 2) (fun _ _ _ => True) m [] ∧
    m.numFreeSlots = 2 ∧
    m.numFreeSlots + ((m.cached.keys.map fun _ => 2).sum : ℕ) = m.cacheSize := by
  have hcan : (EncoderCacheManager.init 4).canAllocate twinPictures 0 4
      (([] : List (Request × ℕ)).map numEmbedsOf).sum = .ok (true, .init 4) := rfl
  have hgrant : Run (Sized fun _ => 2) (fun _ _ _ => True) (EncoderCacheManager.init 4)
      [(twinPictures, 0)] :=
    .grant (.init 4) twinPictures_sized (by simp) rfl hcan
  obtain ⟨m, hm⟩ := hgrant.slots_accounted.2.2.2.1 _ _ [] (.refl _)
  have hrun : Run (Sized fun _ => 2) (fun _ _ _ => True) m [] := .allocate hgrant (.refl _) hm
  refine ⟨m, hrun, ?_, hrun.slots_accounted.1⟩
  obtain ⟨f, hf, -, -, rfl⟩ := allocate_eq_ok.mp hm
  cases hf
  rfl

theorem encoderPass_allocates_twinPictures : ∃ s m',
    EncoderConfig.tryScheduleEncoderInputs ⟨false, false, none⟩ (.init 4) twinPictures 0 5 4 0 =
      .ok s ∧ s.encoderInputsToSchedule = [0] ∧
    Run (Sized fun _ => 2) (fun _ _ _ => True) m' [] := by
  obtain ⟨s, hs, hinputs⟩ := exists_ok (show (EncoderConfig.tryScheduleEncoderInputs
    ⟨false, false, none⟩ (.init 4) twinPictures 0 5 4 0).toOption.map
      EncoderScan.encoderInputsToSchedule = some [0] by decide +kernel)
  have hinit : Run (Sized fun _ => 2) (fun _ _ _ => True) (.init 4) [] := .init 4
  obtain ⟨m', -, hrun, -⟩ := hinit.encoderPass_allocates rfl twinPictures_sized hs
  exact ⟨s, m', hs, hinputs, hrun⟩

end Vllm.EncoderCacheManager
