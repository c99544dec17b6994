import Vllm.Lib.Dict
import Vllm.Request

/-! `encoder_cache_manager.py`: which encoder outputs the workers hold, and which requests refer to
them. An output without requests stays until its space is needed. -/
namespace Vllm
open Raises

namespace PlaceholderRange

/-- The number of embeddings up to each position. -/
def embedsCumsum (r : PlaceholderRange) : Option (List ℕ) :=
  r.isEmbed.map fun mask => (List.range mask.length).map fun k => (mask.take (k + 1)).count true

def getNumEmbeds (r : PlaceholderRange) : ℕ :=
  match r.embedsCumsum with
  | none => r.length
  | some cumsum => cumsum.getLastD 0

def getEmbedsIndicesInRange (r : PlaceholderRange) (startIdx endIdx : ℤ) : ℤ × ℤ :=
  match r.embedsCumsum with
  | none => (startIdx, endIdx)
  | some cumsum =>
    (if startIdx > 0 then cumsum.getD (startIdx - 1).toNat 0 else 0,
      if endIdx > 0 then cumsum.getD (endIdx - 1).toNat 0 else 0)

end PlaceholderRange

/-- Python sets of ids, in the order of insertion. -/
def setAdd {α : Type} [DecidableEq α] (s : List α) (x : α) : List α := if x ∈ s then s else s ++ [x]

def setDiscard {α : Type} [DecidableEq α] (s : List α) (x : α) : List α := s.filter (· ≠ x)

structure EncoderCacheManager where
  cacheSize : ℕ
  numFreeSlots : ℤ
  numFreeableSlots : ℤ
  cached : Dict String (List RequestId)
  requestCachedIds : Dict RequestId (List ℕ)
  freeable : Dict String ℕ
  freed : List String

namespace EncoderCacheManager

def init (cacheSize : ℕ) : EncoderCacheManager where
  cacheSize
  numFreeSlots := cacheSize
  numFreeableSlots := cacheSize
  cached := Dict.empty
  requestCachedIds := Dict.empty
  freeable := Dict.empty
  freed := []

def reset (m : EncoderCacheManager) : EncoderCacheManager := init m.cacheSize

/-- `request_cached_ids.setdefault(request_id, set()).add(input_id)` -/
def addCachedId (m : EncoderCacheManager) (requestId : RequestId) (inputId : ℕ) :
    Dict RequestId (List ℕ) :=
  m.requestCachedIds.set requestId (setAdd (m.requestCachedIds.getD requestId []) inputId)

def feature (request : Request) (inputId : ℕ) : Raises MultiModalFeatureSpec :=
  match request.mmFeatures[inputId]? with
  | none => throw .indexError
  | some f => pure f

def checkAndUpdateCache (m : EncoderCacheManager) (request : Request) (inputId : ℕ) :
    Raises (Bool × EncoderCacheManager) := do
  let f ← feature request inputId
  match m.cached.get? f.identifier with
  | none => pure (false, m)
  | some refs => do
    let m ← (if refs = [] then
        match m.freeable.get? f.identifier with
        | none => throw .keyError
        | some numEncoderEmbeds => pure { m with
            freeable := m.freeable.erase f.identifier
            numFreeableSlots := m.numFreeableSlots - numEncoderEmbeds }
      else pure m)
    pure (true, { m with
      cached := m.cached.set f.identifier (setAdd refs request.requestId)
      requestCachedIds := m.addCachedId request.requestId inputId })

def evict (m : EncoderCacheManager) (mmHash : String) (numFreeEmbeds : ℕ) : EncoderCacheManager :=
  { m with
    freeable := m.freeable.erase mmHash
    cached := m.cached.erase mmHash
    freed := m.freed ++ [mmHash]
    numFreeSlots := m.numFreeSlots + numFreeEmbeds }

/-- The oldest entries that no request refers to are evicted until there is enough space. -/
def evictFreeable (numEmbeds : ℕ) :
    List (String × ℕ) → EncoderCacheManager → Raises EncoderCacheManager
  | entries, m =>
    if numEmbeds ≤ m.numFreeSlots then pure m
    else match entries with
      | [] => throw .keyError
      | (mmHash, numFreeEmbeds) :: rest =>
        if m.cached.contains mmHash then
          evictFreeable numEmbeds rest (m.evict mmHash numFreeEmbeds)
        else throw .keyError

def canAllocate (m : EncoderCacheManager) (request : Request) (inputId : ℕ)
    (encoderComputeBudget numEmbedsToSchedule : ℕ) : Raises (Bool × EncoderCacheManager) := do
  let f ← feature request inputId
  let numEmbeds := f.mmPosition.getNumEmbeds
  if numEmbeds > encoderComputeBudget then pure (false, m)
  else
    let numEmbeds := numEmbeds + numEmbedsToSchedule
    if numEmbeds ≤ m.numFreeSlots then pure (true, m)
    else if numEmbeds > m.numFreeableSlots then pure (false, m)
    else do
      let m ← evictFreeable numEmbeds m.freeable.entries m
      pure (true, m)

def allocate (m : EncoderCacheManager) (request : Request) (inputId : ℕ) :
    Raises EncoderCacheManager := do
  let f ← feature request inputId
  let numEncoderEmbeds := f.mmPosition.getNumEmbeds
  Raises.require (m.numFreeSlots ≥ numEncoderEmbeds)
  Raises.require (m.numFreeableSlots ≥ numEncoderEmbeds)
  pure { m with
    cached := m.cached.set f.identifier (setAdd (m.cached.getD f.identifier []) request.requestId)
    requestCachedIds := m.addCachedId request.requestId inputId
    numFreeSlots := m.numFreeSlots - numEncoderEmbeds
    numFreeableSlots := m.numFreeableSlots - numEncoderEmbeds }

def getCachedInputIds (m : EncoderCacheManager) (requestId : RequestId) : List ℕ :=
  m.requestCachedIds.getD requestId []

/-- `request_cached_ids` after a reference has been dropped. -/
def dropCachedId (m : EncoderCacheManager) (requestId : RequestId) (inputId : ℕ) :
    Dict RequestId (List ℕ) :=
  match m.requestCachedIds.get? requestId with
  | none => m.requestCachedIds
  | some ids =>
    if setDiscard ids inputId = [] then m.requestCachedIds.erase requestId
    else m.requestCachedIds.set requestId (setDiscard ids inputId)

def freeEncoderInput (m : EncoderCacheManager) (request : Request) (inputId : ℕ) :
    Raises EncoderCacheManager := do
  let f ← feature request inputId
  let m := { m with requestCachedIds := m.dropCachedId request.requestId inputId }
  let refs := m.cached.getD f.identifier []
  if refs = [] then pure m
  else
    let refs := setDiscard refs request.requestId
    let m := { m with cached := m.cached.set f.identifier refs }
    if refs = [] then
      let numEncoderEmbeds := f.mmPosition.getNumEmbeds
      pure { m with
        freeable := m.freeable.set f.identifier numEncoderEmbeds
        numFreeableSlots := m.numFreeableSlots + numEncoderEmbeds }
    else pure m

def freeInputs (request : Request) : List ℕ → EncoderCacheManager → Raises EncoderCacheManager
  | [], m => pure m
  | inputId :: rest, m => do
    let m ← m.freeEncoderInput request inputId
    freeInputs request rest m

def free (m : EncoderCacheManager) (request : Request) : Raises EncoderCacheManager :=
  freeInputs request (m.getCachedInputIds request.requestId) m

def getFreedMmHashes (m : EncoderCacheManager) : List String × EncoderCacheManager :=
  (m.freed, { m with freed := [] })

/-- An output is up for eviction exactly when no request refers to it. -/
def Consistent (m : EncoderCacheManager) : Prop :=
  ∀ h, m.freeable.contains h = true ↔ m.cached.get? h = some []

def Refers (m : EncoderCacheManager) (requestId : RequestId) (h : String) : Prop :=
  ∃ refs, m.cached.get? h = some refs ∧ requestId ∈ refs

variable {requestId : RequestId} {inputId budget toSchedule : ℕ} {request : Request} {hit : Bool}
  {m' : EncoderCacheManager}

theorem Refers.contains {m : EncoderCacheManager} {h : String} (hr : m.Refers requestId h) :
    m.cached.contains h = true := by
  obtain ⟨refs, hrefs, -⟩ := hr
  simp [Dict.contains, hrefs]

variable {f : MultiModalFeatureSpec} {Q : EncoderCacheManager → Prop} {ok : Bool} {k : String}

theorem feature_eq_ok :
    feature request inputId = .ok f ↔ request.mmFeatures[inputId]? = some f := by
  unfold feature
  split <;> simp_all

theorem mem_setAdd {α : Type} [DecidableEq α] {s : List α} {x y : α} :
    y ∈ setAdd s x ↔ y ∈ s ∨ y = x := by
  unfold setAdd
  split <;> simp_all

theorem setAdd_ne_nil {α : Type} [DecidableEq α] (s : List α) (x : α) : setAdd s x ≠ [] := by
  apply List.ne_nil_of_mem
  exact mem_setAdd.mpr (.inr rfl)

theorem consistent_init (cacheSize : ℕ) : (init cacheSize).Consistent := by
  intro h
  simp [init, Dict.contains]

theorem checkAndUpdateCache_eq_ok {m : EncoderCacheManager}
    (hf : request.mmFeatures[inputId]? = some f)
    (h : m.checkAndUpdateCache request inputId = .ok (hit, m')) :
    (hit = false ∧ m' = m ∧ m.cached.get? f.identifier = none) ∨
    (∃ refs, hit = true ∧ m.cached.get? f.identifier = some refs ∧
      m'.cached = m.cached.set f.identifier (setAdd refs request.requestId) ∧
      m'.freeable = (if refs = [] then m.freeable.erase f.identifier else m.freeable) ∧
      m'.numFreeSlots = m.numFreeSlots) := by
  unfold checkAndUpdateCache at h
  obtain ⟨g, hg, h⟩ := of_bind h
  obtain rfl : f = g := by
    rw [feature_eq_ok, hf] at hg
    exact Option.some.inj hg
  split at h
  · next hnone =>
    cases h
    exact .inl ⟨rfl, rfl, hnone⟩
  · next refs hrefs =>
    obtain ⟨m₁, hm₁, h⟩ := of_bind h
    cases h
    apply Or.inr
    split at hm₁
    · next hempty =>
      split at hm₁
      · simp at hm₁
      · cases hm₁
        exact ⟨refs, rfl, hrefs, rfl, by simp [hempty], rfl⟩
    · next hrefd =>
      cases hm₁
      exact ⟨refs, rfl, hrefs, rfl, by simp [hrefd], rfl⟩

theorem Consistent.checkAndUpdateCache {m : EncoderCacheManager} (hm : m.Consistent)
    (h : m.checkAndUpdateCache request inputId = .ok (hit, m')) : m'.Consistent := by
  have ⟨f, hf, _⟩ := of_bind h
  rw [feature_eq_ok] at hf
  obtain ⟨-, rfl, -⟩ | ⟨refs, -, hrefs, hcached, hfreeable, -⟩ := checkAndUpdateCache_eq_ok hf h
  · exact hm
  intro x
  rw [hcached, hfreeable, Dict.get?_set]
  have hx := hm x
  by_cases hxf : x = f.identifier
  · subst hxf
    rw [if_pos rfl]
    constructor
    · intro hc
      split at hc
      · simp at hc
      · next hne => simp_all
    · intro hc
      exact absurd (Option.some.inj hc) (setAdd_ne_nil _ _)
  · rw [if_neg hxf]
    split
    · simpa [hxf] using hx
    · exact hx

/-- An eviction takes only entries that no request refers to, and `Q` of the manager is kept
if it is kept by each eviction. -/
theorem evictFreeable_induction {numEmbeds : ℕ}
    (hevict : ∀ (m : EncoderCacheManager) (h : String) (n : ℕ), Q m →
      m.freeable.contains h = true → Q (m.evict h n))
    {entries : List (String × ℕ)} {m : EncoderCacheManager} (hkeys : (entries.map Prod.fst).Nodup)
    (hentries : ∀ e ∈ entries, m.freeable.contains e.1 = true) (hm : Q m)
    (h : evictFreeable numEmbeds entries m = .ok m') : Q m' := by
  induction entries generalizing m with
  | nil =>
    unfold evictFreeable at h
    split at h
    · cases h
      exact hm
    · simp at h
  | cons e rest ih =>
    obtain ⟨mmHash, numFreeEmbeds⟩ := e
    unfold evictFreeable at h
    split at h
    · cases h
      exact hm
    · simp only at h
      split at h
      · rw [List.map_cons, List.nodup_cons] at hkeys
        have hfirst : m.freeable.contains mmHash = true := hentries _ List.mem_cons_self
        refine ih hkeys.2 ?_ (hevict m mmHash numFreeEmbeds hm hfirst) h
        intro e he
        have hne : e.1 ≠ mmHash := by
          intro heq
          exact hkeys.1 (List.mem_map.mpr ⟨e, he, heq⟩)
        simpa [evict, hne] using hentries e (List.mem_cons_of_mem _ he)
      · simp at h

theorem canAllocate_induction (hevict : ∀ (m : EncoderCacheManager) (h : String) (n : ℕ), Q m →
      m.freeable.contains h = true → Q (m.evict h n))
    {m : EncoderCacheManager}
    (hm : Q m) (h : m.canAllocate request inputId budget toSchedule = .ok (ok, m')) : Q m' := by
  unfold canAllocate at h
  obtain ⟨f, hf, h⟩ := of_bind h
  simp only at h
  split at h
  · cases h
    exact hm
  split at h
  · cases h
    exact hm
  split at h
  · cases h
    exact hm
  obtain ⟨m₁, hm₁, h⟩ := of_bind h
  cases h
  refine evictFreeable_induction hevict m.freeable.nodupKeys ?_ hm hm₁
  intro e he
  have := m.freeable.mem_entries_iff.mp (show (e.1, e.2) ∈ m.freeable.entries from he)
  simp [Dict.contains, this]

theorem Consistent.evict {m : EncoderCacheManager} (hm : m.Consistent) (h : String) (n : ℕ) :
    (m.evict h n).Consistent := by
  intro x
  have hx := hm x
  by_cases hxh : x = h
  · simp [EncoderCacheManager.evict, hxh]
  · simpa [EncoderCacheManager.evict, hxh] using hx

theorem Refers.evict {m : EncoderCacheManager} (hm : m.Consistent) {h : String}
    (hr : m.Refers requestId k) (hh : m.freeable.contains h = true) (n : ℕ) :
    (m.evict h n).Refers requestId k := by
  obtain ⟨refs, hrefs, hmem⟩ := hr
  refine ⟨refs, ?_, hmem⟩
  have hne : k ≠ h := by
    rintro rfl
    rw [(hm k).mp hh] at hrefs
    simp_all
  simpa [EncoderCacheManager.evict, hne] using hrefs

theorem Consistent.canAllocate {m : EncoderCacheManager} (hm : m.Consistent)
    (h : m.canAllocate request inputId budget toSchedule = .ok (ok, m')) : m'.Consistent :=
  canAllocate_induction (fun _ h _ hm _ => hm.evict h _) hm h

theorem Refers.canAllocate {m : EncoderCacheManager} (hm : m.Consistent)
    (h : m.canAllocate request inputId budget toSchedule = .ok (ok, m'))
    (hr : m.Refers requestId k) : m'.Refers requestId k :=
  (canAllocate_induction (Q := fun m => m.Consistent ∧ m.Refers requestId k)
    (fun _ h _ hm hh => ⟨hm.1.evict h _, hm.2.evict hm.1 hh _⟩) ⟨hm, hr⟩ h).2

theorem Refers.checkAndUpdateCache {m : EncoderCacheManager}
    (h : m.checkAndUpdateCache request inputId = .ok (hit, m')) (hr : m.Refers requestId k) :
    m'.Refers requestId k := by
  have ⟨f, hf, _⟩ := of_bind h
  rw [feature_eq_ok] at hf
  obtain ⟨-, rfl, -⟩ | ⟨refs, -, hrefs, hcached, -, -⟩ := checkAndUpdateCache_eq_ok hf h
  · exact hr
  obtain ⟨refs', hrefs', hmem⟩ := hr
  by_cases hk : k = f.identifier
  · subst hk
    obtain rfl : refs = refs' := Option.some.inj (hrefs.symm.trans hrefs')
    exact ⟨_, by rw [hcached, Dict.get?_set, if_pos rfl], mem_setAdd.mpr (.inl hmem)⟩
  · exact ⟨refs', by rw [hcached, Dict.get?_set, if_neg hk, hrefs'], hmem⟩

theorem allocate_eq_ok {m : EncoderCacheManager} :
    m.allocate request inputId = .ok m' ↔ ∃ f, request.mmFeatures[inputId]? = some f ∧
      m.numFreeSlots ≥ f.mmPosition.getNumEmbeds ∧ m.numFreeableSlots ≥ f.mmPosition.getNumEmbeds ∧
      m' = { m with
        cached := m.cached.set f.identifier
          (setAdd (m.cached.getD f.identifier []) request.requestId)
        requestCachedIds := m.addCachedId request.requestId inputId
        numFreeSlots := m.numFreeSlots - f.mmPosition.getNumEmbeds
        numFreeableSlots := m.numFreeableSlots - f.mmPosition.getNumEmbeds } := by
  unfold allocate
  simp only [bind_eq_ok, feature_eq_ok, require_eq_ok, pure_eq_ok]
  constructor
  · rintro ⟨f, hf, -, hfree, -, hfreeable, rfl⟩
    exact ⟨f, hf, hfree, hfreeable, rfl⟩
  · rintro ⟨f, hf, hfree, hfreeable, rfl⟩
    exact ⟨f, hf, (), hfree, (), hfreeable, rfl⟩

theorem Consistent.allocate {m : EncoderCacheManager} (hm : m.Consistent)
    (hnew : ∀ f, request.mmFeatures[inputId]? = some f → m.cached.get? f.identifier = none)
    (h : m.allocate request inputId = .ok m') :
    m'.Consistent := by
  obtain ⟨f, hf, -, -, rfl⟩ := allocate_eq_ok.mp h
  intro x
  have hx := hm x
  have hnone := hnew f hf
  by_cases hxf : x = f.identifier
  · subst hxf
    simp only [Dict.get?_set, ↓reduceIte, Option.some.injEq]
    rw [hx, hnone]
    simp [setAdd_ne_nil]
  · simpa [hxf] using hx

theorem Consistent.freeEncoderInput {m : EncoderCacheManager} (hm : m.Consistent)
    (h : m.freeEncoderInput request inputId = .ok m') :
    m'.Consistent := by
  unfold EncoderCacheManager.freeEncoderInput at h
  obtain ⟨f, -, h⟩ := of_bind h
  simp only at h
  split at h
  · cases h
    exact hm
  next hrefs =>
  have hstored : m.cached.get? f.identifier ≠ some [] := by
    intro hnil
    simp [Dict.getD, hnil] at hrefs
  split at h
  · next hempty =>
    cases h
    intro x
    have hx := hm x
    by_cases hxf : x = f.identifier
    · simp [hxf, hempty]
    · simpa [hxf] using hx
  · next hrest =>
    cases h
    intro x
    have hx := hm x
    by_cases hxf : x = f.identifier
    · subst hxf
      simp only [Dict.get?_set, ↓reduceIte, Option.some.injEq]
      rw [hx]
      simp [hstored, hrest]
    · simpa [hxf] using hx

theorem Consistent.freeInputs {inputIds : List ℕ} {m : EncoderCacheManager} (hm : m.Consistent)
    (h : freeInputs request inputIds m = .ok m') : m'.Consistent := by
  induction inputIds generalizing m with
  | nil =>
    cases h
    exact hm
  | cons inputId rest ih =>
    obtain ⟨m₁, hm₁, h⟩ := of_bind h
    exact ih (hm.freeEncoderInput hm₁) h

/-- The managers a scheduler can get to. It allocates an input only after a check has missed. -/
inductive Reachable : EncoderCacheManager → Prop
  | init (cacheSize : ℕ) : Reachable (init cacheSize)
  | check {m m' request inputId hit} (hm : Reachable m)
      (h : m.checkAndUpdateCache request inputId = .ok (hit, m')) : Reachable m'
  | canAllocate {m m' request inputId budget toSchedule ok} (hm : Reachable m)
      (h : m.canAllocate request inputId budget toSchedule = .ok (ok, m')) : Reachable m'
  | allocate {m m' : EncoderCacheManager} {request inputId} (hm : Reachable m)
      (hnew : ∀ f, request.mmFeatures[inputId]? = some f → m.cached.get? f.identifier = none)
      (h : m.allocate request inputId = .ok m') : Reachable m'
  | freeEncoderInput {m m' request inputId} (hm : Reachable m)
      (h : m.freeEncoderInput request inputId = .ok m') : Reachable m'
  | free {m m' request} (hm : Reachable m) (h : m.free request = .ok m') : Reachable m'
  | getFreedMmHashes {m} (hm : Reachable m) : Reachable m.getFreedMmHashes.2
  | reset {m} (hm : Reachable m) : Reachable m.reset

theorem Reachable.consistent {m : EncoderCacheManager} (hm : m.Reachable) : m.Consistent := by
  induction hm with
  | init cacheSize => exact consistent_init cacheSize
  | check _ h ih => exact ih.checkAndUpdateCache h
  | canAllocate _ h ih => exact ih.canAllocate h
  | allocate _ hnew h ih => exact ih.allocate hnew h
  | freeEncoderInput _ h ih => exact ih.freeEncoderInput h
  | free _ h ih => exact ih.freeInputs h
  | getFreedMmHashes _ ih => exact ih
  | reset _ _ => exact consistent_init _

end EncoderCacheManager

end Vllm
