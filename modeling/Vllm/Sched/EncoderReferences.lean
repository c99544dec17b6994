import Vllm.Sched.EncoderSlots

/-! What the references of the encoder cache protect. Inputs of one request with the same hash share
a reference, and the first release drops it for all of them. -/
namespace Vllm.EncoderCacheManager

/-- The input `i` of request `r` has the hash `hashes r i`. -/
def HashedBy (hashes : RequestId → ℕ → String) (request : Request) : Prop :=
  ∀ i f, request.mmFeatures[i]? = some f → f.identifier = hashes request.requestId i

/-- The request has no other cached input with the hash of the one that is released. -/
def ReleasesAlone (hashes : RequestId → ℕ → String) (m : EncoderCacheManager) (request : Request)
    (inputId : ℕ) : Prop :=
  ∀ j ∈ m.getCachedInputIds request.requestId, j ≠ inputId →
    hashes request.requestId j ≠ hashes request.requestId inputId

/-- A request refers to the outputs of its cached inputs. -/
def Protects (hashes : RequestId → ℕ → String) (m : EncoderCacheManager) : Prop :=
  ∀ r, ∀ i ∈ m.getCachedInputIds r, m.Refers r (hashes r i)

section Operations
variable {hashes : RequestId → ℕ → String} {m m' : EncoderCacheManager} {request : Request}
  {inputId : ℕ} {r : RequestId}

theorem mem_addCachedId {i : ℕ} :
    i ∈ (m.addCachedId request.requestId inputId).getD r [] ↔
      i ∈ m.getCachedInputIds r ∨ (r = request.requestId ∧ i = inputId) := by
  unfold addCachedId getCachedInputIds Dict.getD
  rw [Dict.get?_set]
  split
  · next heq =>
    rw [heq, Option.getD_some, mem_setAdd]
    simp
  · next hne => simp [hne]

theorem mem_dropCachedId {i : ℕ} :
    i ∈ (m.dropCachedId request.requestId inputId).getD r [] ↔
      i ∈ m.getCachedInputIds r ∧ ¬ (r = request.requestId ∧ i = inputId) := by
  unfold dropCachedId getCachedInputIds Dict.getD
  split
  · next hnone =>
    obtain rfl | hne := eq_or_ne r request.requestId
    · simp [hnone]
    · simp [hne]
  · next ids hids =>
    have hdiscard : i ∈ setDiscard ids inputId ↔ i ∈ ids ∧ i ≠ inputId := by
      simp [setDiscard]
    split
    · next hempty =>
      rw [Dict.get?_erase]
      rw [hempty] at hdiscard
      obtain rfl | hne := eq_or_ne r request.requestId
      · simpa [hids] using hdiscard
      · simp [hne]
    · rw [Dict.get?_set]
      obtain rfl | hne := eq_or_ne r request.requestId
      · simpa [hids] using hdiscard
      · simp [hne]

section
variable (hm : Protects hashes m) (hhash : HashedBy hashes request)
include hm hhash

theorem Protects.refer {f : MultiModalFeatureSpec} {refs : List RequestId}
    (hf : request.mmFeatures[inputId]? = some f)
    (hcached : m'.cached = m.cached.set f.identifier (setAdd refs request.requestId))
    (hrefs : ∀ old, m.cached.get? f.identifier = some old → old = refs)
    (hids : m'.requestCachedIds = m.addCachedId request.requestId inputId) :
    Protects hashes m' := by
  intro r i hi
  unfold getCachedInputIds at hi
  rw [hids, mem_addCachedId] at hi
  have hself : m'.Refers request.requestId f.identifier :=
    ⟨_, by rw [hcached, Dict.get?_set, if_pos rfl], mem_setAdd.mpr (.inr rfl)⟩
  obtain hold | ⟨rfl, rfl⟩ := hi
  · obtain ⟨old, hget, hmem⟩ := hm r i hold
    obtain heq | hne := eq_or_ne (hashes r i) f.identifier
    · rw [heq] at hget ⊢
      refine ⟨_, by rw [hcached, Dict.get?_set, if_pos rfl], mem_setAdd.mpr (.inl ?_)⟩
      rw [← hrefs old hget]
      exact hmem
    · exact ⟨old, by rw [hcached, Dict.get?_set, if_neg hne, hget], hmem⟩
  · rw [← hhash i f hf]
    exact hself

theorem Protects.checkAndUpdateCache {hit : Bool}
    (h : m.checkAndUpdateCache request inputId = .ok (hit, m')) : Protects hashes m' := by
  obtain ⟨f, hf, ⟨-, rfl, -⟩ | ⟨refs, -, hrefs, ⟨-, rfl⟩ | ⟨-, n, -, rfl⟩⟩⟩ :=
    checkAndUpdateCache_cases h
  · exact hm
  · exact hm.refer hhash hf rfl (fun old hold => Option.some.inj (hold.symm.trans hrefs)) rfl
  · exact hm.refer hhash hf rfl (fun old hold => Option.some.inj (hold.symm.trans hrefs)) rfl

theorem Protects.allocate (h : m.allocate request inputId = .ok m') : Protects hashes m' := by
  obtain ⟨f, hf, -, -, rfl⟩ := allocate_eq_ok.mp h
  exact hm.refer hhash hf rfl (fun old hold => by simp [Dict.getD, hold]) rfl

end

theorem canAllocate_requestCachedIds {budget toSchedule : ℕ} {granted : Bool}
    (h : m.canAllocate request inputId budget toSchedule = .ok (granted, m')) :
    m'.requestCachedIds = m.requestCachedIds :=
  canAllocate_induction (Q := fun m' => m'.requestCachedIds = m.requestCachedIds)
    (fun _ _ _ heq _ => heq) rfl h

theorem Protects.canAllocate {budget toSchedule : ℕ} {granted : Bool} (hm : Protects hashes m)
    (hconsistent : m.Consistent)
    (h : m.canAllocate request inputId budget toSchedule = .ok (granted, m')) :
    Protects hashes m' := by
  intro r i hi
  unfold getCachedInputIds at hi
  rw [canAllocate_requestCachedIds h] at hi
  exact (hm r i hi).canAllocate hconsistent h

theorem Refers.freeEncoderInput {f : MultiModalFeatureSpec} {h' : String}
    (hf : request.mmFeatures[inputId]? = some f) (hr : m.Refers r h')
    (hother : r ≠ request.requestId ∨ h' ≠ f.identifier)
    (h : m.freeEncoderInput request inputId = .ok m') : m'.Refers r h' := by
  obtain ⟨old, hget, hmem⟩ := hr
  have hset : ∀ refs, m.cached.get? f.identifier = some refs →
      ∃ refs', (m.cached.set f.identifier (setDiscard refs request.requestId)).get? h' =
        some refs' ∧ r ∈ refs' := by
    intro refs hrefs
    rw [Dict.get?_set]
    split
    · next heq =>
      subst heq
      obtain rfl := Option.some.inj (hget.symm.trans hrefs)
      have hne : r ≠ request.requestId := hother.resolve_right (fun hne => hne rfl)
      exact ⟨_, rfl, by simp [setDiscard, hmem, hne]⟩
    · exact ⟨old, hget, hmem⟩
  obtain ⟨g, hg, hplace⟩ := freeEncoderInput_cases h
  obtain rfl := Option.some.inj (hf.symm.trans hg)
  obtain ⟨-, rfl⟩ | ⟨refs, -, hrefs, ⟨-, rfl⟩ | ⟨-, rfl⟩⟩ := hplace
  · exact ⟨old, hget, hmem⟩
  · exact hset refs hrefs
  · exact hset refs hrefs

theorem freeEncoderInput_requestCachedIds (h : m.freeEncoderInput request inputId = .ok m') :
    m'.requestCachedIds = m.dropCachedId request.requestId inputId := by
  obtain ⟨f, -, ⟨-, rfl⟩ | ⟨refs, -, -, ⟨-, rfl⟩ | ⟨-, rfl⟩⟩⟩ := freeEncoderInput_cases h <;> rfl

theorem Protects.freeEncoderInput (hm : Protects hashes m) (hhash : HashedBy hashes request)
    (halone : ReleasesAlone hashes m request inputId)
    (h : m.freeEncoderInput request inputId = .ok m') : Protects hashes m' := by
  have ⟨f, hf, _⟩ := freeEncoderInput_cases h
  intro r i hi
  unfold getCachedInputIds at hi
  rw [freeEncoderInput_requestCachedIds h, mem_dropCachedId] at hi
  obtain ⟨hold, hne⟩ := hi
  refine (hm r i hold).freeEncoderInput hf ?_ h
  obtain rfl | hr := eq_or_ne r request.requestId
  · apply Or.inr
    rw [hhash inputId f hf]
    exact halone i hold fun hi => hne ⟨rfl, hi⟩
  · exact .inl hr

theorem freeInputs_spec {inputIds : List ℕ} (h : freeInputs request inputIds m = .ok m') :
    (∀ r i, i ∈ m'.getCachedInputIds r ↔ i ∈ m.getCachedInputIds r ∧
      ¬ (r = request.requestId ∧ i ∈ inputIds)) ∧
    ∀ r h', r ≠ request.requestId → m.Refers r h' → m'.Refers r h' := by
  induction inputIds generalizing m with
  | nil =>
    cases h
    exact ⟨by simp, fun _ _ _ hr => hr⟩
  | cons inputId inputIds ih =>
    obtain ⟨m₁, hm₁, h⟩ := Raises.of_bind h
    obtain ⟨hids, hrefs⟩ := ih h
    have ⟨f, hf, _⟩ := freeEncoderInput_cases hm₁
    have hfirst : ∀ r i, i ∈ m₁.getCachedInputIds r ↔ i ∈ m.getCachedInputIds r ∧
        ¬ (r = request.requestId ∧ i = inputId) := by
      intro r i
      rw [getCachedInputIds, freeEncoderInput_requestCachedIds hm₁]
      exact mem_dropCachedId
    refine ⟨?_, ?_⟩
    · intro r i
      rw [hids, hfirst, List.mem_cons]
      tauto
    · intro r h' hne hr
      exact hrefs r h' hne (hr.freeEncoderInput hf (.inl hne) hm₁)

theorem Protects.free (hm : Protects hashes m) (h : m.free request = .ok m') :
    Protects hashes m' := by
  obtain ⟨hids, hrefs⟩ := freeInputs_spec h
  intro r i hi
  obtain ⟨hold, hnot⟩ := (hids r i).mp hi
  refine hrefs r _ ?_ (hm r i hold)
  rintro rfl
  exact hnot ⟨rfl, hold⟩

end Operations

/-- The inputs that a pass has granted belong to requests that `wf` allows. -/
theorem Run.wf_of_pending {wf : Request → Prop}
    {mayFree : EncoderCacheManager → Request → ℕ → Prop} {m : EncoderCacheManager}
    {pending : List (Request × ℕ)} (hm : Run wf mayFree m pending) : ∀ x ∈ pending, wf x.1 := by
  induction hm with
  | init | abandon _ _ => simp
  | check _ _ _ ih | probe _ _ _ ih => exact ih
  | grant _ hwf _ _ _ ih =>
    intro x hx
    obtain hx | hx := List.mem_append.mp hx
    · exact ih x hx
    · rw [List.mem_singleton.mp hx]
      exact hwf
  | allocate _ hperm _ ih => exact fun x hx => ih x (hperm.mem_iff.mpr (List.mem_cons_of_mem _ hx))
  | freeEncoderInput _ _ _ _ ih | free _ _ _ ih | getFreedMmHashes _ ih => exact ih
  | reset _ _ => simp

theorem Run.protects {hashes : RequestId → ℕ → String} {m : EncoderCacheManager}
    {pending : List (Request × ℕ)} (hm : Run (HashedBy hashes) (ReleasesAlone hashes) m pending) :
    Protects hashes m := by
  induction hm with
  | init => simp [Protects, EncoderCacheManager.init, getCachedInputIds, Dict.getD]
  | check _ hwf h ih => exact ih.checkAndUpdateCache hwf h
  | grant hm _ _ hmiss h ih =>
    obtain ⟨f, -, ⟨-, rfl, -⟩ | ⟨refs, hhit, -⟩⟩ := checkAndUpdateCache_cases hmiss
    · exact ih.canAllocate hm.granted.consistent h
    · simp at hhit
  | probe hm _ h ih => exact ih.canAllocate hm.granted.consistent h
  | allocate hm hperm h ih =>
    exact ih.allocate (hm.wf_of_pending _ (hperm.mem_iff.mpr List.mem_cons_self)) h
  | abandon _ ih | getFreedMmHashes _ ih => exact ih
  | freeEncoderInput _ hwf halone h ih => exact ih.freeEncoderInput hwf halone h
  | free _ _ h ih => exact ih.free h
  | reset _ _ =>
    simp [Protects, EncoderCacheManager.reset, EncoderCacheManager.init, getCachedInputIds,
      Dict.getD]

/-- In every run that releases an input only while its request has no other cached input with the
same hash, the output of a cached input is referred to, is not up for eviction and survives every
`can_allocate`. -/
theorem Run.references_protect {hashes : RequestId → ℕ → String} {m : EncoderCacheManager}
    {pending : List (Request × ℕ)} (hm : Run (HashedBy hashes) (ReleasesAlone hashes) m pending)
    {r : RequestId} {i : ℕ} (hi : i ∈ m.getCachedInputIds r) :
    m.Refers r (hashes r i) ∧ m.freeable.contains (hashes r i) = false ∧
    ∀ request inputId budget toSchedule granted m',
      m.canAllocate request inputId budget toSchedule = .ok (granted, m') →
      m'.Refers r (hashes r i) := by
  have hrefers := hm.protects r i hi
  have hconsistent := hm.granted.consistent
  refine ⟨hrefers, ?_, ?_⟩
  · obtain ⟨refs, hget, hmem⟩ := hrefers
    rw [← Bool.not_eq_true, hconsistent, hget]
    intro hnil
    rw [Option.some.inj hnil] at hmem
    simp at hmem
  · intro request inputId budget toSchedule granted m' h
    exact hrefers.canAllocate hconsistent h

theorem twinPictures_hashed : HashedBy (fun _ _ => "picture") twinPictures := by
  intro i f hf
  have hmem := List.mem_of_getElem? hf
  simp only [twinPictures, List.mem_cons, List.not_mem_nil, or_false] at hmem
  obtain rfl | rfl := hmem <;> rfl

theorem twinPictures_run (mayFree : EncoderCacheManager → Request → ℕ → Prop) :
    ∃ m, Run (HashedBy fun _ _ => "picture") mayFree m [] ∧
      m.getCachedInputIds 1 = [0, 1] ∧ m.cached.get? "picture" = some [1] := by
  have hcan : (EncoderCacheManager.init 4).canAllocate twinPictures 0 4
      (([] : List (Request × ℕ)).map numEmbedsOf).sum = .ok (true, .init 4) := rfl
  have hgrant : Run (HashedBy fun _ _ => "picture") mayFree (EncoderCacheManager.init 4)
      [(twinPictures, 0)] :=
    .grant (.init 4) twinPictures_hashed (by simp) rfl hcan
  obtain ⟨m₁, hm₁, hfacts₁⟩ := Raises.exists_ok
    (show ((EncoderCacheManager.init 4).allocate twinPictures 0 >>= fun m₁ => do
      let x ← m₁.checkAndUpdateCache twinPictures 1
      pure (x.2.getCachedInputIds 1, x.2.cached.get? "picture")).toOption.map id =
        some ([0, 1], some [1]) by decide +kernel)
  obtain ⟨m, hallocate, hrest⟩ := Raises.of_bind hm₁
  obtain ⟨⟨hit, m'⟩, hcheck, hpure⟩ := Raises.of_bind hrest
  have hvalues := (Raises.pure_eq_ok.mp hpure).trans hfacts₁
  rw [Prod.mk.injEq] at hvalues
  exact ⟨m', .check (.allocate hgrant (.refl _) hallocate) twinPictures_hashed hcheck, hvalues⟩

theorem freeEncoderInput_total (m : EncoderCacheManager) {request : Request} {inputId : ℕ}
    {f : MultiModalFeatureSpec} (hf : request.mmFeatures[inputId]? = some f) :
    ∃ m', m.freeEncoderInput request inputId = .ok m' := by
  unfold EncoderCacheManager.freeEncoderInput
  rw [feature_eq_ok.mpr hf]
  simp only [bind, Except.bind]
  split
  · exact ⟨_, rfl⟩
  · split
    · exact ⟨_, rfl⟩
    · exact ⟨_, rfl⟩

/-- Both pictures of the request are cached under the one reference it has. -/
theorem references_protect_twinPictures : ∃ m,
    Run (HashedBy fun _ _ => "picture") (ReleasesAlone fun _ _ => "picture") m [] ∧
    1 ∈ m.getCachedInputIds 1 ∧ m.Refers 1 "picture" := by
  obtain ⟨m, hm, hids, -⟩ := twinPictures_run (ReleasesAlone fun _ _ => "picture")
  have hi : 1 ∈ m.getCachedInputIds 1 := by simp [hids]
  exact ⟨m, hm, hi, (hm.references_protect hi).1⟩

/-- Once the first picture is released, the cache counts the picture as unused although the second
one is still cached. -/
theorem twinPictures_not_protected : ∃ m,
    Run (HashedBy fun _ _ => "picture") (fun _ _ _ => True) m [] ∧
    1 ∈ m.getCachedInputIds 1 ∧ ¬ m.Refers 1 "picture" := by
  obtain ⟨m, hm, hids, hcached⟩ := twinPictures_run fun _ _ _ => True
  obtain ⟨m', hfree⟩ := freeEncoderInput_total m (show twinPictures.mmFeatures[0]? = some _ from rfl)
  refine ⟨m', .freeEncoderInput hm twinPictures_hashed trivial hfree, ?_, ?_⟩
  · rw [getCachedInputIds, freeEncoderInput_requestCachedIds hfree, mem_dropCachedId, hids]
    simp
  · obtain ⟨f, hf, hplace⟩ := freeEncoderInput_cases hfree
    cases hf
    obtain ⟨hnone, -⟩ | ⟨refs, -, hrefs, ⟨hne, -⟩ | ⟨hempty, rfl⟩⟩ := hplace
    · simp [Dict.getD, hcached] at hnone
    · obtain rfl := Option.some.inj (hcached.symm.trans hrefs)
      exact absurd rfl hne
    · rintro ⟨refs', hget, hmem⟩
      simp only [Dict.get?_set, ↓reduceIte, Option.some.injEq] at hget
      rw [← hget, hempty] at hmem
      simp at hmem

end Vllm.EncoderCacheManager
