import Vllm.Sched.EncoderAgreement

/-! An input that begins right behind the step is missed by the drafter: the encoder cache in
which everything else is present, and the exact condition under which scheduler and worker
agree. -/
namespace Vllm
open EncoderCacheManager EncoderConfig List

section Fill
variable {request : Request} {mmHash : String} {space : ℕ}

/-- A manager in which the inputs up to `k` are present for the request, other than those with
the data `mmHash`, and that has space for the inputs from `k` on. -/
structure FilledUpTo (request : Request) (mmHash : String) (space k : ℕ)
    (m : EncoderCacheManager) : Prop where
  reachable : m.Reachable
  absent : m.cached.get? mmHash = none
  own : ∀ h, m.cached.get? h ≠ none → m.Refers request.requestId h
  present : ∀ i < k, ∀ f, request.mmFeatures[i]? = some f → f.identifier ≠ mmHash →
    m.Refers request.requestId f.identifier
  free : ((space + ((request.mmFeatures.drop k).map
    fun f => f.mmPosition.getNumEmbeds).sum : ℕ) : ℤ) ≤ m.numFreeSlots
  freeable : m.numFreeableSlots = m.numFreeSlots

theorem filledUpTo_zero : FilledUpTo request mmHash space 0 (init
    (space + (request.mmFeatures.map fun f => f.mmPosition.getNumEmbeds).sum)) where
  reachable := .init _
  absent := rfl
  own := by simp [init]
  present := by simp
  free := by simp [init]
  freeable := rfl

theorem FilledUpTo.succ {k : ℕ} {m : EncoderCacheManager}
    (h : FilledUpTo request mmHash space k m) {f : MultiModalFeatureSpec}
    (hf : request.mmFeatures[k]? = some f) : ∃ m', FilledUpTo request mmHash space (k + 1) m' := by
  obtain ⟨hk, rfl⟩ := List.getElem?_eq_some_iff.mp hf
  have hfree := h.free
  rw [drop_eq_getElem_cons hk, map_cons, sum_cons] at hfree
  by_cases hskip : request.mmFeatures[k].identifier = mmHash ∨
      m.cached.get? request.mmFeatures[k].identifier ≠ none
  · refine ⟨m, h.reachable, h.absent, h.own, ?_, by omega, h.freeable⟩
    intro i hi g hg hne
    obtain hlt | rfl := Nat.lt_or_eq_of_le (Nat.le_of_lt_succ hi)
    · exact h.present i hlt g hg hne
    · obtain rfl := Option.some.inj (hf.symm.trans hg)
      obtain heq | hcached := hskip
      · exact absurd heq hne
      · exact h.own _ hcached
  · push Not at hskip
    obtain ⟨hne, hnone⟩ := hskip
    have hfreeable := h.freeable
    have hrun := allocate_eq_ok (m := m).mpr ⟨_, hf, by omega, by omega, rfl⟩
    have hnew : ∀ g, request.mmFeatures[k]? = some g → m.cached.get? g.identifier = none := by
      intro g hg
      obtain rfl := Option.some.inj (hf.symm.trans hg)
      exact hnone
    have hself : request.requestId ∈ setAdd (m.cached.getD request.mmFeatures[k].identifier [])
        request.requestId := mem_setAdd.mpr (.inr rfl)
    have hkeep : ∀ x, x = request.mmFeatures[k].identifier ∨ m.Refers request.requestId x →
        ∃ refs, (m.cached.set request.mmFeatures[k].identifier
          (setAdd (m.cached.getD request.mmFeatures[k].identifier [])
            request.requestId)).get? x = some refs ∧ request.requestId ∈ refs := by
      intro x hx
      by_cases hxf : x = request.mmFeatures[k].identifier
      · exact ⟨_, by rw [Dict.get?_set, if_pos hxf], hself⟩
      · obtain ⟨refs, hrefs, hmem⟩ := hx.resolve_left hxf
        exact ⟨refs, by rw [Dict.get?_set, if_neg hxf, hrefs], hmem⟩
    refine ⟨_, h.reachable.allocate hnew hrun, ?_, ?_, ?_, ?_, ?_⟩
    · simpa [Ne.symm hne] using h.absent
    · intro x hx
      apply hkeep
      by_cases hxf : x = request.mmFeatures[k].identifier
      · exact .inl hxf
      · exact .inr (h.own x (by simpa [hxf] using hx))
    · intro i hi g hg hg'
      apply hkeep
      obtain hlt | rfl := Nat.lt_or_eq_of_le (Nat.le_of_lt_succ hi)
      · exact .inr (h.present i hlt g hg hg')
      · obtain rfl := Option.some.inj (hf.symm.trans hg)
        exact .inl rfl
    · simp only
      omega
    · simp only
      omega

theorem exists_filled (request : Request) (mmHash : String) (space : ℕ) :
    ∃ m, FilledUpTo request mmHash space request.mmFeatures.length m := by
  have hfill : ∀ k ≤ request.mmFeatures.length, ∃ m, FilledUpTo request mmHash space k m := by
    intro k
    induction k with
    | zero => exact fun _ => ⟨_, filledUpTo_zero⟩
    | succ k ih =>
      intro hk
      obtain ⟨m, hm⟩ := ih (by omega)
      exact hm.succ (List.getElem?_eq_getElem (by omega))
  exact hfill _ le_rfl

end Fill

section Skip
variable {config : EncoderConfig} {request : Request} {mmHash : String} {c n budget : ℕ}
  {s : EncoderScan}

/-- A scan that has found everything but `mmHash` present, and scheduled nothing. -/
structure Skipped (request : Request) (mmHash : String) (n budget : ℕ) (s : EncoderScan) :
    Prop where
  absent : s.manager.cached.get? mmHash = none
  present : ∀ f ∈ request.mmFeatures, f.identifier ≠ mmHash →
    s.manager.Refers request.requestId f.identifier
  free : (budget : ℤ) ≤ s.manager.numFreeSlots
  tokens : s.numNewTokens = n
  budget : s.encoderComputeBudget = budget
  hashes : s.mmHashesToSchedule = []
  embeds : s.numEmbedsToSchedule = 0
  scheduled : s.encoderInputsToSchedule = []
  external : s.externalLoadEncoderInput = []

variable {f : MultiModalFeatureSpec} {i : ℕ} {m : EncoderCacheManager}

section
variable (hf : request.mmFeatures[i]? = some f)
include hf

theorem checkAndUpdateCache_hit (hr : m.Refers request.requestId f.identifier) :
    ∃ m', m.checkAndUpdateCache request i = .ok (true, m') := by
  obtain ⟨refs, hrefs, hmem⟩ := hr
  unfold checkAndUpdateCache
  rw [feature_eq_ok.mpr hf]
  simp only [bind, Except.bind, hrefs, if_neg (ne_nil_of_mem hmem)]
  exact ⟨_, rfl⟩

theorem checkAndUpdateCache_miss (hnone : m.cached.get? f.identifier = none) :
    m.checkAndUpdateCache request i = .ok (false, m) := by
  unfold checkAndUpdateCache
  rw [feature_eq_ok.mpr hf]
  simp only [bind, Except.bind, hnone]
  rfl

theorem canAllocate_free {toSchedule : ℕ} (hbudget : f.mmPosition.getNumEmbeds ≤ budget)
    (hfree : ((f.mmPosition.getNumEmbeds + toSchedule : ℕ) : ℤ) ≤ m.numFreeSlots) :
    m.canAllocate request i budget toSchedule = .ok (true, m) := by
  unfold canAllocate
  rw [feature_eq_ok.mpr hf]
  simp only [bind, Except.bind]
  rw [if_neg (by omega), if_pos hfree]
  rfl

end

section
variable (hconfig : config.isEncoderDecoder = false) (hs : OrderedFeatures request.mmFeatures)
include hconfig hs

theorem Skipped.step (h : Skipped request mmHash n budget s) (hf : request.mmFeatures[i]? = some f)
    (hend : c < f.endPos) (hoffset : f.offset ≤ c + n)
    (hbudget : f.mmPosition.getNumEmbeds ≤ budget)
    (hskip : f.identifier = mmHash → ¬ f.HasEmbedIn c (c + n) ∧ ¬ config.Splits f c n) :
    ∃ s', config.scanEncoderInput request c 1 i s = .ok (false, s') ∧
      Skipped request mmHash n budget s' := by
  have hmem := mem_of_getElem? hf
  unfold scanEncoderInput
  rw [feature_eq_ok.mpr hf, hconfig]
  have hnew : f.identifier ∉ s.mmHashesToSchedule := by simp [h.hashes]
  simp only [bind, Except.bind, Bool.false_eq_true, ↓reduceIte, if_neg hnew]
  by_cases hid : f.identifier = mmHash
  · obtain ⟨hno, hnosplit⟩ := hskip hid
    have hnone : s.manager.cached.get? f.identifier = none := by rw [hid, h.absent]
    have hembeds := (embedsInStep_eq_iff (hs.mask f hmem) hend hoffset).mpr hno
    have hfree := h.free
    have hspace := h.embeds
    rw [← h.budget] at hbudget hfree
    rw [← h.tokens] at hnosplit hembeds
    rw [checkAndUpdateCache_miss hf hnone]
    refine ⟨s, ?_, h⟩
    unfold placeEncoderInput
    simp only [if_neg hnosplit, Bool.false_eq_true, ↓reduceIte]
    rw [canAllocate_free hf hbudget (by omega)]
    simp only [bind, Except.bind, hembeds, Bool.true_eq_false, ↓reduceIte]
    rfl
  · obtain ⟨m', hm'⟩ := checkAndUpdateCache_hit hf (h.present f hmem hid)
    rw [hm']
    refine ⟨{ s with manager := m' }, rfl, ?_⟩
    obtain ⟨hhit, -⟩ | ⟨refs, -, hrefs, hcached, -, hslots⟩ :=
      checkAndUpdateCache_eq_ok hf hm'
    · simp at hhit
    have hsame : m'.cached.get? mmHash = s.manager.cached.get? mmHash := by
      rw [hcached, Dict.get?_set, if_neg (Ne.symm hid)]
    exact { h with
      absent := hsame.trans h.absent
      present := fun g hg hne => (h.present g hg hne).checkAndUpdateCache hm'
      free := hslots ▸ h.free }

theorem Skipped.run {inputs : List ℕ}
    (hinputs : ∀ i ∈ inputs, ∃ f, request.mmFeatures[i]? = some f ∧ c < f.endPos ∧
      f.offset ≤ c + n ∧ f.mmPosition.getNumEmbeds ≤ budget ∧
      (f.identifier = mmHash → ¬ f.HasEmbedIn c (c + n) ∧ ¬ config.Splits f c n))
    (h : Skipped request mmHash n budget s) :
    ∃ s', config.scanEncoderInputs request c 1 inputs s = .ok s' ∧
      Skipped request mmHash n budget s' := by
  induction inputs generalizing s with
  | nil => exact ⟨s, rfl, h⟩
  | cons i rest ih =>
    obtain ⟨f, hf, hend, hoffset, hbudget, hskip⟩ := hinputs i mem_cons_self
    obtain ⟨s₁, hs₁, h₁⟩ := h.step hconfig hs hf hend hoffset hbudget hskip
    obtain ⟨s', hs', h'⟩ := ih (fun j hj => hinputs j (mem_cons_of_mem i hj)) h₁
    refine ⟨s', ?_, h'⟩
    unfold scanEncoderInputs
    rw [hs₁]
    exact hs'

end

theorem Skipped.not_held (h : Skipped request mmHash n budget s) :
    s.workerHolds request mmHash = false := by
  simp [EncoderScan.workerHolds, Dict.contains, h.absent, h.scheduled, h.external]

theorem boundaryCovered_of_agrees (hconfig : config.isEncoderDecoder = false)
    (hs : OrderedFeatures request.mmFeatures) (hn : 0 < n)
    (h : config.AgreesWithWorker request c n 1) : config.BoundaryCovered request c n := by
  intro f hf hat hwithin
  by_contra huncovered
  push Not at huncovered
  obtain ⟨m, hm⟩ := exists_filled request f.identifier
    (request.mmFeatures.map fun g => g.mmPosition.getNumEmbeds).sum
  have hbudget : ∀ g ∈ request.mmFeatures, g.mmPosition.getNumEmbeds ≤
      (request.mmFeatures.map fun g => g.mmPosition.getNumEmbeds).sum := by
    intro g hg
    exact single_le_sum (by simp) _ (mem_map_of_mem hg)
  have hinputs : ∀ i ∈ List.range' (getMmFeaturesInWindow request.mmFeatures c (c + n + 1)).1
      ((getMmFeaturesInWindow request.mmFeatures c (c + n + 1)).2 -
        (getMmFeaturesInWindow request.mmFeatures c (c + n + 1)).1),
      ∃ g, request.mmFeatures[i]? = some g ∧ c < g.endPos ∧ g.offset ≤ c + n ∧
        g.mmPosition.getNumEmbeds ≤
          (request.mmFeatures.map fun g => g.mmPosition.getNumEmbeds).sum ∧
        (g.identifier = f.identifier → ¬ g.HasEmbedIn c (c + n) ∧ ¬ config.Splits g c n) := by
    intro i hi
    obtain ⟨g, hg, hend, hoffset⟩ := (mem_window_iff hs rfl).mp hi
    have hmem := mem_of_getElem? hg
    refine ⟨g, hg, hend, by omega, hbudget g hmem, ?_⟩
    intro hid
    obtain ⟨hno, hsplit⟩ := huncovered g hmem hid
    refine ⟨hno, ?_⟩
    intro hsplits
    have := hsplit hsplits
    omega
  have hpresent : ∀ g ∈ request.mmFeatures, g.identifier ≠ f.identifier →
      m.Refers request.requestId g.identifier := by
    intro g hg hne
    obtain ⟨i, hi⟩ := List.getElem?_of_mem hg
    exact hm.present i (List.getElem?_eq_some_iff.mp hi).1 g hi hne
  have hstart : Skipped request f.identifier n
      (request.mmFeatures.map fun g => g.mmPosition.getNumEmbeds).sum
      { manager := m
        numNewTokens := n
        encoderComputeBudget :=
          (request.mmFeatures.map fun g => g.mmPosition.getNumEmbeds).sum } :=
    { absent := hm.absent
      present := hpresent
      free := by simpa using hm.free
      tokens := rfl
      budget := rfl
      hashes := rfl
      embeds := rfl
      scheduled := rfl
      external := rfl }
  obtain ⟨s, hrun, hskipped⟩ := hstart.run hconfig hs hinputs
  have hschedule : config.tryScheduleEncoderInputs m request c n
      (request.mmFeatures.map fun g => g.mmPosition.getNumEmbeds).sum 1 = .ok s := by
    unfold tryScheduleEncoderInputs
    have hsome : request.hasEncoderInputs = true := by
      simpa [Request.hasEncoderInputs] using ne_nil_of_mem hf
    rw [if_neg (by simp [hsome]; omega), hconfig]
    exact hrun
  have hserves := (h m _ s hm.reachable hschedule (by rw [hskipped.tokens]; omega)).2 rfl
  have hreads : Reads request.mmFeatures (c + 1) s.numNewTokens.toNat f := by
    rw [reads_iff hs, hskipped.tokens]
    exact ⟨hf, c + n, by omega, by omega, hat⟩
  have := hserves.1 f hreads
  rw [hskipped.not_held] at this
  simp at this

end Skip

/-- Scheduler and worker agree on a step exactly if the step is empty, there is no shift, or no
input is uncovered at the end of the step. -/
theorem EncoderConfig.agreesWithWorker_iff {config : EncoderConfig} {request : Request}
    (hconfig : config.isEncoderDecoder = false) (hs : OrderedFeatures request.mmFeatures)
    (numComputedTokens numNewTokens : ℕ) {shiftComputedTokens : ℕ}
    (hshift : shiftComputedTokens ≤ 1) :
    config.AgreesWithWorker request numComputedTokens numNewTokens shiftComputedTokens ↔
      numNewTokens = 0 ∨ shiftComputedTokens = 0 ∨
        config.BoundaryCovered request numComputedTokens numNewTokens := by
  constructor
  · intro h
    obtain hn | hn := Nat.eq_zero_or_pos numNewTokens
    · exact .inl hn
    obtain rfl | hone := Nat.eq_zero_or_pos shiftComputedTokens
    · exact .inr (.inl rfl)
    obtain rfl : shiftComputedTokens = 1 := by omega
    exact .inr (.inr (boundaryCovered_of_agrees hconfig hs hn h))
  · rintro (rfl | hcovered)
    · intro manager budget s hm h hpos
      obtain rfl := Raises.pure_eq_ok.mp (by simpa [tryScheduleEncoderInputs] using h)
      simp at hpos
    · exact agreesWithWorker_of_covered hs hconfig hshift hcovered

/-- One image, for the third token of the prompt. -/
def imageRequest : Request where
  requestId := 0
  promptTokenIds := some [7, 7, 9, 7]
  numPromptTokens := 4
  allTokenIds := [7, 7, 9, 7]
  mmFeatures := [⟨"image", ⟨2, 1, none⟩⟩]

def imageConfig : EncoderConfig where
  isEncoderDecoder := false
  disableChunkedMmInput := false
  hasCacheItem := none

theorem orderedFeatures_imageRequest : OrderedFeatures imageRequest.mmFeatures where
  offset := pairwise_singleton _ _
  endPos := pairwise_singleton _ _
  mask := by simp [imageRequest]

/-- A step of three tokens computes the image, and both sides agree on it. -/
theorem agreesWithWorker_iff_imageRequest : imageConfig.AgreesWithWorker imageRequest 0 3 1 := by
  apply (agreesWithWorker_iff rfl orderedFeatures_imageRequest 0 3 le_rfl).mpr
  apply Or.inr
  apply Or.inr
  rintro f hf ⟨-, hlast, -⟩ -
  obtain rfl : f = ⟨"image", ⟨2, 1, none⟩⟩ := by simpa [imageRequest] using hf
  simp [MultiModalFeatureSpec.endPos] at hlast

/-- A step of two tokens ends right in front of the image, and the drafter misses it. -/
theorem imageRequest_disagrees : ¬ imageConfig.AgreesWithWorker imageRequest 0 2 1 := by
  intro h
  obtain ⟨s, hs, heval⟩ := Raises.exists_ok
    (x := imageConfig.tryScheduleEncoderInputs (.init 8) imageRequest 0 2 8 1)
    (f := fun s => decide (s.numNewTokens = 2) &&
      decide (gatherMmEmbeddings (s.workerHolds imageRequest) imageRequest.mmFeatures 1 2 0 =
        .error (.encoderCacheMiss "image"))) (b := true) (by decide +kernel)
  rw [Bool.and_eq_true, decide_eq_true_eq, decide_eq_true_eq] at heval
  have hserves := (h _ 8 s (.init 8) hs (by omega)).2 rfl
  rw [heval.1] at hserves
  exact hserves.2 0 "image" heval.2

end Vllm
