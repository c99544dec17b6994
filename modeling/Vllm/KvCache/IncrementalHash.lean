import Vllm.KvCache.PrefixSoundness

/-! Hashing a request piece by piece. A call restarts its scan at the last feature, so the hashes
are the one-shot hashes exactly when no other feature overlaps a block hashed after a restart. -/
namespace Vllm
open Request List

/-- The hashes a request accumulates: one call when it is created, one after each piece. -/
def hashIncrementally (hasher : BlockHasher) (r : Request) (pieces : List (List TokenId)) :
    Raises Request := do
  let r ← r.updateBlockHashes (some hasher)
  pieces.foldlM (fun r piece => r.appendOutputTokenIds (some hasher) piece) r

/-- The number of blocks hashed by the first call that finds a full block. -/
def scratchBlocks (blockSize : ℕ) : ℕ → List (List TokenId) → ℕ
  | len, [] => len / blockSize
  | len, piece :: pieces =>
    if 0 < len / blockSize then len / blockSize
    else scratchBlocks blockSize (len + piece.length) pieces

/-- Blocks `first..total - 1` overlap no feature but the last. -/
def RestartSafe (hasher : BlockHasher) (fs : List MultiModalFeatureSpec)
    (first total : ℕ) : Prop :=
  ∀ j, first ≤ j → j < total → ∀ f ∈ fs.dropLast,
    ¬ f.Overlaps (j * hasher.blockSize) ((j + 1) * hasher.blockSize)

/-- Blocks below `m` list their visible features, later ones only the last feature. -/
def mixedKeys (hasher : BlockHasher) (r : Request) (m j : ℕ) : Option (List ExtraKey) :=
  blockExtraKeys hasher r
    (if j < m then visible r.mmFeatures else restartVisible r.mmFeatures) j

/-- The hashes of all full blocks, the first `m` of them from a full scan. -/
def Accumulated (hasher : BlockHasher) (r : Request) (m : ℕ) : Prop :=
  r.blockHashes = hashesUpTo hasher r.allTokenIds (mixedKeys hasher r m)
    (r.numTokens / hasher.blockSize)

theorem takeThrough_eq_self {α : Type} {p : α → Bool} {l : List α}
    (h : l.Pairwise fun a _ => p a = false) : takeThrough p l = l := by
  induction l with
  | nil => rfl
  | cons a l ih =>
    obtain ⟨ha, hl⟩ := pairwise_cons.mp h
    cases l with
    | nil => by_cases hp : p a <;> simp [takeThrough, hp]
    | cons b l =>
      have hp : p a = false := ha b (by simp)
      rw [takeThrough, hp, ih hl]
      simp

theorem DisjointFeatures.visible_eq {fs : List MultiModalFeatureSpec}
    (h : DisjointFeatures fs) (start stop : ℕ) :
    visible fs start stop = overlapping fs start stop := by
  rcases eq_nil_or_concat fs with rfl | ⟨init, last, rfl⟩
  · rfl
  · simp only [concat_eq_append] at h ⊢
    by_cases hlast : last.endPos ≤ start
    · have hnil : overlapping (init ++ [last]) start stop = [] := by
        refine overlapping_eq_nil fun f hf ho => ?_
        have hend : f.endPos ≤ last.endPos := by
          rcases mem_append.mp hf with hf | hf
          · have hfl := (pairwise_append.mp h).2.2 f hf last (by simp)
            exact le_trans hfl (Nat.le_add_right _ _)
          · rw [mem_singleton.mp hf]
        exact absurd ho.2 (by omega)
      simp [visible, hlast, hnil]
    · have hpair : (overlapping (init ++ [last]) start stop).Pairwise
          fun a _ => decide (stop < a.endPos) = false := by
        refine List.Pairwise.imp_of_mem ?_ (h.sublist filter_sublist)
        intro a b _ hb hab
        have hov : b.Overlaps start stop := by simpa using (mem_filter.mp hb).2
        exact decide_eq_false (not_lt.mpr (le_trans hab hov.1.le))
      simp only [visible, List.getLast?_append, List.getLast?_singleton, Option.some_or, hlast,
        ↓reduceIte, takeThrough_eq_self hpair]

theorem overlapping_split (fs : List MultiModalFeatureSpec) (start stop : ℕ) :
    overlapping fs start stop =
      overlapping fs.dropLast start stop ++ restartVisible fs start stop := by
  rcases eq_nil_or_concat fs with rfl | ⟨init, last, rfl⟩
  · rfl
  · simp [overlapping, restartVisible, filter_append]

theorem restartVisible_eq_visible {fs : List MultiModalFeatureSpec} {start stop : ℕ}
    (h : ∀ f ∈ fs.dropLast, ¬ f.Overlaps start stop) :
    restartVisible fs start stop = visible fs start stop := by
  have hall : overlapping fs start stop = restartVisible fs start stop := by
    rw [overlapping_split, overlapping_eq_nil h, nil_append]
  rcases eq_nil_or_concat fs with rfl | ⟨init, last, rfl⟩
  · rfl
  · have hlast : (init.concat last).getLast? = some last := by simp
    simp only [visible, hlast, hall]
    by_cases hov : last.Overlaps start stop
    · have hend : ¬ last.endPos ≤ start := not_le.mpr hov.2
      have hone : restartVisible (init.concat last) start stop = [last] := by
        simp [restartVisible, overlapping, hov]
      rw [if_neg hend, hone, takeThrough_eq_self (pairwise_singleton _ _)]
    · have hnil : restartVisible (init.concat last) start stop = [] := by
        simp [restartVisible, overlapping, hov]
      rw [hnil]
      split_ifs <;> rfl

variable {hasher : BlockHasher} {r : Request}

/-- A restarted scan lists the same keys exactly when only the last feature overlaps. -/
theorem restart_keys_eq_iff (h : DisjointFeatures r.mmFeatures) (j : ℕ) :
    blockExtraKeys hasher r (restartVisible r.mmFeatures) j =
        blockExtraKeys hasher r (visible r.mmFeatures) j ↔
      ∀ f ∈ r.mmFeatures.dropLast,
        ¬ f.Overlaps (j * hasher.blockSize) ((j + 1) * hasher.blockSize) := by
  constructor
  · intro heq
    have hwrap (l l' : List ExtraKey) :
        ((if l = [] then none else some l) = if l' = [] then none else some l') ↔ l = l' := by
      cases l <;> cases l' <;> simp
    have hkeys := (hwrap _ _).mp heq
    simp only [append_assoc, append_cancel_left_eq] at hkeys
    have hlen := congrArg List.length (append_cancel_right hkeys)
    rw [mmKeys_eq, mmKeys_eq, length_map, length_map, h.visible_eq,
      overlapping_split, length_append] at hlen
    have hnil := length_eq_zero_iff.mp (by omega :
      (overlapping r.mmFeatures.dropLast (j * hasher.blockSize)
        ((j + 1) * hasher.blockSize)).length = 0)
    simpa [overlapping, filter_eq_nil_iff] using hnil
  · intro hnone
    simp only [blockExtraKeys, restartVisible_eq_visible hnone]

theorem mixedKeys_eq_visible_iff (h : DisjointFeatures r.mmFeatures) (m n : ℕ) :
    (∀ j < n, mixedKeys hasher r m j = blockExtraKeys hasher r (visible r.mmFeatures) j) ↔
      RestartSafe hasher r.mmFeatures m n := by
  constructor
  · intro hall j hm hn
    have := hall j hn
    rw [mixedKeys, if_neg (by omega)] at this
    exact (restart_keys_eq_iff h j).mp this
  · intro hsafe j hn
    by_cases hm : j < m
    · rw [mixedKeys, if_pos hm]
    · rw [mixedKeys, if_neg hm]
      exact (restart_keys_eq_iff h j).mpr (hsafe j (by omega) hn)

theorem appendOutputTokenIds_accumulated {m : ℕ} (hsorted : SortedFeatures r.mmFeatures)
    (h : Accumulated hasher r m)
    (hm : 0 < r.numTokens / hasher.blockSize → m ≤ r.numTokens / hasher.blockSize)
    (piece : List TokenId) :
    ∃ hashes, r.appendOutputTokenIds (some hasher) piece = .ok { r with
        outputTokenIds := r.outputTokenIds ++ piece
        allTokenIds := r.allTokenIds ++ piece
        blockHashes := hashes } ∧
      hashes = hashesUpTo hasher (r.allTokenIds ++ piece) (mixedKeys hasher r
        (if 0 < r.numTokens / hasher.blockSize then m
          else (r.numTokens + piece.length) / hasher.blockSize))
        ((r.numTokens + piece.length) / hasher.blockSize) := by
  have hnum : (r.allTokenIds ++ piece).length = r.numTokens + piece.length := by
    simp [numTokens]
  have hmono : r.numTokens / hasher.blockSize ≤
      (r.numTokens + piece.length) / hasher.blockSize :=
    Nat.div_le_div_right (Nat.le_add_right _ _)
  refine ⟨_, ?_, rfl⟩
  let grown : Request := { r with
    outputTokenIds := r.outputTokenIds ++ piece, allTokenIds := r.allTokenIds ++ piece }
  have hgrown : SortedFeatures grown.mmFeatures := hsorted
  unfold appendOutputTokenIds
  rw [← hnum]
  by_cases hpos : 0 < r.numTokens / hasher.blockSize
  · rw [if_pos hpos]
    have hne : r.blockHashes ≠ [] := by
      intro hnil
      have := congrArg List.length (hnil.symm.trans h)
      simp at this
      omega
    refine updateBlockHashes_eq (n := r.numTokens / hasher.blockSize) hgrown ?_ ?_ ?_
    · exact h.trans (hashesUpTo_append hasher r.allTokenIds piece _ le_rfl).symm
    · exact le_of_le_of_eq hmono (congrArg (· / hasher.blockSize) hnum).symm
    · intro j hj _
      have hlisted : listedFeatures grown = restartVisible r.mmFeatures := if_neg hne
      rw [hlisted, mixedKeys, if_neg (by omega : ¬ j < m)]
      rfl
  · rw [if_neg hpos]
    have hnil : r.blockHashes = [] := by
      have hzero := Nat.eq_zero_of_not_pos hpos
      rw [h, hzero]
      rfl
    refine updateBlockHashes_eq (n := 0) hgrown ?_ (Nat.zero_le _) ?_
    · exact hnil
    · intro j _ hj
      have hlisted : listedFeatures grown = visible r.mmFeatures := if_pos hnil
      have hj' : j < (r.allTokenIds ++ piece).length / hasher.blockSize := hj
      rw [hlisted, mixedKeys, if_pos hj']
      rfl

theorem scratchBlocks_of_pos {blockSize len : ℕ} (h : 0 < len / blockSize)
    (pieces : List (List TokenId)) : scratchBlocks blockSize len pieces = len / blockSize := by
  cases pieces <;> simp [scratchBlocks, h]

theorem foldlM_append_accumulated (pieces : List (List TokenId)) {m : ℕ}
    (hsorted : SortedFeatures r.mmFeatures) (h : Accumulated hasher r m)
    (hm : 0 < r.numTokens / hasher.blockSize → m ≤ r.numTokens / hasher.blockSize) :
    Except.map blockHashes
        (pieces.foldlM (fun r piece => r.appendOutputTokenIds (some hasher) piece) r) =
      .ok (hashesUpTo hasher (r.allTokenIds ++ pieces.flatten) (mixedKeys hasher r
        (if 0 < r.numTokens / hasher.blockSize then m
          else scratchBlocks hasher.blockSize r.numTokens pieces))
        ((r.allTokenIds ++ pieces.flatten).length / hasher.blockSize)) := by
  induction pieces generalizing r m with
  | nil =>
    have hcase : hashesUpTo hasher r.allTokenIds (mixedKeys hasher r
        (if 0 < r.numTokens / hasher.blockSize then m else r.numTokens / hasher.blockSize))
        (r.numTokens / hasher.blockSize) = r.blockHashes := by
      by_cases hpos : 0 < r.numTokens / hasher.blockSize
      · rw [if_pos hpos, h]
      · rw [h, Nat.eq_zero_of_not_pos hpos]
        rfl
    simp only [foldlM_nil, flatten_nil, append_nil, scratchBlocks]
    exact congrArg Except.ok hcase.symm
  | cons piece pieces ih =>
    obtain ⟨hashes, happ, hhashes⟩ := appendOutputTokenIds_accumulated hsorted h hm piece
    let grown : Request := { r with
      outputTokenIds := r.outputTokenIds ++ piece
      allTokenIds := r.allTokenIds ++ piece
      blockHashes := hashes }
    have hnum : grown.numTokens = r.numTokens + piece.length := by
      simp [grown, numTokens]
    have hmono : r.numTokens / hasher.blockSize ≤ grown.numTokens / hasher.blockSize :=
      Nat.div_le_div_right (by omega)
    set m' := if 0 < r.numTokens / hasher.blockSize then m
      else (r.numTokens + piece.length) / hasher.blockSize with hm'
    have hacc : Accumulated hasher grown m' := by
      rw [Accumulated, hnum]
      exact hhashes
    have hle : m' ≤ grown.numTokens / hasher.blockSize := by
      rw [hm']
      split_ifs with hpos
      · exact le_trans (hm hpos) hmono
      · rw [hnum]
    have hrec := ih (r := grown) hsorted hacc fun _ => hle
    have hscratch : (if 0 < grown.numTokens / hasher.blockSize then m'
        else scratchBlocks hasher.blockSize grown.numTokens pieces) =
          if 0 < r.numTokens / hasher.blockSize then m
          else scratchBlocks hasher.blockSize r.numTokens (piece :: pieces) := by
      by_cases hpos : 0 < r.numTokens / hasher.blockSize
      · rw [if_pos hpos, if_pos (lt_of_lt_of_le hpos hmono), hm', if_pos hpos]
      · rw [if_neg hpos, scratchBlocks, if_neg hpos, ← hnum]
        by_cases hpos' : 0 < grown.numTokens / hasher.blockSize
        · rw [if_pos hpos', scratchBlocks_of_pos hpos', hm', if_neg hpos, ← hnum]
        · rw [if_neg hpos']
    rw [hscratch] at hrec
    rw [foldlM_cons, happ, flatten_cons, ← append_assoc]
    exact hrec

theorem hashIncrementally_hashes (hsorted : SortedFeatures r.mmFeatures) (hnew : r.blockHashes = [])
    (pieces : List (List TokenId)) :
    (hashIncrementally hasher r pieces).map blockHashes =
      .ok (hashesUpTo hasher (r.allTokenIds ++ pieces.flatten) (mixedKeys hasher r
        (scratchBlocks hasher.blockSize r.numTokens pieces))
        ((r.allTokenIds ++ pieces.flatten).length / hasher.blockSize)) := by
  set n := r.numTokens / hasher.blockSize with hn
  have hkeys : ∀ j, 0 ≤ j → j < r.numTokens / hasher.blockSize →
      blockExtraKeys hasher r (listedFeatures r) j = mixedKeys hasher r n j := by
    intro j _ hj
    rw [mixedKeys, if_pos hj, listedFeatures, if_pos hnew]
  have hfirst := updateBlockHashes_eq hsorted (n := 0) hnew (Nat.zero_le _) hkeys
  have hrun := foldlM_append_accumulated pieces (m := n) (r := { r with
    blockHashes := hashesUpTo hasher r.allTokenIds (mixedKeys hasher r n) n })
    hsorted rfl fun _ => le_rfl
  have hscratch : (if 0 < n then n
      else scratchBlocks hasher.blockSize r.numTokens pieces) =
        scratchBlocks hasher.blockSize r.numTokens pieces := by
    split_ifs with hpos
    · exact (scratchBlocks_of_pos hpos pieces).symm
    · rfl
  rw [← hscratch, hashIncrementally, hfirst]
  exact hrun

theorem hashIncrementally_eq_iff (hinj : Function.Injective hasher.cachingHashFn)
    (hne : ∀ x, hasher.cachingHashFn x ≠ [])
    (hdisj : DisjointFeatures r.mmFeatures) (hnew : r.blockHashes = [])
    (pieces : List (List TokenId))
    (heq : (hashIncrementally hasher r pieces).map blockHashes =
      requestBlockHasher hasher { r with allTokenIds := r.allTokenIds ++ pieces.flatten }) :
    RestartSafe hasher r.mmFeatures (scratchBlocks hasher.blockSize r.numTokens pieces)
      ((r.allTokenIds ++ pieces.flatten).length / hasher.blockSize) := by
  rw [hashIncrementally_hashes hdisj.sorted hnew] at heq
  have hone := requestBlockHasher_scratch hasher
    { r with allTokenIds := r.allTokenIds ++ pieces.flatten } hdisj.sorted hnew
  have hlists := Except.ok.inj (heq.trans hone)
  refine (mixedKeys_eq_visible_iff hdisj _ _).mp fun j hj => ?_
  have hj' : chainHash hasher (r.allTokenIds ++ pieces.flatten) (mixedKeys hasher r
      (scratchBlocks hasher.blockSize r.numTokens pieces)) j =
        chainHash hasher (r.allTokenIds ++ pieces.flatten)
          (blockExtraKeys hasher r (visible r.mmFeatures)) j :=
    map_inj_left.mp hlists j (mem_range.mpr hj)
  exact (chainHash_injective hinj hne hj' j le_rfl).2

/-- Hashing piece by piece gives the hashes of one call on the whole request when no
feature but the last overlaps a block hashed after a restart, and for an injective hash
function only then. -/
theorem hashIncrementally_eq_oneShot (hasher : BlockHasher) {r : Request}
    (hdisj : DisjointFeatures r.mmFeatures) (hnew : r.blockHashes = [])
    (pieces : List (List TokenId)) :
    (RestartSafe hasher r.mmFeatures (scratchBlocks hasher.blockSize r.numTokens pieces)
        ((r.allTokenIds ++ pieces.flatten).length / hasher.blockSize) →
      (hashIncrementally hasher r pieces).map blockHashes =
        requestBlockHasher hasher { r with allTokenIds := r.allTokenIds ++ pieces.flatten }) ∧
    (Function.Injective hasher.cachingHashFn → (∀ x, hasher.cachingHashFn x ≠ []) →
      (hashIncrementally hasher r pieces).map blockHashes =
        requestBlockHasher hasher { r with allTokenIds := r.allTokenIds ++ pieces.flatten } →
      RestartSafe hasher r.mmFeatures (scratchBlocks hasher.blockSize r.numTokens pieces)
        ((r.allTokenIds ++ pieces.flatten).length / hasher.blockSize)) := by
  refine ⟨fun hsafe => ?_, fun hinj hne heq =>
    hashIncrementally_eq_iff hinj hne hdisj hnew pieces heq⟩
  have hone := requestBlockHasher_scratch hasher
    { r with allTokenIds := r.allTokenIds ++ pieces.flatten } hdisj.sorted hnew
  rw [hashIncrementally_hashes hdisj.sorted hnew, hone]
  exact congrArg Except.ok (hashesUpTo_congr hasher fun j hj =>
    ⟨rfl, (mixedKeys_eq_visible_iff hdisj _ _).mpr hsafe j hj⟩)

/-- A six-token prompt with two one-token features in its second block. -/
def twoFeatureRequest : Request :=
  { requestId := 0, promptTokenIds := some [1, 2, 3, 4, 5, 6], numPromptTokens := 6
    allTokenIds := [1, 2, 3, 4, 5, 6]
    mmFeatures := [⟨"a", ⟨4, 1, none⟩⟩, ⟨"b", ⟨5, 1, none⟩⟩] }

/-- Completing the second block with output tokens loses the first of two features. -/
theorem hashIncrementally_ne_oneShot :
    ¬ ∀ (hasher : BlockHasher) (r : Request), DisjointFeatures r.mmFeatures →
      r.blockHashes = [] → ∀ pieces : List (List TokenId),
      (hashIncrementally hasher r pieces).map blockHashes =
        requestBlockHasher hasher { r with allTokenIds := r.allTokenIds ++ pieces.flatten } := by
  intro h
  have hdisj : DisjointFeatures twoFeatureRequest.mmFeatures := by
    unfold DisjointFeatures
    decide
  have heq := h (unaryHasher 4 (by decide)) twoFeatureRequest hdisj rfl [[7, 8]]
  have hsafe := hashIncrementally_eq_iff (unaryHasher_injective _)
    (fun x => by simp [unaryHasher]) hdisj rfl _ heq
  exact hsafe 1 (by decide) (by decide) ⟨"a", ⟨4, 1, none⟩⟩ (by decide) (by decide)

/-- With only the last feature in the block under construction nothing is lost. -/
theorem hashIncrementally_eq_oneShot_lastFeature :
    let hasher := unaryHasher 4 (by decide)
    let r := { twoFeatureRequest with mmFeatures := [⟨"a", ⟨2, 1, none⟩⟩, ⟨"b", ⟨5, 1, none⟩⟩] }
    (hashIncrementally hasher r [[7, 8]]).map blockHashes =
      requestBlockHasher hasher { r with allTokenIds := r.allTokenIds ++ [7, 8] } := by
  intro hasher r
  refine (hashIncrementally_eq_oneShot hasher (r := r) ?_ rfl [[7, 8]]).1 ?_
  · show DisjointFeatures _
    unfold DisjointFeatures
    decide
  · intro j hfirst htotal f hf
    have hj : j = 1 := by
      have h1 : scratchBlocks hasher.blockSize r.numTokens [[7, 8]] = 1 := by decide
      have h2 : (r.allTokenIds ++ [[7, 8]].flatten).length / hasher.blockSize = 2 := by decide
      omega
    subst hj
    revert f
    decide

end Vllm
