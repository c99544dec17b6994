import Vllm.KvCache.BlockHash

/-! The request block hasher, block by block. A restarted scan lists the `visible` features of the
last one only; either way the returned hashes form a chain. -/
namespace Vllm
open List Nat

/-- The placeholder shares a position with the block, as the scan tests it. -/
def MultiModalFeatureSpec.Overlaps (f : MultiModalFeatureSpec) (start stop : ℕ) : Prop :=
  f.offset < stop ∧ start < f.endPos

instance (f : MultiModalFeatureSpec) (start stop : ℕ) : Decidable (f.Overlaps start stop) :=
  inferInstanceAs (Decidable (_ ∧ _))

/-- The items of a block: identifier and offset from the start of the block. -/
def mmItems (fs : List MultiModalFeatureSpec) (start : ℕ) : List (String × ℤ) :=
  fs.map fun f => (f.identifier, (f.offset : ℤ) - start)

/-- Elements up to and including the first that satisfies `p`. -/
def takeThrough {α : Type} (p : α → Bool) : List α → List α
  | [] => []
  | a :: l => if p a then [a] else a :: takeThrough p l

def overlapping (fs : List MultiModalFeatureSpec) (start stop : ℕ) :
    List MultiModalFeatureSpec :=
  fs.filter fun f => f.Overlaps start stop

/-- The features a scan from the first feature lists for a block: none once the last
feature is over, and none behind a feature that reaches past the block. -/
def visible (fs : List MultiModalFeatureSpec) (start stop : ℕ) : List MultiModalFeatureSpec :=
  match fs.getLast? with
  | none => []
  | some last =>
    if last.endPos ≤ start then []
    else takeThrough (fun f => stop < f.endPos) (overlapping fs start stop)

/-- The features a restarted scan lists for a block: the last one, if it overlaps. -/
def restartVisible (fs : List MultiModalFeatureSpec) (start stop : ℕ) :
    List MultiModalFeatureSpec :=
  overlapping fs.getLast?.toList start stop

def mmKeys (fs : List MultiModalFeatureSpec) (start : ℕ) : List ExtraKey :=
  (mmItems fs start).map fun item => .mm item.1 item.2

/-- The extra keys of block `j`, given the features listed for it. -/
def blockExtraKeys (hasher : BlockHasher) (r : Request)
    (listed : ℕ → ℕ → List MultiModalFeatureSpec) (j : ℕ) : Option (List ExtraKey) :=
  let start := j * hasher.blockSize
  let stop := (j + 1) * hasher.blockSize
  let keys := genLoraExtraHashKeys r ++ mmKeys (listed start stop) start ++
    cacheSaltKeys r start ++ genPromptEmbedsExtraHashKeys hasher.sha256 r start stop
  if keys = [] then none else some keys

def blockTokens (hasher : BlockHasher) (tokens : List TokenId) (j : ℕ) : List TokenId :=
  slice tokens (j * hasher.blockSize) ((j + 1) * hasher.blockSize)

/-- The hashes of `n` consecutive blocks from block `j` on, chained from `prev`. -/
def hashChain (hasher : BlockHasher) (tokens : List TokenId)
    (keys : ℕ → Option (List ExtraKey)) : ℕ → ℕ → Option BlockHash → List BlockHash
  | _, 0, _ => []
  | j, n + 1, prev =>
    let h := hashBlockTokens hasher prev (blockTokens hasher tokens j) (keys j)
    h :: hashChain hasher tokens keys (j + 1) n (some h)

def SortedFeatures (fs : List MultiModalFeatureSpec) : Prop :=
  fs.Pairwise fun f g => f.offset ≤ g.offset

/-- Placeholders in order, each behind the end of the one before. -/
def DisjointFeatures (fs : List MultiModalFeatureSpec) : Prop :=
  fs.Pairwise fun f g => f.endPos ≤ g.offset

variable {fs : List MultiModalFeatureSpec} {start stop j n : ℕ} {r : Request} {idx : ℤ}
  {hasher : BlockHasher} {keys keys' : ℕ → Option (List ExtraKey)} {tokens tokens' : List TokenId}

theorem DisjointFeatures.sorted (h : DisjointFeatures fs) : SortedFeatures fs :=
  h.imp fun hfg => le_trans (le_add_right _ _) hfg

theorem overlapping_eq_nil (h : ∀ f ∈ fs, ¬ f.Overlaps start stop) :
    overlapping fs start stop = [] := by
  simpa [overlapping, filter_eq_nil_iff] using h

theorem mmKeys_eq (fs : List MultiModalFeatureSpec) (start : ℕ) :
    mmKeys fs start = fs.map fun f => .mm f.identifier ((f.offset : ℤ) - start) := by
  simp [mmKeys, mmItems]

theorem mmScan_keys (h : SortedFeatures fs) (start stop idx : ℕ) :
    (mmScan start stop fs idx).1 =
      mmKeys (takeThrough (fun f => stop < f.endPos) (overlapping fs start stop)) start := by
  induction fs generalizing idx with
  | nil => rfl
  | cons f fs ih =>
    obtain ⟨hf, hfs⟩ := pairwise_cons.mp h
    by_cases hoff : stop > f.offset
    · by_cases hpass : start ≥ f.endPos
      · have hno : ¬ f.Overlaps start stop := fun ho => absurd ho.2 (by omega)
        simp only [mmScan, hoff, hpass, ↓reduceIte, ih hfs]
        simp [overlapping, hno]
      · have hov : f.Overlaps start stop := ⟨hoff, by omega⟩
        have hcons : overlapping (f :: fs) start stop = f :: overlapping fs start stop := by
          simp [overlapping, hov]
        by_cases hend : stop ≥ f.endPos
        · have : ¬ stop < f.endPos := by omega
          simp [mmScan, hoff, hpass, hend, ih hfs, hcons, takeThrough, this, mmKeys_eq]
        · have : stop < f.endPos := by omega
          simp [mmScan, hoff, hpass, hend, hcons, takeThrough, this, mmKeys_eq]
    · have hnil : overlapping (f :: fs) start stop = [] := by
        refine overlapping_eq_nil fun g hg ho => hoff ?_
        rcases mem_cons.mp hg with rfl | hg
        · exact ho.1
        · exact lt_of_le_of_lt (hf g hg) ho.1
      simp [mmScan, hoff, hnil, takeThrough, mmKeys, mmItems]

theorem mmScan_passed (fs : List MultiModalFeatureSpec) (hle : start ≤ stop) (idx : ℕ) :
    idx ≤ (mmScan start stop fs idx).2 ∧
      ∀ f ∈ fs.take ((mmScan start stop fs idx).2 - idx), f.endPos ≤ stop := by
  induction fs generalizing idx with
  | nil => simp [mmScan]
  | cons f fs ih =>
    have hstep (hf : f.endPos ≤ stop) : idx ≤ (mmScan start stop fs (idx + 1)).2 ∧
        ∀ g ∈ (f :: fs).take ((mmScan start stop fs (idx + 1)).2 - idx), g.endPos ≤ stop := by
      obtain ⟨h1, h2⟩ := ih (idx + 1)
      refine ⟨by omega, fun g hg => ?_⟩
      have hsub : (mmScan start stop fs (idx + 1)).2 - idx =
          (mmScan start stop fs (idx + 1)).2 - (idx + 1) + 1 := by omega
      rw [hsub, take_succ_cons, mem_cons] at hg
      rcases hg with rfl | hg
      · exact hf
      · exact h2 g hg
    unfold mmScan
    split
    · split
      · exact hstep (by omega)
      · dsimp only
        split
        · exact hstep (by omega)
        · simp
    · simp

/-- The features before position `idx` are over at `start`. -/
def Passed (fs : List MultiModalFeatureSpec) (idx start : ℕ) : Prop :=
  ∀ f ∈ fs.take idx, f.endPos ≤ start

theorem overlapping_drop {idx : ℕ} (h : Passed fs idx start) (stop : ℕ) :
    overlapping (fs.drop idx) start stop = overlapping fs start stop := by
  have hnil : overlapping (fs.take idx) start stop = [] :=
    overlapping_eq_nil fun f hf ho => absurd ho.2 (not_lt.mpr (h f hf))
  calc overlapping (fs.drop idx) start stop
      = overlapping (fs.take idx) start stop ++ overlapping (fs.drop idx) start stop := by
        rw [hnil, nil_append]
    _ = overlapping fs start stop := by
        simp only [overlapping, ← filter_append, take_append_drop]

theorem Passed.mmScan {idx : ℕ} (h : Passed fs idx start) (hle : start ≤ stop) :
    Passed fs (mmScan start stop (fs.drop idx) idx).2 stop := by
  obtain ⟨hidx, hscan⟩ := mmScan_passed (fs.drop idx) hle idx
  intro f hf
  have hsplit : (Vllm.mmScan start stop (fs.drop idx) idx).2 =
      idx + ((Vllm.mmScan start stop (fs.drop idx) idx).2 - idx) := by omega
  rw [hsplit, take_add, mem_append] at hf
  rcases hf with hf | hf
  · exact le_trans (h f hf) hle
  · exact hscan f hf

theorem genMmExtraHashKeys_scratch (h : SortedFeatures r.mmFeatures) {idx : ℕ} (hle : start ≤ stop)
    (hp : Passed r.mmFeatures idx start) :
    ∃ idx' : ℕ, genMmExtraHashKeys r start stop idx =
        .ok (mmKeys (visible r.mmFeatures start stop) start, idx') ∧
      Passed r.mmFeatures idx' stop := by
  have hmono : Passed r.mmFeatures idx stop := fun f hf => le_trans (hp f hf) hle
  unfold genMmExtraHashKeys visible
  cases r.mmFeatures.getLast? with
  | none => exact ⟨idx, rfl, hmono⟩
  | some last =>
    by_cases hlast : last.endPos ≤ start
    · simp only [hlast, ↓reduceIte]
      exact ⟨idx, rfl, hmono⟩
    · have hneg : ¬ (idx : ℤ) < 0 := by omega
      have hdrop : SortedFeatures (r.mmFeatures.drop idx) :=
        List.Pairwise.sublist (drop_sublist _ _) h
      refine ⟨_, ?_, hp.mmScan hle⟩
      simp only [hlast, hneg, ↓reduceIte, Int.toNat_natCast, Raises.require, false_implies,
        mmScan_keys hdrop, overlapping_drop hp]
      rfl

/-- The position of a restarted scan: the last feature, or behind it once it is over. -/
def AtLast (fs : List MultiModalFeatureSpec) (idx : ℤ) (start : ℕ) : Prop :=
  idx = -1 ∨ idx + 1 = fs.length ∨
    (idx = fs.length ∧ ∀ last ∈ fs.getLast?, last.endPos ≤ start)

theorem AtLast.mono (h : AtLast fs idx start) (hle : start ≤ stop) : AtLast fs idx stop := by
  rcases h with h | h | ⟨h, hlast⟩
  · exact .inl h
  · exact .inr (.inl h)
  · exact .inr (.inr ⟨h, fun f hf => le_trans (hlast f hf) hle⟩)

theorem mmScan_singleton (f : MultiModalFeatureSpec) (stop idx : ℕ) (hf : start < f.endPos) :
    (mmScan start stop [f] idx).1 = mmKeys (overlapping [f] start stop) start ∧
      ((mmScan start stop [f] idx).2 = idx ∨
        (mmScan start stop [f] idx).2 = idx + 1 ∧ f.endPos ≤ stop) := by
  have hpass : ¬ start ≥ f.endPos := by omega
  by_cases hoff : stop > f.offset
  · have hov : f.Overlaps start stop := ⟨hoff, hf⟩
    by_cases hend : stop ≥ f.endPos
    · simp [mmScan, hoff, hpass, hend, overlapping, hov, mmKeys_eq]
    · simp [mmScan, hoff, hpass, hend, overlapping, hov, mmKeys_eq]
  · have hov : ¬ f.Overlaps start stop := fun ho => hoff ho.1
    simp [mmScan, hoff, overlapping, hov, mmKeys_eq]

theorem genMmExtraHashKeys_restart (hle : start ≤ stop) (hidx : AtLast r.mmFeatures idx start) :
    ∃ idx' : ℤ, genMmExtraHashKeys r start stop idx =
        .ok (mmKeys (restartVisible r.mmFeatures start stop) start, idx') ∧
      AtLast r.mmFeatures idx' stop := by
  rcases eq_nil_or_concat r.mmFeatures with hnil | ⟨fs, last, hfs⟩
  · refine ⟨idx, ?_, hidx.mono hle⟩
    simp [genMmExtraHashKeys, hnil, restartVisible, overlapping, mmKeys_eq, pure, Except.pure]
  · have hget : r.mmFeatures.getLast? = some last := by simp [hfs]
    have hlen : r.mmFeatures.length = fs.length + 1 := by simp [hfs]
    by_cases hlast : last.endPos ≤ start
    · refine ⟨idx, ?_, hidx.mono hle⟩
      have hno : ¬ last.Overlaps start stop := fun ho => absurd ho.2 (by omega)
      simp [genMmExtraHashKeys, hget, hlast, restartVisible, overlapping, hno, mmKeys_eq,
        pure, Except.pure]
    · have hcurr : (if idx < 0 then (r.mmFeatures.length : ℤ) + idx else idx).toNat =
          fs.length := by
        rcases hidx with h | h | ⟨-, h⟩
        · rw [h, hlen]; simp
        · rw [hlen] at h
          have heq : idx = fs.length := by omega
          have hneg : ¬ (fs.length : ℤ) < 0 := by omega
          rw [heq, if_neg hneg, Int.toNat_natCast]
        · exact absurd (h last (by simp [hget])) hlast
      have hreq : idx < 0 → -idx ≤ r.mmFeatures.length := by
        intro hneg
        rcases hidx with h | h | ⟨h, -⟩ <;> omega
      have hdrop : r.mmFeatures.drop fs.length = [last] := by simp [hfs]
      obtain ⟨hkeys, hpos⟩ := mmScan_singleton last stop fs.length (not_le.mp hlast)
      refine ⟨(mmScan start stop [last] fs.length).2, ?_, ?_⟩
      · have hrv : restartVisible r.mmFeatures start stop = overlapping [last] start stop := by
          simp [restartVisible, hget]
        simp only [genMmExtraHashKeys, hget, hlast, ↓reduceIte, hcurr, hdrop, hkeys, hrv,
          Raises.require, if_pos hreq]
        rfl
      · rcases hpos with hpos | ⟨hpos, hend⟩
        · exact .inr (.inl (by rw [hpos, hlen]; push_cast; rfl))
        · refine .inr (.inr ⟨by rw [hpos, hlen], fun f hf => ?_⟩)
          rw [hget, Option.mem_some_iff] at hf
          exact hf ▸ hend

theorem generateBlockHashExtraKeys_eq {listed : ℕ → ℕ → List MultiModalFeatureSpec} {idx' : ℤ}
    (h : genMmExtraHashKeys r (j * hasher.blockSize) ((j + 1) * hasher.blockSize) idx =
      .ok (mmKeys (listed (j * hasher.blockSize) ((j + 1) * hasher.blockSize))
        (j * hasher.blockSize), idx')) :
    generateBlockHashExtraKeys hasher.sha256 r (j * hasher.blockSize)
      ((j + 1) * hasher.blockSize) idx = .ok (blockExtraKeys hasher r listed j, idx') := by
  unfold generateBlockHashExtraKeys blockExtraKeys
  rw [h]
  simp only [bind, Except.bind, pure, Except.pure]
  split_ifs <;> rfl

/-- The keys of a block depend on the adapter, the salt, the embeddings and the features
listed for the block only. -/
theorem blockExtraKeys_congr {r' : Request} {listed listed' : ℕ → ℕ → List MultiModalFeatureSpec}
    (hlora : r'.loraRequest = r.loraRequest) (hsalt : r'.cacheSalt = r.cacheSalt)
    (hembeds : r'.promptEmbeds = r.promptEmbeds)
    (hlisted : listed' (j * hasher.blockSize) ((j + 1) * hasher.blockSize) =
      listed (j * hasher.blockSize) ((j + 1) * hasher.blockSize)) :
    blockExtraKeys hasher r' listed' j = blockExtraKeys hasher r listed j := by
  have h1 : genLoraExtraHashKeys r' = genLoraExtraHashKeys r := by
    simp only [genLoraExtraHashKeys, hlora]
  have h2 (start : ℕ) : cacheSaltKeys r' start = cacheSaltKeys r start := by
    simp only [cacheSaltKeys, hsalt]
  have h3 (start stop : ℕ) : genPromptEmbedsExtraHashKeys hasher.sha256 r' start stop =
      genPromptEmbedsExtraHashKeys hasher.sha256 r start stop := by
    simp only [genPromptEmbedsExtraHashKeys, hembeds]
  simp only [blockExtraKeys, h1, h2, h3, hlisted]

/-- A run of the hashing loop whose scan position keeps an invariant under which every
block lists the features `listed`. -/
theorem hashLoop_eq (hasher : BlockHasher)
    (listed : ℕ → ℕ → List MultiModalFeatureSpec) (I : ℤ → ℕ → Prop)
    (hI : ∀ {start stop : ℕ} {idx : ℤ}, start ≤ stop → I idx start →
      ∃ idx', genMmExtraHashKeys r start stop idx =
        .ok (mmKeys (listed start stop) start, idx') ∧ I idx' stop)
    (fuel j : ℕ) (prev : Option BlockHash) (hj : I idx (j * hasher.blockSize))
    (hfuel : r.numTokens / hasher.blockSize - j < fuel) :
    hashLoop hasher r fuel (j * hasher.blockSize) idx prev =
      .ok (hashChain hasher r.allTokenIds (blockExtraKeys hasher r listed) j
        (r.numTokens / hasher.blockSize - j) prev) := by
  induction fuel generalizing j idx prev with
  | zero => omega
  | succ fuel ih =>
    have hstop : j * hasher.blockSize + hasher.blockSize = (j + 1) * hasher.blockSize := by
      ring
    by_cases hend : (j + 1) * hasher.blockSize > r.numTokens
    · have hzero : r.numTokens / hasher.blockSize - j = 0 := by
        have := (div_lt_iff_lt_mul hasher.blockSize_pos).mpr hend
        omega
      simp only [hashLoop, hstop, hend, ↓reduceIte, hzero, hashChain]
      rfl
    · have hsucc : r.numTokens / hasher.blockSize - j =
          (r.numTokens / hasher.blockSize - (j + 1)) + 1 := by
        have := (le_div_iff_mul_le hasher.blockSize_pos).mpr (not_lt.mp hend)
        omega
      obtain ⟨idx', hkeys, hidx'⟩ := hI (mul_le_mul_right _ (le_succ j)) hj
      have hrec := ih (j + 1) (some (hashBlockTokens hasher prev
        (blockTokens hasher r.allTokenIds j) (blockExtraKeys hasher r listed j))) hidx' (by omega)
      simp only [hashLoop, hstop, hend, ↓reduceIte, generateBlockHashExtraKeys_eq hkeys]
      simp only [bind, Except.bind]
      simp only [blockTokens] at hrec
      rw [hrec, hsucc]
      rfl

/-- The features the hasher lists for a block: all visible ones in the call that hashes
the first block, only the last feature in every later call. -/
def listedFeatures (r : Request) : ℕ → ℕ → List MultiModalFeatureSpec :=
  if r.blockHashes = [] then visible r.mmFeatures else restartVisible r.mmFeatures

theorem requestBlockHasher_eq (hasher : BlockHasher) (h : SortedFeatures r.mmFeatures) :
    requestBlockHasher hasher r = .ok (hashChain hasher r.allTokenIds
      (blockExtraKeys hasher r (listedFeatures r)) r.blockHashes.length
      (r.numTokens / hasher.blockSize - r.blockHashes.length) r.blockHashes.getLast?) := by
  have hpos := hasher.blockSize_pos
  have hfuel : r.numTokens / hasher.blockSize - r.blockHashes.length < r.numTokens + 1 := by
    have := div_le_self r.numTokens hasher.blockSize
    omega
  unfold requestBlockHasher
  by_cases hshort :
      r.blockHashes.length * hasher.blockSize + hasher.blockSize > r.numTokens
  · have hzero : r.numTokens / hasher.blockSize - r.blockHashes.length = 0 := by
      have : r.numTokens < (r.blockHashes.length + 1) * hasher.blockSize := by
        rw [add_mul]; omega
      have := (div_lt_iff_lt_mul hpos).mpr this
      omega
    simp only [hshort, ↓reduceIte, hzero, hashChain]
    rfl
  · simp only [hshort, ↓reduceIte]
    by_cases hnew : r.blockHashes = []
    · simp only [listedFeatures, hnew, ↓reduceIte, length_nil, zero_mul, lt_irrefl]
      have hstart : Passed r.mmFeatures 0 (0 * hasher.blockSize) := by simp [Passed]
      have := hashLoop_eq hasher (visible r.mmFeatures)
        (fun idx start => ∃ n : ℕ, idx = n ∧ Passed r.mmFeatures n start)
        (fun hle ⟨n, hn, hp⟩ => by
          obtain ⟨n', h1, h2⟩ := genMmExtraHashKeys_scratch h hle hp
          exact ⟨n', hn ▸ h1, n', rfl, h2⟩)
        (r.numTokens + 1) 0 none ⟨0, rfl, hstart⟩ (by simpa [hnew] using hfuel)
      simpa using this
    · have hlen : 0 < r.blockHashes.length := length_pos_iff.mpr hnew
      have hgt : r.blockHashes.length * hasher.blockSize > 0 := mul_pos hlen hpos
      simp only [listedFeatures, hnew, ↓reduceIte, hgt]
      exact hashLoop_eq hasher _ (AtLast r.mmFeatures) genMmExtraHashKeys_restart _ _ _
        (.inl rfl) hfuel

/-- The hash of block `j` in a chain that starts at the first block. -/
def chainHash (hasher : BlockHasher) (tokens : List TokenId)
    (keys : ℕ → Option (List ExtraKey)) : ℕ → BlockHash
  | 0 => hashBlockTokens hasher none (blockTokens hasher tokens 0) (keys 0)
  | j + 1 => hashBlockTokens hasher (some (chainHash hasher tokens keys j))
      (blockTokens hasher tokens (j + 1)) (keys (j + 1))

/-- The parent hash of block `j`. -/
def parentHash (hasher : BlockHasher) (tokens : List TokenId)
    (keys : ℕ → Option (List ExtraKey)) : ℕ → Option BlockHash
  | 0 => none
  | j + 1 => some (chainHash hasher tokens keys j)

theorem chainHash_eq (hasher : BlockHasher) (tokens : List TokenId)
    (keys : ℕ → Option (List ExtraKey)) (j : ℕ) :
    chainHash hasher tokens keys j = hashBlockTokens hasher (parentHash hasher tokens keys j)
      (blockTokens hasher tokens j) (keys j) := by
  cases j <;> rfl

theorem hashChain_eq_map (hasher : BlockHasher) (tokens : List TokenId)
    (keys : ℕ → Option (List ExtraKey)) (j n : ℕ) :
    hashChain hasher tokens keys j n (parentHash hasher tokens keys j) =
      (List.range' j n).map (chainHash hasher tokens keys) := by
  induction n generalizing j with
  | zero => rfl
  | succ n ih =>
    rw [range'_succ, map_cons, ← ih (j + 1), hashChain, ← chainHash_eq]
    rfl

theorem chainHash_congr (hasher : BlockHasher) {i : ℕ}
    (h : ∀ j ≤ i, blockTokens hasher tokens j = blockTokens hasher tokens' j ∧ keys j = keys' j) :
    chainHash hasher tokens keys i = chainHash hasher tokens' keys' i := by
  induction i with
  | zero =>
    obtain ⟨htok, hkey⟩ := h 0 le_rfl
    simp only [chainHash, htok, hkey]
  | succ i ih =>
    obtain ⟨htok, hkey⟩ := h (i + 1) le_rfl
    simp only [chainHash, ih fun j hj => h j (le_succ_of_le hj), htok, hkey]

/-- An injective hash function with non-empty digests makes a chain determine the
tokens and keys of all its blocks. -/
theorem chainHash_injective (hinj : Function.Injective hasher.cachingHashFn)
    (hne : ∀ x, hasher.cachingHashFn x ≠ []) {i : ℕ}
    (h : chainHash hasher tokens keys i = chainHash hasher tokens' keys' i) :
    ∀ j ≤ i, blockTokens hasher tokens j = blockTokens hasher tokens' j ∧ keys j = keys' j := by
  have hchain (tokens : List TokenId) (keys : ℕ → Option (List ExtraKey)) (j : ℕ) :
      chainHash hasher tokens keys j ≠ [] := by
    rw [chainHash_eq]
    exact hne _
  induction i with
  | zero =>
    intro j hj
    obtain rfl : j = 0 := by omega
    have := hinj h
    simp only [HashInput.mk.injEq] at this
    exact this.2
  | succ i ih =>
    have hin := hinj h
    simp only [HashInput.mk.injEq, hchain, ↓reduceIte] at hin
    intro j hj
    rcases le_succ_iff.mp hj with hj | rfl
    · exact ih hin.1 j hj
    · exact hin.2

theorem blockTokens_append (hasher : BlockHasher) (tokens more : List TokenId)
    (hj : j < tokens.length / hasher.blockSize) :
    blockTokens hasher (tokens ++ more) j = blockTokens hasher tokens j := by
  have hle : (j + 1) * hasher.blockSize ≤ tokens.length :=
    (le_div_iff_mul_le hasher.blockSize_pos).mp hj
  have hstart : j * hasher.blockSize ≤ (j + 1) * hasher.blockSize := mul_le_mul_right _ (le_succ j)
  have hlen : (j + 1) * hasher.blockSize - j * hasher.blockSize ≤
      (tokens.drop (j * hasher.blockSize)).length := by
    rw [length_drop]
    omega
  simp only [blockTokens, slice]
  rw [drop_append_of_le_length (by omega), take_append_of_le_length hlen]

/-- The first `n` hashes of the chain over some tokens. -/
def hashesUpTo (hasher : BlockHasher) (tokens : List TokenId)
    (keys : ℕ → Option (List ExtraKey)) (n : ℕ) : List BlockHash :=
  (List.range n).map (chainHash hasher tokens keys)

@[simp] theorem hashesUpTo_length (hasher : BlockHasher) (tokens : List TokenId)
    (keys : ℕ → Option (List ExtraKey)) (n : ℕ) :
    (hashesUpTo hasher tokens keys n).length = n := by
  simp [hashesUpTo]

theorem hashesUpTo_congr (hasher : BlockHasher)
    (h : ∀ j < n, blockTokens hasher tokens j = blockTokens hasher tokens' j ∧ keys j = keys' j) :
    hashesUpTo hasher tokens keys n = hashesUpTo hasher tokens' keys' n := by
  refine map_congr_left fun j hj => chainHash_congr hasher fun k hk => h k ?_
  have := mem_range.mp hj
  omega

theorem hashesUpTo_append (hasher : BlockHasher) (tokens more : List TokenId)
    (keys : ℕ → Option (List ExtraKey)) (hn : n ≤ tokens.length / hasher.blockSize) :
    hashesUpTo hasher (tokens ++ more) keys n = hashesUpTo hasher tokens keys n :=
  hashesUpTo_congr hasher fun _ hj =>
    ⟨blockTokens_append hasher tokens more (by omega), rfl⟩

theorem hashesUpTo_getLast? (hasher : BlockHasher) (tokens : List TokenId)
    (keys : ℕ → Option (List ExtraKey)) (n : ℕ) :
    (hashesUpTo hasher tokens keys n).getLast? = parentHash hasher tokens keys n := by
  cases n with
  | zero => rfl
  | succ n => simp [hashesUpTo, range_succ, parentHash]

theorem hashChain_congr (hasher : BlockHasher) (tokens : List TokenId) (prev : Option BlockHash)
    (h : ∀ k, j ≤ k → k < j + n → keys k = keys' k) :
    hashChain hasher tokens keys j n prev = hashChain hasher tokens keys' j n prev := by
  induction n generalizing j prev with
  | zero => rfl
  | succ n ih =>
    simp only [hashChain, h j le_rfl (by omega)]
    rw [ih _ fun k h1 h2 => h k (by omega) (by omega)]

/-- One call of the hasher on a request that holds the first hashes of a chain extends
them to all full blocks, if its scan lists what the chain's keys say. -/
theorem updateBlockHashes_eq (hsorted : SortedFeatures r.mmFeatures)
    (hold : r.blockHashes = hashesUpTo hasher r.allTokenIds keys n)
    (hn : n ≤ r.numTokens / hasher.blockSize)
    (hkeys : ∀ j, n ≤ j → j < r.numTokens / hasher.blockSize →
      blockExtraKeys hasher r (listedFeatures r) j = keys j) :
    r.updateBlockHashes (some hasher) = .ok { r with
      blockHashes := hashesUpTo hasher r.allTokenIds keys (r.numTokens / hasher.blockSize) } := by
  have hlen : r.blockHashes.length = n := by rw [hold, hashesUpTo_length]
  have hnew : requestBlockHasher hasher r = .ok ((List.range' n
      (r.numTokens / hasher.blockSize - n)).map (chainHash hasher r.allTokenIds keys)) := by
    rw [requestBlockHasher_eq hasher hsorted, hlen, hold, hashesUpTo_getLast?, ← hashChain_eq_map]
    exact congrArg Except.ok (hashChain_congr hasher _ _ fun k h1 h2 => hkeys k h1 (by omega))
  have happ : r.blockHashes ++ (List.range' n (r.numTokens / hasher.blockSize - n)).map
      (chainHash hasher r.allTokenIds keys) =
        hashesUpTo hasher r.allTokenIds keys (r.numTokens / hasher.blockSize) := by
    rw [hold, hashesUpTo, hashesUpTo, ← map_append, range_eq_range', range_eq_range']
    congr 1
    have := range'_append_1 (s := 0) (m := n) (n := r.numTokens / hasher.blockSize - n)
    rw [zero_add] at this
    rw [this]
    congr 1
    omega
  simp only [Request.updateBlockHashes, hnew]
  exact congrArg (fun hashes => Except.ok { r with blockHashes := hashes }) happ

theorem requestBlockHasher_scratch (hasher : BlockHasher) (r : Request)
    (hsorted : SortedFeatures r.mmFeatures) (hnew : r.blockHashes = []) :
    requestBlockHasher hasher r = .ok (hashesUpTo hasher r.allTokenIds
      (blockExtraKeys hasher r (visible r.mmFeatures)) (r.numTokens / hasher.blockSize)) := by
  have hmap := hashChain_eq_map hasher r.allTokenIds
    (blockExtraKeys hasher r (visible r.mmFeatures)) 0 (r.numTokens / hasher.blockSize)
  rw [requestBlockHasher_eq hasher hsorted]
  simp only [hnew, listedFeatures, ↓reduceIte, length_nil, Nat.sub_zero, List.getLast?_nil]
  rw [parentHash] at hmap
  rw [hmap, hashesUpTo, range_eq_range']

end Vllm
