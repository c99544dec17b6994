import Vllm.KvCache.IncrementalHash

/-! Streaming sessions. The hash list only grows: it stays that of the current tokens along every
run whose updates keep all hashed tokens and whose restarted scans see every feature. -/
namespace Vllm

/-- `Scheduler._update_request_as_session`, on the session itself. -/
def updateRequestAsSession (blockHasher : Option BlockHasher) (session : Request)
    (update : StreamingUpdate) : Raises Request := do
  let keptOutputTokens :=
    slice session.allTokenIds session.numPromptTokens session.numComputedTokens
  let keptTokens := session.allTokenIds.take session.numComputedTokens
  let promptTokenIds ← match session.promptTokenIds with
    | none => throw .assertionError
    | some promptTokenIds => pure (promptTokenIds ++ keptOutputTokens)
  let newTokens := update.promptTokenIds.getD []
  let session ← Request.updateBlockHashes blockHasher { session with
    outputTokenIds := []
    promptTokenIds := some (promptTokenIds ++ newTokens)
    mmFeatures := session.mmFeatures ++ update.mmFeatures.map (·.shift keptTokens.length)
    allTokenIds := keptTokens ++ newTokens }
  pure { session with
    numPromptTokens := (promptTokenIds ++ newTokens).length
    arrivalTime := update.arrivalTime
    status := .waiting }

/-- What happens to a session between two looks at it: sampled tokens are appended, the
scheduler moves the computed-token counter, or the next chunk arrives. -/
inductive SessionEvent where
  | append (tokenIds : List TokenId)
  | setComputed (numComputedTokens : ℕ)
  | update (update : StreamingUpdate)

def SessionEvent.apply (hasher : BlockHasher) (r : Request) : SessionEvent → Raises Request
  | .append tokenIds => r.appendOutputTokenIds (some hasher) tokenIds
  | .setComputed c => pure { r with numComputedTokens := c }
  | .update u => updateRequestAsSession (some hasher) r u

/-- The states a created request reaches by events that `ok` allows. -/
inductive SessionReachable (hasher : BlockHasher) (ok : Request → SessionEvent → Prop)
    (created : Request) : Request → Prop
  | start {r : Request} (h : created.updateBlockHashes (some hasher) = .ok r) :
      SessionReachable hasher ok created r
  | step {r r' : Request} {e : SessionEvent} (hr : SessionReachable hasher ok created r)
      (hok : ok r e) (h : e.apply hasher r = .ok r') : SessionReachable hasher ok created r'

/-- The hash list is the one a single call computes for the current tokens. -/
def HashesCurrent (hasher : BlockHasher) (r : Request) : Prop :=
  requestBlockHasher hasher { r with blockHashes := [] } = .ok r.blockHashes

/-- No feature ends behind the last one. -/
def LastEndsLast (fs : List MultiModalFeatureSpec) : Prop :=
  ∀ last ∈ fs.getLast?, ∀ f ∈ fs, f.endPos ≤ last.endPos

/-- The token list and the features after an update. -/
def sessionTokens (r : Request) (u : StreamingUpdate) : List TokenId :=
  r.allTokenIds.take r.numComputedTokens ++ u.promptTokenIds.getD []

def sessionFeatures (r : Request) (u : StreamingUpdate) : List MultiModalFeatureSpec :=
  r.mmFeatures ++ u.mmFeatures.map (·.shift (r.allTokenIds.take r.numComputedTokens).length)

/-- When an event keeps the hash list current: it completes no block that a feature other than the
last overlaps, keeps every hashed token, and adds features behind ones that none outlasts. -/
def SessionEvent.Keeps (hasher : BlockHasher) (r : Request) : SessionEvent → Prop
  | .append tokenIds => r.blockHashes ≠ [] →
      RestartSafe hasher r.mmFeatures r.blockHashes.length
        ((r.allTokenIds ++ tokenIds).length / hasher.blockSize)
  | .setComputed _ => True
  | .update u => SortedFeatures (sessionFeatures r u) ∧ (r.blockHashes ≠ [] →
      r.blockHashes.length * hasher.blockSize ≤ r.numComputedTokens ∧
      (u.mmFeatures ≠ [] → LastEndsLast r.mmFeatures) ∧
      RestartSafe hasher (sessionFeatures r u) r.blockHashes.length
        ((sessionTokens r u).length / hasher.blockSize))

/-- The invariant behind `HashesCurrent`. -/
structure SessionHashed (hasher : BlockHasher) (r : Request) : Prop where
  sorted : SortedFeatures r.mmFeatures
  hashes : r.blockHashes = hashesUpTo hasher r.allTokenIds
    (blockExtraKeys hasher r (visible r.mmFeatures)) (r.numTokens / hasher.blockSize)

variable {hasher : BlockHasher} {r r' : Request} {u : StreamingUpdate}

theorem SessionHashed.current (h : SessionHashed hasher r) : HashesCurrent hasher r := by
  have hone := requestBlockHasher_scratch hasher { r with blockHashes := [] } h.sorted rfl
  rw [HashesCurrent, hone, h.hashes]
  rfl

theorem SessionHashed.length (h : SessionHashed hasher r) :
    r.blockHashes.length = r.numTokens / hasher.blockSize := by
  rw [h.hashes, hashesUpTo_length]

/-- A hashing call on a request whose first hashes are current makes all of them so, if
the blocks it hashes after a restart overlap only the last feature. -/
theorem SessionHashed.ofUpdate {n : ℕ} (hsorted : SortedFeatures r.mmFeatures)
    (hold : r.blockHashes = hashesUpTo hasher r.allTokenIds
      (blockExtraKeys hasher r (visible r.mmFeatures)) n)
    (hn : n ≤ r.numTokens / hasher.blockSize)
    (hsafe : r.blockHashes ≠ [] →
      RestartSafe hasher r.mmFeatures n (r.numTokens / hasher.blockSize))
    (h : r.updateBlockHashes (some hasher) = .ok r') :
    SessionHashed hasher r' ∧ r' = { r with blockHashes := r'.blockHashes } := by
  have hkeys : ∀ j, n ≤ j → j < r.numTokens / hasher.blockSize →
      blockExtraKeys hasher r (listedFeatures r) j =
        blockExtraKeys hasher r (visible r.mmFeatures) j := by
    intro j hj hlt
    by_cases hnew : r.blockHashes = []
    · rw [listedFeatures, if_pos hnew]
    · rw [listedFeatures, if_neg hnew]
      simp only [blockExtraKeys, restartVisible_eq_visible (hsafe hnew j hj hlt)]
  rw [updateBlockHashes_eq hsorted hold hn hkeys, Except.ok.injEq] at h
  subst h
  exact ⟨⟨hsorted, rfl⟩, rfl⟩

theorem SessionHashed.start (hsorted : SortedFeatures r.mmFeatures) (hnew : r.blockHashes = [])
    (h : r.updateBlockHashes (some hasher) = .ok r') : SessionHashed hasher r' :=
  (SessionHashed.ofUpdate hsorted (n := 0) hnew (Nat.zero_le _) (fun hne => absurd hnew hne) h).1

theorem SessionHashed.append {tokenIds : List TokenId} (hr : SessionHashed hasher r)
    (hkeep : (SessionEvent.append tokenIds).Keeps hasher r)
    (h : r.appendOutputTokenIds (some hasher) tokenIds = .ok r') : SessionHashed hasher r' := by
  refine (SessionHashed.ofUpdate (n := r.numTokens / hasher.blockSize) ?_ ?_ ?_ ?_ h).1
  · exact hr.sorted
  · exact hr.hashes.trans (hashesUpTo_append hasher r.allTokenIds tokenIds _ le_rfl).symm
  · exact Nat.div_le_div_right (by simp [Request.numTokens])
  · intro hne
    have hlen := hr.length
    exact hlen ▸ hkeep hne

theorem visible_sessionFeatures {start stop : ℕ}
    (hlast : u.mmFeatures ≠ [] → LastEndsLast r.mmFeatures) (hlt : start < stop)
    (hstop : stop ≤ (r.allTokenIds.take r.numComputedTokens).length) :
    visible (sessionFeatures r u) start stop = visible r.mmFeatures start stop := by
  rcases List.eq_nil_or_concat u.mmFeatures with hnil | ⟨init, last, hu⟩
  · simp [sessionFeatures, hnil]
  · set base := (r.allTokenIds.take r.numComputedTokens).length
    have hover : overlapping (sessionFeatures r u) start stop =
        overlapping r.mmFeatures start stop := by
      have hnew : overlapping (u.mmFeatures.map (·.shift base)) start stop = [] := by
        refine overlapping_eq_nil fun f hf ho => ?_
        obtain ⟨g, -, rfl⟩ := List.mem_map.mp hf
        have := ho.1
        rw [MultiModalFeatureSpec.shift_offset] at this
        omega
      calc overlapping (sessionFeatures r u) start stop
          = overlapping r.mmFeatures start stop ++
              overlapping (u.mmFeatures.map (·.shift base)) start stop := List.filter_append ..
        _ = overlapping r.mmFeatures start stop := by rw [hnew, List.append_nil]
    have hget : (sessionFeatures r u).getLast? = some (last.shift base) := by
      simp [sessionFeatures, hu, base]
    have hend : ¬ (last.shift base).endPos ≤ start := by
      rw [MultiModalFeatureSpec.shift_endPos]
      omega
    have hne : u.mmFeatures ≠ [] := by simp [hu]
    simp only [visible, hget, hend, ↓reduceIte, hover]
    cases hold : r.mmFeatures.getLast? with
    | none =>
      rw [List.getLast?_eq_none_iff.mp hold]
      rfl
    | some old =>
      by_cases hover' : old.endPos ≤ start
      · have hnone : overlapping r.mmFeatures start stop = [] := by
          refine overlapping_eq_nil fun f hf ho => ?_
          have hf' := hlast hne old hold f hf
          exact absurd ho.2 (by omega)
        simp [hover', hnone, takeThrough]
      · simp [hover']

section
variable (hr : SessionHashed hasher r) (hkeep : (SessionEvent.update u).Keeps hasher r)
include hr hkeep

theorem SessionHashed.kept (mid : Request) (hlora : mid.loraRequest = r.loraRequest)
    (hsalt : mid.cacheSalt = r.cacheSalt) (hembeds : mid.promptEmbeds = r.promptEmbeds)
    (hfeat : mid.mmFeatures = sessionFeatures r u) (htok : mid.allTokenIds = sessionTokens r u) :
    r.blockHashes = hashesUpTo hasher mid.allTokenIds
      (blockExtraKeys hasher mid (visible mid.mmFeatures)) (r.numTokens / hasher.blockSize) ∧
    r.numTokens / hasher.blockSize ≤ mid.numTokens / hasher.blockSize := by
  rcases Nat.eq_zero_or_pos (r.numTokens / hasher.blockSize) with hzero | hpos
  · rw [hr.hashes, hzero]
    exact ⟨rfl, Nat.zero_le _⟩
  · have hne : r.blockHashes ≠ [] := List.length_pos_iff.mp (hr.length ▸ hpos)
    obtain ⟨hcomp, hlast, -⟩ := hkeep.2 hne
    set kept := r.allTokenIds.take r.numComputedTokens with hk
    have hfull : r.numTokens / hasher.blockSize * hasher.blockSize ≤ kept.length := by
      have h1 := Nat.div_mul_le_self r.numTokens hasher.blockSize
      rw [hr.length] at hcomp
      rw [hk, List.length_take]
      exact le_min hcomp h1
    have hle : r.numTokens / hasher.blockSize ≤ kept.length / hasher.blockSize :=
      (Nat.le_div_iff_mul_le hasher.blockSize_pos).mpr hfull
    have hall : r.allTokenIds = kept ++ r.allTokenIds.drop r.numComputedTokens :=
      (List.take_append_drop _ _).symm
    refine ⟨?_, le_trans hle (Nat.div_le_div_right (by simp [Request.numTokens, htok,
      sessionTokens, hk]))⟩
    rw [hr.hashes]
    refine hashesUpTo_congr hasher fun j hj => ⟨?_, ?_⟩
    · rw [htok, sessionTokens, blockTokens_append hasher kept _ (by omega), hall,
        blockTokens_append hasher kept _ (by omega)]
    · have hstop : (j + 1) * hasher.blockSize ≤ kept.length :=
        le_trans (Nat.mul_le_mul_right _ hj) hfull
      have hstart : j * hasher.blockSize < (j + 1) * hasher.blockSize :=
        Nat.mul_lt_mul_of_pos_right (Nat.lt_succ_self j) hasher.blockSize_pos
      refine (blockExtraKeys_congr hlora hsalt hembeds ?_).symm
      rw [hfeat, visible_sessionFeatures hlast hstart hstop]

theorem SessionHashed.update (h : updateRequestAsSession (some hasher) r u = .ok r') :
    SessionHashed hasher r' := by
  unfold updateRequestAsSession at h
  cases hp : r.promptTokenIds with
  | none => simp [hp, bind, Except.bind, throw, throwThe, MonadExceptOf.throw] at h
  | some prompt =>
    simp only [hp, Raises.bind_eq_ok, Raises.pure_eq_ok, exists_eq_left'] at h
    obtain ⟨mid, hmid, rfl⟩ := h
    have hmidHashed : SessionHashed hasher mid := by
      obtain ⟨hold, hn⟩ := hr.kept hkeep { r with
        outputTokenIds := []
        promptTokenIds := some (prompt ++ slice r.allTokenIds r.numPromptTokens
          r.numComputedTokens ++ u.promptTokenIds.getD [])
        mmFeatures := sessionFeatures r u
        allTokenIds := sessionTokens r u } rfl rfl rfl rfl rfl
      refine (SessionHashed.ofUpdate hkeep.1 hold hn (fun hne => ?_) hmid).1
      exact hr.length ▸ (hkeep.2 hne).2.2
    exact ⟨hmidHashed.sorted, hmidHashed.hashes⟩

end

theorem SessionHashed.step {e : SessionEvent} (hr : SessionHashed hasher r)
    (hkeep : e.Keeps hasher r) (h : e.apply hasher r = .ok r') : SessionHashed hasher r' := by
  cases e with
  | append tokenIds => exact hr.append hkeep h
  | setComputed c =>
    cases h
    exact ⟨hr.sorted, hr.hashes⟩
  | update u => exact hr.update hkeep h

/-- Along every run whose events keep the hashed tokens and features, the hash list of a
session is that of its current tokens. -/
theorem sessionReachable_hashesCurrent {hasher : BlockHasher} {created r : Request}
    (hsorted : SortedFeatures created.mmFeatures) (hnew : created.blockHashes = [])
    (h : SessionReachable hasher (fun r e => e.Keeps hasher r) created r) :
    HashesCurrent hasher r := by
  have hinv : SessionHashed hasher r := by
    induction h with
    | start h => exact SessionHashed.start hsorted hnew h
    | step _ hok h ih => exact ih.step hok h
  exact hinv.current

/-- A three-token prompt. -/
def sessionRequest : Request :=
  { requestId := 0, promptTokenIds := some [1, 2, 3], numPromptTokens := 3
    allTokenIds := [1, 2, 3] }

/-- A chunk of one token. -/
def sessionChunk : StreamingUpdate := ⟨[], some [9], 0⟩

/-- The sampled token that an update drops had completed a block: its hash stays. -/
theorem sessionReachable_not_hashesCurrent :
    ¬ ∀ (hasher : BlockHasher) (created r : Request), SortedFeatures created.mmFeatures →
      created.blockHashes = [] →
      SessionReachable hasher (fun _ _ => True) created r → HashesCurrent hasher r := by
  intro h
  let hasher := unaryHasher 2 (by decide)
  let keys : ℕ → Option (List ExtraKey) := fun _ => none
  let created := { sessionRequest with blockHashes := hashesUpTo hasher [1, 2, 3] keys 1 }
  let sampled := { created with
    allTokenIds := [1, 2, 3, 4], outputTokenIds := [4]
    blockHashes := hashesUpTo hasher [1, 2, 3, 4] keys 2 }
  let computed := { sampled with numComputedTokens := 3 }
  let updated := { computed with
    allTokenIds := [1, 2, 3, 9], outputTokenIds := [], promptTokenIds := some [1, 2, 3, 9]
    numPromptTokens := 4 }
  have h1 : SessionReachable hasher (fun _ _ => True) sessionRequest created := .start rfl
  have h2 : SessionReachable hasher (fun _ _ => True) sessionRequest sampled :=
    .step (e := .append [4]) h1 trivial rfl
  have h3 : SessionReachable hasher (fun _ _ => True) sessionRequest computed :=
    .step (e := .setComputed 3) h2 trivial rfl
  have h4 : SessionReachable hasher (fun _ _ => True) sessionRequest updated :=
    .step (e := .update sessionChunk) h3 trivial rfl
  have hcur := h hasher sessionRequest updated List.Pairwise.nil rfl h4
  have hone : requestBlockHasher hasher { updated with blockHashes := [] } =
      .ok (hashesUpTo hasher [1, 2, 3, 9] keys 2) := rfl
  rw [HashesCurrent, hone, Except.ok.injEq] at hcur
  have hlast : chainHash hasher [1, 2, 3, 9] keys 1 = chainHash hasher [1, 2, 3, 4] keys 1 :=
    List.map_inj_left.mp hcur 1 (by simp)
  have := (chainHash_injective (unaryHasher_injective _)
    (fun x => by simp [unaryHasher]) hlast 1 le_rfl).1
  exact absurd this (by decide)

/-- The same session whose block is completed by the chunk itself stays current. -/
theorem sessionReachable_hashesCurrent_chunk :
    let hasher := unaryHasher 2 (by decide)
    ∃ r, SessionReachable hasher (fun r e => e.Keeps hasher r) sessionRequest r ∧
      r.allTokenIds = [1, 2, 3, 9] ∧ HashesCurrent hasher r := by
  intro hasher
  let keys : ℕ → Option (List ExtraKey) := fun _ => none
  let created := { sessionRequest with blockHashes := hashesUpTo hasher [1, 2, 3] keys 1 }
  let computed := { created with numComputedTokens := 3 }
  let updated := { computed with
    allTokenIds := [1, 2, 3, 9], promptTokenIds := some [1, 2, 3, 9], numPromptTokens := 4
    blockHashes := hashesUpTo hasher [1, 2, 3, 9] keys 2 }
  have h1 : SessionReachable hasher (fun r e => e.Keeps hasher r) sessionRequest created :=
    .start rfl
  have h2 : SessionReachable hasher (fun r e => e.Keeps hasher r) sessionRequest computed :=
    .step (e := .setComputed 3) h1 trivial rfl
  have hkeep : (SessionEvent.update sessionChunk).Keeps hasher computed := by
    refine ⟨List.Pairwise.nil, fun _ => ⟨?_, fun hne => absurd rfl hne, ?_⟩⟩
    · show 1 * 2 ≤ 3
      decide
    · intro j _ _ f hf
      exact absurd hf (by simp [sessionFeatures, computed, created, sessionRequest, sessionChunk])
  have h3 : SessionReachable hasher (fun r e => e.Keeps hasher r) sessionRequest updated :=
    .step (e := .update sessionChunk) h2 hkeep rfl
  exact ⟨updated, h3, rfl, sessionReachable_hashesCurrent
    (show SortedFeatures sessionRequest.mmFeatures from .nil) rfl h3⟩

end Vllm
