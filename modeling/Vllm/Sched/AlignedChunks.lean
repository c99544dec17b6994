import Vllm.Sched.Runs

/-! `_mamba_block_aligned_split`: the chunks of a prefill stop at the last position whose Mamba
state is cached, and at multiples of the block size before it. -/
namespace Vllm
open ScheduleStep
variable {κ ε : Type} {env : SchedulerEnv κ ε} {r : SchedRequest}

/-- `last_cache_position` -/
def lastCachePosition (env : SchedulerEnv κ ε) (r : SchedRequest) : ℤ :=
  let lastCachePosition : ℤ := r.numTokens - r.numTokens % env.config.cacheBlockSize
  if env.config.useEagle then max (lastCachePosition - env.config.cacheBlockSize) 0
  else lastCachePosition

theorem dvd_lastCachePosition : (env.config.cacheBlockSize : ℤ) ∣ lastCachePosition env r := by
  have hdvd : (env.config.cacheBlockSize : ℤ) ∣
      r.numTokens - r.numTokens % env.config.cacheBlockSize := Int.dvd_self_sub_emod
  unfold lastCachePosition
  dsimp only
  split
  · rcases max_choice ((r.numTokens : ℤ) - r.numTokens % env.config.cacheBlockSize -
      env.config.cacheBlockSize) 0 with h | h
    · rw [h]
      exact dvd_sub_self_right.mpr hdvd
    · rw [h]
      exact dvd_zero _
  · exact hdvd

section
variable (hb : 0 < env.config.cacheBlockSize)
include hb

theorem lastCachePosition_le : lastCachePosition env r ≤ r.numTokens := by
  have hmod := Int.emod_nonneg (r.numTokens : ℤ) (b := env.config.cacheBlockSize) (by omega)
  unfold lastCachePosition
  dsimp only
  split <;> omega

theorem mambaBlockAlignedSplit_cases (numNewTokens : ℤ) (numLocal numExternal : ℕ) {computed : ℤ}
    (hcomputed : computed = r.numComputedTokens + numLocal + numExternal)
    (hbelow : computed < max (r.core.numPromptTokens : ℤ) (r.numTokens - 1)) :
    mambaBlockAlignedSplit env r numNewTokens numLocal numExternal 0 =
      if computed + numNewTokens < lastCachePosition env r then
        numNewTokens / env.config.cacheBlockSize * env.config.cacheBlockSize
      else if computed < lastCachePosition env r ∧
          lastCachePosition env r < computed + numNewTokens then
        lastCachePosition env r - computed
      else numNewTokens := by
  have hnohint : ¬((env.config.cacheBlockSize : ℤ) ≤ (0 : ℕ)) := by omega
  simp only [mambaBlockAlignedSplit, ← hcomputed, if_pos hbelow, hnohint, false_and, if_false]
  rfl

/-- A chunk that starts before the last cache position ends there or at an earlier multiple of the
block size, and it is empty only if less than a block is offered. -/
theorem mambaBlockAlignedSplit_chunk {numNewTokens : ℤ} (hn : 0 ≤ numNewTokens)
    (numLocal numExternal : ℕ) {computed : ℤ}
    (hcomputed : computed = r.numComputedTokens + numLocal + numExternal)
    (hdvd : (env.config.cacheBlockSize : ℤ) ∣ computed)
    (hbelow : computed < max (r.core.numPromptTokens : ℤ) (r.numTokens - 1)) :
    let chunk := mambaBlockAlignedSplit env r numNewTokens numLocal numExternal 0
    0 ≤ chunk ∧ (computed < lastCachePosition env r → computed + chunk ≤ lastCachePosition env r ∧
      (env.config.cacheBlockSize : ℤ) ∣ computed + chunk) ∧
    (chunk = 0 → numNewTokens = 0 ∨ numNewTokens < env.config.cacheBlockSize ∧
      computed + numNewTokens < lastCachePosition env r) := by
  intro chunk
  have hpos : (0 : ℤ) < env.config.cacheBlockSize := by omega
  have hfloor := Int.ediv_mul_le numNewTokens hpos.ne'
  have hrest := Int.lt_ediv_add_one_mul_self numNewTokens hpos
  have hlast := @dvd_lastCachePosition _ _ env r
  have hchunk : chunk = _ := mambaBlockAlignedSplit_cases hb numNewTokens numLocal numExternal
    hcomputed hbelow
  split_ifs at hchunk with hbefore hacross
  · rw [hchunk]
    refine ⟨Int.mul_nonneg (Int.ediv_nonneg hn hpos.le) hpos.le,
      fun _ => ⟨by omega, dvd_add hdvd (dvd_mul_left _ _)⟩, fun hzero => .inr ⟨?_, hbefore⟩⟩
    rw [add_mul, one_mul, hzero] at hrest
    omega
  · rw [hchunk]
    exact ⟨by omega, fun _ => ⟨by omega, by simpa using hlast⟩, fun hzero => by omega⟩
  · rw [hchunk]
    refine ⟨hn, fun hstart => ?_, fun hzero => .inl hzero⟩
    have hend : computed + numNewTokens = lastCachePosition env r := by omega
    exact ⟨hend.le, hend ▸ hlast⟩

end

/-- The request after some steps, each of which offers it what is left within the budget. -/
def chunked (env : SchedulerEnv κ ε) (budget : ℕ → ℕ) (r : SchedRequest) : ℕ → SchedRequest
  | 0 => r
  | k + 1 =>
    let r := chunked env budget r k
    let offered := min (r.numTokens - r.numComputedTokens) (budget k)
    { r with numComputedTokens :=
        r.numComputedTokens + mambaBlockAlignedSplit env r offered 0 0 0 }

theorem chunked_lastCachePosition (budget : ℕ → ℕ) (k : ℕ) :
    (chunked env budget r k).numTokens = r.numTokens ∧
      lastCachePosition env (chunked env budget r k) = lastCachePosition env r := by
  induction k with
  | zero => exact ⟨rfl, rfl⟩
  | succ k ih => exact ih

/-- One step takes the request on, but not past the last cache position. -/
theorem chunked_step (hb : 0 < env.config.cacheBlockSize) {budget : ℕ → ℕ} {k : ℕ}
    (hbudget : env.config.cacheBlockSize ≤ budget k)
    (hdvd : (env.config.cacheBlockSize : ℤ) ∣ (chunked env budget r k).numComputedTokens)
    (hstart : (chunked env budget r k).numComputedTokens < lastCachePosition env r) :
    (chunked env budget r k).numComputedTokens < (chunked env budget r (k + 1)).numComputedTokens ∧
    (chunked env budget r (k + 1)).numComputedTokens ≤ lastCachePosition env r ∧
    (env.config.cacheBlockSize : ℤ) ∣ (chunked env budget r (k + 1)).numComputedTokens := by
  rcases @chunked_lastCachePosition _ _ env r budget k with ⟨htokens, hlast⟩
  set s := chunked env budget r k with hs
  have hnext : (chunked env budget r (k + 1)).numComputedTokens = s.numComputedTokens +
      mambaBlockAlignedSplit env s (min (s.numTokens - s.numComputedTokens) (budget k)) 0 0 0 := rfl
  have hle := lastCachePosition_le (r := r) hb
  have hgap : (env.config.cacheBlockSize : ℤ) ≤ lastCachePosition env r - s.numComputedTokens :=
    Int.le_of_dvd (by omega) (dvd_sub dvd_lastCachePosition hdvd)
  have hoffered : (env.config.cacheBlockSize : ℤ) ≤
      min (s.numTokens - s.numComputedTokens : ℤ) (budget k) := by omega
  have hnonneg : 0 ≤ min (s.numTokens - s.numComputedTokens : ℤ) (budget k) := by omega
  rw [hnext]
  by_cases hbelow : s.numComputedTokens < max (s.core.numPromptTokens : ℤ) (s.numTokens - 1)
  · rcases mambaBlockAlignedSplit_chunk hb hnonneg 0 0 (by simp) hdvd hbelow with
      ⟨hchunk₀, hchunk, hzero⟩
    rw [hlast] at hchunk hzero
    refine ⟨?_, hchunk hstart⟩
    by_contra hstuck
    rcases hzero (by omega) with h | h <;> omega
  · have hsplit : mambaBlockAlignedSplit env s
        (min (s.numTokens - s.numComputedTokens) (budget k)) 0 0 0 =
          min (s.numTokens - s.numComputedTokens : ℤ) (budget k) := by
      simp [mambaBlockAlignedSplit, hbelow]
    have hone : (env.config.cacheBlockSize : ℤ) = 1 := by omega
    rw [hsplit, hone]
    exact ⟨by omega, by omega, one_dvd _⟩

theorem chunked_stops (hb : 0 < env.config.cacheBlockSize) {budget : ℕ → ℕ}
    (hbudget : ∀ k, env.config.cacheBlockSize ≤ budget k)
    (hdvd : (env.config.cacheBlockSize : ℤ) ∣ r.numComputedTokens)
    (hstart : r.numComputedTokens ≤ lastCachePosition env r) :
    ∃ k, (chunked env budget r k).numComputedTokens = lastCachePosition env r ∧
      ∀ j < k, (chunked env budget r j).numComputedTokens < lastCachePosition env r := by
  have hrun : ∀ k, (∀ j < k, (chunked env budget r j).numComputedTokens <
      lastCachePosition env r) → r.numComputedTokens + k ≤
        (chunked env budget r k).numComputedTokens ∧
      (chunked env budget r k).numComputedTokens ≤ lastCachePosition env r ∧
      (env.config.cacheBlockSize : ℤ) ∣ (chunked env budget r k).numComputedTokens := by
    intro k
    induction k with
    | zero => exact fun _ => ⟨by simp [chunked], hstart, hdvd⟩
    | succ k ih =>
      intro hbefore
      rcases ih fun j hj => hbefore j (by omega) with ⟨hprogress, -, hk⟩
      rcases chunked_step hb (hbudget k) hk (hbefore k (by omega)) with ⟨hlt, hle, hdvd'⟩
      exact ⟨by push_cast; omega, hle, hdvd'⟩
  have hends : ∃ k, lastCachePosition env r ≤ (chunked env budget r k).numComputedTokens := by
    by_contra hstuck
    have hnever : ∀ k, (chunked env budget r k).numComputedTokens < lastCachePosition env r :=
      fun k => not_le.mp fun h => hstuck ⟨k, h⟩
    have := (hrun (lastCachePosition env r - r.numComputedTokens).toNat fun j _ => hnever j).1
    have := hnever (lastCachePosition env r - r.numComputedTokens).toNat
    omega
  have hfirst : ∀ j < Nat.find hends, (chunked env budget r j).numComputedTokens <
      lastCachePosition env r := fun j hj => not_le.mp (Nat.find_min hends hj)
  exact ⟨_, le_antisymm (hrun _ hfirst).2.1 (Nat.find_spec hends), hfirst⟩

/-- A request whose computed tokens are a multiple of the block size never gets a chunk that crosses
the last cache position or ends off a block before it, nor an empty one where a block is offered;
a prefill in steps of a block or more therefore stops there. -/
theorem mambaBlockAlignedSplit_stops (env : SchedulerEnv κ ε) (r : SchedRequest)
    (hb : 0 < env.config.cacheBlockSize) :
    (∀ (numNewTokens : ℤ) (numLocal numExternal : ℕ), 0 ≤ numNewTokens →
      let computed := r.numComputedTokens + numLocal + numExternal
      let chunk := mambaBlockAlignedSplit env r numNewTokens numLocal numExternal 0
      (env.config.cacheBlockSize : ℤ) ∣ computed →
      computed < max (r.core.numPromptTokens : ℤ) (r.numTokens - 1) →
      (computed < lastCachePosition env r → computed + chunk ≤ lastCachePosition env r ∧
        (env.config.cacheBlockSize : ℤ) ∣ computed + chunk) ∧
      (chunk = 0 → numNewTokens = 0 ∨ numNewTokens < env.config.cacheBlockSize ∧
        computed + numNewTokens < lastCachePosition env r)) ∧
    ∀ budget : ℕ → ℕ, (∀ k, env.config.cacheBlockSize ≤ budget k) →
      (env.config.cacheBlockSize : ℤ) ∣ r.numComputedTokens →
      r.numComputedTokens ≤ lastCachePosition env r →
      ∃ k, (chunked env budget r k).numComputedTokens = lastCachePosition env r ∧
        ∀ j < k, (chunked env budget r j).numComputedTokens < lastCachePosition env r :=
  ⟨fun _ numLocal numExternal hn hdvd hbelow =>
    (mambaBlockAlignedSplit_chunk hb hn numLocal numExternal rfl hdvd hbelow).2,
    fun _ hbudget hdvd hstart => chunked_stops hb hbudget hdvd hstart⟩

/-- Blocks of two tokens. -/
def pairBlocks : SchedulerConfig where
  maxNumRunningReqs := 1
  maxNumScheduledTokens := 8
  maxModelLen := 16
  blockSize := 2

theorem mambaBlockAlignedSplit_stops_threeTokens :
    ∃ k, (chunked (managerEnv pairBlocks false) (fun _ => 4) (promptRequest 0 [5, 6, 7] 1)
      k).numComputedTokens = 2 ∧ ∀ j < k, (chunked (managerEnv pairBlocks false) (fun _ => 4)
        (promptRequest 0 [5, 6, 7] 1) j).numComputedTokens < 2 :=
  (mambaBlockAlignedSplit_stops (managerEnv pairBlocks false) (promptRequest 0 [5, 6, 7] 1)
    (by decide)).2 (fun _ => 4) (fun _ => by decide) (by decide) (by decide)

/-- In the tail, a request to which the encoder budget leaves nothing gets an empty chunk, although
no last cache position lies ahead of it. -/
theorem mambaBlockAlignedSplit_nothingOffered :
    let r := { promptRequest 0 [5, 6, 7] 1 with numComputedTokens := 2 }
    r.numComputedTokens < max (r.core.numPromptTokens : ℤ) (r.numTokens - 1) ∧
    mambaBlockAlignedSplit (managerEnv pairBlocks false) r 0 0 0 0 = 0 ∧
    ¬((0 : ℤ) < pairBlocks.cacheBlockSize ∧
      r.numComputedTokens + 0 < lastCachePosition (managerEnv pairBlocks false) r) := by
  decide

end Vllm
