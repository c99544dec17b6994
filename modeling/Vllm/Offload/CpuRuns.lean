import Vllm.Offload.PrepareStore

/-! Any calls of the CPU manager that keep to its protocol, in any order: its pool is partitioned
and its reference counts count the jobs that are outstanding. -/
namespace Vllm
open LRUCachePolicy Multiset ARCCachePolicy CPUOffloadingManager
variable {P : Type}

/-- The manager, the keys of the stores and loads that have been prepared and not completed, and
the keys whose lookup has answered true. -/
structure CpuRun (P : Type) where
  manager : CPUOffloadingManager P
  stores : List (List OffloadKey) := []
  loads : List (List OffloadKey) := []
  answered : List OffloadKey := []

namespace CpuRun

/-- A call: the keys of one call are distinct, loads are of keys whose lookup has answered true, and
what has been prepared is completed once, unless there was a reset. A failed assertion ends the
run. -/
inductive Step (c : CachePolicy P) (s : CpuRun P) : CpuRun P → Prop
  | lookup {m answer} (key : OffloadKey) : s.manager.lookup c key = .ok (answer, m) →
      Step c s { s with
        manager := m
        answered := if answer = some true then key :: s.answered else s.answered }
  | touch {keys} : keys.Nodup → Step c s { s with manager := s.manager.touch c keys }
  | prepareStore {keys m out} : keys.Nodup → s.manager.prepareStore c keys = .ok (out, m) →
      Step c s { s with
        manager := m
        stores := (out.map fun o => o.keysToStore).toList ++ s.stores }
  | completeStore {keys m} (i : ℕ) (success : Bool) : s.stores[i]? = some keys →
      s.manager.completeStore c keys success = .ok m →
      Step c s { s with manager := m, stores := s.stores.eraseIdx i }
  | prepareLoad {keys m ids} : keys.Nodup → (∀ k ∈ keys, k ∈ s.answered) →
      s.manager.prepareLoad c keys = .ok (ids, m) →
      Step c s { s with manager := m, loads := keys :: s.loads }
  | completeLoad {keys m i} : s.loads[i]? = some keys → s.manager.completeLoad c keys = .ok m →
      Step c s { s with manager := m, loads := s.loads.eraseIdx i }
  | resetCache : Step c s { s with manager := s.manager.resetCache c, stores := [], loads := [] }

inductive Reachable (c : CachePolicy P) (start : CpuRun P) : CpuRun P → Prop
  | start : Reachable c start start
  | step {s s'} : Reachable c start s → Step c s s' → Reachable c start s'

variable {c : CachePolicy P} {held : P → Multiset CacheEntry} {s s' start : CpuRun P}

/-- Every block has one owner, and its reference count says what it is used for. -/
structure Books (c : CachePolicy P) (held : P → Multiset CacheEntry) (s : CpuRun P) : Prop where
  partition : s.manager.heldIds held + s.manager.freeList + s.manager.neverAllocated =
    Multiset.range s.manager.numBlocks
  pending : ∀ k b, c.get s.manager.policy k = some b →
    (b.refCnt = -1 ↔ ∃ keys ∈ s.stores, k ∈ keys)
  loads : ∀ k b, c.get s.manager.policy k = some b → (¬∃ keys ∈ s.stores, k ∈ keys) →
    b.refCnt = s.loads.countP (k ∈ ·)

/-- Blocks in use are not evicted, and without room nothing happens. -/
def StoresSafely (c : CachePolicy P) (s : CpuRun P) : Prop :=
  ∀ keys : List OffloadKey, keys.Nodup → ∃ out m, s.manager.prepareStore c keys = .ok (out, m) ∧
    (∀ k b, c.get s.manager.policy k = some b → b.refCnt ≠ 0 → c.get m.policy k = some b) ∧
    (out = none → s.manager.Unchanged m)

/-- The jobs behind the pool. -/
structure Inv (held : P → Multiset CacheEntry) (s : CpuRun P) : Prop where
  pool : s.manager.PoolInv held (s.stores.flatten : List OffloadKey)
    (s.loads.flatten : List OffloadKey) 0
  distinct : ∀ keys ∈ s.loads, keys.Nodup

variable {jobs : List (List OffloadKey)}

theorem flatten_eraseIdx {keys : List OffloadKey} {i : ℕ} (h : jobs[i]? = some keys) :
    (jobs.flatten : Multiset OffloadKey) = keys + (jobs.eraseIdx i).flatten := by
  induction jobs generalizing i with
  | nil => cases h
  | cons job jobs ih =>
    cases i with
    | zero =>
      cases Option.some.inj h
      rw [List.flatten_cons, ← coe_add]
      rfl
    | succ i =>
      have hrest := ih h
      rw [List.flatten_cons, ← coe_add, hrest, List.eraseIdx_cons_succ,
        List.flatten_cons, ← coe_add]
      exact add_left_comm _ _ _

theorem Inv.step (h : Inv held s) (hc : c.Lawful held) (hstep : Step c s s') : Inv held s' := by
  cases hstep with
  | lookup _ hrun =>
    exact ⟨(CPUOffloadingManager.PoolInv.lookup_eq_ok hrun).2.2 h.pool, h.distinct⟩
  | touch _ => exact ⟨(h.pool.touch hc _).1, h.distinct⟩
  | @prepareStore keys m out hnodup hrun =>
    rcases h.pool.prepareStore hc hnodup with ⟨out', m', hrun', -, hout⟩
    rw [hrun'] at hrun
    cases hrun
    refine ⟨?_, h.distinct⟩
    cases out with
    | none => exact hout.2
    | some o =>
      show CPUOffloadingManager.PoolInv held m
        ((o.keysToStore :: s.stores).flatten : List OffloadKey) _ 0
      rw [List.flatten_cons, ← coe_add]
      exact hout.2
  | @completeStore keys m i success hjob hrun =>
    have hpool := h.pool
    rw [flatten_eraseIdx hjob] at hpool
    refine ⟨?_, h.distinct⟩
    cases success with
    | true =>
      rcases hpool.completeStore_success hc with ⟨m', hrun', hinv, -⟩
      rw [hrun'] at hrun
      cases hrun
      exact hinv
    | false =>
      rcases hpool.completeStore_failure hc with ⟨m', hrun', hinv, -⟩
      rw [hrun'] at hrun
      cases hrun
      exact hinv
  | @prepareLoad keys m ids hnodup _ hrun =>
    rcases h.pool.prepareLoad hc (h.pool.ready_of_prepareLoad hc hrun) with
      ⟨ids', m', hrun', hinv, -⟩
    rw [hrun'] at hrun
    cases hrun
    constructor
    · show CPUOffloadingManager.PoolInv held m _ ((keys :: s.loads).flatten : List OffloadKey) 0
      rw [List.flatten_cons, ← coe_add]
      exact hinv
    · exact List.forall_mem_cons.mpr ⟨hnodup, h.distinct⟩
  | completeLoad hjob hrun =>
    have hpool := h.pool
    rw [flatten_eraseIdx hjob] at hpool
    rcases hpool.completeLoad hc with ⟨m', hrun', hinv, -⟩
    rw [hrun'] at hrun
    cases hrun
    exact ⟨hinv, fun keys hkeys => h.distinct keys (List.mem_of_mem_eraseIdx hkeys)⟩
  | resetCache =>
    exact ⟨CPUOffloadingManager.PoolInv.resetCache s.manager hc,
      fun keys hkeys => absurd hkeys List.not_mem_nil⟩

theorem inv_of_reachable (hc : c.Lawful held) (hstart : Inv held start)
    (hs : Reachable c start s) : Inv held s := by
  induction hs with
  | start => exact hstart
  | step _ hstep ih => exact ih.step hc hstep

theorem mem_flatten_iff {k : OffloadKey} :
    k ∈ (jobs.flatten : Multiset OffloadKey) ↔ ∃ keys ∈ jobs, k ∈ keys := by
  rw [mem_coe, List.mem_flatten]

theorem count_flatten (h : ∀ keys ∈ jobs, keys.Nodup) (k : OffloadKey) :
    (jobs.flatten : Multiset OffloadKey).count k = jobs.countP (k ∈ ·) := by
  rw [coe_count]
  induction jobs with
  | nil => rfl
  | cons job jobs ih =>
    rw [List.flatten_cons, List.count_append, List.countP_cons,
      ih fun keys hkeys => h keys (List.mem_cons_of_mem job hkeys), Nat.add_comm]
    congr 1
    by_cases hk : k ∈ job
    · rw [List.count_eq_one_of_mem (h job List.mem_cons_self) hk, if_pos (decide_eq_true hk)]
    · rw [List.count_eq_zero_of_not_mem hk, if_neg (by simpa using hk)]

theorem Inv.books (h : Inv held s) (hc : c.Lawful held) : Books c held s := by
  constructor
  · have hpart := h.pool.partition
    rwa [add_zero] at hpart
  · intro k b hb
    have hmem := (h.pool.get_iff hc).mp hb
    have href := h.pool.refCnt k b hmem
    rw [← mem_flatten_iff]
    split_ifs at href with hp
    · exact iff_of_true href hp
    · exact iff_of_false (by omega) hp
  · intro k b hb hnot
    rw [h.pool.refCnt k b ((h.pool.get_iff hc).mp hb), if_neg (mt mem_flatten_iff.mp hnot),
      count_flatten h.distinct]

theorem Inv.storesSafely (h : Inv held s) (hc : c.Lawful held) : StoresSafely c s := by
  intro keys hnodup
  rcases h.pool.prepareStore hc hnodup with ⟨out, m, hrun, -, hout⟩
  refine ⟨out, m, hrun, ?_, ?_⟩
  · intro k b hb href
    cases out with
    | none => exact (congrArg (c.get · k) hout.1.1).trans hb
    | some o =>
      have hstore : k ∉ o.keysToStore := by
        intro hk
        rw [(hout.1.absent k hk).2] at hb
        cases hb
      have hevicted : k ∉ o.evictedKeys := by
        intro hk
        rcases hout.1.evicted k hk with ⟨b', hb', hzero⟩
        rw [hb] at hb'
        cases hb'
        exact href hzero
      rw [hout.1.others k hstore, if_neg hevicted, hb]
  · rintro rfl
    exact hout.1

theorem Inv.init (held : P → Multiset CacheEntry) (policy : P) (hempty : held policy = 0)
    (numBlocks : ℕ) (enableEvents : Bool) (storeThreshold maxTrackerSize : ℕ) :
    Inv held { manager := .init policy numBlocks enableEvents storeThreshold maxTrackerSize } := by
  refine ⟨⟨?_, ?_, Nat.zero_le _, ?_, ?_, ?_, nodup_zero⟩, ?_⟩
  · show DistinctKeys (held policy)
    rw [hempty]
    exact nodup_zero
  · unfold heldIds neverAllocated
    show (held policy).map _ + (([] : List ℕ) : Multiset ℕ) +
      (List.range' 0 (numBlocks - 0) : Multiset ℕ) + 0 = range numBlocks
    rw [hempty, map_zero, coe_nil, zero_add, zero_add, add_zero, Nat.sub_zero,
      ← List.range_eq_range']
    rfl
  · intro k b hb
    change (k, b) ∈ held policy at hb
    rw [hempty] at hb
    exact absurd hb (notMem_zero _)
  · exact fun k hk => absurd hk (notMem_zero k)
  · exact fun k hk => absurd hk (notMem_zero k)
  · exact fun keys hkeys => absurd hkeys List.not_mem_nil

end CpuRun

section Policies
variable (numBlocks storeThreshold maxTrackerSize : ℕ) (enableEvents : Bool)

/-- The manager with the policy `lru` before any call. -/
def lruStart : CpuRun LRUCachePolicy where
  manager := .init {} numBlocks enableEvents storeThreshold maxTrackerSize

/-- The manager with the policy `arc` before any call. -/
def arcStart : CpuRun ARCCachePolicy where
  manager := .init { cacheCapacity := numBlocks } numBlocks enableEvents storeThreshold
    maxTrackerSize

/-- The books of the CPU pool, under either policy. -/
theorem cpuPool_books (round : ℚ → ℚ) :
    (∀ s, CpuRun.Reachable policy
        (lruStart numBlocks storeThreshold maxTrackerSize enableEvents) s →
      s.Books policy (fun p => p.blocks.bag) ∧
        s.StoresSafely policy) ∧
    (∀ s, CpuRun.Reachable (policy round)
        (arcStart numBlocks storeThreshold maxTrackerSize enableEvents) s →
      s.Books (policy round) held ∧
        s.StoresSafely (policy round)) := by
  constructor
  · intro s hs
    have hstart := CpuRun.Inv.init (fun p : LRUCachePolicy => p.blocks.bag) {} rfl numBlocks
      enableEvents storeThreshold maxTrackerSize
    have hinv := CpuRun.inv_of_reachable lawful hstart hs
    exact ⟨hinv.books lawful, hinv.storesSafely lawful⟩
  · intro s hs
    have hlawful := lawful round
    have hstart := CpuRun.Inv.init held { cacheCapacity := numBlocks } rfl
      numBlocks enableEvents storeThreshold maxTrackerSize
    have hinv := CpuRun.inv_of_reachable hlawful hstart hs
    exact ⟨hinv.books hlawful, hinv.storesSafely hlawful⟩

end Policies

/-- A block is stored, found and loaded. -/
def loadedOnce : CpuRun LRUCachePolicy where
  manager :=
    { numBlocks := 1
      policy := { blocks := Dict.empty.set (soloKey 1) ⟨0, 1⟩ }
      numAllocatedBlocks := 1
      maxTrackerSize := 0 }
  loads := [[soloKey 1]]
  answered := [soloKey 1]

theorem loadedOnce_reachable : CpuRun.Reachable policy (lruStart 1 1 0 false) loadedOnce := by
  have h1 := CpuRun.Reachable.start.step (CpuRun.Step.prepareStore (c := policy)
    (s := lruStart 1 1 0 false) (List.nodup_singleton (soloKey 1)) rfl)
  have h2 := h1.step (.completeStore 0 true rfl rfl)
  have h3 := h2.step (.lookup (soloKey 1) rfl)
  exact h3.step (.prepareLoad (List.nodup_singleton (soloKey 1)) (by decide) rfl)

theorem cpuPool_books_loadedOnce :
    loadedOnce.Books policy (fun p => p.blocks.bag) ∧
      loadedOnce.StoresSafely policy :=
  (cpuPool_books 1 1 0 false id).1 loadedOnce loadedOnce_reachable

end Vllm
