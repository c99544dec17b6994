import Vllm.Lib.SlotUpdate
import Vllm.Request
import Mathlib.Data.List.Sort
import Vllm.Lib.Dict

/-! The records of one step's changes to the persistent batch: which rows were vacated, filled and
moved, collected by `BatchUpdateBuilder` and handed over at `refresh_metadata`. The per-row state of
requests with a thinking token budget, and `sync_batch`, which keeps it in step with the batch. -/
namespace Vllm.Worker
open List

/-- A list object: the processors keep references to the requests' output token lists. -/
abbrev ListRef := ℕ

/-- The lists the references point to. -/
abbrev Outputs := ListRef → List TokenId

structure SamplingParams where
  greedy : Bool := false
  temperature : ℚ := 1
  topP : ℚ := 1
  topK : ℤ := 0
  minP : ℚ := 0
  frequencyPenalty : ℚ := 0
  presencePenalty : ℚ := 0
  repetitionPenalty : ℚ := 1
  minTokens : ℕ := 0
  allStopTokenIds : List TokenId := []
  logprobs : Option ℤ := none
  logprobTokenIds : Option (List TokenId) := none
  logitBias : Option (List (TokenId × ℚ)) := none
  allowedTokenIds : Option (List ℕ) := none
  badWordsTokenIds : Option (List (List TokenId)) := none
  thinkingTokenBudget : Option ℤ := none
  deriving DecidableEq

structure AddedRequest where
  index : ℕ
  params : SamplingParams
  promptTokIds : Option (List TokenId)
  outputTokIds : ListRef
  deriving DecidableEq

structure BatchUpdate where
  batchSize : ℕ
  removed : List ℕ
  added : List AddedRequest
  moved : List SlotUpdate.Moved
  deriving DecidableEq

structure BatchUpdateBuilder where
  removed : List ℕ := []
  isRemovedSorted : Bool := false
  added : List AddedRequest := []
  moved : List SlotUpdate.Moved := []
  batchChanged : Bool := false
  deriving DecidableEq

namespace BatchUpdateBuilder

/-- The removed rows in descending order, sorted on the first read. -/
def ensureRemovedSorted (u : BatchUpdateBuilder) : BatchUpdateBuilder :=
  if u.isRemovedSorted then u
  else { u with removed := u.removed.insertionSort (· ≥ ·), isRemovedSorted := true }

def removedAppend (u : BatchUpdateBuilder) (index : ℕ) : Raises BatchUpdateBuilder :=
  if u.isRemovedSorted then throw .runtimeError
  else pure { u with removed := u.removed ++ [index], batchChanged := true }

def popRemoved (u : BatchUpdateBuilder) : Option ℕ × BatchUpdateBuilder :=
  if u.removed.isEmpty then (none, u)
  else
    let v := u.ensureRemovedSorted
    (v.removed.getLast?, { v with removed := v.removed.dropLast })

def reset (u : BatchUpdateBuilder) : Bool × BatchUpdateBuilder := (u.batchChanged, {})

def getAndReset (u : BatchUpdateBuilder) (batchSize : ℕ) :
    Option BatchUpdate × BatchUpdateBuilder :=
  if u.removed.isEmpty && u.moved.isEmpty && u.added.isEmpty then
    (none, { u with isRemovedSorted := false, batchChanged := false })
  else
    (some { batchSize, removed := u.removed, added := u.added, moved := u.moved }, {})

/-- The removed rows are distinct, and in descending order once they have been read. -/
structure Sorted (u : BatchUpdateBuilder) : Prop where
  nodup : u.removed.Nodup
  descending : u.isRemovedSorted = true → u.removed.Pairwise (· > ·)

@[simp] theorem ensureRemovedSorted_added (u : BatchUpdateBuilder) :
    u.ensureRemovedSorted.added = u.added := by
  unfold ensureRemovedSorted
  split <;> rfl

@[simp] theorem ensureRemovedSorted_moved (u : BatchUpdateBuilder) :
    u.ensureRemovedSorted.moved = u.moved := by
  unfold ensureRemovedSorted
  split <;> rfl

@[simp] theorem ensureRemovedSorted_batchChanged (u : BatchUpdateBuilder) :
    u.ensureRemovedSorted.batchChanged = u.batchChanged := by
  unfold ensureRemovedSorted
  split <;> rfl

variable {u v : BatchUpdateBuilder}

theorem Sorted.pairwise (h : u.Sorted) : u.ensureRemovedSorted.removed.Pairwise (· > ·) := by
  unfold ensureRemovedSorted
  split
  · rename_i hs
    exact h.descending hs
  · have hge := pairwise_insertionSort (· ≥ ·) u.removed
    have hnd : (u.removed.insertionSort (· ≥ ·)).Nodup :=
      (perm_insertionSort _ _).nodup_iff.mpr h.nodup
    refine List.Pairwise.imp₂ ?_ hge hnd
    intro a b hab hne
    exact lt_of_le_of_ne hab (Ne.symm hne)

theorem Sorted.ensure (h : u.Sorted) : u.ensureRemovedSorted.Sorted where
  nodup := h.pairwise.imp fun hab => Nat.ne_of_gt hab
  descending := fun _ => h.pairwise

theorem dropLast_pairwise {l : List ℕ} {e : ℕ} (h : l.Pairwise (· > ·)) (hl : l.getLast? = some e) :
    l.Perm (e :: l.dropLast) ∧ (∀ k ∈ l.dropLast, e < k) ∧ l.dropLast.Pairwise (· > ·) := by
  obtain ⟨init, rfl⟩ := List.getLast?_eq_some_iff.mp hl
  rw [pairwise_append] at h
  obtain ⟨hinit, -, hlast⟩ := h
  rw [dropLast_concat]
  refine ⟨perm_append_singleton e init, ?_, hinit⟩
  intro k hk
  exact hlast k hk e (mem_singleton.mpr rfl)

theorem perm_ensureRemovedSorted (u : BatchUpdateBuilder) :
    u.ensureRemovedSorted.removed.Perm u.removed := by
  unfold ensureRemovedSorted
  split
  · rfl
  · exact perm_insertionSort _ _

theorem Sorted.append {u' : BatchUpdateBuilder} {i : ℕ} (h : u.Sorted) (hi : i ∉ u.removed)
    (hu : u.removedAppend i = .ok u') :
    u'.Sorted ∧ u'.removed = u.removed ++ [i] ∧ u'.added = u.added ∧ u'.moved = u.moved ∧
      u'.batchChanged = true := by
  unfold removedAppend at hu
  split at hu
  · exact absurd hu (by simp)
  · rename_i hs
    cases hu
    refine ⟨⟨?_, fun hs' => absurd hs' hs⟩, rfl, rfl, rfl, rfl⟩
    rw [nodup_append]
    refine ⟨h.nodup, nodup_singleton i, ?_⟩
    intro a ha b hb hab
    rw [mem_singleton] at hb
    exact hi (hb ▸ hab ▸ ha)

theorem popRemoved_eq_none (h : u.popRemoved = (none, v)) : u.removed = [] ∧ v = u := by
  unfold popRemoved at h
  split at h
  · rename_i he
    exact ⟨isEmpty_iff.mp he, (congrArg Prod.snd h).symm⟩
  · rename_i he
    have hnone : u.ensureRemovedSorted.removed = [] :=
      List.getLast?_eq_none_iff.mp (congrArg Prod.fst h)
    have hperm := u.perm_ensureRemovedSorted
    rw [hnone] at hperm
    exact absurd (isEmpty_iff.mpr hperm.symm.eq_nil) he

theorem Sorted.pop {e : ℕ} (hs : u.Sorted) (h : u.popRemoved = (some e, v)) :
    u.removed.Perm (e :: v.removed) ∧ (∀ k ∈ v.removed, e < k) ∧ v.Sorted ∧ v.added = u.added ∧
      v.moved = u.moved ∧ v.batchChanged = u.batchChanged := by
  unfold popRemoved at h
  split at h
  · exact absurd (congrArg Prod.fst h) (by simp)
  · obtain ⟨hlast, rfl⟩ := Prod.mk.inj h
    obtain ⟨hperm, hlt, hpair⟩ := dropLast_pairwise hs.pairwise hlast
    refine ⟨u.perm_ensureRemovedSorted.symm.trans hperm, hlt, ?_, by simp, by simp, by simp⟩
    exact ⟨hpair.imp fun hab => Nat.ne_of_gt hab, fun _ => hpair⟩

theorem Sorted.mem_pop {e : ℕ} (hs : u.Sorted) (h : u.popRemoved = (some e, v)) (k : ℕ) :
    k ∈ v.removed ↔ k ∈ u.removed ∧ k ≠ e := by
  obtain ⟨hperm, hlt, -⟩ := hs.pop h
  rw [hperm.mem_iff, mem_cons]
  constructor
  · intro hk
    exact ⟨.inr hk, (hlt k hk).ne'⟩
  · rintro ⟨hk | hk, hne⟩
    · exact absurd hk hne
    · exact hk

theorem getAndReset_cases (u : BatchUpdateBuilder) (batchSize : ℕ) :
    (u.getAndReset batchSize).2.removed = [] ∧ (u.getAndReset batchSize).2.added = [] ∧
      (u.getAndReset batchSize).2.moved = [] ∧
      ((u.getAndReset batchSize).1 = none ∧ u.removed = [] ∧ u.added = [] ∧ u.moved = [] ∨
        (u.getAndReset batchSize).1 = some
          { batchSize, removed := u.removed, added := u.added, moved := u.moved }) := by
  unfold getAndReset
  split
  · rename_i hempty
    simp only [Bool.and_eq_true, List.isEmpty_iff] at hempty
    obtain ⟨⟨hremoved, hmoved⟩, hadded⟩ := hempty
    exact ⟨hremoved, hadded, hmoved, .inl ⟨rfl, hremoved, hadded, hmoved⟩⟩
  · exact ⟨rfl, rfl, rfl, .inr rfl⟩

end BatchUpdateBuilder

/-- One entry of `_state`. `serial` stands for the identity of the entry object: entries are
numbered as they are created. -/
structure BudgetEntry where
  serial : ℕ
  inThink : Bool
  inEnd : Bool
  checkCountDown : ℤ
  thinkCount : ℤ
  promptTokIds : Option (List TokenId)
  outputTokIds : ListRef
  thinkingTokenBudget : ℤ
  startThinking : ℤ
  continueThinking : Bool
  deriving DecidableEq

structure ThinkingBudgetStateHolder where
  thinkStartTokenIds : List TokenId
  thinkEndTokenIds : List TokenId
  state : Dict ℕ BudgetEntry := Dict.empty
  created : ℕ := 0

/-- The last position at which `tokenIds` stands in `targetList`, or −1. -/
def findLastSequenceIndex (targetList tokenIds : List TokenId) : ℤ :=
  if tokenIds.isEmpty then -1
  else
    match (List.range (targetList.length + 1 - tokenIds.length)).reverse.find? fun i =>
        (targetList.drop i).take tokenIds.length = tokenIds with
    | some i => i
    | none => -1

namespace ThinkingBudgetStateHolder

def initStateEntry (h : ThinkingBudgetStateHolder) (promptTokIds : Option (List TokenId))
    (thinkingTokenBudget : ℤ) (outputTokIds : ListRef) : BudgetEntry :=
  let idle : BudgetEntry :=
    { serial := h.created, inThink := false, inEnd := false
      checkCountDown := thinkingTokenBudget, thinkCount := 0, promptTokIds, outputTokIds
      thinkingTokenBudget, startThinking := -1, continueThinking := false }
  match promptTokIds with
  | none => idle
  | some prompt =>
    let lastStart := findLastSequenceIndex prompt h.thinkStartTokenIds
    let lastEnd := findLastSequenceIndex prompt h.thinkEndTokenIds
    if lastStart > lastEnd then
      let thinkCount : ℤ := prompt.length - (lastStart + h.thinkStartTokenIds.length)
      { idle with
        inThink := true
        inEnd := thinkingTokenBudget - thinkCount ≤ 0
        checkCountDown := thinkingTokenBudget - thinkCount
        thinkCount
        startThinking := prompt.length - thinkCount - 1
        continueThinking := true }
    else idle

def removeState (h : ThinkingBudgetStateHolder) (index : ℕ) : ThinkingBudgetStateHolder :=
  { h with state := h.state.erase index }

def addState (h : ThinkingBudgetStateHolder) (a : AddedRequest) : ThinkingBudgetStateHolder :=
  match a.params.thinkingTokenBudget with
  | some budget =>
    { h with
      state := h.state.set a.index (h.initStateEntry a.promptTokIds budget a.outputTokIds)
      created := h.created + 1 }
  | none => { h with state := h.state.erase a.index }

def moveState (h : ThinkingBudgetStateHolder) (m : SlotUpdate.Moved) :
    ThinkingBudgetStateHolder :=
  let (i1, i2, direction) := m
  match direction with
  | .swap =>
    let state1 := h.state.get? i1
    let state2 := h.state.get? i2
    let state := match state1 with
      | some entry => h.state.set i2 entry
      | none => h.state
    let state := match state2 with
      | some entry => state.set i1 entry
      | none => state
    { h with state }
  | .unidirectional =>
    let popped := h.state.erase i1
    match h.state.get? i1 with
    | some entry => { h with state := popped.set i2 entry }
    | none => { h with state := popped }

def syncBatch (h : ThinkingBudgetStateHolder) (u : BatchUpdate) : ThinkingBudgetStateHolder :=
  u.moved.foldl moveState (u.added.foldl addState (u.removed.foldl removeState h))

def hasTrackedRequests (h : ThinkingBudgetStateHolder) : Bool := !h.state.isEmpty

end ThinkingBudgetStateHolder

end Vllm.Worker
