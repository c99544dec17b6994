import Vllm.Lib.Float32
import Vllm.Worker.BatchUpdate

/-! The built-in logits processors that keep state per batch row, and how `update_state` brings
that state up to date from the records of a step. -/
namespace Vllm.Worker

structure MinPLogitsProcessor where
  minPCount : ℤ := 0
  minPCpu : ℕ → ℚ := fun _ => 0
  minP : List ℚ := []

namespace MinPLogitsProcessor

/-- One added request; the flag says that the device copy is out of date. -/
def addStep (s : MinPLogitsProcessor × Bool) (a : AddedRequest) : MinPLogitsProcessor × Bool :=
  let minP := a.params.minP
  let minPBefore := s.1.minPCpu a.index
  if minPBefore ≠ Float32.ofRat minP then
    ({ s.1 with
        minPCpu := Function.update s.1.minPCpu a.index (Float32.ofRat minP)
        minPCount :=
          if minP ≠ 0 ∧ minPBefore = 0 then s.1.minPCount + 1
          else if minP = 0 ∧ minPBefore ≠ 0 then s.1.minPCount - 1
          else s.1.minPCount }, true)
  else s

def removeStep (p : MinPLogitsProcessor) (index : ℕ) : MinPLogitsProcessor :=
  if p.minPCpu index ≠ 0 then
    { p with minPCpu := Function.update p.minPCpu index 0, minPCount := p.minPCount - 1 }
  else p

def moveStep (s : MinPLogitsProcessor × Bool) (m : SlotUpdate.Moved) :
    MinPLogitsProcessor × Bool :=
  let (adx, bdx, direct) := m
  let minPA := s.1.minPCpu adx
  let minPB := s.1.minPCpu bdx
  let cpu :=
    if minPA ≠ minPB then
      let cpu := Function.update s.1.minPCpu bdx minPA
      if direct = .swap then Function.update cpu adx minPB else cpu
    else s.1.minPCpu
  let needsUpdate := if minPA ≠ minPB then true else s.2
  if direct = .unidirectional then
    ({ s.1 with
        minPCpu := if minPA ≠ 0 then Function.update cpu adx 0 else cpu
        minPCount := if minPB ≠ 0 then s.1.minPCount - 1 else s.1.minPCount }, needsUpdate)
  else ({ s.1 with minPCpu := cpu }, needsUpdate)

def updateState (p : MinPLogitsProcessor) : Option BatchUpdate → MinPLogitsProcessor
  | none => p
  | some u =>
    let s := u.added.foldl addStep (p, false)
    let s :=
      if s.1.minPCount ≠ 0 then
        u.moved.foldl moveStep
          (u.removed.foldl removeStep s.1, if u.removed.isEmpty then s.2 else true)
      else s
    if s.1.minPCount ≠ 0 ∧ (s.2 = true ∨ s.1.minP.length ≠ u.batchSize) then
      { s.1 with minP := RowArray.firstEntries u.batchSize s.1.minPCpu }
    else s.1

end MinPLogitsProcessor

section DictUpdates
variable {T : Type}

def addDictStep (newState : AddedRequest → Option T) (s : Bool × Dict ℕ T) (a : AddedRequest) :
    Bool × Dict ℕ T :=
  match newState a with
  | some state => (true, s.2.set a.index state)
  | none => (s.1 || s.2.contains a.index, s.2.erase a.index)

def removeDictStep (s : Bool × Dict ℕ T) (index : ℕ) : Bool × Dict ℕ T :=
  (s.1 || s.2.contains index, s.2.erase index)

def moveDictStep (s : Bool × Dict ℕ T) (m : SlotUpdate.Moved) : Bool × Dict ℕ T :=
  let (aIndex, bIndex, direct) := m
  let aEntry := s.2.get? aIndex
  let entries := s.2.erase aIndex
  let bEntry := entries.get? bIndex
  let entries := entries.erase bIndex
  let entries := match aEntry with
    | some entry => entries.set bIndex entry
    | none => entries
  let entries := match bEntry with
    | some entry => if direct = .swap then entries.set aIndex entry else entries
    | none => entries
  (s.1 || aEntry.isSome || bEntry.isSome, entries)

/-- The update of a processor that keeps an entry for some of the rows only. -/
def processDictUpdates (reqEntries : Dict ℕ T) (batchUpdate : Option BatchUpdate)
    (newState : AddedRequest → Option T) : Bool × Dict ℕ T :=
  match batchUpdate with
  | none => (false, reqEntries)
  | some u =>
    let s := u.added.foldl (addDictStep newState) (false, reqEntries)
    if s.2.isEmpty then s else u.moved.foldl moveDictStep (u.removed.foldl removeDictStep s)

end DictUpdates

abbrev LogitBias := List (TokenId × ℚ)

structure LogitBiasLogitsProcessor where
  biases : Dict ℕ LogitBias := Dict.empty
  biasTensor : List ℚ := []
  logitsSlice : List (ℕ × TokenId) := []

namespace LogitBiasLogitsProcessor

/-- `params.logit_bias or None` -/
def newState (a : AddedRequest) : Option LogitBias := a.params.logitBias.filter (· ≠ [])

def updateState (p : LogitBiasLogitsProcessor) (batchUpdate : Option BatchUpdate) :
    LogitBiasLogitsProcessor :=
  let s := processDictUpdates p.biases batchUpdate newState
  if s.1 then
    { biases := s.2
      biasTensor := s.2.entries.flatMap fun e => e.2.map Prod.snd
      logitsSlice := s.2.entries.flatMap fun e => e.2.map fun b => (e.1, b.1) }
  else { p with biases := s.2 }

end LogitBiasLogitsProcessor

structure MinTokensEntry where
  minTokens : ℕ
  outTokIds : ListRef
  stopTokIds : List TokenId
  deriving DecidableEq

structure MinTokensLogitsProcessor where
  minToks : Dict ℕ MinTokensEntry := Dict.empty
  logitsSlice : List (ℕ × TokenId) := []

namespace MinTokensLogitsProcessor

def addRequest (outputs : Outputs) (a : AddedRequest) : Option MinTokensEntry :=
  if a.params.minTokens = 0 ∨ (outputs a.outputTokIds).length ≥ a.params.minTokens then none
  else some ⟨a.params.minTokens, a.outputTokIds, a.params.allStopTokenIds⟩

/-- The entries of requests that have not attained their min tokens. -/
def dropAttained (outputs : Outputs) (minToks : Dict ℕ MinTokensEntry) : Dict ℕ MinTokensEntry where
  entries := minToks.entries.filter fun e => (outputs e.2.outTokIds).length < e.2.minTokens
  nodupKeys := minToks.nodupKeys.sublist (List.filter_sublist.map _)

def updateState (outputs : Outputs) (p : MinTokensLogitsProcessor)
    (batchUpdate : Option BatchUpdate) : MinTokensLogitsProcessor :=
  let s := processDictUpdates p.minToks batchUpdate (addRequest outputs)
  let minToks := dropAttained outputs s.2
  if s.1 = true ∨ minToks.size ≠ s.2.size then
    { minToks
      logitsSlice := minToks.entries.flatMap fun e => e.2.stopTokIds.map fun t => (e.1, t) }
  else { p with minToks }

end MinTokensLogitsProcessor

/-- The built-in processors; each is brought up to date by itself. -/
structure LogitsProcessors where
  minTokens : MinTokensLogitsProcessor := {}
  logitBias : LogitBiasLogitsProcessor := {}
  minP : MinPLogitsProcessor := {}

def LogitsProcessors.updateState (outputs : Outputs) (p : LogitsProcessors)
    (batchUpdate : Option BatchUpdate) : LogitsProcessors where
  minTokens := p.minTokens.updateState outputs batchUpdate
  logitBias := p.logitBias.updateState batchUpdate
  minP := p.minP.updateState batchUpdate

end Vllm.Worker
