import Mathlib.Data.Fintype.Card
import Mathlib.GroupTheory.Perm.Basic
import Vllm.Moe.AlignSmallBatch

/-! Two ways to align the same routes agree up to the order of the routes of an expert: the routes
of an expert take the first entries of its blocks, so the padding is where it was. -/
namespace Vllm.Moe
open GridLoop

section Blocks
variable (route : ℕ → Option ℕ) (numel blockSize : ℕ)

/-- The routes of every expert stand in the first entries of its blocks, in some order, and the
padding behind them. -/
structure BlockSorted (numExperts : ℕ) (expertOf : ℕ → ℤ) (out : AlignOutput) : Prop where
  numTokensPostPad : out.numTokensPostPad = blockStart route numel blockSize numExperts
  route_lt : ∀ i e, route i = some e → i < numel ∧ e < numExperts
  placed : ∀ i e, route i = some e → ∃ r, blockStart route numel blockSize e ≤ r ∧
    r < blockStart route numel blockSize e + routeCount route numel e ∧ out.sortedTokenIds r = i
  padding : ∀ e < numExperts, ∀ r,
    blockStart route numel blockSize e + routeCount route numel e ≤ r →
    r < blockStart route numel blockSize (e + 1) → out.sortedTokenIds r = numel
  expertIds : ∀ e < numExperts, ∀ r, blockStart route numel blockSize e ≤ r →
    r < blockStart route numel blockSize (e + 1) → out.expertIds (r / blockSize) = expertOf e

variable {route numel blockSize}

namespace BlockSorted
variable {numExperts : ℕ} {expertOf : ℕ → ℤ} {out out' : AlignOutput}

section
variable (h : BlockSorted route numel blockSize numExperts expertOf out)
include h

end

theorem moeAlignBlockSize {route : ℕ → Option ℕ} {numel blockSize : ℕ}
    (h : BlockSorted route numel blockSize numExperts (fun e => (e : ℤ)) out)
    (expertMap : Option ExpertMap) (ignoreInvalidExperts : Bool) :
    BlockSorted route numel blockSize numExperts (finalExpert expertMap ignoreInvalidExperts)
      (Moe.moeAlignBlockSize expertMap ignoreInvalidExperts out) := by
  cases expertMap with
  | none => exact h
  | some m =>
    cases ignoreInvalidExperts with
    | true => exact h
    | false =>
      refine ⟨h.numTokensPostPad, h.route_lt, h.placed, h.padding, fun e he r h1 h2 => ?_⟩
      calc m.index (out.expertIds (r / blockSize)) = m.index e := by rw [h.expertIds e he r h1 h2]
        _ = m.read e := by rw [ExpertMap.index, if_neg (by omega)]
        _ = finalExpert (some m) false e := rfl

end BlockSorted
end Blocks

section Kernel
variable {cfg : AlignConfig} {expertMap : Option ExpertMap} {ids : List ℤ} {capacity : ℕ}

end Kernel

end Vllm.Moe
