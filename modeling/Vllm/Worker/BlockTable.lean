import Vllm.Lib.Raise
import Vllm.Lib.RowArray

/-! The block table rows of the KV cache groups: row `i` of every group holds the block ids of
the request at row `i` of the batch, in its first `num_blocks_per_row[i]` entries. -/
namespace Vllm.Worker

structure BlockTable where
  maxNumBlocksPerReq : ℕ
  blocksPerKvBlock : ℕ := 1
  useHybridBlocks : Bool := false
  blockTable : ℕ → ℕ → ℕ := fun _ _ => 0
  numBlocksPerRow : ℕ → ℕ := fun _ => 0

def mapToKernelBlocks (kvManagerBlockIds : List ℕ) (blocksPerKvBlock : ℕ) : List ℕ :=
  if blocksPerKvBlock = 1 then kvManagerBlockIds
  else kvManagerBlockIds.flatMap fun b =>
    (List.range blocksPerKvBlock).map fun k => b * blocksPerKvBlock + k

namespace BlockTable
open RowArray

/-- The ids that are written for a list of block ids of the KV cache manager. -/
def kernelIds (t : BlockTable) (blockIds : List ℕ) : List ℕ :=
  if t.useHybridBlocks then mapToKernelBlocks blockIds t.blocksPerKvBlock else blockIds

/-- A single id is broadcast into what is left of its row: where that is nothing, the id is counted
and not written. -/
def appendRow (t : BlockTable) (blockIds : List ℕ) (row : ℕ) : Raises BlockTable :=
  if blockIds.isEmpty then pure t
  else
    let ids := t.kernelIds blockIds
    let start := t.numBlocksPerRow row
    let counted := { t with
      numBlocksPerRow := Function.update t.numBlocksPerRow row (start + ids.length) }
    if start + ids.length ≤ t.maxNumBlocksPerReq then
      pure { counted with
        blockTable := Function.update t.blockTable row (writeAt (t.blockTable row) start ids) }
    else if ids.length = 1 then pure counted
    else throw .valueError

/-- `append_row` where the ids fit. The rows of the runner are as wide as the longest request, so
that a call of another kind ends a run. -/
def appendFitting (t : BlockTable) (blockIds : List ℕ) (row : ℕ) : Raises BlockTable := do
  Raises.require (t.numBlocksPerRow row + (t.kernelIds blockIds).length ≤ t.maxNumBlocksPerReq)
  t.appendRow blockIds row

def addRow (t : BlockTable) (blockIds : List ℕ) (row : ℕ) : Raises BlockTable :=
  { t with numBlocksPerRow := Function.update t.numBlocksPerRow row 0 }.appendFitting blockIds row

def clearRow (t : BlockTable) (row : ℕ) : BlockTable :=
  { t with
    blockTable := Function.update t.blockTable row
      (fillRange (t.blockTable row) 0 (t.numBlocksPerRow row) 0)
    numBlocksPerRow := Function.update t.numBlocksPerRow row 0 }

def moveRow (t : BlockTable) (src tgt : ℕ) : BlockTable :=
  { t with
    blockTable := Function.update t.blockTable tgt
      (copyFirst (t.numBlocksPerRow src) (t.blockTable src) (t.blockTable tgt))
    numBlocksPerRow := Function.update t.numBlocksPerRow tgt (t.numBlocksPerRow src) }

def swapRow (t : BlockTable) (src tgt : ℕ) : BlockTable :=
  { t with
    numBlocksPerRow := RowArray.swapRow t.numBlocksPerRow src tgt
    blockTable := RowArray.swapRow t.blockTable src tgt }

/-- The block ids of row `i`. -/
def rowBlocks (t : BlockTable) (i : ℕ) : List ℕ :=
  firstEntries (t.numBlocksPerRow i) (t.blockTable i)

theorem kernelIds_nil (t : BlockTable) : t.kernelIds [] = [] := by
  simp [kernelIds, mapToKernelBlocks]

/-- An append that fits changes its row alone. -/
theorem appendRow_of_fits (t : BlockTable) {blockIds : List ℕ} {row : ℕ}
    (h : t.numBlocksPerRow row + (t.kernelIds blockIds).length ≤ t.maxNumBlocksPerReq) :
    ∃ counts table, t.appendRow blockIds row =
        .ok { t with numBlocksPerRow := counts, blockTable := table } ∧
      (∀ i, { t with numBlocksPerRow := counts, blockTable := table }.rowBlocks i =
        if i = row then t.rowBlocks row ++ t.kernelIds blockIds else t.rowBlocks i) ∧
      ((∀ r, t.numBlocksPerRow r ≤ t.maxNumBlocksPerReq) →
        ∀ r, counts r ≤ t.maxNumBlocksPerReq) := by
  unfold appendRow
  split
  · rename_i hempty
    obtain rfl := List.isEmpty_iff.mp hempty
    refine ⟨_, _, rfl, fun i => ?_, id⟩
    rw [kernelIds_nil, List.append_nil]
    split
    · rename_i hi
      rw [hi]
    · rfl
  · dsimp only
    rw [if_pos h]
    refine ⟨_, _, rfl, fun i => ?_, fun hwidth r => ?_⟩
    · by_cases hi : i = row
      · subst hi
        simp only [rowBlocks, Function.update_self, ↓reduceIte]
        exact firstEntries_writeAt _ _ _
      · simp [rowBlocks, hi]
    · by_cases hr : r = row
      · rw [hr, Function.update_self]
        exact h
      · rw [Function.update_of_ne hr]
        exact hwidth r

theorem appendFitting_rowBlocks {t t' : BlockTable} {blockIds : List ℕ} {row : ℕ}
    (h : t.appendFitting blockIds row = .ok t') (i : ℕ) :
    t'.rowBlocks i =
      if i = row then t.rowBlocks row ++ t.kernelIds blockIds else t.rowBlocks i := by
  obtain ⟨_, hfits, hrun⟩ := Raises.of_bind h
  obtain ⟨counts, table, hok, hrows, -⟩ := t.appendRow_of_fits (Raises.require_eq_ok.mp hfits)
  obtain rfl := Except.ok.inj (hok.symm.trans hrun)
  exact hrows i

theorem addRow_rowBlocks {t t' : BlockTable} {blockIds : List ℕ} {row : ℕ}
    (h : t.addRow blockIds row = .ok t') (i : ℕ) :
    t'.rowBlocks i = if i = row then t.kernelIds blockIds else t.rowBlocks i := by
  rw [appendFitting_rowBlocks h i]
  by_cases hi : i = row
  · simp only [hi, ↓reduceIte]
    simp [rowBlocks, firstEntries, kernelIds]
  · simp [rowBlocks, hi]

theorem clearRow_rowBlocks (t : BlockTable) {row i : ℕ} (hi : i ≠ row) :
    (t.clearRow row).rowBlocks i = t.rowBlocks i := by
  simp [clearRow, rowBlocks, hi]

theorem moveRow_rowBlocks (t : BlockTable) (src tgt i : ℕ) :
    (t.moveRow src tgt).rowBlocks i = if i = tgt then t.rowBlocks src else t.rowBlocks i := by
  by_cases hi : i = tgt
  · subst hi
    simp only [moveRow, rowBlocks, Function.update_self, ↓reduceIte]
    exact firstEntries_copyFirst _ _ _
  · simp [moveRow, rowBlocks, hi]

theorem swapRow_rowBlocks (t : BlockTable) (src tgt i : ℕ) :
    (t.swapRow src tgt).rowBlocks i = t.rowBlocks (Equiv.swap src tgt i) := by
  simp [BlockTable.swapRow, rowBlocks, swapRow_apply]

end BlockTable

/-- The block tables of all groups. -/
abbrev MultiGroupBlockTable := List BlockTable

namespace MultiGroupBlockTable

def zipRows (f : BlockTable → List ℕ → Raises BlockTable) :
    MultiGroupBlockTable → List (List ℕ) → Raises MultiGroupBlockTable
  | [], _ => pure []
  | _ :: _, [] => throw .indexError
  | t :: ts, ids :: rest => do
    let t ← f t ids
    let ts ← zipRows f ts rest
    pure (t :: ts)

def appendRow (ts : MultiGroupBlockTable) (blockIds : List (List ℕ)) (row : ℕ) :
    Raises MultiGroupBlockTable :=
  zipRows (fun t ids => t.appendFitting ids row) ts blockIds

def addRow (ts : MultiGroupBlockTable) (blockIds : List (List ℕ)) (row : ℕ) :
    Raises MultiGroupBlockTable :=
  zipRows (fun t ids => t.addRow ids row) ts blockIds

def clearRow (ts : MultiGroupBlockTable) (row : ℕ) : MultiGroupBlockTable :=
  ts.map fun t => t.clearRow row

def moveRow (ts : MultiGroupBlockTable) (src tgt : ℕ) : MultiGroupBlockTable :=
  ts.map fun t => t.moveRow src tgt

def swapRow (ts : MultiGroupBlockTable) (src tgt : ℕ) : MultiGroupBlockTable :=
  ts.map fun t => t.swapRow src tgt

/-- Row `i` of every group. -/
def rowBlocks (ts : MultiGroupBlockTable) (i : ℕ) : List (List ℕ) := ts.map fun t => t.rowBlocks i

/-- The ids written for the block ids of every group. -/
def kernelIds (ts : MultiGroupBlockTable) (blockIds : List (List ℕ)) : List (List ℕ) :=
  List.zipWith (fun t ids => t.kernelIds ids) ts blockIds

variable {blockIds : List (List ℕ)} {ts ts' : MultiGroupBlockTable}

theorem zipRows_cons {f : BlockTable → List ℕ → Raises BlockTable} {t : BlockTable}
    (h : zipRows f (t :: ts) blockIds = .ok ts') :
    ∃ ids rest t' rest', blockIds = ids :: rest ∧ f t ids = .ok t' ∧
      zipRows f ts rest = .ok rest' ∧ ts' = t' :: rest' := by
  cases blockIds with
  | nil => exact absurd h (by simp [zipRows])
  | cons ids rest =>
    rw [zipRows] at h
    obtain ⟨t', ht, h⟩ := Raises.of_bind h
    obtain ⟨rest', hrest, h⟩ := Raises.of_bind h
    exact ⟨ids, rest, t', rest', rfl, ht, hrest, (Raises.pure_eq_ok.mp h).symm⟩

/-- A call for every table makes of row `row` what it does in each of them. -/
theorem zipRows_rowBlocks {f : BlockTable → List ℕ → Raises BlockTable}
    {g : BlockTable → List ℕ → List ℕ} {row : ℕ}
    (hf : ∀ {t ids t'}, f t ids = .ok t' → ∀ i,
      t'.rowBlocks i = if i = row then g t ids else t.rowBlocks i)
    (h : zipRows f ts blockIds = .ok ts') (i : ℕ) :
    rowBlocks ts' i = if i = row then List.zipWith g ts blockIds else rowBlocks ts i := by
  induction ts generalizing ts' blockIds with
  | nil =>
    cases h
    simp [rowBlocks]
  | cons t ts ih =>
    obtain ⟨ids, rest, t', rest', rfl, ht, hrest, rfl⟩ := zipRows_cons h
    have hhead := hf ht i
    have htail := ih hrest
    by_cases hi : i = row
    · simp only [hi, ↓reduceIte] at hhead htail ⊢
      simpa [rowBlocks, hhead] using htail
    · simp only [hi, ↓reduceIte] at hhead htail ⊢
      simpa [rowBlocks, hhead] using htail

theorem appendRow_rowBlocks {row : ℕ} (h : ts.appendRow blockIds row = .ok ts') (i : ℕ) :
    rowBlocks ts' i =
      if i = row then List.zipWith (· ++ ·) (rowBlocks ts row) (kernelIds ts blockIds)
      else rowBlocks ts i := by
  have hzip : ∀ (ts : MultiGroupBlockTable) (blockIds : List (List ℕ)),
      List.zipWith (fun t ids => t.rowBlocks row ++ t.kernelIds ids) ts blockIds =
        List.zipWith (· ++ ·) (rowBlocks ts row) (kernelIds ts blockIds) := by
    intro ts
    induction ts with
    | nil => exact fun _ => rfl
    | cons t ts ih =>
      rintro (_ | ⟨ids, rest⟩)
      · rfl
      · exact congrArg _ (ih rest)
  rw [← hzip]
  exact zipRows_rowBlocks BlockTable.appendFitting_rowBlocks h i

theorem addRow_rowBlocks {row : ℕ} (h : ts.addRow blockIds row = .ok ts') (i : ℕ) :
    rowBlocks ts' i = if i = row then kernelIds ts blockIds else rowBlocks ts i :=
  zipRows_rowBlocks BlockTable.addRow_rowBlocks h i

theorem clearRow_rowBlocks (ts : MultiGroupBlockTable) {row i : ℕ} (hi : i ≠ row) :
    rowBlocks (ts.clearRow row) i = rowBlocks ts i := by
  simp [rowBlocks, clearRow, Function.comp_def, BlockTable.clearRow_rowBlocks _ hi]

theorem moveRow_rowBlocks (ts : MultiGroupBlockTable) (src tgt i : ℕ) :
    rowBlocks (ts.moveRow src tgt) i =
      if i = tgt then rowBlocks ts src else rowBlocks ts i := by
  split
  · rename_i hi
    simp [rowBlocks, moveRow, Function.comp_def, BlockTable.moveRow_rowBlocks, hi]
  · rename_i hi
    simp [rowBlocks, moveRow, Function.comp_def, BlockTable.moveRow_rowBlocks, hi]

theorem swapRow_rowBlocks (ts : MultiGroupBlockTable) (src tgt i : ℕ) :
    rowBlocks (ts.swapRow src tgt) i = rowBlocks ts (Equiv.swap src tgt i) := by
  simp [rowBlocks, MultiGroupBlockTable.swapRow, Function.comp_def, BlockTable.swapRow_rowBlocks]

end MultiGroupBlockTable

end Vllm.Worker
