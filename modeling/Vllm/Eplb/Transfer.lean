import Vllm.Lib.SortedRuns
import Vllm.Lib.Dict
import Vllm.Lib.GridLoop
import Vllm.Lib.Raise

/-! The rearrangement of expert weights in one layer: every rank decides what it copies, sends and
receives, and the buffers are copied back. A row stands for the rows of all weight tensors. -/
namespace Vllm.Eplb
open SortedRuns

section Ranks

/-- The positions of the queried experts, sorted by expert and then by position, as ranks. -/
def sortedRanks (experts : List ℤ) (numLocalExperts : ℕ) (indices : List ℤ) :
    List (ℤ × ℕ) :=
  let relevant := indices.zipIdx.filter fun e => e.1 ∈ experts
  let sorted := relevant.mergeSort fun a b => a.1 < b.1 ∨ (a.1 = b.1 ∧ a.2 ≤ b.2)
  sorted.map fun e => (e.1, e.2 / numLocalExperts)

/-- `get_ep_ranks_with_experts_batch`: the ranks that have an expert, and those that get it. -/
def getEpRanksWithExpertsBatch (expertIds : List ℤ) (numLocalExperts : ℕ)
    (oldIndices newIndices : List ℤ) :
    Dict ℤ (List ℕ) × Dict ℤ (List ℕ) :=
  if expertIds = [] then (Dict.empty, Dict.empty)
  else
    let uniqueExperts := unique expertIds
    let ranksToSend := Dict.ofList ((runs (sortedRanks uniqueExperts numLocalExperts oldIndices)).map
      fun run => (run.1, run.2.eraseDups))
    let ranksToRecv := Dict.ofList ((runs (sortedRanks uniqueExperts numLocalExperts newIndices)).map
      fun run => (run.1, run.2.eraseDups.filter fun r => r ∉ ranksToSend.getD run.1 []))
    let addMissing := fun m => uniqueExperts.foldl (fun (m : Dict ℤ (List ℕ)) expert =>
      if m.contains expert then m else m.set expert []) m
    (addMissing ranksToSend, addMissing ranksToRecv)

end Ranks

/-- A transfer that a rank posts: rows to another rank, or a buffer row to be filled. -/
structure Send (α : Type) where
  dst : ℕ
  expertId : ℤ
  row : α

structure Recv where
  src : ℕ
  expertId : ℤ
  row : ℕ
  deriving DecidableEq, Repr

/-- The metadata of a transfer; the id and row arrays hold the entries below `recv_count`. -/
structure TransferMetadata where
  isUnchanged : ℕ → Bool
  isReceivedLocally : ℕ → Bool
  recvPrimaryMask : ℕ → Bool
  recvExperts : List (ℤ × ℕ)

/-- What `move_to_buffer` leaves: the buffers, the posted transfers and the metadata. -/
structure Posted (α : Type) where
  buffers : ℕ → α
  sends : List (Send α)
  recvs : List Recv
  metadata : TransferMetadata

/-- The first of some rows for each of their experts, by ascending expert. -/
def firstRows (rows : List ℕ) (expert : ℕ → ℤ) : List (ℤ × ℕ) :=
  (uniqueIndex (rows.map expert)).map fun e => (e.1, rows.getD e.2 0)

/-- The stable `argsort` by expert, applied. -/
def byExpert (rows : List (ℤ × ℕ)) : List (ℤ × ℕ) :=
  rows.mergeSort fun a b => a.1 ≤ b.1

def lookup (m : Dict ℤ (List ℕ)) (expert : ℤ) : Raises (List ℕ) :=
  match m.get? expert with
  | some ranks => pure ranks
  | none => throw .keyError

/-- `list.index`. -/
def index (l : List ℕ) (x : ℕ) : Raises ℕ :=
  if x ∈ l then pure (l.idxOf x) else throw .valueError

/-- `l[i]`. -/
def item (l : List ℕ) (i : ℕ) : Raises ℕ :=
  match l[i]? with
  | some x => pure x
  | none => throw .indexError

/-- The ranks that the sender at a position serves: its share, and one of the remainder. -/
def recvRanksOf (ranksToSend ranksToRecv : List ℕ) (senderPos : ℕ) : List ℕ :=
  let numDstPerSender := ranksToRecv.length / ranksToSend.length
  let recvBegin := senderPos * numDstPerSender
  let recverPos := ranksToSend.length * numDstPerSender + senderPos
  (ranksToRecv.drop recvBegin).take numDstPerSender ++ (ranksToRecv[recverPos]?).toList

/-- The sender of the receiver at a position. -/
def senderOf (ranksToSend ranksToRecv : List ℕ) (recverPos : ℕ) : Raises ℕ :=
  let numDstPerSender := ranksToRecv.length / ranksToSend.length
  let remainderStart := ranksToSend.length * numDstPerSender
  if recverPos < remainderStart then item ranksToSend (recverPos / numDstPerSender)
  else item ranksToSend (recverPos - remainderStart)

section Moves
variable {α : Type} (numLocalExperts : ℕ) (oldIndices newIndices : List ℤ)

/-- The sends that a rank posts for one expert. -/
def postSends (weights : ℕ → α) (epRank : ℕ) (maps : Dict ℤ (List ℕ) × Dict ℤ (List ℕ))
    (e : ℤ × ℕ) : Raises (List (Send α)) := do
  let ranksToSend ← lookup maps.1 e.1
  let ranksToRecv ← lookup maps.2 e.1
  if ranksToSend = [] ∨ ranksToRecv = [] then pure []
  else do
    let senderPos ← index ranksToSend epRank
    pure ((recvRanksOf ranksToSend ranksToRecv senderPos).map fun dst => ⟨dst, e.1, weights e.2⟩)

/-- The receive that a rank posts for one expert. -/
def postRecv (epRank : ℕ) (maps : Dict ℤ (List ℕ) × Dict ℤ (List ℕ))
    (e : ℤ × ℕ) : Raises (List Recv) := do
  let ranksToSend ← lookup maps.1 e.1
  let ranksToRecv ← lookup maps.2 e.1
  if ranksToSend = [] ∨ ranksToRecv = [] then pure []
  else do
    let recverPos ← index ranksToRecv epRank
    let src ← senderOf ranksToSend ranksToRecv recverPos
    pure [⟨src, e.1, e.2⟩]

def moveToBuffer (weights buffers : ℕ → α) (epRank : ℕ) : Raises (Posted α) := do
  Raises.require (oldIndices.length = newIndices.length)
  let base := epRank * numLocalExperts
  if oldIndices.length < base + numLocalExperts then throw .indexError
  let localRows := List.range numLocalExperts
  let oldLocal := fun row => oldIndices.getD (base + row) (-1)
  let newLocal := fun row => newIndices.getD (base + row) (-1)
  let isUnchanged := fun row => oldLocal row == newLocal row
  let newValid := fun row => newLocal row != -1
  let canRecvLocal := fun row => decide (newLocal row ∈ localRows.map oldLocal)
  let isReceivedLocally := fun row => isUnchanged row || (newValid row && canRecvLocal row)
  let sendRows := firstRows (localRows.filter fun row => oldLocal row != -1) oldLocal
  let recvRows := firstRows
    (localRows.filter fun row => !isReceivedLocally row && newValid row) newLocal
  let localBuffers := (localRows.filter fun row => !isUnchanged row && isReceivedLocally row).foldl
    (fun b dst => match sendRows.lookup (newLocal dst) with
      | some src => Function.update b dst (weights src)
      | none => b) buffers
  let sendExperts := byExpert sendRows
  let sends ← sendExperts.mapM (postSends weights epRank
    (getEpRanksWithExpertsBatch (sendExperts.map Prod.fst) numLocalExperts oldIndices newIndices))
  let recvExperts := byExpert recvRows
  let recvs ← recvExperts.mapM (postRecv epRank
    (getEpRanksWithExpertsBatch (recvExperts.map Prod.fst) numLocalExperts oldIndices newIndices))
  pure {
    buffers := localBuffers
    sends := sends.flatten
    recvs := recvs.flatten
    metadata := {
      isUnchanged := isUnchanged
      isReceivedLocally := isReceivedLocally
      recvPrimaryMask := fun row => decide (row ∈ recvRows.map Prod.snd)
      recvExperts := recvRows } }

/-- `np.searchsorted`: where a value would be inserted before its equals. -/
def searchsorted (l : List ℤ) (x : ℤ) : ℕ := l.countP (· < x)

def moveFromBuffer (weights buffers : ℕ → α) (m : TransferMetadata) (epRank : ℕ) : ℕ → α :=
  let localRows := List.range numLocalExperts
  let copyMask := fun row => m.isReceivedLocally row || m.recvPrimaryMask row
  let weights := (localRows.filter fun row => !m.isUnchanged row && copyMask row).foldl
    (fun w dst => Function.update w dst (buffers dst)) weights
  if m.recvExperts = [] then weights
  else
    let localExperts := fun row => newIndices.getD (epRank * numLocalExperts + row) (-1)
    let duplicateMask := fun row => (!m.isUnchanged row && !m.isReceivedLocally row) &&
      (!m.recvPrimaryMask row && localExperts row != -1)
    let prim := byExpert m.recvExperts
    (localRows.filter duplicateMask).foldl (fun w dst =>
      let pos := searchsorted (prim.map Prod.fst) (localExperts dst)
      match prim[pos]? with
      | some (expert, src) =>
        if expert = localExperts dst then Function.update w dst (w src) else w
      | none => w) weights

/-- Delivery keeps the order between two ranks: the `k`-th receive from a rank gets what that rank
sent as the `k`-th to here. -/
def deliver (posted : ℕ → Posted α) (dst : ℕ) : ℕ → α :=
  (posted dst).recvs.zipIdx.foldl (fun b r =>
    let k := ((posted dst).recvs.take r.2).countP fun r' => r'.src = r.1.src
    match ((posted r.1.src).sends.filter fun send => send.dst = dst)[k]? with
    | some send => Function.update b r.1.row send.row
    | none => b) (posted dst).buffers

end Moves

end Vllm.Eplb
