import Vllm.KvCache.FreeQueue

/-! The free queue against a plain list: whatever is called in whatever order, the linked blocks
are the list after the same calls. -/
namespace Vllm.FreeKVCacheBlockQueue
open DoublyLinked List

def append (q : FreeKVCacheBlockQueue) (block : BlockId) : Raises FreeKVCacheBlockQueue :=
  match q.links.prev .tail with
  | none => throw .runtimeError
  | some lastBlock =>
    pure {
      numFreeBlocks := q.numFreeBlocks + 1
      links := (q.links.join lastBlock (.elem block)).join (.elem block) .tail }

variable {l : List BlockId} {q : FreeKVCacheBlockQueue}

theorem append_holds {b : BlockId} (h : q.Holds l) (hb : b ∉ l) :
    ∃ q', q.append b = .ok q' ∧ q'.Holds (l ++ [b]) := by
  have hnodup : (l ++ [b]).Nodup := nodup_append.mpr
    ⟨h.spine.nodup, nodup_singleton b, fun a ha _ hb' hab =>
      hb (mem_singleton.mp hb' ▸ hab ▸ ha)⟩
  rcases h.spine.pushBack hnodup with ⟨p, hp, hspine⟩
  refine ⟨_, by simp only [append, hp]; rfl, hspine, ?_⟩
  simp [h.count]

theorem popleft_empty (h : q.Holds []) : q.popleft = .error .valueError := by
  have hnext := (Seg.link (A := []) h.spine.seg).1
  simp only [popleft, hnext, h.count]
  rfl

theorem popleftN_of_lt (h : q.Holds l) {n : ℤ} (hn : l.length < n) :
    q.popleftN n = .error .assertionError := by
  have hzero : n ≠ 0 := by omega
  have hfew : ¬q.numFreeBlocks ≥ n := by
    rw [h.count]
    omega
  simp only [popleftN, if_neg hzero, Raises.require, if_neg hfew]
  rfl

/-- A call of one of the six methods. -/
inductive Call where
  | popleft
  | popleftN (n : ℤ)
  | remove (block : BlockId)
  | append (block : BlockId)
  | appendN (blocks : List BlockId)
  | prependN (blocks : List BlockId)

/-- A call on the queue, with the blocks that it returns. -/
def call (q : FreeKVCacheBlockQueue) : Call → Raises (List BlockId × FreeKVCacheBlockQueue)
  | .popleft => do
    let (block, q) ← q.popleft
    pure ([block], q)
  | .popleftN n => q.popleftN n
  | .remove block => do pure ([], ← q.remove block)
  | .append block => do pure ([], ← q.append block)
  | .appendN blocks => do pure ([], ← q.appendN blocks)
  | .prependN blocks => do pure ([], ← q.prependN blocks)

/-- The same call on a list. -/
def listCall (l : List BlockId) : Call → Raises (List BlockId × List BlockId)
  | .popleft =>
    match l with
    | [] => throw .valueError
    | block :: l => pure ([block], l)
  | .popleftN n =>
    if n ≤ l.length then pure (l.take n.toNat, l.drop n.toNat) else throw .assertionError
  | .remove block => pure ([], l.erase block)
  | .append block => pure ([], l ++ [block])
  | .appendN blocks => pure ([], l ++ blocks)
  | .prependN blocks => pure ([], blocks ++ l)

/-- A removed block is in the list, inserted ones are distinct and not in it, and the number of
blocks to pop is a count. -/
def Admissible (l : List BlockId) : Call → Prop
  | .popleft => True
  | .popleftN n => 0 ≤ n
  | .remove block => block ∈ l
  | .append block => block ∉ l
  | .appendN blocks | .prependN blocks => blocks.Nodup ∧ ∀ block ∈ blocks, block ∉ l

/-- The state after a call. The calls that raise do so before they write. -/
def after {σ : Type} (step : σ → Call → Raises (List BlockId × σ)) (s : σ) (c : Call) : σ :=
  match step s c with
  | .ok r => r.2
  | .error _ => s

/-- What the calls return or raise, one after the other, and the state they leave. -/
def runCalls {σ : Type} (step : σ → Call → Raises (List BlockId × σ)) :
    σ → List Call → List (Raises (List BlockId)) × σ
  | s, [] => ([], s)
  | s, c :: cs =>
    let rest := runCalls step (after step s c) cs
    ((step s c).map Prod.fst :: rest.1, rest.2)

def AdmissibleRun : List BlockId → List Call → Prop
  | _, [] => True
  | l, c :: cs => Admissible l c ∧ AdmissibleRun (after listCall l c) cs

theorem call_holds {c : Call} (h : q.Holds l) (hc : Admissible l c) :
    (q.call c).map Prod.fst = (listCall l c).map Prod.fst ∧
      (after call q c).Holds (after listCall l c) := by
  have hdone : ∀ {out q' l'}, q.call c = .ok (out, q') → listCall l c = .ok (out, l') →
      q'.Holds l' → (q.call c).map Prod.fst = (listCall l c).map Prod.fst ∧
        (after call q c).Holds (after listCall l c) := by
    intro out q' l' hq hl hholds
    simp only [after, hq, hl]
    exact ⟨rfl, hholds⟩
  have hraise : ∀ {e}, q.call c = .error e → listCall l c = .error e →
      (q.call c).map Prod.fst = (listCall l c).map Prod.fst ∧
        (after call q c).Holds (after listCall l c) := by
    intro e hq hl
    simp only [after, hq, hl]
    exact ⟨rfl, h⟩
  cases c with
  | popleft =>
    cases l with
    | nil => exact hraise (by simp only [call, popleft_empty h]; rfl) rfl
    | cons b l =>
      rcases popleft_holds h with ⟨q', hq, hholds⟩
      exact hdone (by simp only [call, hq]; rfl) rfl hholds
  | popleftN n =>
    by_cases hn : n ≤ l.length
    · rcases popleftN_holds h hc hn with ⟨q', hq, hholds⟩
      exact hdone hq (if_pos hn) hholds
    · exact hraise (popleftN_of_lt h (not_le.mp hn)) (if_neg hn)
  | remove b =>
    rcases append_of_mem hc with ⟨A, B, rfl⟩
    rcases remove_holds h with ⟨q', hq, hholds⟩
    have hnotin : b ∉ A := fun hb =>
      (nodup_append.mp h.spine.nodup).2.2 b hb b mem_cons_self rfl
    have hlist : listCall (A ++ b :: B) (.remove b) = .ok ([], A ++ B) := by
      rw [listCall, List.erase_append_right _ hnotin, List.erase_cons_head]
      rfl
    exact hdone (by simp only [call, hq]; rfl) hlist hholds
  | append b =>
    rcases append_holds h hc with ⟨q', hq, hholds⟩
    exact hdone (by simp only [call, hq]; rfl) rfl hholds
  | appendN bs =>
    have hnodup : (l ++ bs).Nodup := nodup_append.mpr
      ⟨h.spine.nodup, hc.1, fun a ha b hb hab => hc.2 b hb (hab ▸ ha)⟩
    rcases appendN_holds h hnodup with ⟨q', hq, hholds⟩
    exact hdone (by simp only [call, hq]; rfl) rfl hholds
  | prependN bs =>
    have hnodup : (bs ++ l).Nodup := nodup_append.mpr
      ⟨hc.1, h.spine.nodup, fun a ha b hb hab => hc.2 a ha (hab ▸ hb)⟩
    rcases prependN_holds h hnodup with ⟨q', hq, hholds⟩
    exact hdone (by simp only [call, hq]; rfl) rfl hholds

theorem runCalls_holds {cs : List Call} (h : q.Holds l) (hcs : AdmissibleRun l cs) :
    (runCalls call q cs).1 = (runCalls listCall l cs).1 ∧
      (runCalls call q cs).2.Holds (runCalls listCall l cs).2 := by
  induction cs generalizing q l with
  | nil => exact ⟨rfl, h⟩
  | cons c cs ih =>
    rcases call_holds h hcs.1 with ⟨hout, hholds⟩
    rcases ih hholds hcs.2 with ⟨houts, hfinal⟩
    exact ⟨congrArg₂ _ hout houts, hfinal⟩

/-- From the constructor on, the calls return and raise what they do on a list, and the chains of
both pointers, the counter and the cleared pointers are those of the list. -/
theorem runCalls_refines {blocks : List BlockId} (hblocks : blocks.Nodup) {cs : List Call}
    (hcs : AdmissibleRun blocks cs) :
    (runCalls call (init blocks) cs).1 = (runCalls listCall blocks cs).1 ∧
    let q := (runCalls call (init blocks) cs).2
    let l := (runCalls listCall blocks cs).2
    follow q.links.next (l.length + 1) .head = l.map .elem ++ [.tail] ∧
    follow q.links.prev (l.length + 1) .tail = l.reverse.map .elem ++ [.head] ∧
    q.numFreeBlocks = l.length ∧
    ∀ block ∉ l, q.links.next (.elem block) = none ∧ q.links.prev (.elem block) = none := by
  rcases runCalls_holds (init_holds hblocks) hcs with ⟨houts, hholds⟩
  rcases hholds.spine.follow with ⟨hnext, hprev⟩
  exact ⟨houts, hnext, hprev, hholds.count, hholds.spine.detached⟩

theorem runCalls_refines_threeBlocks :
    (runCalls call (init [0, 1, 2]) [.popleftN 4, .remove 2, .prependN [2, 4]]).1 =
      [.error .assertionError, .ok [], .ok []] := by
  have hcs : AdmissibleRun [0, 1, 2] [.popleftN 4, .remove 2, .prependN [2, 4]] :=
    ⟨show (0 : ℤ) ≤ 4 by decide, show 2 ∈ [0, 1, 2] by decide,
      show [2, 4].Nodup ∧ ∀ block ∈ [2, 4], block ∉ [0, 1] by decide, trivial⟩
  exact (runCalls_refines (by decide) hcs).1

/-- A negative count pops nothing and raises the counter. -/
theorem popleftN_negative : ∃ q, (init [0]).call (.popleftN (-1)) = .ok ([], q) ∧
    ¬∃ l : List BlockId, follow q.links.next (l.length + 1) .head = l.map .elem ++ [.tail] ∧
      q.numFreeBlocks = l.length := by
  refine ⟨_, rfl, ?_⟩
  rintro ⟨l, hchain, hcount⟩
  have htwo : (2 : ℤ) = l.length := hcount
  have hlen : l.length = 2 := by omega
  rw [hlen] at hchain
  have hshort := congrArg length hchain
  rw [length_append, length_map, hlen] at hshort
  exact absurd hshort (by decide)

end Vllm.FreeKVCacheBlockQueue
