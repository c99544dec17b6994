import Vllm.Eplb.TransferRanks

/-! What a rank posts: for every pair of ranks, the experts that one sends to the other are those
that the other receives from it, in the same order. -/
namespace Vllm.Eplb
open SortedRuns List Nat

section FirstRows
variable {rows : List ℕ} {expert : ℕ → ℤ} {e : ℤ} {row : ℕ}

theorem firstRows_keys (rows : List ℕ) (expert : ℕ → ℤ) :
    (firstRows rows expert).map Prod.fst = unique (rows.map expert) := by
  rw [firstRows, uniqueIndex, map_map, map_map]
  exact map_id _

theorem sortedLT_firstRows (rows : List ℕ) (expert : ℕ → ℤ) :
    ((firstRows rows expert).map Prod.fst).SortedLT := by
  rw [firstRows_keys]
  exact sortedLT_unique _

theorem mem_firstRows_keys :
    e ∈ (firstRows rows expert).map Prod.fst ↔ ∃ row ∈ rows, expert row = e := by
  rw [firstRows_keys, mem_unique, mem_map]

theorem of_mem_firstRows (h : (e, row) ∈ firstRows rows expert) : row ∈ rows ∧ expert row = e := by
  rw [firstRows, uniqueIndex, map_map] at h
  obtain ⟨k, hk, heq⟩ := mem_map.mp h
  obtain ⟨rfl, hrow⟩ := Prod.mk.inj heq
  have hlt := idxOf_lt_length_of_mem (mem_unique.mp hk)
  have hget := List.getElem?_eq_some_iff.mpr ⟨hlt, getElem_idxOf hlt⟩
  rw [List.getElem?_map] at hget
  obtain ⟨row', hrow', hexpert⟩ := Option.map_eq_some_iff.mp hget
  have hsame : row' = row := by
    rw [← hrow, getD_eq_getElem?_getD, hrow']
    rfl
  subst hsame
  exact ⟨mem_of_getElem? hrow', hexpert⟩

theorem byExpert_firstRows (rows : List ℕ) (expert : ℕ → ℤ) :
    byExpert (firstRows rows expert) = firstRows rows expert := by
  refine mergeSort_of_pairwise ?_
  have hsorted := (sortedLT_firstRows rows expert).pairwise
  rw [pairwise_map] at hsorted
  exact hsorted.imp fun h => decide_eq_true h.le

end FirstRows

/-- The expert in a local row of a rank. -/
def localExpert (n : ℕ) (indices : List ℤ) (r row : ℕ) : ℤ := indices.getD (r * n + row) (-1)

section Local
variable {R n : ℕ} {oldIndices newIndices indices : List ℤ} {r row s d : ℕ} {e : ℤ}

theorem local_lt (hr : r < R) (hrow : row < n) : r * n + row < R * n := by
  have hle := mul_le_mul_right n (succ_le_of_lt hr)
  rw [succ_mul] at hle
  omega

theorem getElem?_local (hlen : indices.length = R * n) (hr : r < R) (hrow : row < n) :
    indices[r * n + row]? = some (localExpert n indices r row) := by
  have hlt := local_lt hr hrow
  rw [← hlen] at hlt
  rw [localExpert, getD_eq_getElem?_getD, List.getElem?_eq_getElem hlt]
  rfl

theorem mem_sendRanks_local (hlen : indices.length = R * n) :
    r ∈ sendRanks n indices e ↔ r < R ∧ ∃ row < n, localExpert n indices r row = e := by
  rw [mem_sendRanks]
  constructor
  · rintro ⟨pos, hpos, rfl⟩
    have hlt : pos < R * n := hlen ▸ (List.getElem?_eq_some_iff.mp hpos).1
    have hn : 0 < n := pos_of_ne_zero fun h0 => by simp [h0] at hlt
    have hr : pos / n < R := Nat.div_lt_of_lt_mul (by rwa [Nat.mul_comm])
    refine ⟨hr, pos % n, mod_lt _ hn, ?_⟩
    have hget := getElem?_local hlen hr (mod_lt pos hn)
    rw [mul_comm, div_add_mod, hpos] at hget
    exact (Option.some.inj hget).symm
  · rintro ⟨hr, row, hrow, rfl⟩
    refine ⟨r * n + row, getElem?_local hlen hr hrow, ?_⟩
    rw [mul_comm, mul_add_div (zero_lt_of_lt hrow), div_eq_of_lt hrow, add_zero]

/-- The row of a rank for each expert it can send. -/
def sendRows (n : ℕ) (oldIndices : List ℤ) (r : ℕ) : List (ℤ × ℕ) :=
  firstRows ((List.range n).filter fun row => localExpert n oldIndices r row != -1)
    (localExpert n oldIndices r)

def unchanged (n : ℕ) (oldIndices newIndices : List ℤ) (r row : ℕ) : Bool :=
  localExpert n oldIndices r row == localExpert n newIndices r row

/-- The row keeps its expert, or the rank has the expert in another row. -/
def receivedLocally (n : ℕ) (oldIndices newIndices : List ℤ) (r row : ℕ) : Bool :=
  unchanged n oldIndices newIndices r row ||
    (localExpert n newIndices r row != -1 &&
      decide (localExpert n newIndices r row ∈ (List.range n).map (localExpert n oldIndices r)))

/-- The row of a rank for each expert it has to receive. -/
def recvRows (n : ℕ) (oldIndices newIndices : List ℤ) (r : ℕ) : List (ℤ × ℕ) :=
  firstRows ((List.range n).filter fun row =>
    !receivedLocally n oldIndices newIndices r row && localExpert n newIndices r row != -1)
    (localExpert n newIndices r)

section
variable (hold : oldIndices.length = R * n)
include hold

theorem mem_sendRows_keys (hr : r < R) :
    e ∈ (sendRows n oldIndices r).map Prod.fst ↔ e ≠ -1 ∧ r ∈ sendRanks n oldIndices e := by
  rw [sendRows, mem_firstRows_keys, mem_sendRanks_local hold]
  constructor
  · rintro ⟨row, hrow, rfl⟩
    obtain ⟨hlt, hvalid⟩ := mem_filter.mp hrow
    exact ⟨bne_iff_ne.mp hvalid, hr, row, mem_range.mp hlt, rfl⟩
  · rintro ⟨he, -, row, hrow, rfl⟩
    exact ⟨row, mem_filter.mpr ⟨mem_range.mpr hrow, bne_iff_ne.mpr he⟩, rfl⟩

/-- A valid row is received locally exactly when the rank has its expert. -/
theorem receivedLocally_iff (hr : r < R) (hrow : row < n)
    (he : localExpert n newIndices r row ≠ -1) :
    receivedLocally n oldIndices newIndices r row = true ↔
      r ∈ sendRanks n oldIndices (localExpert n newIndices r row) := by
  have hlocal : localExpert n newIndices r row ∈ (List.range n).map (localExpert n oldIndices r) ↔
      r ∈ sendRanks n oldIndices (localExpert n newIndices r row) := by
    rw [mem_sendRanks_local hold, mem_map]
    simp only [mem_range, hr, true_and]
  rw [receivedLocally, Bool.or_eq_true, Bool.and_eq_true, decide_eq_true_eq, hlocal]
  constructor
  · rintro (hsame | ⟨-, hmem⟩)
    · rw [mem_sendRanks_local hold]
      exact ⟨hr, row, hrow, beq_iff_eq.mp hsame⟩
    · exact hmem
  · exact fun hmem => .inr ⟨bne_iff_ne.mpr he, hmem⟩

theorem mem_recvRows_keys (hnew : newIndices.length = R * n) (hr : r < R) :
    e ∈ (recvRows n oldIndices newIndices r).map Prod.fst ↔
      e ≠ -1 ∧ r ∈ recvRanks n oldIndices newIndices e := by
  rw [recvRows, mem_firstRows_keys, mem_recvRanks, mem_sendRanks_local hnew]
  constructor
  · rintro ⟨row, hrow, rfl⟩
    obtain ⟨hlt, hneed⟩ := mem_filter.mp hrow
    have hlt := mem_range.mp hlt
    obtain ⟨hremote, hvalid⟩ := Bool.and_eq_true_iff.mp hneed
    have hvalid := bne_iff_ne.mp hvalid
    refine ⟨hvalid, ⟨hr, row, hlt, rfl⟩, ?_⟩
    rw [← receivedLocally_iff hold hr hlt hvalid]
    simpa using hremote
  · rintro ⟨he, ⟨-, row, hrow, rfl⟩, hno⟩
    refine ⟨row, mem_filter.mpr ⟨mem_range.mpr hrow, ?_⟩, rfl⟩
    rw [← receivedLocally_iff hold hr hrow he] at hno
    simpa using ⟨by simpa using hno, he⟩

end

/-- Sender `s` serves receiver `d` with an expert. -/
def Serves (n : ℕ) (oldIndices newIndices : List ℤ) (s d : ℕ) (e : ℤ) : Prop :=
  let senders := sendRanks n oldIndices e
  let receivers := recvRanks n oldIndices newIndices e
  s ∈ senders ∧ d ∈ receivers ∧
    senderIndex senders receivers (receivers.idxOf d) = senders.idxOf s

instance (n : ℕ) (oldIndices newIndices : List ℤ) (s d : ℕ) (e : ℤ) :
    Decidable (Serves n oldIndices newIndices s d e) := inferInstanceAs (Decidable (_ ∧ _ ∧ _))

/-- The ranks that a rank sends an expert to. -/
def targets (n : ℕ) (oldIndices newIndices : List ℤ) (s : ℕ) (e : ℤ) : List ℕ :=
  let senders := sendRanks n oldIndices e
  let receivers := recvRanks n oldIndices newIndices e
  if senders = [] ∨ receivers = [] then [] else recvRanksOf senders receivers (senders.idxOf s)

/-- The rank that a rank gets an expert from, if any has it. -/
def source (n : ℕ) (oldIndices newIndices : List ℤ) (d : ℕ) (e : ℤ) : Option ℕ :=
  let senders := sendRanks n oldIndices e
  let receivers := recvRanks n oldIndices newIndices e
  senders[senderIndex senders receivers (receivers.idxOf d)]?

theorem nodup_targets (hs : s ∈ sendRanks n oldIndices e) :
    (targets n oldIndices newIndices s e).Nodup := by
  unfold targets
  dsimp only
  split
  · exact nodup_nil
  · exact (recvRanksOf_sublist (idxOf_lt_length_of_mem hs)).nodup (nodup_recvRanks _ _ _ _)

theorem getElem?_idxOf {l : List ℕ} {x : ℕ} (hx : x ∈ l) : l[l.idxOf x]? = some x := by
  have hlt := idxOf_lt_length_of_mem hx
  exact List.getElem?_eq_some_iff.mpr ⟨hlt, getElem_idxOf hlt⟩

theorem mem_targets (hs : s ∈ sendRanks n oldIndices e) :
    d ∈ targets n oldIndices newIndices s e ↔ Serves n oldIndices newIndices s d e := by
  have hpos := idxOf_lt_length_of_mem hs
  unfold targets Serves
  by_cases hd : d ∈ recvRanks n oldIndices newIndices e
  · rw [if_neg (not_or.mpr ⟨ne_nil_of_mem hs, ne_nil_of_mem hd⟩),
      mem_recvRanksOf (nodup_recvRanks _ _ _ _) hpos (getElem?_idxOf hd)]
    simp [hs, hd]
  · have hno : ¬(d ∈ if sendRanks n oldIndices e = [] ∨ recvRanks n oldIndices newIndices e = []
        then [] else recvRanksOf (sendRanks n oldIndices e) (recvRanks n oldIndices newIndices e)
          ((sendRanks n oldIndices e).idxOf s)) := by
      split
      · exact not_mem_nil
      · exact fun hmem => hd ((recvRanksOf_sublist hpos).subset hmem)
    simp only [hno, hd, false_and, and_false]

theorem source_eq_some (hd : d ∈ recvRanks n oldIndices newIndices e) :
    source n oldIndices newIndices d e = some s ↔ Serves n oldIndices newIndices s d e := by
  unfold source Serves
  dsimp only
  constructor
  · intro hget
    refine ⟨mem_of_getElem? hget, hd, ?_⟩
    have hlt := (List.getElem?_eq_some_iff.mp hget).1
    exact (List.getElem?_inj hlt (nodup_sendRanks _ _ _)).mp
      (hget.trans (getElem?_idxOf (mem_of_getElem? hget)).symm)
  · rintro ⟨hs, -, hindex⟩
    rw [hindex]
    exact getElem?_idxOf hs

end Local

section Posts
variable {α : Type} {R n : ℕ} {oldIndices newIndices : List ℤ} {weights buffers : ℕ → α}
  {r s d : ℕ} {e : ℤ} {row : ℕ} {ids : List ℤ}

/-- What a rank sends of one expert. -/
def sendsOf (n : ℕ) (oldIndices newIndices : List ℤ) (weights : ℕ → α) (s : ℕ) (x : ℤ × ℕ) :
    List (Send α) :=
  (targets n oldIndices newIndices s x.1).map fun dst => ⟨dst, x.1, weights x.2⟩

/-- What a rank receives of one expert. -/
def recvsOf (n : ℕ) (oldIndices newIndices : List ℤ) (d : ℕ) (x : ℤ × ℕ) : List Recv :=
  (source n oldIndices newIndices d x.1).toList.map fun src => ⟨src, x.1, x.2⟩

theorem lookup_eq {m : Dict ℤ (List ℕ)} {ranks : List ℕ} (h : m.get? e = some ranks) :
    lookup m e = .ok ranks := by
  rw [lookup, h]
  rfl

theorem postSends_eq (he : e ∈ ids) (hs : s ∈ sendRanks n oldIndices e) :
    postSends weights s (getEpRanksWithExpertsBatch ids n oldIndices newIndices) (e, row) =
      .ok (sendsOf n oldIndices newIndices weights s (e, row)) := by
  obtain ⟨hsend, hrecv⟩ := getEpRanksWithExpertsBatch_get? n oldIndices newIndices he
  unfold postSends sendsOf targets
  rw [lookup_eq hsend, lookup_eq hrecv]
  dsimp only [Bind.bind, Except.bind]
  split
  · rfl
  · rw [index, if_pos hs]
    rfl

theorem postRecv_eq (he : e ∈ ids) (hd : d ∈ recvRanks n oldIndices newIndices e) :
    postRecv d (getEpRanksWithExpertsBatch ids n oldIndices newIndices) (e, row) =
      .ok (recvsOf n oldIndices newIndices d (e, row)) := by
  obtain ⟨hsend, hrecv⟩ := getEpRanksWithExpertsBatch_get? n oldIndices newIndices he
  unfold postRecv recvsOf
  rw [lookup_eq hsend, lookup_eq hrecv]
  dsimp only [Bind.bind, Except.bind]
  by_cases hnone : sendRanks n oldIndices e = []
  · rw [if_pos (.inl hnone), source, hnone]
    rfl
  · rw [if_neg (not_or.mpr ⟨hnone, ne_nil_of_mem hd⟩), index, if_pos hd]
    obtain ⟨src, hsrc, hget⟩ := senderOf_eq hnone (idxOf_lt_length_of_mem hd)
    dsimp only [pure, Except.pure]
    rw [hsrc, source, hget]
    rfl

/-- The buffers after the local moves. -/
def localBuffers (n : ℕ) (oldIndices newIndices : List ℤ) (weights buffers : ℕ → α) (r : ℕ) :
    ℕ → α :=
  ((List.range n).filter fun row => !unchanged n oldIndices newIndices r row &&
    receivedLocally n oldIndices newIndices r row).foldl
    (fun b dst => match (sendRows n oldIndices r).lookup (localExpert n newIndices r dst) with
      | some src => Function.update b dst (weights src)
      | none => b) buffers

/-- What a rank posts. -/
def posted (n : ℕ) (oldIndices newIndices : List ℤ) (weights buffers : ℕ → α) (r : ℕ) :
    Posted α where
  buffers := localBuffers n oldIndices newIndices weights buffers r
  sends := (sendRows n oldIndices r).flatMap (sendsOf n oldIndices newIndices weights r)
  recvs := (recvRows n oldIndices newIndices r).flatMap (recvsOf n oldIndices newIndices r)
  metadata := {
    isUnchanged := unchanged n oldIndices newIndices r
    isReceivedLocally := receivedLocally n oldIndices newIndices r
    recvPrimaryMask := fun row => decide (row ∈ (recvRows n oldIndices newIndices r).map Prod.snd)
    recvExperts := recvRows n oldIndices newIndices r }

theorem mapM_eq_map {β γ : Type} {f : β → Raises γ} {g : β → γ} {l : List β}
    (h : ∀ x ∈ l, f x = .ok (g x)) : l.mapM f = .ok (l.map g) := by
  rw [Raises.mapM_eq_ok, forall₂_map_right_iff, forall₂_same]
  exact h

theorem moveToBuffer_eq (hold : oldIndices.length = R * n) (hnew : newIndices.length = R * n)
    (hr : r < R) (weights buffers : ℕ → α) :
    moveToBuffer n oldIndices newIndices weights buffers r =
      .ok (posted n oldIndices newIndices weights buffers r) := by
  have hbase : ¬oldIndices.length < r * n + n := by
    rw [hold, ← succ_mul]
    exact not_lt.mpr (mul_le_mul_right n hr)
  have hsends : (sendRows n oldIndices r).mapM (postSends weights r (getEpRanksWithExpertsBatch
      ((sendRows n oldIndices r).map Prod.fst) n oldIndices newIndices)) =
      .ok ((sendRows n oldIndices r).map (sendsOf n oldIndices newIndices weights r)) := by
    refine mapM_eq_map ?_
    rintro ⟨e, row⟩ hx
    have hkey : e ∈ (sendRows n oldIndices r).map Prod.fst := mem_map.mpr ⟨_, hx, rfl⟩
    exact postSends_eq hkey ((mem_sendRows_keys hold hr).mp hkey).2
  have hrecvs : (recvRows n oldIndices newIndices r).mapM (postRecv r (getEpRanksWithExpertsBatch
      ((recvRows n oldIndices newIndices r).map Prod.fst) n oldIndices newIndices)) =
      .ok ((recvRows n oldIndices newIndices r).map (recvsOf n oldIndices newIndices r)) := by
    refine mapM_eq_map ?_
    rintro ⟨e, row⟩ hx
    have hkey : e ∈ (recvRows n oldIndices newIndices r).map Prod.fst := mem_map.mpr ⟨_, hx, rfl⟩
    exact postRecv_eq hkey ((mem_recvRows_keys hold hnew hr).mp hkey).2
  have hsorted : byExpert (sendRows n oldIndices r) = sendRows n oldIndices r :=
    byExpert_firstRows _ _
  have hsorted' : byExpert (recvRows n oldIndices newIndices r) =
      recvRows n oldIndices newIndices r := byExpert_firstRows _ _
  unfold moveToBuffer
  rw [Raises.require, if_pos (hold.trans hnew.symm)]
  dsimp only [Bind.bind, Except.bind]
  rw [if_neg hbase]
  change ((byExpert (sendRows n oldIndices r)).mapM (postSends weights r
      (getEpRanksWithExpertsBatch ((byExpert (sendRows n oldIndices r)).map Prod.fst) n oldIndices
        newIndices)) >>= fun sends =>
    (byExpert (recvRows n oldIndices newIndices r)).mapM (postRecv r
      (getEpRanksWithExpertsBatch ((byExpert (recvRows n oldIndices newIndices r)).map Prod.fst) n
        oldIndices newIndices)) >>= fun recvs =>
    pure (Posted.mk (localBuffers n oldIndices newIndices weights buffers r) sends.flatten
      recvs.flatten (posted n oldIndices newIndices weights buffers r).metadata)) = _
  rw [hsorted, hsends, Raises.ok_bind, hsorted', hrecvs, Raises.ok_bind]
  rw [posted, flatMap_def, flatMap_def]
  rfl

theorem map_filter_flatMap {β γ δ : Type} {l : List β} {f : β → List γ} {p : γ → Bool} {g : γ → δ}
    {q : β → Bool} {key : β → δ}
    (h : ∀ x ∈ l, ((f x).filter p).map g = if q x then [key x] else []) :
    ((l.flatMap f).filter p).map g = (l.filter q).map key := by
  induction l with
  | nil => rfl
  | cons x l ih =>
    rw [flatMap_cons, filter_append, map_append, h x mem_cons_self,
      ih fun y hy => h y (mem_cons_of_mem _ hy)]
    by_cases hq : q x
    · rw [if_pos hq, filter_cons_of_pos hq]
      rfl
    · rw [if_neg hq, filter_cons_of_neg hq]
      rfl

theorem filter_eq_singleton {l : List ℕ} {x : ℕ} (hnodup : l.Nodup) (hx : x ∈ l) :
    l.filter (fun y => decide (y = x)) = [x] := by
  rw [filter_eq, count_eq_one_of_mem hnodup hx]
  rfl

section
variable (hold : oldIndices.length = R * n)
include hold

theorem sends_to (hs : s < R) (newIndices : List ℤ) (weights buffers : ℕ → α) (d : ℕ) :
    ((posted n oldIndices newIndices weights buffers s).sends.filter fun x => x.dst = d).map
        (·.expertId) =
      ((sendRows n oldIndices s).map Prod.fst).filter fun e =>
        Serves n oldIndices newIndices s d e := by
  rw [filter_map]
  refine map_filter_flatMap ?_
  rintro ⟨e, row⟩ hx
  have hkey : e ∈ (sendRows n oldIndices s).map Prod.fst := mem_map.mpr ⟨_, hx, rfl⟩
  have hse := ((mem_sendRows_keys hold hs).mp hkey).2
  have htargets : (sendsOf n oldIndices newIndices weights s (e, row)).filter
      (fun x => x.dst = d) =
      ((targets n oldIndices newIndices s e).filter fun dst => dst = d).map
        fun dst => ⟨dst, e, weights row⟩ := by
    rw [sendsOf, filter_map]
    rfl
  rw [htargets]
  by_cases hserves : Serves n oldIndices newIndices s d e
  · rw [if_pos (by simpa using hserves),
      filter_eq_singleton (nodup_targets hse) ((mem_targets hse).mpr hserves)]
    rfl
  · rw [if_neg (by simpa using hserves), map_eq_nil_iff, map_eq_nil_iff, filter_eq_nil_iff]
    intro dst hdst heq
    obtain rfl := of_decide_eq_true heq
    exact hserves ((mem_targets hse).mp hdst)

theorem recvs_from (hnew : newIndices.length = R * n)
    (hd : d < R) (weights buffers : ℕ → α) (s : ℕ) :
    ((posted n oldIndices newIndices weights buffers d).recvs.filter fun x => x.src = s).map
        (·.expertId) =
      ((recvRows n oldIndices newIndices d).map Prod.fst).filter fun e =>
        Serves n oldIndices newIndices s d e := by
  rw [filter_map]
  refine map_filter_flatMap ?_
  rintro ⟨e, row⟩ hx
  have hkey : e ∈ (recvRows n oldIndices newIndices d).map Prod.fst := mem_map.mpr ⟨_, hx, rfl⟩
  have hde := ((mem_recvRows_keys hold hnew hd).mp hkey).2
  have hsource := source_eq_some (s := s) hde
  rw [recvsOf]
  cases hsrc : source n oldIndices newIndices d e with
  | none =>
    have hno : ¬Serves n oldIndices newIndices s d e := by
      rw [← hsource, hsrc]
      simp
    rw [if_neg (by simpa using hno)]
    rfl
  | some src =>
    rw [hsrc, Option.some_inj] at hsource
    by_cases heq : src = s
    · rw [if_pos (by simpa using hsource.mp heq)]
      simp [heq]
    · rw [if_neg (by simpa using fun hserves => heq (hsource.mpr hserves))]
      simp [heq]

/-- The experts that one rank posts as sends to another are those that the other posts as receives
from it, in the same order. -/
theorem posted_match (hnew : newIndices.length = R * n) (hs : s < R) (hd : d < R)
    (weights buffers weights' buffers' : ℕ → α) :
    ((posted n oldIndices newIndices weights buffers s).sends.filter fun x => x.dst = d).map
        (·.expertId) =
      ((posted n oldIndices newIndices weights' buffers' d).recvs.filter fun x => x.src = s).map
        (·.expertId) := by
  rw [sends_to hold hs, recvs_from hold hnew hd]
  refine List.SortedLT.eq_of_mem_iff ?_ ?_ ?_
  · exact ((sortedLT_firstRows _ _).pairwise.filter _).sortedLT
  · exact ((sortedLT_firstRows _ _).pairwise.filter _).sortedLT
  · intro e
    rw [mem_filter, mem_filter, mem_sendRows_keys hold hs, mem_recvRows_keys hold hnew hd]
    simp only [decide_eq_true_eq]
    constructor
    · rintro ⟨⟨he, -⟩, hserves⟩
      exact ⟨⟨he, hserves.2.1⟩, hserves⟩
    · rintro ⟨⟨he, -⟩, hserves⟩
      exact ⟨⟨he, hserves.1⟩, hserves⟩

end

end Posts

end Vllm.Eplb
