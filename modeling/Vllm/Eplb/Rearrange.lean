import Vllm.Eplb.TransferPost

/-! The rearrangement moves the right weights: after the posted transfers have been delivered and
the buffers copied back, every row holds the weights of its new expert. -/
namespace Vllm.Eplb
open SortedRuns GridLoop List Option Bool

section Delivery
variable {α : Type} {R n : ℕ} {oldIndices newIndices : List ℤ} {weights buffers : ℕ → ℕ → α}
  {W : ℤ → α} {r s d i row : ℕ} {e : ℤ}

/-- The rows of an expert hold its weights. -/
def Holds (R n : ℕ) (indices : List ℤ) (weights : ℕ → ℕ → α) (W : ℤ → α) : Prop :=
  ∀ r < R, ∀ row < n, 0 ≤ localExpert n indices r row →
    weights r row = W (localExpert n indices r row)

/-- What all ranks post. -/
abbrev allPosted (n : ℕ) (oldIndices newIndices : List ℤ) (weights buffers : ℕ → ℕ → α) (r : ℕ) :
    Posted α := posted n oldIndices newIndices (weights r) (buffers r) r

theorem of_mem_sendRows (h : (e, row) ∈ sendRows n oldIndices r) :
    row < n ∧ e ≠ -1 ∧ localExpert n oldIndices r row = e := by
  obtain ⟨hmem, rfl⟩ := of_mem_firstRows h
  obtain ⟨hlt, hvalid⟩ := mem_filter.mp hmem
  exact ⟨mem_range.mp hlt, bne_iff_ne.mp hvalid, rfl⟩

theorem of_mem_recvRows (h : (e, row) ∈ recvRows n oldIndices newIndices r) :
    row < n ∧ receivedLocally n oldIndices newIndices r row = false ∧ e ≠ -1 ∧
      localExpert n newIndices r row = e := by
  obtain ⟨hmem, rfl⟩ := of_mem_firstRows h
  obtain ⟨hlt, hneed⟩ := mem_filter.mp hmem
  obtain ⟨hremote, hvalid⟩ := and_eq_true_iff.mp hneed
  exact ⟨mem_range.mp hlt, by simpa using hremote, bne_iff_ne.mp hvalid, rfl⟩

theorem send_row (hW : Holds R n oldIndices weights W) (hs : s < R) {send : Send α}
    (h : send ∈ (allPosted n oldIndices newIndices weights buffers s).sends)
    (hvalid : 0 ≤ send.expertId) : send.row = W send.expertId := by
  obtain ⟨⟨e, row⟩, hrow, hsend⟩ := mem_flatMap.mp h
  obtain ⟨dst, -, rfl⟩ := mem_map.mp hsend
  obtain ⟨hlt, -, hexpert⟩ := of_mem_sendRows hrow
  have hheld := hW s hs row hlt (hexpert ▸ hvalid)
  rwa [hexpert] at hheld

theorem of_mem_recvs {recv : Recv}
    (h : recv ∈ (allPosted n oldIndices newIndices weights buffers d).recvs) :
    (recv.expertId, recv.row) ∈ recvRows n oldIndices newIndices d ∧
      source n oldIndices newIndices d recv.expertId = some recv.src := by
  obtain ⟨⟨e, row⟩, hrow, hrecv⟩ := mem_flatMap.mp h
  obtain ⟨src, hsrc, rfl⟩ := mem_map.mp hrecv
  exact ⟨hrow, mem_toList.mp hsrc⟩

theorem getElem?_filter_countP {A : Type} {p : A → Bool} {l : List A} {j : ℕ} {x : A}
    (hx : l[j]? = some x) (hp : p x) : (l.filter p)[(l.take j).countP p]? = some x := by
  have hsplit : l = l.take j ++ x :: l.drop (j + 1) := by
    obtain ⟨hlt, rfl⟩ := List.getElem?_eq_some_iff.mp hx
    rw [getElem_cons_drop, take_append_drop]
  conv_lhs => rw [hsplit]
  rw [filter_append, filter_cons_of_pos hp, countP_eq_length_filter]
  have htake : (l.take j ++ x :: l.drop (j + 1)).take j = l.take j := by rw [← hsplit]
  rw [htake, List.getElem?_append_right (le_refl _), Nat.sub_self]
  rfl

/-- The send that a receive is matched with. -/
def matched (posted : ℕ → Posted α) (dst : ℕ) (r : Recv × ℕ) : Option (Send α) :=
  ((posted r.1.src).sends.filter fun send => send.dst = dst)[
    ((posted dst).recvs.take r.2).countP fun r' => r'.src = r.1.src]?

theorem deliver_eq (posted : ℕ → Posted α) (dst : ℕ) :
    deliver posted dst = writeAll (posted dst).buffers ((posted dst).recvs.zipIdx.filterMap
      fun r => ((matched posted dst r).map Send.row).map (r.1.row, ·)) := by
  rw [← foldl_write]
  unfold deliver
  congr 1
  funext b r
  unfold matched
  dsimp only
  cases ((posted r.1.src).sends.filter fun send => send.dst = dst)[
    ((posted dst).recvs.take r.2).countP fun r' => r'.src = r.1.src]? <;> rfl

section
variable (hold : oldIndices.length = R * n) (hnew : newIndices.length = R * n)
include hold hnew

theorem matched_expert (hd : d < R) {recv : Recv} {j : ℕ}
    (hrecv : (allPosted n oldIndices newIndices weights buffers d).recvs[j]? = some recv) :
    ∃ send, matched (allPosted n oldIndices newIndices weights buffers) d (recv, j) = some send ∧
      send ∈ (allPosted n oldIndices newIndices weights buffers recv.src).sends ∧
      send.expertId = recv.expertId ∧ recv.src < R := by
  have hsrc : recv.src < R := by
    have hsource := (of_mem_recvs (mem_of_getElem? hrecv)).2
    exact ((mem_sendRanks_local hold).mp (mem_of_getElem? hsource)).1
  have hpick := getElem?_filter_countP (p := fun r' : Recv => decide (r'.src = recv.src)) hrecv
    (by simp)
  have hmatch := congrArg
    (·[((allPosted n oldIndices newIndices weights buffers d).recvs.take j).countP
      fun r' => r'.src = recv.src]?)
    (posted_match hold hnew hsrc hd (weights recv.src) (buffers recv.src) (weights d) (buffers d))
  rw [List.getElem?_map, List.getElem?_map, hpick, map_some] at hmatch
  obtain ⟨send, hsend, hexpert⟩ := map_eq_some_iff.mp hmatch
  exact ⟨send, hsend, (mem_filter.mp (mem_of_getElem? hsend)).1, hexpert, hsrc⟩

theorem deliver_primary (hW : Holds R n oldIndices weights W) (hd : d < R) (he : e ∈ oldIndices)
    (hvalid : 0 ≤ e) (hrow : (e, i) ∈ recvRows n oldIndices newIndices d) :
    deliver (allPosted n oldIndices newIndices weights buffers) d i = W e := by
  rw [deliver_eq]
  have hexpert := (of_mem_recvRows hrow).2.2.2
  have hvalue : ∀ recv j v,
      (allPosted n oldIndices newIndices weights buffers d).recvs[j]? = some recv →
      ((matched (allPosted n oldIndices newIndices weights buffers) d (recv, j)).map Send.row) =
        some v → 0 ≤ recv.expertId → v = W recv.expertId := by
    intro recv j v hrecv hv hpos
    obtain ⟨send, hsend, hmem, hsame, hsrc⟩ := matched_expert hold hnew hd hrecv
    rw [hsend] at hv
    cases hv
    rw [send_row hW hsrc hmem (hsame ▸ hpos), hsame]
  have hkey : e ∈ (recvRows n oldIndices newIndices d).map Prod.fst := mem_map.mpr ⟨_, hrow, rfl⟩
  have hde := ((mem_recvRows_keys hold hnew hd).mp hkey).2
  have hsenders : sendRanks n oldIndices e ≠ [] := by
    obtain ⟨pos, hpos⟩ := mem_iff_getElem?.mp he
    exact ne_nil_of_mem (mem_sendRanks.mpr ⟨pos, hpos, rfl⟩)
  obtain ⟨src, -, hsource⟩ := senderOf_eq hsenders (idxOf_lt_length_of_mem hde)
  have hposted : ⟨src, e, i⟩ ∈ (allPosted n oldIndices newIndices weights buffers d).recvs := by
    refine mem_flatMap.mpr ⟨_, hrow, mem_map.mpr ⟨src, ?_, rfl⟩⟩
    exact mem_toList.mpr hsource
  obtain ⟨j, hj⟩ := mem_iff_getElem?.mp hposted
  obtain ⟨send, hsend, -⟩ := matched_expert hold hnew hd hj
  apply writeAll_of_mem
  · refine mem_filterMap.mpr ⟨(⟨src, e, i⟩, j), mk_mem_zipIdx_iff_getElem?.mpr hj, ?_⟩
    rw [hsend, map_some, map_some, hvalue _ j send.row hj (by rw [hsend]; rfl) hvalid]
  · intro v hv
    obtain ⟨⟨recv, j'⟩, hmem, hwrite⟩ := mem_filterMap.mp hv
    obtain ⟨v', hv', heq⟩ := map_eq_some_iff.mp hwrite
    obtain ⟨hi, rfl⟩ := Prod.mk.inj heq
    have hj' := mk_mem_zipIdx_iff_getElem?.mp hmem
    have hrow' := (of_mem_recvRows (of_mem_recvs (mem_of_getElem? hj')).1).2.2.2
    rw [hi, hexpert] at hrow'
    rw [hvalue recv j' v' hj' hv' (hrow' ▸ hvalid), hrow']

end

theorem deliver_local (h : i ∉ (recvRows n oldIndices newIndices d).map Prod.snd) :
    deliver (allPosted n oldIndices newIndices weights buffers) d i =
      localBuffers n oldIndices newIndices (weights d) (buffers d) d i := by
  rw [deliver_eq]
  apply writeAll_of_notMem
  intro v hv
  obtain ⟨⟨recv, j⟩, hmem, hwrite⟩ := mem_filterMap.mp hv
  obtain ⟨v', -, heq⟩ := map_eq_some_iff.mp hwrite
  obtain ⟨hi, -⟩ := Prod.mk.inj heq
  have hrow := (of_mem_recvs (mem_of_getElem? (mk_mem_zipIdx_iff_getElem?.mp hmem))).1
  exact h (mem_map.mpr ⟨_, hrow, hi⟩)

theorem exists_lookup {l : List (ℤ × ℕ)} (h : e ∈ l.map Prod.fst) :
    ∃ v, l.lookup e = some v ∧ (e, v) ∈ l := by
  induction l with
  | nil => cases h
  | cons x l ih =>
    obtain ⟨k, v⟩ := x
    by_cases hk : e = k
    · subst hk
      exact ⟨v, by simp, mem_cons_self⟩
    · obtain ⟨w, hw, hmem⟩ := ih (by simpa [hk] using h)
      refine ⟨w, ?_, mem_cons_of_mem _ hmem⟩
      rw [lookup_cons, beq_eq_false_iff_ne.mpr hk]
      exact hw

theorem localBuffers_eq (hold : oldIndices.length = R * n) (hW : Holds R n oldIndices weights W)
    (hr : r < R) (hrow : row < n) (hvalid : 0 ≤ localExpert n newIndices r row)
    (hchanged : unchanged n oldIndices newIndices r row = false)
    (hlocal : receivedLocally n oldIndices newIndices r row = true) :
    localBuffers n oldIndices newIndices (weights r) (buffers r) r row =
      W (localExpert n newIndices r row) := by
  have he : localExpert n newIndices r row ≠ -1 := by omega
  have hvalue : ∀ dst, 0 ≤ localExpert n newIndices r dst → ∀ v,
      ((sendRows n oldIndices r).lookup (localExpert n newIndices r dst)).map (weights r) = some v →
      v = W (localExpert n newIndices r dst) := by
    intro dst hdst v hv
    obtain ⟨src, hsrc, rfl⟩ := map_eq_some_iff.mp hv
    have hkey : localExpert n newIndices r dst ∈ (sendRows n oldIndices r).map Prod.fst := by
      by_contra hno
      have hnone : (sendRows n oldIndices r).lookup (localExpert n newIndices r dst) = none := by
        rw [lookup_eq_none_iff]
        intro p hp
        exact bne_iff_ne.mpr fun heq => hno (mem_map.mpr ⟨p, hp, heq.symm⟩)
      rw [hnone] at hsrc
      cases hsrc
    obtain ⟨src', hsrc', hmem⟩ := exists_lookup hkey
    rw [hsrc] at hsrc'
    cases hsrc'
    obtain ⟨hlt, -, hexpert⟩ := of_mem_sendRows hmem
    have hheld := hW r hr src hlt (hexpert ▸ hdst)
    rwa [hexpert] at hheld
  have hfold : localBuffers n oldIndices newIndices (weights r) (buffers r) r =
      writeAll (buffers r) (((List.range n).filter fun row =>
        !unchanged n oldIndices newIndices r row && receivedLocally n oldIndices newIndices r row).filterMap
        fun dst => (((sendRows n oldIndices r).lookup (localExpert n newIndices r dst)).map
          (weights r)).map (dst, ·)) := by
    rw [← foldl_write (fun dst => dst)]
    unfold localBuffers
    congr 1
    funext b dst
    cases (sendRows n oldIndices r).lookup (localExpert n newIndices r dst) <;> rfl
  have hkey : localExpert n newIndices r row ∈ (sendRows n oldIndices r).map Prod.fst :=
    (mem_sendRows_keys hold hr).mpr ⟨he, (receivedLocally_iff hold hr hrow he).mp hlocal⟩
  obtain ⟨src, hsrc, -⟩ := exists_lookup hkey
  rw [hfold]
  apply writeAll_of_mem
  · refine mem_filterMap.mpr ⟨row, mem_filter.mpr ⟨mem_range.mpr hrow, ?_⟩, ?_⟩
    · rw [hchanged, hlocal]
      rfl
    · rw [hsrc, map_some, map_some, ← hvalue row hvalid (weights r src) (by rw [hsrc]; rfl)]
  · intro v hv
    obtain ⟨dst, -, hwrite⟩ := mem_filterMap.mp hv
    obtain ⟨v', hv', heq⟩ := map_eq_some_iff.mp hwrite
    obtain ⟨rfl, rfl⟩ := Prod.mk.inj heq
    exact hvalue dst hvalid v' hv'

/-- In a sorted array a value is found where it would be inserted. -/
theorem getElem?_searchsorted {l : List ℤ} (hl : l.SortedLT) (he : e ∈ l) :
    l[searchsorted l e]? = some e := by
  have hsorted := hl.pairwise
  clear hl
  induction l with
  | nil => cases he
  | cons x l ih =>
    obtain ⟨hfirst, hrest⟩ := pairwise_cons.mp hsorted
    unfold searchsorted at ih ⊢
    obtain rfl | hmem := mem_cons.mp he
    · have hzero : (e :: l).countP (fun y => decide (y < e)) = 0 := by
        rw [countP_eq_zero]
        intro y hy
        obtain rfl | hy := mem_cons.mp hy
        · simp
        · simpa using (hfirst y hy).le
      rw [hzero]
      rfl
    · rw [countP_cons_of_pos (by simpa using hfirst e hmem)]
      exact ih hmem hrest

end Delivery

section Restore
variable {α : Type} {R n : ℕ} {oldIndices newIndices : List ℤ} {weights : ℕ → ℕ → α}
  {buffers : ℕ → α} {r row : ℕ}

/-- The weights after the first loop of `move_from_buffer`. -/
def restored (n : ℕ) (oldIndices newIndices : List ℤ) (weights buffers : ℕ → α) (r : ℕ) : ℕ → α :=
  fun row => if row < n ∧ unchanged n oldIndices newIndices r row = false ∧
      (receivedLocally n oldIndices newIndices r row = true ∨
        row ∈ (recvRows n oldIndices newIndices r).map Prod.snd) then buffers row
    else weights row

/-- The rows whose expert another row of the rank receives. -/
def duplicates (n : ℕ) (oldIndices newIndices : List ℤ) (r : ℕ) : List ℕ :=
  (List.range n).filter fun row =>
    (!unchanged n oldIndices newIndices r row && !receivedLocally n oldIndices newIndices r row) &&
      (!decide (row ∈ (recvRows n oldIndices newIndices r).map Prod.snd) &&
        localExpert n newIndices r row != -1)

/-- The row that receives the expert of a row. -/
def primaryRow (n : ℕ) (oldIndices newIndices : List ℤ) (r row : ℕ) : Option ℕ :=
  let prim := recvRows n oldIndices newIndices r
  let expert := localExpert n newIndices r row
  (prim[searchsorted (prim.map Prod.fst) expert]?).bind fun x =>
    if x.1 = expert then some x.2 else none

theorem primaryRow_mem {src : ℕ} (h : primaryRow n oldIndices newIndices r row = some src) :
    (localExpert n newIndices r row, src) ∈ recvRows n oldIndices newIndices r := by
  obtain ⟨x, hx, hsrc⟩ := bind_eq_some_iff.mp h
  split at hsrc
  · rename_i heq
    cases hsrc
    rw [← heq]
    exact mem_of_getElem? hx
  · cases hsrc

/-- The first loop of `move_from_buffer`. -/
theorem foldl_restored (weights buffers : ℕ → α) :
    ((List.range n).filter fun row => !unchanged n oldIndices newIndices r row &&
        (receivedLocally n oldIndices newIndices r row ||
          decide (row ∈ (recvRows n oldIndices newIndices r).map Prod.snd))).foldl
      (fun w dst => Function.update w dst (buffers dst)) weights =
      restored n oldIndices newIndices weights buffers r := by
  have hwrite : ∀ l : List ℕ, l.foldl (fun w dst => Function.update w dst (buffers dst)) weights =
      writeAll weights (l.map fun dst => (dst, buffers dst)) := by
    intro l
    rw [writeAll, foldl_map]
  rw [hwrite]
  funext row
  unfold restored
  by_cases hrow : row < n ∧ unchanged n oldIndices newIndices r row = false ∧
      (receivedLocally n oldIndices newIndices r row = true ∨
        row ∈ (recvRows n oldIndices newIndices r).map Prod.snd)
  · rw [if_pos hrow]
    apply writeAll_of_mem
    · refine mem_map.mpr ⟨row, mem_filter.mpr ⟨mem_range.mpr hrow.1, ?_⟩, rfl⟩
      rw [and_eq_true, or_eq_true, hrow.2.1, decide_eq_true_eq]
      exact ⟨rfl, hrow.2.2⟩
    · intro v hv
      obtain ⟨dst, -, heq⟩ := mem_map.mp hv
      cases heq
      rfl
  · rw [if_neg hrow]
    apply writeAll_of_notMem
    intro v hv
    obtain ⟨dst, hdst, heq⟩ := mem_map.mp hv
    cases heq
    obtain ⟨hlt, hmask⟩ := mem_filter.mp hdst
    rw [and_eq_true, or_eq_true, decide_eq_true_eq, not_eq_true'] at hmask
    exact hrow ⟨mem_range.mp hlt, hmask⟩

/-- `move_from_buffer`: the rows of the buffers are restored, and the other rows that receive the
same experts get copies. -/
theorem moveFromBuffer_eq (weights buffers w buffers' : ℕ → α) :
    moveFromBuffer n newIndices weights buffers
        (posted n oldIndices newIndices w buffers' r).metadata r row =
      if row ∈ duplicates n oldIndices newIndices r then
        restored n oldIndices newIndices weights buffers r
          ((primaryRow n oldIndices newIndices r row).getD row)
      else restored n oldIndices newIndices weights buffers r row := by
  have hprim : ∀ dst ∈ duplicates n oldIndices newIndices r, ∀ src,
      primaryRow n oldIndices newIndices r dst = some src →
        src ∉ duplicates n oldIndices newIndices r := by
    intro dst _ src hsrc hmem
    have hmask := (mem_filter.mp hmem).2
    have hprim : src ∈ (recvRows n oldIndices newIndices r).map Prod.snd :=
      mem_map.mpr ⟨_, primaryRow_mem hsrc, rfl⟩
    simp [hprim] at hmask
  have hcopy := foldl_copy (primaryRow n oldIndices newIndices r)
    (restored n oldIndices newIndices weights buffers r) hprim row
  have hmeta : (posted n oldIndices newIndices w buffers' r).metadata =
      ⟨unchanged n oldIndices newIndices r, receivedLocally n oldIndices newIndices r,
        fun row => decide (row ∈ (recvRows n oldIndices newIndices r).map Prod.snd),
        recvRows n oldIndices newIndices r⟩ := rfl
  rw [hmeta]
  unfold moveFromBuffer
  rw [foldl_restored]
  by_cases hnil : recvRows n oldIndices newIndices r = []
  · rw [if_pos hnil]
    have hnone : primaryRow n oldIndices newIndices r row = none := by
      rw [primaryRow, hnil]
      rfl
    rw [hnone, getD_none, ite_self]
  · have hsorted : byExpert (recvRows n oldIndices newIndices r) =
        recvRows n oldIndices newIndices r := byExpert_firstRows _ _
    rw [if_neg hnil, ← hcopy, hsorted]
    refine congrFun (congrArg (fun f => List.foldl f _ _) ?_) row
    funext w dst
    unfold primaryRow localExpert
    dsimp only
    cases (recvRows n oldIndices newIndices r)[searchsorted
      ((recvRows n oldIndices newIndices r).map Prod.fst) (newIndices.getD (r * n + dst) (-1))]? with
    | none => rfl
    | some x =>
      obtain ⟨expert, src⟩ := x
      rw [bind_some]
      dsimp only
      split
      · rfl
      · rfl

theorem restored_rows {W : ℤ → α} {buffers : ℕ → ℕ → α} (hold : oldIndices.length = R * n)
    (hnew : newIndices.length = R * n) (hW : Holds R n oldIndices weights W)
    (hr : r < R) (hrow : row < n) (hvalid : 0 ≤ localExpert n newIndices r row)
    (hin : localExpert n newIndices r row ∈ oldIndices) :
    moveFromBuffer n newIndices (weights r)
        (deliver (allPosted n oldIndices newIndices weights buffers) r)
        (allPosted n oldIndices newIndices weights buffers r).metadata r row =
      W (localExpert n newIndices r row) := by
  have he : localExpert n newIndices r row ≠ -1 := by omega
  have hprimary : ∀ src, (localExpert n newIndices r row, src) ∈ recvRows n oldIndices newIndices r →
      restored n oldIndices newIndices (weights r)
        (deliver (allPosted n oldIndices newIndices weights buffers) r) r src =
        W (localExpert n newIndices r row) := by
    intro src hsrc
    obtain ⟨hlt, hremote, -, -⟩ := of_mem_recvRows hsrc
    have hchanged : unchanged n oldIndices newIndices r src = false :=
      (or_eq_false_iff.mp hremote).1
    have hmem : src ∈ (recvRows n oldIndices newIndices r).map Prod.snd :=
      mem_map.mpr ⟨_, hsrc, rfl⟩
    rw [restored, if_pos ⟨hlt, hchanged, .inr hmem⟩]
    exact deliver_primary hold hnew hW hr hin hvalid hsrc
  rw [moveFromBuffer_eq]
  by_cases hdup : row ∈ duplicates n oldIndices newIndices r
  · rw [if_pos hdup]
    have hremote : receivedLocally n oldIndices newIndices r row = false := by
      have hmask := (mem_filter.mp hdup).2
      simp only [and_eq_true, not_eq_true'] at hmask
      exact hmask.1.2
    have hkey : localExpert n newIndices r row ∈
        (recvRows n oldIndices newIndices r).map Prod.fst := by
      refine (mem_recvRows_keys hold hnew hr).mpr ⟨he, mem_recvRanks.mpr ⟨?_, ?_⟩⟩
      · exact (mem_sendRanks_local hnew).mpr ⟨hr, row, hrow, rfl⟩
      · rw [← receivedLocally_iff hold hr hrow he, hremote]
        simp
    have hfound : ∃ src, primaryRow n oldIndices newIndices r row = some src := by
      have hsorted : ((recvRows n oldIndices newIndices r).map Prod.fst).SortedLT :=
        sortedLT_firstRows _ _
      have hget := getElem?_searchsorted hsorted hkey
      rw [List.getElem?_map] at hget
      obtain ⟨x, hx, hexpert⟩ := map_eq_some_iff.mp hget
      refine ⟨x.2, ?_⟩
      unfold primaryRow
      dsimp only
      rw [hx, bind_some, if_pos hexpert]
    obtain ⟨src, hsrc⟩ := hfound
    rw [hsrc, getD_some]
    exact hprimary src (primaryRow_mem hsrc)
  · rw [if_neg hdup]
    by_cases hchanged : unchanged n oldIndices newIndices r row = true
    · have hsame : localExpert n oldIndices r row = localExpert n newIndices r row :=
        beq_iff_eq.mp hchanged
      rw [restored, if_neg (by simp [hchanged]), hW r hr row hrow (hsame ▸ hvalid), hsame]
    · rw [not_eq_true] at hchanged
      by_cases hlocal : receivedLocally n oldIndices newIndices r row = true
      · rw [restored, if_pos ⟨hrow, hchanged, .inl hlocal⟩, deliver_local]
        · exact localBuffers_eq hold hW hr hrow hvalid hchanged hlocal
        · intro hmem
          obtain ⟨⟨e, row'⟩, hx, rfl⟩ := mem_map.mp hmem
          rw [(of_mem_recvRows hx).2.1] at hlocal
          cases hlocal
      · have hmem : row ∈ (recvRows n oldIndices newIndices r).map Prod.snd := by
          by_contra hno
          refine hdup (mem_filter.mpr ⟨mem_range.mpr hrow, ?_⟩)
          simpa [hchanged, hlocal, he] using hno
        obtain ⟨⟨e, row'⟩, hx, rfl⟩ := mem_map.mp hmem
        obtain rfl := (of_mem_recvRows hx).2.2.2
        exact hprimary _ hx

/-- Moving to the buffers succeeds on all ranks, the posted transfers of every pair of ranks match,
and after the delivery every row holds the weights of its new expert. -/
theorem rearrange_correct {W : ℤ → α} {buffers : ℕ → ℕ → α} (hold : oldIndices.length = R * n)
    (hnew : newIndices.length = R * n) (hin : ∀ e ∈ newIndices, 0 ≤ e → e ∈ oldIndices)
    (hW : ∀ r < R, ∀ row < n, ∀ e, oldIndices[r * n + row]? = some e → 0 ≤ e →
      weights r row = W e) :
    ∃ posted : ℕ → Posted α,
      (∀ r < R, moveToBuffer n oldIndices newIndices (weights r) (buffers r) r = .ok (posted r)) ∧
      (∀ s < R, ∀ d < R, ((posted s).sends.filter fun x => x.dst = d).map (·.expertId) =
        ((posted d).recvs.filter fun x => x.src = s).map (·.expertId)) ∧
      ∀ r < R, ∀ row < n, ∀ e, newIndices[r * n + row]? = some e → 0 ≤ e →
        moveFromBuffer n newIndices (weights r) (deliver posted r) (posted r).metadata r row =
          W e := by
  have hholds : Holds R n oldIndices weights W := by
    intro r hr row hrow hvalid
    exact hW r hr row hrow _ (getElem?_local hold hr hrow) hvalid
  refine ⟨allPosted n oldIndices newIndices weights buffers, ?_, ?_, ?_⟩
  · exact fun r hr => moveToBuffer_eq hold hnew hr _ _
  · exact fun s hs d hd => posted_match hold hnew hs hd _ _ _ _
  · intro r hr row hrow e he hvalid
    have hexpert := getElem?_local hnew hr hrow
    rw [he] at hexpert
    cases hexpert
    exact restored_rows hold hnew hholds hr hrow hvalid (hin _ (mem_of_getElem? he) hvalid)

/-- Two ranks with two rows each; the last row is empty and expert 2 gets a second replica. -/
theorem rearrange_correct_two_ranks :
    let oldIndices : List ℤ := [0, 1, 2, -1]
    let newIndices : List ℤ := [2, 2, 0, 1]
    let weights := fun r row => oldIndices.getD (r * 2 + row) (-1)
    ∃ posted : ℕ → Posted ℤ,
      (∀ r < 2, moveToBuffer 2 oldIndices newIndices (weights r) (fun _ => -1) r =
        .ok (posted r)) ∧
      (∀ s < 2, ∀ d < 2, ((posted s).sends.filter fun x => x.dst = d).map (·.expertId) =
        ((posted d).recvs.filter fun x => x.src = s).map (·.expertId)) ∧
      ∀ r < 2, ∀ row < 2, ∀ e, newIndices[r * 2 + row]? = some e → 0 ≤ e →
        moveFromBuffer 2 newIndices (weights r) (deliver posted r) (posted r).metadata r row = e :=
          by
  intro oldIndices newIndices weights
  have hholds : ∀ r < 2, ∀ row < 2, ∀ e, oldIndices[r * 2 + row]? = some e → 0 ≤ e →
      weights r row = e := by
    intro r _ row _ e he _
    change oldIndices.getD (r * 2 + row) (-1) = e
    rw [getD_eq_getElem?_getD, he]
    rfl
  have hin : ∀ e ∈ newIndices, 0 ≤ e → e ∈ oldIndices := by
    decide
  exact rearrange_correct (W := fun e => e) rfl rfl hin hholds

end Restore

end Vllm.Eplb
