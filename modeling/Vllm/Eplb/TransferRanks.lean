import Vllm.Eplb.Transfer

/-! Which ranks have an expert and which get it: both maps say this of each queried expert alone,
so all ranks agree on it; and the shares of the senders fit the choices of the receivers. -/
namespace Vllm.Eplb
open SortedRuns List Nat

theorem nodup_eraseDups (l : List ℕ) : l.eraseDups.Nodup := by
  induction hn : l.length using Nat.strong_induction_on generalizing l with
  | _ n ih =>
    cases l with
    | nil => simp
    | cons a l =>
      rw [eraseDups_cons, nodup_cons, mem_eraseDups]
      refine ⟨by simp, ih _ ?_ _ rfl⟩
      rw [← hn, length_cons]
      exact lt_succ_of_le (length_filter_le _ _)

/-- The positions of an expert in a map. -/
def positions (indices : List ℤ) (e : ℤ) : List ℕ :=
  (indices.zipIdx.filter fun x => x.1 = e).map Prod.snd

theorem mem_positions {indices : List ℤ} {e : ℤ} {pos : ℕ} :
    pos ∈ positions indices e ↔ indices[pos]? = some e := by
  simp only [positions, mem_map, mem_filter, decide_eq_true_eq, Prod.exists,
    mk_mem_zipIdx_iff_getElem?]
  constructor
  · rintro ⟨x, i, ⟨hget, rfl⟩, rfl⟩
    exact hget
  · intro hget
    exact ⟨e, pos, ⟨hget, rfl⟩, rfl⟩

/-- The ranks that have an expert. -/
def sendRanks (n : ℕ) (oldIndices : List ℤ) (e : ℤ) : List ℕ :=
  ((positions oldIndices e).map (· / n)).eraseDups

/-- The ranks that get an expert and do not have it. -/
def recvRanks (n : ℕ) (oldIndices newIndices : List ℤ) (e : ℤ) : List ℕ :=
  (sendRanks n newIndices e).filter fun r => r ∉ sendRanks n oldIndices e

section Sorted
variable {experts indices : List ℤ} {n : ℕ} {e : ℤ}

/-- The order of the sort: by expert, then by position. -/
def lexLe (a b : ℤ × ℕ) : Bool := a.1 < b.1 ∨ (a.1 = b.1 ∧ a.2 ≤ b.2)

theorem lexLe_trans (a b c : ℤ × ℕ) (hab : lexLe a b) (hbc : lexLe b c) : lexLe a c := by
  simp only [lexLe, decide_eq_true_eq] at hab hbc ⊢
  omega

theorem lexLe_total (a b : ℤ × ℕ) : lexLe a b || lexLe b a := by
  simp only [lexLe, Bool.or_eq_true, decide_eq_true_eq]
  omega

theorem lexLe_antisymm {a b : ℤ × ℕ} (hab : lexLe a b) (hba : lexLe b a) : a = b := by
  simp only [lexLe, decide_eq_true_eq] at hab hba
  refine Prod.ext ?_ ?_
  · omega
  · omega

theorem pairwise_filter_zipIdx (indices : List ℤ) (e : ℤ) :
    (indices.zipIdx.filter fun x => x.1 = e).Pairwise fun a b => lexLe a b = true := by
  have hlt : (indices.zipIdx.map Prod.snd).Pairwise (· < ·) := by
    rw [zipIdx_map_snd]
    exact pairwise_lt_range'
  rw [pairwise_map] at hlt
  refine List.Pairwise.imp_of_mem ?_ (hlt.filter _)
  intro a b ha hb hab
  have ha := of_decide_eq_true (mem_filter.mp ha).2
  have hb := of_decide_eq_true (mem_filter.mp hb).2
  simp only [lexLe, decide_eq_true_eq]
  omega

theorem sortedRanks_filter (he : e ∈ experts) :
    ((sortedRanks experts n indices).filter fun x => x.1 = e).map Prod.snd =
      (positions indices e).map (· / n) := by
  have hsort : ((indices.zipIdx.filter fun x => x.1 ∈ experts).mergeSort lexLe).filter
      (fun x => x.1 = e) = indices.zipIdx.filter fun x => x.1 = e := by
    have hrelevant : (indices.zipIdx.filter fun x => x.1 ∈ experts).filter (fun x => x.1 = e) =
        indices.zipIdx.filter fun x => x.1 = e := by
      rw [filter_filter]
      refine filter_congr ?_
      intro x _
      by_cases hx : x.1 = e
      · simp [hx, he]
      · simp [hx]
    refine List.Perm.eq_of_pairwise (fun a b _ _ => lexLe_antisymm) ?_ ?_ ?_
    · exact (pairwise_mergeSort lexLe_trans lexLe_total _).filter _
    · exact pairwise_filter_zipIdx indices e
    · exact hrelevant ▸ (mergeSort_perm _ _).filter _
  have hmap : (sortedRanks experts n indices).filter (fun x => x.1 = e) =
      (((indices.zipIdx.filter fun x => x.1 ∈ experts).mergeSort lexLe).filter
        fun x => x.1 = e).map fun x => (x.1, x.2 / n) := by
    rw [sortedRanks, filter_map]
    rfl
  rw [hmap, hsort, positions, map_map, map_map]
  rfl

theorem sortedRanks_keys (experts indices : List ℤ) (n : ℕ) :
    ((sortedRanks experts n indices).map Prod.fst).Pairwise (· ≤ ·) := by
  have hsort := pairwise_mergeSort lexLe_trans lexLe_total
    (indices.zipIdx.filter fun x => x.1 ∈ experts)
  have hkeys : (sortedRanks experts n indices).map Prod.fst =
      ((indices.zipIdx.filter fun x => x.1 ∈ experts).mergeSort lexLe).map Prod.fst := by
    rw [sortedRanks, map_map]
    rfl
  rw [hkeys, pairwise_map]
  refine hsort.imp ?_
  intro a b hab
  simp only [lexLe, decide_eq_true_eq] at hab
  omega

theorem mem_sortedRanks_keys :
    e ∈ (sortedRanks experts n indices).map Prod.fst ↔ e ∈ experts ∧ e ∈ indices := by
  have hkeys : (sortedRanks experts n indices).map Prod.fst =
      ((indices.zipIdx.filter fun x => x.1 ∈ experts).mergeSort lexLe).map Prod.fst := by
    rw [sortedRanks, map_map]
    rfl
  rw [hkeys, (List.Perm.map _ (mergeSort_perm _ _)).mem_iff, mem_map]
  constructor
  · rintro ⟨x, hx, rfl⟩
    obtain ⟨hmem, hx⟩ := mem_filter.mp hx
    exact ⟨of_decide_eq_true hx, fst_mem_of_mem_zipIdx hmem⟩
  · rintro ⟨he, hmem⟩
    obtain ⟨i, hi⟩ := mem_iff_getElem?.mp hmem
    refine ⟨(e, i), mem_filter.mpr ⟨?_, by simpa using he⟩, rfl⟩
    exact mk_mem_zipIdx_iff_getElem?.mpr hi

theorem get?_ofList_runs (f : ℤ → List ℕ → List ℕ) (he : e ∈ experts) :
    (Dict.ofList ((runs (sortedRanks experts n indices)).map fun run => (run.1, f run.1 run.2))).get? e =
      if e ∈ indices then some (f e ((positions indices e).map (· / n))) else none := by
  obtain ⟨hkeys, hmem, hruns⟩ := runs_sorted (sortedRanks_keys experts indices n)
  have hnodup : (((runs (sortedRanks experts n indices)).map
      fun run => (run.1, f run.1 run.2)).map Prod.fst).Nodup := by
    rw [map_map]
    exact hkeys.imp fun h => h.ne
  by_cases hin : e ∈ indices
  · rw [if_pos hin, ← Dict.mem_entries_iff, Dict.entries_ofList hnodup]
    obtain ⟨⟨e', ranks⟩, hrun, rfl⟩ :=
      mem_map.mp ((hmem e).mpr (mem_sortedRanks_keys.mpr ⟨he, hin⟩))
    refine mem_map.mpr ⟨_, hrun, ?_⟩
    rw [hruns e' ranks hrun, sortedRanks_filter he]
  · rw [if_neg hin]
    by_contra hsome
    obtain ⟨ranks, hranks⟩ := Option.ne_none_iff_exists'.mp hsome
    rw [← Dict.mem_entries_iff, Dict.entries_ofList hnodup] at hranks
    obtain ⟨run, hrun, heq⟩ := mem_map.mp hranks
    cases heq
    exact hin (mem_sortedRanks_keys.mp ((hmem run.1).mp (mem_map.mpr ⟨run, hrun, rfl⟩))).2

end Sorted

section Batch
variable {expertIds oldIndices newIndices : List ℤ} {n : ℕ} {e : ℤ}

theorem positions_eq_nil {indices : List ℤ} (he : e ∉ indices) : positions indices e = [] := by
  rw [eq_nil_iff_forall_not_mem]
  intro pos hpos
  exact he (mem_of_getElem? (mem_positions.mp hpos))

theorem get?_addMissing (experts : List ℤ) (m : Dict ℤ (List ℕ)) :
    (experts.foldl (fun (m : Dict ℤ (List ℕ)) expert =>
      if m.contains expert then m else m.set expert []) m).get? e =
      if e ∈ experts then some (m.getD e []) else m.get? e := by
  induction experts generalizing m with
  | nil => rfl
  | cons x experts ih =>
    rw [foldl_cons, ih]
    have hget : ∀ d, ((if m.contains x then m else m.set x []).get? e).getD d =
        if e = x then m.getD e [] else (m.get? e).getD d := by
      intro d
      by_cases hx : e = x
      · subst hx
        cases hm : m.get? e with
        | none => simp [Dict.contains, Dict.getD, hm]
        | some ranks => simp [Dict.contains, Dict.getD, hm]
      · rw [if_neg hx]
        split
        · rfl
        · rw [Dict.get?_set, if_neg hx]
    by_cases hx : e = x
    · subst hx
      rw [if_pos mem_cons_self]
      split
      · rw [Dict.getD, hget, if_pos rfl]
      · cases hm : m.get? e with
        | none => simp [Dict.contains, Dict.getD, hm]
        | some ranks => simp [Dict.contains, Dict.getD, hm]
    · have hother : (if m.contains x then m else m.set x []).get? e = m.get? e := by
        split
        · rfl
        · rw [Dict.get?_set, if_neg hx]
      rw [Dict.getD, hother]
      simp only [mem_cons, hx, false_or]
      rfl

theorem getEpRanksWithExpertsBatch_get? (n : ℕ) (oldIndices newIndices : List ℤ)
    (he : e ∈ expertIds) :
    (getEpRanksWithExpertsBatch expertIds n oldIndices newIndices).1.get? e =
        some (sendRanks n oldIndices e) ∧
      (getEpRanksWithExpertsBatch expertIds n oldIndices newIndices).2.get? e =
        some (recvRanks n oldIndices newIndices e) := by
  have hmem : e ∈ unique expertIds := mem_unique.mpr he
  have hsend : (Dict.ofList ((runs (sortedRanks (unique expertIds) n oldIndices)).map
      fun run => (run.1, run.2.eraseDups))).getD e [] = sendRanks n oldIndices e := by
    rw [Dict.getD, get?_ofList_runs (fun _ ranks => ranks.eraseDups) hmem]
    split
    · rfl
    · rename_i hno
      rw [sendRanks, positions_eq_nil hno]
      rfl
  unfold getEpRanksWithExpertsBatch
  rw [if_neg (ne_nil_of_mem he)]
  rw [get?_addMissing, get?_addMissing, if_pos hmem, if_pos hmem, hsend]
  refine ⟨rfl, ?_⟩
  rw [Dict.getD, get?_ofList_runs (fun e ranks => ranks.eraseDups.filter fun r =>
    r ∉ (Dict.ofList ((runs (sortedRanks (unique expertIds) n oldIndices)).map
      fun run => (run.1, run.2.eraseDups))).getD e []) hmem]
  split
  · rw [hsend]
    rfl
  · rename_i hno
    have hnil : sendRanks n newIndices e = [] := by
      rw [sendRanks, positions_eq_nil hno]
      rfl
    rw [recvRanks, hnil]
    rfl

end Batch

theorem mem_sendRanks {n : ℕ} {indices : List ℤ} {e : ℤ} {r : ℕ} :
    r ∈ sendRanks n indices e ↔ ∃ pos, indices[pos]? = some e ∧ pos / n = r := by
  simp only [sendRanks, mem_eraseDups, mem_map, mem_positions]

theorem nodup_sendRanks (n : ℕ) (indices : List ℤ) (e : ℤ) : (sendRanks n indices e).Nodup :=
  nodup_eraseDups _

theorem nodup_recvRanks (n : ℕ) (oldIndices newIndices : List ℤ) (e : ℤ) :
    (recvRanks n oldIndices newIndices e).Nodup := (nodup_sendRanks n newIndices e).filter _

theorem mem_recvRanks {n : ℕ} {oldIndices newIndices : List ℤ} {e : ℤ} {r : ℕ} :
    r ∈ recvRanks n oldIndices newIndices e ↔
      r ∈ sendRanks n newIndices e ∧ r ∉ sendRanks n oldIndices e := by
  simp [recvRanks]

section Shares
variable {senders receivers : List ℕ} {senderPos recverPos x : ℕ}

/-- The position of the sender that serves a receiver. -/
def senderIndex (senders receivers : List ℕ) (recverPos : ℕ) : ℕ :=
  let numDstPerSender := receivers.length / senders.length
  if recverPos < senders.length * numDstPerSender then recverPos / numDstPerSender
  else recverPos - senders.length * numDstPerSender

section
variable (hs : senders ≠ []) (hr : recverPos < receivers.length)
include hs hr

theorem senderIndex_lt : senderIndex senders receivers recverPos < senders.length := by
  have hpos : 0 < senders.length := length_pos_iff.mpr hs
  have hlt := lt_mul_div_succ receivers.length hpos
  rw [mul_add, mul_one] at hlt
  unfold senderIndex
  dsimp only
  split
  · exact Nat.div_lt_of_lt_mul (by rwa [Nat.mul_comm])
  · omega

theorem senderOf_eq :
    ∃ src, senderOf senders receivers recverPos = .ok src ∧
      senders[senderIndex senders receivers recverPos]? = some src := by
  have hlt := senderIndex_lt hs hr
  obtain ⟨src, hsrc⟩ : ∃ src, senders[senderIndex senders receivers recverPos]? = some src :=
    ⟨_, List.getElem?_eq_getElem hlt⟩
  refine ⟨src, ?_, hsrc⟩
  unfold senderIndex at hsrc
  unfold senderOf item
  dsimp only at hsrc ⊢
  split
  · rename_i hshare
    rw [if_pos hshare] at hsrc
    rw [hsrc]
    rfl
  · rename_i hshare
    rw [if_neg hshare] at hsrc
    rw [hsrc]
    rfl

end

theorem recvRanksOf_sublist (hpos : senderPos < senders.length) :
    (recvRanksOf senders receivers senderPos).Sublist receivers := by
  unfold recvRanksOf
  set k := receivers.length / senders.length with hk
  have hrest : ((receivers[senders.length * k + senderPos]?).toList).Sublist
      (receivers.drop (senderPos * k + k)) := by
    cases hget : receivers[senders.length * k + senderPos]? with
    | none => exact nil_sublist _
    | some x =>
      refine singleton_sublist.mpr (mem_iff_getElem?.mpr
        ⟨senders.length * k + senderPos - (senderPos * k + k), ?_⟩)
      have hle : senderPos * k + k ≤ senders.length * k := by
        rw [← succ_mul]
        exact mul_le_mul_right k hpos
      rw [List.getElem?_drop, ← hget]
      congr 1
      omega
  have hsplit : (receivers.drop (senderPos * k)).take k ++ receivers.drop (senderPos * k + k) =
      receivers.drop (senderPos * k) := by
    rw [← drop_drop, take_append_drop]
  have hall := (List.Sublist.refl ((receivers.drop (senderPos * k)).take k)).append hrest
  rw [hsplit] at hall
  exact hall.trans (drop_sublist _ _)

theorem mem_recvRanksOf (hnodup : receivers.Nodup) (hpos : senderPos < senders.length)
    (hx : receivers[recverPos]? = some x) :
    x ∈ recvRanksOf senders receivers senderPos ↔
      senderIndex senders receivers recverPos = senderPos := by
  unfold recvRanksOf senderIndex
  dsimp only
  set k := receivers.length / senders.length with hk
  have hunique : ∀ i, receivers[i]? = some x ↔ i = recverPos := by
    intro i
    refine ⟨?_, fun h => h ▸ hx⟩
    intro hi
    have hi' : i < receivers.length := (List.getElem?_eq_some_iff.mp hi).1
    exact (List.getElem?_inj hi' hnodup).mp (hi.trans hx.symm)
  have hshare : x ∈ (receivers.drop (senderPos * k)).take k ↔
      senderPos * k ≤ recverPos ∧ recverPos < senderPos * k + k := by
    rw [mem_iff_getElem?]
    constructor
    · rintro ⟨i, hi⟩
      rw [List.getElem?_take] at hi
      split at hi
      · rw [List.getElem?_drop, hunique] at hi
        omega
      · cases hi
    · rintro ⟨hlow, hhigh⟩
      refine ⟨recverPos - senderPos * k, ?_⟩
      rw [List.getElem?_take, if_pos (by omega), List.getElem?_drop, hunique]
      omega
  have hrest : x ∈ (receivers[senders.length * k + senderPos]?).toList ↔
      senders.length * k + senderPos = recverPos := by
    rw [Option.mem_toList, hunique]
  have hle : senderPos * k + k ≤ senders.length * k := by
    rw [← succ_mul]
    exact mul_le_mul_right k hpos
  rw [mem_append, hshare, hrest]
  split
  · rename_i hin
    have hkpos : 0 < k := pos_of_ne_zero fun h0 => by simp [h0] at hin
    rw [Nat.div_eq_iff hkpos]
    constructor
    · rintro (⟨hlow, hhigh⟩ | heq)
      · omega
      · omega
    · intro hrange
      exact .inl ⟨by omega, by omega⟩
  · rename_i hout
    constructor
    · rintro (⟨hlow, hhigh⟩ | heq)
      · omega
      · omega
    · intro heq
      exact .inr (by omega)

end Shares

end Vllm.Eplb
