import Vllm.Serial.MessageCodec

/-! Decoding what has been encoded gives the value again, with all tensors on the CPU. -/
namespace Vllm
open SideBuffers MsgpackEncoder MsgpackDecoder Yields List

variable {sizeThreshold : ℤ}

theorem decodeShape_encodeShape (shape : List ℕ) :
    (shape.map fun (n : ℕ) => MsgpackValue.int n).mapM decodeDim = .ok shape := by
  induction shape with
  | nil => rfl
  | cons n shape ih =>
    rw [map_cons, mapM_cons, ih]
    rfl

variable {aux : List Bytes}

theorem decodeTensor_eq {t : Tensor} {data : MsgpackValue}
    (h : tensorBuffer aux data = .ok t.data) :
    decodeTensor aux (.array [.str t.dtype.name, encodeShape t.shape, data]) = .ok t.cpu := by
  unfold decodeTensor encodeShape
  dsimp only
  rw [h, TensorDtype.ofName_name, decodeShape_encodeShape]
  show (if h : t.data.length = t.dtype.itemsize * t.shape.prod then _ else _) = _
  rw [dif_pos t.size_eq]
  rfl

theorem auxIndex_roundTrips (data : Bytes) : RoundTrips (auxIndex data) tensorBuffer data := by
  apply of_stash
  intro bufs i hi
  show auxBuffer bufs ((i : ℤ) + 1) = .ok data
  have hindex : ((i : ℤ) + 1) = Int.ofNat (i + 1) := rfl
  rw [hindex, auxBuffer, hi]
  rfl

theorem encodeTensorData_roundTrips (t : Tensor) :
    RoundTrips (encodeTensorData sizeThreshold t) tensorBuffer t.data := by
  unfold encodeTensorData
  split_ifs
  · exact of_pure fun _ => rfl
  · exact auxIndex_roundTrips t.data

theorem encodeTensor_roundTrips (t : Tensor) :
    RoundTrips (encodeTensor sizeThreshold t) decodeTensor t.cpu :=
  map (encodeTensorData_roundTrips t) fun _ _ h => decodeTensor_eq h

theorem decodeNestedTensors_tensor {v : MsgpackValue} {t : Tensor}
    (h : decodeTensor aux v = .ok t) : decodeNestedTensors aux v = .ok (.tensor t) := by
  unfold decodeTensor at h
  split at h
  · next dtype shape data =>
    rw [decodeNestedTensors]
    unfold decodeTensor
    dsimp only
    rw [h]
    rfl
  · cases h

theorem decodeNestedTensors_list {vs : List MsgpackValue} {nts : List NestedTensors}
    (h : decodeNestedList aux vs = .ok nts) :
    decodeNestedTensors aux (.array vs) = .ok (.list nts) := by
  have hlist : decodeNestedTensors aux (.array vs) = (do
      let nts ← decodeNestedList aux vs
      pure (.list nts)) := by
    cases vs with
    | nil => rfl
    | cons v vs =>
      cases v with
      | str s => cases h
      | _ => rfl
  rw [hlist, h]
  rfl

theorem encodeNumber_roundTrips (x : Number) :
    RoundTrips (pure (encodeNumber x) : Stashing Bytes MsgpackValue) decodeNestedTensors
      (.number x) := by
  cases x <;> exact of_pure fun _ => rfl

mutual

theorem encodeNestedTensors_roundTrips : ∀ nt : NestedTensors,
    RoundTrips (encodeNestedTensors sizeThreshold nt) decodeNestedTensors nt.cpu
  | .tensor t => imp (encodeTensor_roundTrips t) fun _ _ h => decodeNestedTensors_tensor h
  | .number x => encodeNumber_roundTrips x
  | .list nts => map (encodeNestedList_roundTrips nts) fun _ _ h => decodeNestedTensors_list h

theorem encodeNestedList_roundTrips : ∀ nts : List NestedTensors,
    RoundTrips (encodeNestedList sizeThreshold nts) decodeNestedList (cpuList nts)
  | [] => of_pure fun _ => rfl
  | nt :: nts => by
    apply seq (encodeNestedTensors_roundTrips nt) (encodeNestedList_roundTrips nts)
    intro bufs v vs hv hvs
    rw [decodeNestedList, hv]
    show (do let nts ← decodeNestedList bufs vs; pure (nt.cpu :: nts)) = _
    rw [hvs]
    rfl

end

theorem decodeIndex_encodeIndex (z : Option ℤ) : decodeIndex (encodeIndex z) = .ok z := by
  cases z <;> rfl

theorem encodeSlices_array (s : NestedSlices) : ∃ xs, encodeSlices s = .array xs := by
  cases s with
  | slice start stop step | list slices => exact ⟨_, rfl⟩

mutual

theorem decodeSlices_encodeSlices : ∀ s : NestedSlices, decodeSlices (encodeSlices s) = .ok s
  | .slice start stop step => by
    have hslice : decodeSlice [encodeIndex start, encodeIndex stop, encodeIndex step] =
        .ok (.slice start stop step) := by
      unfold decodeSlice
      dsimp only
      rw [decodeIndex_encodeIndex, decodeIndex_encodeIndex, decodeIndex_encodeIndex]
      rfl
    rw [encodeSlices]
    cases start <;> exact hslice
  | .list [] => rfl
  | .list (s :: slices) => by
    have hlist := decodeSlicesList_encodeSlicesList (s :: slices)
    rcases encodeSlices_array s with ⟨xs, hxs⟩
    rw [encodeSlicesList, hxs] at hlist
    rw [encodeSlices, encodeSlicesList, hxs, decodeSlices, hlist]
    rfl

theorem decodeSlicesList_encodeSlicesList : ∀ slices : List NestedSlices,
    decodeSlicesList (encodeSlicesList slices) = .ok slices
  | [] => rfl
  | s :: slices => by
    rw [encodeSlicesList, decodeSlicesList, decodeSlices_encodeSlices s,
      decodeSlicesList_encodeSlicesList slices]
    rfl

end

theorem decodeMmField_encodeMmField (field : MultiModalField) :
    decodeMmField (encodeMmField field) = .ok field := by
  cases field with
  | batched keepOnCpu | shared keepOnCpu batchSize => rfl
  | flat keepOnCpu slices dim =>
    show (do let slices ← decodeSlices (encodeSlices slices)
             pure (.flat keepOnCpu slices dim) : Raises MultiModalField) = _
    rw [decodeSlices_encodeSlices]
    rfl

theorem encodeElemData_roundTrips (data : Option NestedTensors) :
    RoundTrips (encodeElemData sizeThreshold data) decodeElemData
      (data.map NestedTensors.cpu) := by
  cases data with
  | none => exact of_pure fun _ => rfl
  | some nt =>
    apply imp (encodeNestedTensors_roundTrips nt)
    intro bufs v h
    have hdata : decodeElemData bufs v = (do
        let nt ← decodeNestedTensors bufs v
        pure (some nt)) := by
      cases v with
      | nil => cases h
      | _ => rfl
    rw [hdata, h]
    rfl

theorem encodeMmFieldElem_roundTrips (elem : MultiModalFieldElem) :
    RoundTrips (encodeMmFieldElem sizeThreshold elem) decodeMmFieldElem elem.cpu := by
  apply map (encodeElemData_roundTrips elem.data)
  intro bufs v h
  show (do let data ← decodeElemData bufs v
           let field ← decodeMmField (encodeMmField elem.field)
           pure { data, field } : Raises MultiModalFieldElem) = _
  rw [h, decodeMmField_encodeMmField]
  rfl

theorem encodeDict_roundTrips {ν : Type} {f : ν → Stashing Bytes MsgpackValue}
    {dec : List Bytes → MsgpackValue → Raises ν} {value : ν → ν}
    (h : ∀ x, RoundTrips (f x) dec (value x)) (d : Dict String ν) :
    RoundTrips (encodeDict f d) (decodeDict dec) (d.mapValues fun _ => value) := by
  have hentry : ∀ e ∈ d.entries, RoundTrips (do
      let v ← f e.2
      pure (MsgpackKey.str e.1, v)) (decodeEntry dec) (e.1, value e.2) := by
    intro e _
    apply map (h e.2)
    intro bufs v hv
    rw [decodeEntry, hv]
    rfl
  apply map (RoundTrips.mapM hentry)
  intro bufs entries hentries
  dsimp only at hentries
  rw [decodeDict, hentries]
  exact congrArg Except.ok (Dict.ofList_entries (d.mapValues fun _ => value))

/-- The items with all tensors on the CPU. -/
def MultiModalKwargsItem.cpu (item : MultiModalKwargsItem) : MultiModalKwargsItem :=
  item.mapValues fun _ => MultiModalFieldElem.cpu

def MultiModalKwargsItems.cpu (items : MultiModalKwargsItems) : MultiModalKwargsItems :=
  items.mapValues fun _ itemlist => itemlist.map MultiModalKwargsItem.cpu

theorem encodeMmItem_roundTrips (item : MultiModalKwargsItem) :
    RoundTrips (encodeMmItem sizeThreshold item) decodeMmItem item.cpu :=
  encodeDict_roundTrips encodeMmFieldElem_roundTrips item

theorem encodeItemList_roundTrips (itemlist : List MultiModalKwargsItem) :
    RoundTrips (encodeItemList sizeThreshold itemlist) decodeItemList
      (itemlist.map MultiModalKwargsItem.cpu) :=
  map (RoundTrips.mapM fun item _ => encodeMmItem_roundTrips item) fun _ _ h => h

theorem encodeMmItems_roundTrips (items : MultiModalKwargsItems) :
    RoundTrips (encodeMmItems sizeThreshold items) decodeMmItems items.cpu :=
  encodeDict_roundTrips encodeItemList_roundTrips items

mutual

theorem encodeResult_native : ∀ x : ResultObject, x.Native →
    RoundTrips (encodeResult sizeThreshold x) (fun _ => nativeResult) x
  | .none, _ => of_pure fun _ => rfl
  | .bool _, _ => of_pure fun _ => rfl
  | .int _, _ => of_pure fun _ => rfl
  | .float _, _ => of_pure fun _ => rfl
  | .str _, _ => of_pure fun _ => rfl
  | .bytes _, _ => of_pure fun _ => rfl
  | .tensor _, h => h.elim
  | .list xs, h => by
    apply map (encodeResultList_native xs h)
    intro bufs vs hvs
    dsimp only at hvs ⊢
    rw [nativeResult, hvs]
    rfl
  | .dict entries, h => by
    apply map (encodeResultEntries_native entries h)
    intro bufs vs hvs
    dsimp only at hvs ⊢
    rw [nativeResult, hvs]
    rfl

theorem encodeResultList_native : ∀ xs : List ResultObject, nativeList xs →
    RoundTrips (encodeResultList sizeThreshold xs) (fun _ => nativeResultList) xs
  | [], _ => of_pure fun _ => rfl
  | x :: xs, h => by
    apply seq (encodeResult_native x h.1) (encodeResultList_native xs h.2)
    intro bufs v vs hv hvs
    dsimp only at hv hvs ⊢
    rw [nativeResultList, hv]
    show (do let xs ← nativeResultList vs; pure (x :: xs)) = _
    rw [hvs]
    rfl

theorem encodeResultEntries_native : ∀ entries : List (MsgpackKey × ResultObject),
    nativeEntries entries →
    RoundTrips (encodeResultEntries sizeThreshold entries) (fun _ => nativeResultEntries) entries
  | [], _ => of_pure fun _ => rfl
  | (k, x) :: entries, h => by
    apply seq (encodeResult_native x h.1) (encodeResultEntries_native entries h.2)
    intro bufs v vs hv hvs
    dsimp only at hv hvs ⊢
    rw [nativeResultEntries, hv]
    show (do let xs ← nativeResultEntries vs; pure ((k, x) :: xs)) = _
    rw [hvs]
    rfl

end

/-- The type of an object is never a string, so that a list of types is no type of a leaf. -/
theorem decodeTypeInfo_list {xs : List ResultObject} {vs : List MsgpackValue}
    {rs : List ResultObject} (h : decodeTypeInfoList aux (encodeTypeInfoList xs) vs = .ok rs) :
    decodeTypeInfo aux (encodeTypeInfo (.list xs)) (.array vs) = .ok (.list rs) := by
  have hlist : decodeTypeInfo aux (.array (encodeTypeInfoList xs)) (.array vs) = (do
      let rs ← decodeTypeInfoList aux (encodeTypeInfoList xs) vs
      pure (.list rs)) := by
    match xs with
    | [] => rfl
    | [x] => cases x <;> rfl
    | [x, y] => cases x <;> rfl
    | x :: y :: z :: xs => cases x <;> rfl
  rw [encodeTypeInfo, hlist, h]
  rfl

theorem lookup_behind {before vs : List (MsgpackKey × MsgpackValue)} {k : MsgpackKey}
    {v : MsgpackValue} (h : k ∉ before.map Prod.fst) :
    (before ++ (k, v) :: vs).lookup k = some v := by
  induction before with
  | nil => exact lookup_cons_self
  | cons e before ih =>
    rw [map_cons, mem_cons, not_or] at h
    rw [cons_append, lookup_cons, beq_false_of_ne h.1]
    exact ih h.2

mutual

theorem encodeResult_typed : ∀ x : ResultObject, x.DistinctKeys →
    RoundTrips (encodeResult sizeThreshold x) (fun aux => decodeTypeInfo aux (encodeTypeInfo x))
      x.cpu
  | .none, _ => of_pure fun _ => rfl
  | .bool _, _ => of_pure fun _ => rfl
  | .int _, _ => of_pure fun _ => rfl
  | .float _, _ => of_pure fun _ => rfl
  | .str _, _ => of_pure fun _ => rfl
  | .bytes _, _ => of_pure fun _ => rfl
  | .tensor t, _ => by
    apply imp (encodeTensor_roundTrips t)
    intro bufs v hv
    show (do let t ← decodeTensor bufs v; pure (.tensor t) : Raises ResultObject) = _
    rw [hv]
    rfl
  | .list xs, h => map (encodeResultList_typed xs h) fun _ _ hvs => decodeTypeInfo_list hvs
  | .dict entries, h => by
    apply map (encodeResultEntries_typed entries h.1 h.2)
    intro bufs vs hvs
    have hentries := (hvs.2 [] fun k _ => not_mem_nil)
    show (do let rs ← decodeTypeInfoEntries bufs (encodeTypeInfoEntries entries) vs
             pure (.dict rs) : Raises ResultObject) = _
    rw [nil_append] at hentries
    rw [hentries]
    rfl

theorem encodeResultList_typed : ∀ xs : List ResultObject, distinctKeysList xs →
    RoundTrips (encodeResultList sizeThreshold xs)
      (fun aux => decodeTypeInfoList aux (encodeTypeInfoList xs)) (cpuResults xs)
  | [], _ => of_pure fun _ => rfl
  | x :: xs, h => by
    apply seq (encodeResult_typed x h.1) (encodeResultList_typed xs h.2)
    intro bufs v vs hv hvs
    dsimp only at hv hvs ⊢
    rw [encodeTypeInfoList, decodeTypeInfoList, hv]
    show (do let rs ← decodeTypeInfoList bufs (encodeTypeInfoList xs) vs
             pure (x.cpu :: rs)) = _
    rw [hvs]
    rfl

theorem encodeResultEntries_typed : ∀ entries : List (MsgpackKey × ResultObject),
    (entries.map Prod.fst).Nodup → distinctKeysEntries entries →
    Yields (encodeResultEntries sizeThreshold entries) fun aux vs =>
      vs.map Prod.fst = entries.map Prod.fst ∧
      ∀ before : List (MsgpackKey × MsgpackValue),
        (∀ k ∈ entries.map Prod.fst, k ∉ before.map Prod.fst) →
        decodeTypeInfoEntries aux (encodeTypeInfoEntries entries) (before ++ vs) =
          .ok (cpuEntries entries)
  | [], _, _ => of_pure fun _ => ⟨rfl, fun _ _ => rfl⟩
  | (k, x) :: entries, hnodup, h => by
    rw [map_cons, nodup_cons] at hnodup
    apply seq (encodeResult_typed x h.1) (encodeResultEntries_typed entries hnodup.2 h.2)
    rintro bufs v vs hv ⟨hkeys, hvs⟩
    dsimp only at hv
    constructor
    · rw [map_cons, map_cons, hkeys]
    · intro before hbefore
      have hnew : k ∉ before.map Prod.fst := hbefore k mem_cons_self
      have hk : (before ++ (k, v) :: vs).lookup k = some v := lookup_behind hnew
      have hapart : ∀ k' ∈ entries.map Prod.fst, k' ∉ (before ++ [(k, v)]).map Prod.fst := by
        intro k' hk' hmem
        rw [map_append, mem_append] at hmem
        rcases hmem with hmem | hmem
        · exact hbefore k' (mem_cons_of_mem k hk') hmem
        · rw [mem_singleton.mp hmem] at hk'
          exact hnodup.1 hk'
      have hrest := hvs (before ++ [(k, v)]) hapart
      rw [append_assoc, singleton_append] at hrest
      rw [encodeTypeInfoEntries, decodeTypeInfoEntries, hk]
      show (do let r ← decodeTypeInfo bufs (encodeTypeInfo x) v
               let rs ← decodeTypeInfoEntries bufs (encodeTypeInfoEntries entries)
                 (before ++ (k, v) :: vs)
               pure ((k, r) :: rs)) = _
      rw [hv, hrest]
      rfl

end

mutual

theorem cpu_of_native : ∀ x : ResultObject, x.Native → x.cpu = x
  | .none, _ => rfl
  | .bool _, _ => rfl
  | .int _, _ => rfl
  | .float _, _ => rfl
  | .str _, _ => rfl
  | .bytes _, _ => rfl
  | .tensor _, h => h.elim
  | .list xs, h => congrArg ResultObject.list (cpuResults_of_native xs h)
  | .dict entries, h => congrArg ResultObject.dict (cpuEntries_of_native entries h)

theorem cpuResults_of_native : ∀ xs : List ResultObject, nativeList xs → cpuResults xs = xs
  | [], _ => rfl
  | x :: xs, h => by rw [cpuResults, cpu_of_native x h.1, cpuResults_of_native xs h.2]

theorem cpuEntries_of_native : ∀ entries : List (MsgpackKey × ResultObject),
    nativeEntries entries → cpuEntries entries = entries
  | [], _ => rfl
  | (k, x) :: entries, h => by
    rw [cpuEntries, cpu_of_native x h.1, cpuEntries_of_native entries h.2]

end

theorem decodeUtilityResult_typed (aux : List Bytes) (info v : MsgpackValue) :
    decodeUtilityResult true aux (.array [info, v]) = decodeTypeInfo aux info v := by
  cases info <;> rfl

theorem encodeUtilityResult_roundTrips {allowInsecure : Bool} {r : UtilityResult}
    (h : allowInsecure = true ∨ r.result.Native) :
    RoundTrips (encodeUtilityResult allowInsecure sizeThreshold r)
      (decodeUtilityResult allowInsecure) r.result.cpu := by
  cases allowInsecure with
  | true =>
    apply map (encodeResult_typed r.result r.distinctKeys)
    intro aux v hv
    rw [if_pos rfl, decodeUtilityResult_typed]
    exact hv
  | false =>
    have hnative : r.result.Native := h.resolve_left Bool.noConfusion
    rw [cpu_of_native r.result hnative]
    apply map (encodeResult_native r.result hnative)
    intro aux v hv
    rw [if_neg Bool.noConfusion]
    exact hv

theorem decode_encode {α : Type} (msgspec : Msgspec) {enc : Stashing Bytes MsgpackValue}
    {dec : List Bytes → MsgpackValue → Raises α} {a : α} (h : RoundTrips enc dec a) :
    decode msgspec dec (encode msgspec enc) = .ok a := by
  unfold decode encode
  rw [msgspec.decode_encode]
  exact h.result

/-- Items come back for every threshold, and so do results, with tensors only if types go with
them. -/
theorem message_roundTrip (msgspec : Msgspec) (sizeThreshold : ℤ) :
    (∀ items, decode msgspec decodeMmItems
      (encode msgspec (encodeMmItems sizeThreshold items)) = .ok items.cpu) ∧
    ∀ allowInsecure r, allowInsecure = true ∨ r.result.Native →
      decode msgspec (decodeUtilityResult allowInsecure)
        (encode msgspec (encodeUtilityResult allowInsecure sizeThreshold r)) =
          .ok r.result.cpu :=
  ⟨fun items => decode_encode msgspec (encodeMmItems_roundTrips items),
    fun _ _ h => decode_encode msgspec (encodeUtilityResult_roundTrips h)⟩

/-- A wire that carries the values themselves. -/
def valueWire : Msgspec := ⟨MsgpackValue, id, .ok, fun _ => rfl⟩

/-- A list with a tensor of one byte. -/
def oneByteResult : UtilityResult where
  result := .list [.tensor ⟨.uint8, [1], [7], true, rfl⟩]
  distinctKeys := ⟨trivial, trivial⟩

theorem message_roundTrip_oneByte : decode valueWire (decodeUtilityResult true)
    (encode valueWire (encodeUtilityResult true 256 oneByteResult)) =
      .ok oneByteResult.result.cpu :=
  (message_roundTrip valueWire 256).2 true oneByteResult (.inl rfl)

/-- Without types the tensor comes back as its encoded list. -/
theorem message_tensorResult : decode valueWire (decodeUtilityResult false)
    (encode valueWire (encodeUtilityResult false 256 oneByteResult)) =
      .ok (.list [.list [.str "uint8", .list [.int 1], .bytes [7]]]) ∧
    decode valueWire (decodeUtilityResult false)
      (encode valueWire (encodeUtilityResult false 256 oneByteResult)) ≠
      .ok oneByteResult.result.cpu := by
  have hlist : decode valueWire (decodeUtilityResult false)
      (encode valueWire (encodeUtilityResult false 256 oneByteResult)) =
        .ok (.list [.list [.str "uint8", .list [.int 1], .bytes [7]]]) := rfl
  refine ⟨hlist, ?_⟩
  rw [hlist]
  intro heq
  cases heq

end Vllm
