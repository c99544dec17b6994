import Vllm.Lib.SideBuffers
import Vllm.Serial.MessageValue

/-! `MsgpackEncoder` and `MsgpackDecoder` of `serial_utils.py`. Large tensors are side buffers of a
message, found by their position behind the main buffer. -/
namespace Vllm
open SideBuffers

/-- `msgspec.msgpack`, into buffers of any kind. -/
structure Msgspec where
  Wire : Type
  encode : MsgpackValue → Wire
  decode : Wire → Raises MsgpackValue
  decode_encode : ∀ v, decode (encode v) = .ok v

def customTypeRawView : ℕ := 3

namespace MsgpackEncoder

/-- The position of a new buffer in `aux_buffers`, whose first is the main buffer. -/
def auxIndex (data : Bytes) : Stashing Bytes MsgpackValue := do
  let i ← stash data
  pure (.int (i + 1))

def encodeShape (shape : List ℕ) : MsgpackValue := .array (shape.map fun (n : ℕ) => .int n)

/-- Small tensors are inline. -/
def encodeTensorData (sizeThreshold : ℤ) (t : Tensor) : Stashing Bytes MsgpackValue :=
  if (t.data.length : ℤ) < sizeThreshold ∧ t.isCpu then pure (.ext customTypeRawView t.data)
  else auxIndex t.data

/-- `_encode_tensor` without an out-of-band consumer. -/
def encodeTensor (sizeThreshold : ℤ) (t : Tensor) : Stashing Bytes MsgpackValue := do
  let data ← encodeTensorData sizeThreshold t
  pure (.array [.str t.dtype.name, encodeShape t.shape, data])

def encodeNumber : Number → MsgpackValue
  | .bool b => .bool b
  | .int z => .int z
  | .float bits => .float bits

mutual

def encodeNestedTensors (sizeThreshold : ℤ) : NestedTensors → Stashing Bytes MsgpackValue
  | .tensor t => encodeTensor sizeThreshold t
  | .number x => pure (encodeNumber x)
  | .list nts => do
    let vs ← encodeNestedList sizeThreshold nts
    pure (.array vs)

def encodeNestedList (sizeThreshold : ℤ) :
    List NestedTensors → Stashing Bytes (List MsgpackValue)
  | [] => pure []
  | nt :: nts => do
    let v ← encodeNestedTensors sizeThreshold nt
    let vs ← encodeNestedList sizeThreshold nts
    pure (v :: vs)

end

def encodeIndex : Option ℤ → MsgpackValue
  | none => .nil
  | some z => .int z

mutual

/-- The hook makes a slice a tuple of three. -/
def encodeSlices : NestedSlices → MsgpackValue
  | .slice start stop step => .array [encodeIndex start, encodeIndex stop, encodeIndex step]
  | .list slices => .array (encodeSlicesList slices)

def encodeSlicesList : List NestedSlices → List MsgpackValue
  | [] => []
  | s :: slices => encodeSlices s :: encodeSlicesList slices

end

/-- `_encode_mm_field`: the factory and all fields of the dataclass in order. -/
def encodeMmField : MultiModalField → MsgpackValue
  | .batched keepOnCpu => .array [.str "batched", .map [(.str "keep_on_cpu", .bool keepOnCpu)]]
  | .flat keepOnCpu slices dim => .array [.str "flat", .map [(.str "keep_on_cpu", .bool keepOnCpu),
      (.str "slices", encodeSlices slices), (.str "dim", .int dim)]]
  | .shared keepOnCpu batchSize => .array [.str "shared",
      .map [(.str "keep_on_cpu", .bool keepOnCpu), (.str "batch_size", .int batchSize)]]

/-- An item that is cached has no data. -/
def encodeElemData (sizeThreshold : ℤ) : Option NestedTensors → Stashing Bytes MsgpackValue
  | none => pure .nil
  | some nt => encodeNestedTensors sizeThreshold nt

def encodeMmFieldElem (sizeThreshold : ℤ) (elem : MultiModalFieldElem) :
    Stashing Bytes MsgpackValue := do
  let data ← encodeElemData sizeThreshold elem.data
  pure (.map [(.str "data", data), (.str "field", encodeMmField elem.field)])

/-- A dictionary with string keys, value by value. -/
def encodeDict {ν : Type} (f : ν → Stashing Bytes MsgpackValue) (d : Dict String ν) :
    Stashing Bytes MsgpackValue := do
  let entries ← d.entries.mapM fun e => do
    let v ← f e.2
    pure (MsgpackKey.str e.1, v)
  pure (.map entries)

def encodeMmItem (sizeThreshold : ℤ) (item : MultiModalKwargsItem) : Stashing Bytes MsgpackValue :=
  encodeDict (encodeMmFieldElem sizeThreshold) item

def encodeItemList (sizeThreshold : ℤ) (itemlist : List MultiModalKwargsItem) :
    Stashing Bytes MsgpackValue := do
  let vs ← itemlist.mapM (encodeMmItem sizeThreshold)
  pure (.array vs)

def encodeMmItems (sizeThreshold : ℤ) (items : MultiModalKwargsItems) :
    Stashing Bytes MsgpackValue :=
  encodeDict (encodeItemList sizeThreshold) items

/-- The module and the name of a type. -/
def typestr (mod name : String) : MsgpackValue := .array [.str mod, .str name]

mutual

/-- `_encode_type_info_recursive`. -/
def encodeTypeInfo : ResultObject → MsgpackValue
  | .none => .nil
  | .list xs => .array (encodeTypeInfoList xs)
  | .dict entries => .map (encodeTypeInfoEntries entries)
  | .bool _ => typestr "builtins" "bool"
  | .int _ => typestr "builtins" "int"
  | .float _ => typestr "builtins" "float"
  | .str _ => typestr "builtins" "str"
  | .bytes _ => typestr "builtins" "bytes"
  | .tensor _ => typestr "torch" "Tensor"

def encodeTypeInfoList : List ResultObject → List MsgpackValue
  | [] => []
  | x :: xs => encodeTypeInfo x :: encodeTypeInfoList xs

def encodeTypeInfoEntries : List (MsgpackKey × ResultObject) → List (MsgpackKey × MsgpackValue)
  | [] => []
  | (k, x) :: entries => (k, encodeTypeInfo x) :: encodeTypeInfoEntries entries

end

mutual

/-- What msgspec does with a result, calling the hook for tensors. -/
def encodeResult (sizeThreshold : ℤ) : ResultObject → Stashing Bytes MsgpackValue
  | .none => pure .nil
  | .bool b => pure (.bool b)
  | .int z => pure (.int z)
  | .float bits => pure (.float bits)
  | .str s => pure (.str s)
  | .bytes data => pure (.bin data)
  | .tensor t => encodeTensor sizeThreshold t
  | .list xs => do
    let vs ← encodeResultList sizeThreshold xs
    pure (.array vs)
  | .dict entries => do
    let vs ← encodeResultEntries sizeThreshold entries
    pure (.map vs)

def encodeResultList (sizeThreshold : ℤ) :
    List ResultObject → Stashing Bytes (List MsgpackValue)
  | [] => pure []
  | x :: xs => do
    let v ← encodeResult sizeThreshold x
    let vs ← encodeResultList sizeThreshold xs
    pure (v :: vs)

def encodeResultEntries (sizeThreshold : ℤ) : List (MsgpackKey × ResultObject) →
    Stashing Bytes (List (MsgpackKey × MsgpackValue))
  | [] => pure []
  | (k, x) :: entries => do
    let v ← encodeResult sizeThreshold x
    let vs ← encodeResultEntries sizeThreshold entries
    pure ((k, v) :: vs)

end

/-- `VLLM_ALLOW_INSECURE_SERIALIZATION` adds the types. -/
def encodeUtilityResult (allowInsecure : Bool) (sizeThreshold : ℤ) (r : UtilityResult) :
    Stashing Bytes MsgpackValue := do
  let v ← encodeResult sizeThreshold r.result
  pure (.array [if allowInsecure then encodeTypeInfo r.result else .nil, v])

/-- `encode`: the main buffer and the side buffers behind it. -/
def encode (msgspec : Msgspec) (enc : Stashing Bytes MsgpackValue) : msgspec.Wire × List Bytes :=
  (msgspec.encode (encoded enc []), buffers enc [])

end MsgpackEncoder

namespace MsgpackDecoder

/-- `self.aux_buffers[i]` behind the main buffer, which no tensor refers to. -/
def auxBuffer (aux : List Bytes) (i : ℤ) : Raises Bytes :=
  match i with
  | .ofNat (k + 1) => match aux[k]? with
    | none => throw .indexError
    | some data => pure data
  | _ => throw .indexError

def decodeDim : MsgpackValue → Raises ℕ
  | .int (.ofNat n) => pure n
  | _ => throw .typeError

/-- The bytes of a tensor: in a side buffer or inline. -/
def tensorBuffer (aux : List Bytes) : MsgpackValue → Raises Bytes
  | .int i => auxBuffer aux i
  | .ext code data => if code = customTypeRawView then pure data else throw .notImplementedError
  | .bin data => pure data
  | _ => throw .typeError

/-- `_decode_tensor` without an out-of-band provider. The result is on the CPU. -/
def decodeTensor (aux : List Bytes) : MsgpackValue → Raises Tensor
  | .array [.str dtype, .array shape, data] => do
    let buffer ← tensorBuffer aux data
    let dtype ← match TensorDtype.ofName dtype with
      | none => throw .attributeError
      | some dtype => pure dtype
    let shape ← shape.mapM decodeDim
    if h : buffer.length = dtype.itemsize * shape.prod
    then pure { dtype, shape, data := buffer, size_eq := h }
    else if buffer = [] then throw .assertionError else throw .runtimeError
  | _ => throw .typeError

mutual

def decodeNestedTensors (aux : List Bytes) : MsgpackValue → Raises NestedTensors
  | .bool b => pure (.number (.bool b))
  | .int z => pure (.number (.int z))
  | .float bits => pure (.number (.float bits))
  | .array (.str s :: xs) => do
    let t ← decodeTensor aux (.array (.str s :: xs))
    pure (.tensor t)
  | .array xs => do
    let nts ← decodeNestedList aux xs
    pure (.list nts)
  | _ => throw .typeError

def decodeNestedList (aux : List Bytes) : List MsgpackValue → Raises (List NestedTensors)
  | [] => pure []
  | x :: xs => do
    let nt ← decodeNestedTensors aux x
    let nts ← decodeNestedList aux xs
    pure (nt :: nts)

end

def decodeIndex : MsgpackValue → Raises (Option ℤ)
  | .nil => pure none
  | .int z => pure (some z)
  | _ => throw .typeError

/-- `slice(*obj)`. -/
def decodeSlice : List MsgpackValue → Raises NestedSlices
  | [stop] => do
    let stop ← decodeIndex stop
    pure (.slice none stop none)
  | [start, stop] => do
    let start ← decodeIndex start
    let stop ← decodeIndex stop
    pure (.slice start stop none)
  | [start, stop, step] => do
    let start ← decodeIndex start
    let stop ← decodeIndex stop
    let step ← decodeIndex step
    pure (.slice start stop step)
  | _ => throw .typeError

mutual

def decodeSlices : MsgpackValue → Raises NestedSlices
  | .array [] => pure (.list [])
  | .array (.array ys :: xs) => do
    let slices ← decodeSlicesList (.array ys :: xs)
    pure (.list slices)
  | .array (x :: xs) => decodeSlice (x :: xs)
  | _ => throw .assertionError

def decodeSlicesList : List MsgpackValue → Raises (List NestedSlices)
  | [] => pure []
  | x :: xs => do
    let s ← decodeSlices x
    let slices ← decodeSlicesList xs
    pure (s :: slices)

end

/-- `obj[name]`. -/
def entry (entries : List (MsgpackKey × MsgpackValue)) (name : String) : Raises MsgpackValue :=
  match entries.lookup (.str name) with
  | none => throw .keyError
  | some v => pure v

/-- A keyword argument of a factory, with its default. -/
def keywordBool (kw : List (MsgpackKey × MsgpackValue)) (name : String) (default : Bool) :
    Raises Bool :=
  match kw.lookup (.str name) with
  | none => pure default
  | some (.bool b) => pure b
  | some _ => throw .typeError

def keywordInt (kw : List (MsgpackKey × MsgpackValue)) (name : String) (default : Option ℤ) :
    Raises ℤ :=
  match kw.lookup (.str name), default with
  | none, none => throw .typeError
  | none, some z => pure z
  | some (.int z), _ => pure z
  | some _, _ => throw .typeError

/-- The factories of `MultiModalFieldConfig` that the encoder names, called with the arguments. -/
def decodeMmField : MsgpackValue → Raises MultiModalField
  | .array [.str name, .map kw] =>
    if name = "flat" then do
      let slices ← entry kw "slices"
      let slices ← decodeSlices slices
      let dim ← keywordInt kw "dim" (some 0)
      let keepOnCpu ← keywordBool kw "keep_on_cpu" false
      pure (.flat keepOnCpu slices dim)
    else if name = "shared" then do
      let batchSize ← keywordInt kw "batch_size" none
      let keepOnCpu ← keywordBool kw "keep_on_cpu" false
      pure (.shared keepOnCpu batchSize)
    else if name = "batched" then do
      let keepOnCpu ← keywordBool kw "keep_on_cpu" false
      pure (.batched keepOnCpu)
    else throw .attributeError
  | _ => throw .valueError

def decodeElemData (aux : List Bytes) : MsgpackValue → Raises (Option NestedTensors)
  | .nil => pure none
  | v => do
    let nt ← decodeNestedTensors aux v
    pure (some nt)

def decodeMmFieldElem (aux : List Bytes) : MsgpackValue → Raises MultiModalFieldElem
  | .map entries => do
    let data ← entry entries "data"
    let data ← decodeElemData aux data
    let field ← entry entries "field"
    let field ← decodeMmField field
    pure { data, field }
  | _ => throw .typeError

def decodeEntry {ν : Type} (f : List Bytes → MsgpackValue → Raises ν) (aux : List Bytes) :
    MsgpackKey × MsgpackValue → Raises (String × ν)
  | (.str k, v) => do
    let x ← f aux v
    pure (k, x)
  | _ => throw .typeError

/-- A dictionary with string keys, value by value. -/
def decodeDict {ν : Type} (f : List Bytes → MsgpackValue → Raises ν) (aux : List Bytes) :
    MsgpackValue → Raises (Dict String ν)
  | .map entries => do
    let entries ← entries.mapM (decodeEntry f aux)
    pure (.ofList entries)
  | _ => throw .attributeError

def decodeMmItem (aux : List Bytes) (v : MsgpackValue) : Raises MultiModalKwargsItem :=
  decodeDict decodeMmFieldElem aux v

def decodeItemList (aux : List Bytes) : MsgpackValue → Raises (List MultiModalKwargsItem)
  | .array xs => xs.mapM (decodeMmItem aux)
  | _ => throw .typeError

def decodeMmItems (aux : List Bytes) (v : MsgpackValue) : Raises MultiModalKwargsItems :=
  decodeDict decodeItemList aux v

mutual

/-- A result without types is the native value; raw views are bytes. -/
def nativeResult : MsgpackValue → Raises ResultObject
  | .nil => pure .none
  | .bool b => pure (.bool b)
  | .int z => pure (.int z)
  | .float bits => pure (.float bits)
  | .str s => pure (.str s)
  | .bin data => pure (.bytes data)
  | .ext code data => if code = customTypeRawView then pure (.bytes data)
    else throw .notImplementedError
  | .array xs => do
    let xs ← nativeResultList xs
    pure (.list xs)
  | .map entries => do
    let entries ← nativeResultEntries entries
    pure (.dict entries)

def nativeResultList : List MsgpackValue → Raises (List ResultObject)
  | [] => pure []
  | v :: vs => do
    let x ← nativeResult v
    let xs ← nativeResultList vs
    pure (x :: xs)

def nativeResultEntries :
    List (MsgpackKey × MsgpackValue) → Raises (List (MsgpackKey × ResultObject))
  | [] => pure []
  | (k, v) :: entries => do
    let x ← nativeResult v
    let xs ← nativeResultEntries entries
    pure ((k, x) :: xs)

end

/-- `_convert_result`: the types of native values and tensors. -/
def convertResult (aux : List Bytes) (mod name : String) (data : MsgpackValue) :
    Raises ResultObject :=
  if mod = "torch" ∧ name = "Tensor" then do
    let t ← decodeTensor aux data
    pure (.tensor t)
  else match data with
    | .bool b => if mod = "builtins" ∧ name = "bool" then pure (.bool b) else throw .valueError
    | .int z => if mod = "builtins" ∧ name = "int" then pure (.int z) else throw .valueError
    | .float bits => if mod = "builtins" ∧ name = "float" then pure (.float bits)
      else throw .valueError
    | .str s => if mod = "builtins" ∧ name = "str" then pure (.str s) else throw .valueError
    | .bin data => if mod = "builtins" ∧ name = "bytes" then pure (.bytes data)
      else throw .valueError
    | _ => throw .valueError

mutual

/-- `_decode_type_info_recursive`. A list of two whose first is a string is the type of a leaf. -/
def decodeTypeInfo (aux : List Bytes) : MsgpackValue → MsgpackValue → Raises ResultObject
  | .nil, data => nativeResult data
  | .map infos, data => match data with
    | .map entries => do
      let entries ← decodeTypeInfoEntries aux infos entries
      pure (.dict entries)
    | _ => throw .assertionError
  | .array [.str mod, info], data => match info with
    | .str name => convertResult aux mod name data
    | _ => throw .typeError
  | .array infos, data => match data with
    | .array xs => do
      let xs ← decodeTypeInfoList aux infos xs
      pure (.list xs)
    | _ => throw .assertionError
  | _, _ => throw .typeError

/-- `zip` stops at the shorter list. -/
def decodeTypeInfoList (aux : List Bytes) :
    List MsgpackValue → List MsgpackValue → Raises (List ResultObject)
  | info :: infos, x :: xs => do
    let r ← decodeTypeInfo aux info x
    let rs ← decodeTypeInfoList aux infos xs
    pure (r :: rs)
  | _, _ => pure []

def decodeTypeInfoEntries (aux : List Bytes) : List (MsgpackKey × MsgpackValue) →
    List (MsgpackKey × MsgpackValue) → Raises (List (MsgpackKey × ResultObject))
  | [], _ => pure []
  | (k, info) :: infos, entries => match entries.lookup k with
    | none => throw .keyError
    | some x => do
      let r ← decodeTypeInfo aux info x
      let rs ← decodeTypeInfoEntries aux infos entries
      pure ((k, r) :: rs)

end

/-- `_decode_utility_result`. -/
def decodeUtilityResult (allowInsecure : Bool) (aux : List Bytes) :
    MsgpackValue → Raises ResultObject
  | .array [.nil, v] => nativeResult v
  | .array [info, v] => if allowInsecure then decodeTypeInfo aux info v else throw .typeError
  | _ => throw .valueError

/-- `decode`: the side buffers are behind the main buffer. -/
def decode {α : Type} (msgspec : Msgspec) (dec : List Bytes → MsgpackValue → Raises α)
    (bufs : msgspec.Wire × List Bytes) : Raises α := do
  let v ← msgspec.decode bufs.1
  dec bufs.2 v

end MsgpackDecoder

end Vllm
